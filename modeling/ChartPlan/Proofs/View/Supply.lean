import ChartPlan.Proofs.View.Address
import ChartPlan.Proofs.View.Scoping
import Mathlib.Data.List.Forall2

/-!
# What the marks of views read

In a compiled chart, the marks of the unit views stand in the groups in the order of the views. Each of
them reads the output that was made for its view, or the copy of this output over all data, when no
two views have the same name.

* `Stubs`: the marks of views in a list of marks and groups.
* `Layout.stubs_group`: there is one for each unit view.
* `Compilation.Reads`: a mark reads the data of a view.
-/

namespace ChartPlan

open ChartPlan.Flow List Option

/-! ### Marks -/

namespace Json

def reads? (mark : Json) : Option Json :=
  (mark.field? "from").bind fun source => source.field? "data"

/-- Whether a mark is that of a view. The groups of headers read data as well, and have a role. -/
def isStub (mark : Json) : Bool :=
  mark.reads?.isSome && (mark.field? "role").isNone

end Json

/-- The marks of views that are found in a list of marks, and in the groups among them. -/
inductive Stubs : List Json → List Json → Prop
  | nil : Stubs [] []
  | stub {mark : Json} {rest found : List Json} :
      mark.isStub → Stubs rest found → Stubs (mark :: rest) (mark :: found)
  | group {mark : Json} {rest inner found : List Json} : mark.isStub = false →
      Stubs (mark.itemsField "marks") inner → Stubs rest found → Stubs (mark :: rest) (inner ++ found)

namespace Stubs

variable {marks more found others : List Json}

theorem append (h : Stubs marks found) (hmore : Stubs more others) :
    Stubs (marks ++ more) (found ++ others) := by
  induction h with
  | nil => exact hmore
  | stub hstub _ ih => exact .stub hstub ih
  | group hgroup hinner _ _ ih =>
    rw [append_assoc]
    exact .group hgroup hinner ih

theorem unique (h : Stubs marks found) (h' : Stubs marks others) : found = others := by
  induction h generalizing others with
  | nil =>
    cases h'
    rfl
  | stub hstub _ ih =>
    cases h' with
    | stub _ hrest => rw [ih hrest]
    | group hgroup => exact absurd hstub (by rw [hgroup]; decide)
  | group hgroup _ _ ihinner ih =>
    cases h' with
    | stub hstub => exact absurd hstub (by rw [hgroup]; decide)
    | group _ hinner hrest => rw [ihinner hinner, ih hrest]

theorem of_empty (h : ∀ mark ∈ marks, mark.isStub = false ∧ mark.itemsField "marks" = []) :
    Stubs marks [] := by
  induction marks with
  | nil => exact .nil
  | cons mark rest ih =>
    obtain ⟨hgroup, hmarks⟩ := h mark mem_cons_self
    exact .group hgroup (by rw [hmarks]; exact .nil) (ih fun m hm => h m (mem_cons_of_mem _ hm))

end Stubs

namespace View

mutual

/-- The unit views of a tree, and whether they are outside of cells. -/
def units (outside : Bool) : Tree View → List (Bool × View)
  | .node v children =>
    match v.body with
    | .unit _ _ => [(outside, v)]
    | .facet _ => unitsAll false children
    | _ => unitsAll outside children

def unitsAll (outside : Bool) : List (Tree View) → List (Bool × View)
  | [] => []
  | t :: rest => units outside t ++ unitsAll outside rest

end

end View

namespace Layout

def Draws (l : Layout) (unit : Bool × View) (mark : Json) : Prop :=
  ∃ kind encoding, unit.2.unit? = some (kind, encoding) ∧ mark = l.unitMark unit.1 unit.2 kind

variable (l : Layout)

theorem unitMark_fields (outside : Bool) (v : View) (kind : Mark) :
    (l.unitMark outside v kind).textField? "name" = some (v.inner "marks") ∧
      (l.unitMark outside v kind).reads? =
        some (.str ((l.dataset? outside (v.inner "main")).getD (v.inner "main"))) ∧
      (l.unitMark outside v kind).isStub := by
  generalize hsource : (l.dataset? outside (v.inner "main")).getD (v.inner "main") = source
  have hfield : ∀ key, (l.unitMark outside v kind).field? key = Dict.get? (Dict.ofList [
      ("name", .str (v.inner "marks")), ("type", .str (drawnAs kind.type)),
      ("from", .object [("data", .str source)])]) key :=
    fun _ => hsource ▸ rfl
  have hreads : (l.unitMark outside v kind).reads? = some (.str source) := by
    unfold Json.reads?
    rw [hfield]
    simp only [Dict.ofList, Dict.extend, foldl_cons, foldl_nil, Dict.get?_insert]
    rfl
  refine ⟨?_, hreads, ?_⟩
  · unfold Json.textField?
    rw [hfield]
    simp [Json.text?]
  · unfold Json.isStub
    rw [hreads, hfield]
    simp

theorem isStub_eq_false {mark : Json} (h : mark.field? "from" = none) : mark.isStub = false := by
  unfold Json.isStub Json.reads?
  rw [h]
  rfl

theorem concatMark_fields (v : View) (g : Group) :
    (concatMark v g).isStub = false ∧ (concatMark v g).itemsField "marks" = g.marks := by
  refine ⟨isStub_eq_false ((g.field?_extend _).2.trans ?_), g.itemsField_marks ?_⟩ <;>
    simp

theorem headerMarks_fields (v : View) (m : Facet) :
    ∀ mark ∈ headerMarks v m, mark.isStub = false ∧ mark.itemsField "marks" = [] := by
  intro mark hmark
  obtain ⟨⟨channel, header⟩, -, rfl⟩ := mem_map.mp hmark
  unfold Json.isStub Json.itemsField Json.object
  rw [Json.field?_obj, Json.field?_obj]
  simp

theorem stubs_facetMarks (v : View) {g : Group} {found : List Json} (h : Stubs g.marks found) :
    Stubs (l.facetMarks v g) found := by
  have hcell : ∀ cell : Dict Json, (Json.obj (cell.extend g.sections)).isStub = false →
      cell.get? "marks" = none → Stubs [Json.obj (cell.extend g.sections)] found := by
    intro cell hgroup hmarks
    have hinner : Stubs ((Json.obj (cell.extend g.sections)).itemsField "marks") found := by
      rwa [g.itemsField_marks hmarks]
    simpa using Stubs.group hgroup hinner .nil
  unfold facetMarks
  dsimp only
  split
  · rename_i m _
    obtain ⟨hsorted, hfrom, -, hother⟩ := l.get?_cellData m
    refine (Stubs.of_empty (headerMarks_fields v m)).append (hcell _ ?_ ?_)
    · unfold Json.isStub Json.reads?
      rw [(g.field?_extend _).2, Dict.get?_extend hsorted, hfrom]
      simp
    · rw [Dict.get?_extend hsorted, hother _ (by decide) (by decide)]
      simp
  · refine hcell _ (isStub_eq_false ((g.field?_extend _).2.trans ?_)) ?_ <;>
      simp

/-! ### Trees of views -/

theorem stubs_flatMap {groups : List Group} {founds : List (List Json)}
    (h : List.Forall₂ (fun g found => Stubs g.marks found) groups founds) :
    Stubs (groups.flatMap Group.marks) founds.flatten := by
  induction h with
  | nil => exact .nil
  | cons hfirst _ ih => exact hfirst.append ih

theorem stubs_concat {groups : List Group} {founds : List (List Json)}
    (h : List.Forall₂ (fun g found => Stubs g.marks found) groups founds) {views : List View}
    (hlength : views.length = groups.length) :
    Stubs (List.zipWith concatMark views groups) founds.flatten := by
  induction h generalizing views with
  | nil =>
    rw [zipWith_nil_right]
    exact .nil
  | @cons g found groups founds hfirst _ ih =>
    cases views with
    | nil => cases hlength
    | cons v views =>
      obtain ⟨hgroup, hmarks⟩ := concatMark_fields v g
      exact .group hgroup (by rwa [hmarks]) (ih (Nat.succ.inj hlength))

mutual

theorem stubs_group : (t : Tree View) → (outside : Bool) → ∃ found,
    Stubs (l.group outside t).marks found ∧ List.Forall₂ l.Draws (View.units outside t) found
  | .node v children, outside => by
    unfold group View.units
    dsimp only
    cases hbody : v.body with
    | unit kind encoding =>
      refine ⟨_, .stub (l.unitMark_fields outside v kind).2.2 .nil, .cons ⟨kind, encoding, ?_, rfl⟩ .nil⟩
      exact congrArg (fun body => View.unit? { v with body }) hbody
    | layer =>
      obtain ⟨founds, hgroups, hdraws⟩ := stubs_groups children outside
      refine ⟨founds.flatten, ?_, hdraws⟩
      rw [Compilation.marks_foldl]
      exact stubs_flatMap hgroups
    | concat =>
      obtain ⟨founds, hgroups, hdraws⟩ := stubs_groups children outside
      refine ⟨founds.flatten, stubs_concat hgroups ?_, hdraws⟩
      rw [length_map, Compilation.groups_eq, length_map]
    | facet mapping =>
      obtain ⟨founds, hgroups, hdraws⟩ := stubs_groups children false
      refine ⟨founds.flatten, l.stubs_facetMarks v ?_, hdraws⟩
      rw [Compilation.marks_foldl]
      exact stubs_flatMap hgroups

theorem stubs_groups : (ts : List (Tree View)) → (outside : Bool) → ∃ founds,
    List.Forall₂ (fun g found => Stubs g.marks found) (l.groups outside ts) founds ∧
      List.Forall₂ l.Draws (View.unitsAll outside ts) founds.flatten
  | [], _ => ⟨[], .nil, .nil⟩
  | t :: rest, outside => by
    obtain ⟨found, hgroup, hdraws⟩ := stubs_group t outside
    obtain ⟨founds, hgroups, hrest⟩ := stubs_groups rest outside
    exact ⟨found :: founds, .cons hgroup hgroups, rel_append hdraws hrest⟩

end

end Layout

namespace View

theorem mem_unitsAll {outside : Bool} {unit : Bool × View} {ts : List (Tree View)} :
    unit ∈ unitsAll outside ts ↔ ∃ t ∈ ts, unit ∈ units outside t := by
  induction ts with
  | nil => simp [unitsAll]
  | cons t rest ih => simp [unitsAll, ih]

theorem mem_preorder_of_units (t : Tree View) {outside : Bool} :
    ∀ unit ∈ units outside t, unit.2 ∈ t.preorder := by
  induction t generalizing outside with
  | node v ts ih =>
    intro unit h
    unfold units at h
    split at h
    · rw [mem_singleton.mp h]
      exact mem_cons_self
    all_goals
      obtain ⟨t, ht, h⟩ := mem_unitsAll.mp h
      exact mem_cons_of_mem _ (Tree.mem_preorders.mpr ⟨t, ht, ih t ht unit h⟩)

end View

namespace Compilation

variable {given : Config} {spec : Json} (c : Compilation given spec)

/-- A mark is called after a unit view and reads the written data of the main output that was made for
this view, or of the copy of this output over all data. -/
def Reads (outside : Bool) (v : View) (mark : Json) : Prop :=
  mark.textField? "name" = some (v.inner "marks") ∧ ∃ part o j o' source,
    v.dataPart = some part ∧ c.grown.2.node? part.main = some (.output o) ∧ o.name = v.inner "main" ∧
    c.Supplies outside (v.inner "main") part.main j o' ∧
    c.layout.forest.node? j = some (.output { o' with source }) ∧
    mark.reads? = some (.str source)

/-- The dataset as which the main output of a view is written. -/
def written? (v : View) : Option String :=
  v.dataPart.bind fun part => (c.layout.forest.node? part.main).bind fun n => n.output?.map Output.source

variable {c}

theorem Orderly.reads (h : c.Orderly) {unit : Bool × View} {mark : Json} {cells : List String}
    (hhoused : unit.2.Housed c.grown.2 cells) (hdraws : c.layout.Draws unit mark) :
    c.Reads unit.1 unit.2 mark := by
  obtain ⟨outside, v⟩ := unit
  obtain ⟨kind, encoding, hunit, rfl⟩ := hdraws
  obtain ⟨part, o, hpart, hname, hfinds⟩ := hhoused.main (isSome_of_eq_some hunit)
  obtain ⟨j, o', source, hsupplies, hsource, hdataset⟩ := h.exists_supply hfinds hname outside
  obtain ⟨hcalled, hreads, -⟩ := c.layout.unitMark_fields outside v kind
  refine ⟨hcalled, part, o, j, o', source, hpart, hfinds.node, hname, hsupplies, hsource, ?_⟩
  rw [hreads, hdataset]
  rfl

theorem Reads.reads_written {outside : Bool} {v : View} {mark : Json} (h : c.Reads outside v mark)
    (hcopy : c.forest.outputs.get? (scaleStem ++ v.inner "main") = none) :
    mark.reads? = (c.written? v).map .str := by
  obtain ⟨-, part, -, j, o', source, hpart, -, -, hsupplies, hsource, hreads⟩ := h
  rcases hsupplies.own with rfl | ⟨-, hentry, -, -⟩
  · unfold written?
    rw [hreads, hpart, bind_some, hsource]
    rfl
  · rw [hcopy] at hentry
    cases hentry

variable (c) in
theorem stubs_compiled : ∃ found, Stubs (c.compiled.spec.itemsField "marks") found ∧
    List.Forall₂ c.layout.Draws (View.units true c.views) found := by
  obtain ⟨found, hstubs, hdraws⟩ := c.layout.stubs_group c.views true
  refine ⟨found, ?_, hdraws⟩
  rwa [show c.compiled.spec.itemsField "marks" = _ from (field?_write c.views c.layout).2.2]

theorem Orderly.stubs_read (h : c.Orderly) : ∃ found,
    Stubs (c.compiled.spec.itemsField "marks") found ∧
    List.Forall₂ (fun unit mark => c.Reads unit.1 unit.2 mark) (View.units true c.views) found := by
  obtain ⟨found, hstubs, hdraws⟩ := c.stubs_compiled
  have hall := (List.forall₂_and_left _ _).mpr ⟨fun unit hunit =>
    h.placed.housed _ unit.2 (View.mem_preorder_of_units _ unit hunit), hdraws⟩
  refine ⟨found, hstubs, hall.imp fun unit mark hunit => ?_⟩
  obtain ⟨⟨cells, hhoused⟩, hmark⟩ := hunit
  exact h.reads hhoused hmark

theorem Orderly.registered (h : c.Orderly) {i : NodeId} {o : Output}
    (ho : c.grown.2.node? i = some (.output o)) : c.grown.2.outputs.get? o.name = some i :=
  (h.sown.suits ho).2

end Compilation

/-! ### Charts without names -/

theorem head_pieces_of_scaled {name : String}
    (h : name = "scale" ∨ scaleStem.toList <+: name.toList) :
    (pieces name).head? = some "scale".toList := by
  rcases h with rfl | ⟨rest, hrest⟩
  · decide
  · have hne : name ≠ "" := by
      rintro rfl
      cases hrest
    rw [pieces_of_ne hne, ← hrest]
    show (("scale".toList ++ '_' :: rest).splitOn '_').head? = _
    rw [splitOn_append_cons_self]
    rfl

theorem View.apart_of_copiesApart {chart : Chart} {views : Tree View} (hanon : Chart.Anonymous chart)
    (hviews : (View.build chart).outcome = .ok views)
    (hapart : chart.CopiesApart (views.preorder.map View.name)) : View.Apart views := by
  have hnames := View.names_build hviews
  rw [hnames] at hapart
  refine ⟨hnames ▸ (Chart.nodup_names_iff hanon).mpr hapart, fun name hname => ?_⟩
  rw [hnames] at hname
  obtain ⟨a, ha, rfl⟩ := mem_map.mp hname
  have hhead := Chart.unscaled_of_mem_homes hanon hapart ha
  exact ⟨fun h => hhead (head_pieces_of_scaled (.inl h)), fun h => hhead (head_pieces_of_scaled (.inr h))⟩

/-- Every view reads its own data, unless a copy shares its name with another view. When no view of a
chart is named, its views have different names exactly if each copy of a repeated view is the only view
of its name. Then no two outputs are made under the same name, and the mark of each unit view reads the
output that was made for this view. -/
theorem compile_marks_read_own {given : Config} {spec : Json} {compiled : Compiled} {chart : Chart}
    {views : Tree View} (hcompile : (compile given spec).outcome = .ok compiled)
    (hunnamed : Chart.Unnamed spec) (hchart : (Chart.read spec).outcome = .ok chart)
    (hviews : (View.build chart).outcome = .ok views) :
    ((views.preorder.map View.name).Nodup ↔ chart.CopiesApart (views.preorder.map View.name)) ∧
    (chart.CopiesApart (views.preorder.map View.name) →
      ∃ c : Compilation given spec, c.compiled = compiled ∧
        (∀ i o, c.grown.2.node? i = some (.output o) → c.grown.2.outputs.get? o.name = some i) ∧
        ∃ stubs, Stubs (compiled.spec.itemsField "marks") stubs ∧
          List.Forall₂ (fun unit mark => c.Reads unit.1 unit.2 mark) (View.units true c.views) stubs) := by
  have hanon : Chart.Anonymous chart := (Chart.anonymous_read hunnamed).of_eq_ok hchart
  refine ⟨?_, fun hapart => ?_⟩
  · rw [View.names_build hviews]
    exact Chart.nodup_names_iff hanon
  · obtain ⟨c, rfl⟩ := compile_eq_ok_iff.mp hcompile
    have hsame : c.named = views := by
      cases c.chart_eq.symm.trans hchart
      exact Except.ok.inj (c.named_eq.symm.trans hviews)
    have horderly : c.Orderly :=
      .of_apart (hsame ▸ View.apart_of_copiesApart hanon hviews hapart)
    exact ⟨c, rfl, fun i o => horderly.registered, horderly.stubs_read⟩

/-- Layers for each of two fields, above a view in cells. -/
def repeatedLayers : Json :=
  let bars (field : Json) : Json := .object [("mark", .str "bar"),
    ("encoding", .object [("x", .object [("field", field), ("type", .str "quantitative")])])]
  .object [
    ("data", .object [("values", .arr [.object [("a", .nat 1), ("b", .nat 2)]])]),
    ("vconcat", .arr [
      .object [("repeat", .texts ["a", "b"]),
        ("spec", .object [("layer", .arr [bars (.object [("repeat", .str "repeat")])])])],
      .object [("facet", .object [("row", .object [("field", .str "b"), ("type", .str "nominal")])]),
        ("spec", bars (.str "a"))]])]

theorem compile_repeatedLayers : ∃ compiled chart views,
    (compile {} repeatedLayers).outcome = .ok compiled ∧ Chart.Unnamed repeatedLayers ∧
    (Chart.read repeatedLayers).outcome = .ok chart ∧ (View.build chart).outcome = .ok views ∧
    views.preorder.map View.name = ["", "concat_0", "child__repeat_a", "child__repeat_a_layer_0",
      "child__repeat_b", "child__repeat_b_layer_0", "concat_1", "concat_1_child"] ∧
    ∃ c : Compilation {} repeatedLayers, c.compiled = compiled ∧
      (∀ i o, c.grown.2.node? i = some (.output o) → c.grown.2.outputs.get? o.name = some i) ∧
      ∃ stubs, Stubs (compiled.spec.itemsField "marks") stubs ∧
        List.Forall₂ (fun unit mark => c.Reads unit.1 unit.2 mark) (View.units true c.views) stubs := by
  have hunnamed : Chart.Unnamed repeatedLayers :=
    Chart.unnamed_of_isUnnamed 4 (by decide +kernel)
  have hcompile : (compile {} repeatedLayers).outcome.toOption.isSome := by decide +kernel
  have hnames : (Chart.read repeatedLayers >>= View.build).outcome.toOption.map
      (fun views => views.preorder.map View.name) = some ["", "concat_0", "child__repeat_a",
        "child__repeat_a_layer_0", "child__repeat_b", "child__repeat_b_layer_0", "concat_1",
        "concat_1_child"] := by
    decide +kernel
  obtain ⟨compiled, hcompiled⟩ := exists_ok hcompile
  obtain ⟨views, hviews, hnames⟩ := exists_ok_of_map hnames
  obtain ⟨chart, hchart, hviews⟩ := Checked.outcome_bind_eq_ok.mp hviews
  have hread := compile_marks_read_own hcompiled hunnamed hchart hviews
  refine ⟨compiled, chart, views, hcompiled, hunnamed, hchart, hviews, hnames, ?_⟩
  exact hread.2 (hread.1.mp (by rw [hnames]; decide))

/-- A field that is shown twice, by views that are repeated apart from each other. -/
def repeatedTwice : Json :=
  let x : Json := .object [("field", .object [("repeat", .str "repeat")]), ("type", .str "quantitative")]
  let copies (more : List (String × Json)) : Json := .object [("repeat", .texts ["a"]),
    ("spec", .object ([("mark", .str "point"), ("encoding", .object [("x", x)])] ++ more))]
  .object [("data", .object [("values", .arr [.object [("a", .nat 1)]])]),
    ("hconcat", .arr [copies [],
      copies [("transform", .arr [.object [("filter", .str "datum.a>0")]])]])]

/-- Copies of different views share a name, and one view shows the data of the other. -/
theorem compile_repeatedTwice : Chart.Unnamed repeatedTwice ∧ ∃ c : Compilation {} repeatedTwice,
    (compile {} repeatedTwice).outcome = .ok c.compiled ∧
    c.views.preorder.map View.name =
      ["", "concat_0", "child__repeat_a", "concat_1", "child__repeat_a"] ∧
    (∃ i o, c.grown.2.node? i = some (.output o) ∧ c.grown.2.outputs.get? o.name ≠ some i) ∧
    ∀ stubs, Stubs (c.compiled.spec.itemsField "marks") stubs →
      ¬ List.Forall₂ (fun unit mark => c.Reads unit.1 unit.2 mark) (View.units true c.views) stubs := by
  refine ⟨Chart.unnamed_of_isUnnamed 4 (by decide +kernel), ?_⟩
  have hentries : (Compilation.run {} repeatedTwice).map (fun c => (c.views.preorder.map View.name,
      (c.grown.2.node? 10).bind fun n => n.output?.map Output.name,
      c.grown.2.outputs.get? "child__repeat_a_main",
      c.forest.outputs.get? (scaleStem ++ "child__repeat_a_main"))) =
      some (["", "concat_0", "child__repeat_a", "concat_1", "child__repeat_a"],
        some "child__repeat_a_main", some 18, none) := by
    decide +kernel
  have hunits : (Compilation.run {} repeatedTwice).map (fun c => (View.units true c.views).map
      fun unit => (unit.2.inner "main", c.written? unit.2, c.layout.dataset? unit.1 (unit.2.inner "main"))) =
      some [("child__repeat_a_main", some "data_0", some "data_1"),
        ("child__repeat_a_main", some "data_1", some "data_1")] := by
    decide +kernel
  obtain ⟨c, hc, hentries⟩ := map_eq_some_iff.mp hentries
  rw [hc, map_some, Option.some.injEq] at hunits
  simp only [Prod.mk.injEq] at hentries
  obtain ⟨hnames, hnode, hentry, hcopy⟩ := hentries
  refine ⟨c, compile_eq_ok_iff.mpr ⟨c, rfl⟩, hnames, ?_, fun stubs hstubs hread => ?_⟩
  · obtain ⟨n, hn, hname⟩ := bind_eq_some_iff.mp hnode
    obtain ⟨o, ho, hcalled⟩ := map_eq_some_iff.mp hname
    cases n with
    | output o' =>
      cases ho
      refine ⟨10, o, hn, ?_⟩
      rw [hcalled, hentry]
      decide
    | _ => cases ho
  · obtain ⟨found, hfound, hdraws⟩ := c.stubs_compiled
    cases hstubs.unique hfound
    generalize View.units true c.views = units at hunits hread hdraws
    cases units with
    | nil => cases hunits
    | cons unit rest =>
      obtain ⟨hname, hwritten, hdataset⟩ :
          unit.2.inner "main" = "child__repeat_a_main" ∧ c.written? unit.2 = some "data_0" ∧
            c.layout.dataset? unit.1 (unit.2.inner "main") = some "data_1" := by
        simpa using (cons.inj hunits).1
      cases hread with
      | cons hread =>
        cases hdraws with
        | cons hdraw =>
          obtain ⟨kind, encoding, -, rfl⟩ := hdraw
          have hown := hread.reads_written (hname ▸ hcopy)
          rw [hwritten, (c.layout.unitMark_fields _ _ _).2.1, hdataset] at hown
          have hsame : "data_1" = "data_0" := Json.str.inj (Option.some.inj hown)
          exact absurd hsame (by decide)

end ChartPlan
