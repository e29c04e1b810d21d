import ChartPlan.Proofs.Stages
import ChartPlan.Proofs.View.Fields

/-!
# Known kinds

A branch keeps a record of the kinds of fields, so that no view repeats a coercion that was done
above. Such a record is trusted: a coercion that it holds is left out. While a branch grows, every
kind that enters the record was given to the field by a node on the way, and views below go on from
there. Only a view that takes its data by name breaks off: its rows come from another root, and yet it
is handed the record of the view above.

* `Forest.Settled f i field kind`: a node on the way to a node gives the field the kind.
* `Branch.Traced`: the record of a branch holds what was done, or what was handed over.
* `View.lines`: the views, each with the record that it was handed without having gone on from there.
* `withData_kinds_settled`: the records of all views.
-/

namespace ChartPlan

open Flow List Option

/-! ### Kinds given by nodes -/

namespace Flow.Forest

variable {f g : Forest} {i : NodeId} {field kind : String}

/-- A node on the way to a node gives a field a kind. -/
inductive Settled (f : Forest) : NodeId → String → String → Prop
  | here {i : NodeId} {n : Node} {field kind : String} : f.node? i = some n → n.Gives field kind →
      Settled f i field kind
  | above {i p : NodeId} {field kind : String} : f.contains i → f.parent? i = some p →
      Settled f p field kind → Settled f i field kind

theorem StaysIn.settled (hfg : f.StaysIn g) (h : f.Settled i field kind) :
    g.Settled i field kind := by
  induction h with
  | here hn hgives =>
    rcases hfg.node hn with hn | ⟨s, s', rfl, -⟩
    · exact .here hn hgives
    · exact Bool.noConfusion hgives.isDataSource
  | above hi hp _ ih => exact .above (hfg.contains hi) ((hfg.parent hi).trans hp) ih

theorem Linked.mem_path_self (hf : f.Linked) (i : NodeId) : i ∈ f.path i := by
  cases hp : f.parent? i with
  | none => exact path_of_parent?_eq_none hp ▸ mem_singleton_self i
  | some p =>
    rw [hf.path_of_parent? hp]
    exact mem_append_right _ (mem_singleton_self i)

theorem Settled.exists_path (h : f.Settled i field kind) (hf : f.Linked) :
    ∃ j ∈ f.path i, ∃ n, f.node? j = some n ∧ n.Gives field kind := by
  induction h with
  | here hn hgives => exact ⟨_, hf.mem_path_self _, _, hn, hgives⟩
  | above _ hp _ ih =>
    obtain ⟨j, hj, hgives⟩ := ih
    refine ⟨j, ?_, hgives⟩
    rw [hf.path_of_parent? hp]
    exact mem_append_left _ hj

end Flow.Forest

/-! ### Records of branches -/

/-- A branch grew out of a forest, and each kind on its record was given by a node on the way or has
been handed over. -/
structure Branch.Traced (f : Forest) (handed : KnownKinds) (b : Branch) : Prop where
  grew : b.GrewFrom f
  kinds : b.known.off = false → ∀ field kind, b.known.kind? field = some kind →
    b.forest.Settled b.tip field kind ∨ handed.kind? field = some kind

namespace Branch

open Checked Forest

variable {f : Forest} {handed known : KnownKinds} {b b' : Branch} {n : Node}

namespace Traced

variable (h : b.Traced f handed)

include h

theorem move (hgrew : b'.GrewFrom f) (hkeeps : b.forest.StaysIn b'.forest) (htip : b'.tip = b.tip)
    (hknown : b'.known = b.known) : b'.Traced f handed where
  grew := hgrew
  kinds hoff field kind hkind := by
    rw [hknown] at hoff hkind
    rw [htip]
    exact (h.kinds hoff field kind hkind).imp_left hkeeps.settled

theorem learn (hkeeps : b.known.Keeps known) : Traced f handed { b with known } :=
  ⟨h.grew, fun hon field kind hkind =>
    h.kinds (hkeeps hon).1 field kind ((hkeeps hon).2 field kind hkind)⟩

theorem push (hn : n.isDataSource = false) (hlearns : b.known.Learns n known) :
    Traced f handed { b.push n with known } := by
  have hplanted := h.grew.planted
  have hkeeps := hplanted.staysIn_add n (some b.tip)
  have hnode := hplanted.arena.node?_add_self n (some b.tip)
  refine ⟨h.grew.push hn, fun hon field kind hkind => ?_⟩
  rcases hlearns.kinds field kind hkind with hgives | hkind
  · exact .inl (.here hnode hgives)
  · refine (h.kinds (hlearns.off.symm.trans hon) field kind hkind).imp_left fun hsettled => ?_
    refine .above (contains_of_node? hnode) ?_ (hkeeps.settled hsettled)
    exact (hplanted.parent?_add _ _ _).trans (if_pos rfl)

theorem identify : b.identify.Traced f handed :=
  h.push (n := .identifier) rfl (.refl _ _)

theorem freshId : Traced f handed { b with forest := b.forest.freshId.1 } :=
  h.move h.grew.freshId ⟨.inl, fun _ => rfl⟩ rfl rfl

theorem output (name : String) (kind : OutputKind) : (b.output name kind).Traced f handed := by
  have hpushed := h.freshId.push (n := .output (.fresh name kind b.forest.freshId.2)) rfl (.refl _ _)
  exact hpushed.move (h.grew.output name kind) ⟨.inl, fun _ => rfl⟩ rfl rfl

theorem request (name : String) : (b.request name).Traced f handed :=
  h.move (h.grew.request name) ⟨.inl, fun _ => rfl⟩ rfl rfl

theorem split (main : String) (m : Facet) : (b.split main m).Traced f handed := by
  exact (h.freshId.push (n := .facet m) rfl (.refl _ _)).move (h.grew.split main m)
    ⟨.inl, fun _ => rfl⟩ rfl rfl

end Traced

theorem Grows.traced {context : DataContext} {v : View} {x y : Branch × Nat} (h : Grows context v x y)
    (hx : x.1.Traced f handed) : y.1.Traced f handed := by
  cases h with
  | learn hkeeps => exact hx.learn hkeeps
  | push hn hlearns => exact hx.push (Node.isDataSource_of_isPlain hn) hlearns
  | aggregate hlearns =>
    split
    · exact (hx.push rfl hlearns).identify
    · exact hx.push rfl hlearns
  | search _ _ hlearns => exact hx.push rfl hlearns
  | join _ _ hb _ hlearns =>
    obtain ⟨hgrew, hkeeps, htip, hknown⟩ := hx.grew.lookupSource hb
    exact (hx.move hgrew hkeeps htip hknown).push rfl hlearns

end Branch

/-! ### Records of views -/

namespace View

open Checked Branch Forest

variable {f g : Forest} {v : View} {above : Option Above} {b : Branch} {handed before : KnownKinds}

def byName (v : View) : Bool :=
  match v.data with
  | .block data => data.isNamed
  | _ => false

/-- The record that a view has without going on from where it was made: a view that takes its data by
name has all of the record above it, and views below that inherit their data have it from there. -/
def handedOver (v : View) (before : KnownKinds) (above : Option KnownKinds) : KnownKinds :=
  match v.data with
  | .inherit => before
  | .empty => {}
  | .block data => if data.isNamed then above.getD {} else {}

/-- The record of the view above, and where its rows are. -/
def Hands (f : Forest) (before : KnownKinds) : Option Above → Prop
  | none => True
  | some a => Reaches f a.part ∧ (a.part.known.off = false → ∀ field kind,
      a.part.known.kind? field = some kind →
      f.Settled (a.part.facet.getD a.part.main) field kind ∨ before.kind? field = some kind)

theorem Hands.mono (h : Hands f before above) (hfg : f.StaysIn g) : Hands g before above := by
  cases above with
  | none => exact h
  | some a =>
    exact ⟨h.1.mono hfg.contains,
      fun hoff field kind hkind => (h.2 hoff field kind hkind).imp_left hfg.settled⟩

theorem Hands.reaches (h : Hands f before above) : ∀ a, above = some a → Reaches f a.part := by
  rintro a rfl
  exact h.1

theorem rootOf_traced (v : View) (hf : f.Planted) (h : Hands f before above) :
    (v.rootBranch above f).Traced f (v.handedOver before (above.map fun a => a.part.known)) := by
  refine ⟨v.rootOf_sprouts hf h.reaches, fun hoff field kind hkind => ?_⟩
  unfold rootBranch knownAbove at hoff hkind
  unfold rootBranch rootOf handedOver
  cases above with
  | none => cases hkind
  | some a =>
    cases hdata : v.data with
    | inherit =>
      have hnew : v.hasNewData = false := by unfold hasNewData; rw [hdata]
      simp only [hnew] at hoff hkind
      exact h.2 hoff field kind hkind
    | empty =>
      have hnew : v.hasNewData = true := by unfold hasNewData; rw [hdata]
      simp only [hnew] at hkind
      cases hkind
    | block data =>
      have hnew : v.hasNewData = !data.isNamed := by unfold hasNewData; rw [hdata]
      simp only [hnew] at hkind
      cases hnamed : data.isNamed with
      | false =>
        simp only [hnamed] at hkind
        cases hkind
      | true =>
        simp only [hnamed] at hkind ⊢
        exact .inr hkind

theorem Grew.traced {context : DataContext} (h : v.Grew context above f b) (hf : f.Planted)
    (habove : Hands f before above) :
    b.Traced f (v.handedOver before (above.map fun a => a.part.known)) := by
  refine h.keeps (P := fun b : Branch => b.Traced f _) (fun hstart => ?_) (fun hstep => hstep.traced)
    (fun name kind hb => hb.output name kind) fun name hb => hb.request name
  have hroot := v.rootOf_traced hf habove
  cases hstart with
  | root hkeeps => exact (hroot.learn hkeeps).identify
  | parse hlearns => exact (hroot.push rfl hlearns).identify

theorem addFacet_traced (v : View) (child : Option View) (h : b.Traced f handed) :
    b.known.off = false → ∀ field kind, b.known.kind? field = some kind →
      (v.addFacet child b).value.1.Settled ((v.addFacet child b).value.2.getD b.tip) field kind ∨
        handed.kind? field = some kind := by
  rcases v.addFacet_cases child b with ⟨-, heq⟩ | ⟨mapping, -, heq⟩
  · rw [heq]
    exact h.kinds
  · rw [heq]
    exact (h.split _ _).kinds

/-- A view with the record that it was handed without having gone on from where it was made. -/
structure Line where
  view : View
  handed : KnownKinds

mutual

/-- The views of a tree with the records that they were handed. -/
def lines (before : KnownKinds) (above : Option KnownKinds) : Tree View → List Line
  | .node v children =>
    ⟨v, v.handedOver before above⟩ ::
      linesAll (v.handedOver before above) (v.dataPart.map DataPart.known) children

/-- The views of several trees with the records that they were handed. -/
def linesAll (before : KnownKinds) (above : Option KnownKinds) : List (Tree View) → List Line
  | [] => []
  | t :: rest => lines before above t ++ linesAll before above rest

end

mutual

theorem map_view_lines : (t : Tree View) → (before : KnownKinds) → (above : Option KnownKinds) →
    (lines before above t).map Line.view = t.preorder
  | .node v children, _, _ => congrArg (v :: ·) (map_view_linesAll children _ _)

theorem map_view_linesAll : (ts : List (Tree View)) → (before : KnownKinds) →
    (above : Option KnownKinds) → (linesAll before above ts).map Line.view = Tree.preorders ts
  | [], _, _ => rfl
  | t :: rest, before, above => by
    rw [linesAll, Tree.preorders, map_append, map_view_lines t, map_view_linesAll rest]

end

theorem handedOver_of_not_byName (h : v.byName = false) (above : Option KnownKinds) :
    v.handedOver {} above = {} := by
  unfold byName at h
  unfold handedOver
  split
  · rfl
  · rfl
  · rename_i data hdata
    rw [hdata] at h
    dsimp only at h
    rw [h]
    rfl

theorem mem_linesAll {l : Line} {ts : List (Tree View)} {above : Option KnownKinds} :
    l ∈ linesAll before above ts ↔ ∃ t ∈ ts, l ∈ lines before above t := by
  induction ts with
  | nil => simp [linesAll]
  | cons t rest ih => simp [linesAll, ih]

theorem handed_lines (t : Tree View) {above : Option KnownKinds}
    (h : ∀ v ∈ t.preorder, v.byName = false) : ∀ l ∈ lines {} above t, l.handed = {} := by
  induction t generalizing above with
  | node v children ih =>
    intro l hl
    unfold lines at hl
    rw [handedOver_of_not_byName (h v mem_cons_self) above] at hl
    rcases mem_cons.mp hl with rfl | hl
    · rfl
    · obtain ⟨t, ht, hl⟩ := mem_linesAll.mp hl
      exact ih t ht (fun w hw => h w (mem_cons_of_mem v (Tree.mem_preorders.mpr ⟨t, ht, hw⟩))) l hl

theorem handed_below : (t : Tree View) → (∀ v ∈ Tree.preorders t.children, v.byName = false) →
    ∀ l ∈ lines {} none t, l.handed = {}
  | .node v children, h, l, hl => by
    have hv : v.handedOver {} none = {} := by
      unfold handedOver
      split
      · rfl
      · rfl
      · exact ite_self _
    unfold lines at hl
    rw [hv] at hl
    rcases mem_cons.mp hl with rfl | hl
    · rfl
    · obtain ⟨t, ht, hl⟩ := mem_linesAll.mp hl
      exact handed_lines t (fun w hw => h w (Tree.mem_preorders.mpr ⟨t, ht, hw⟩)) l hl

/-- The record of a view holds what was done on the way to its main output, or what it was handed. -/
def Line.Sound (f : Forest) (l : Line) : Prop :=
  ∃ part, l.view.dataPart = some part ∧ (part.known.off = false → ∀ field kind,
    part.known.kind? field = some kind →
    f.Settled part.main field kind ∨ l.handed.kind? field = some kind)

theorem Line.Sound.mono {l : Line} (h : l.Sound f) (hfg : f.StaysIn g) : l.Sound g := by
  obtain ⟨part, hpart, hkinds⟩ := h
  exact ⟨part, hpart, fun hoff field kind hkind => (hkinds hoff field kind hkind).imp_left hfg.settled⟩

theorem addData_traced (context : DataContext) (v : View) (child : Option View) (hf : f.Planted)
    (h : Hands f before above) :
    Delivers (fun r : DataPart × Forest => r.2.Planted ∧ f.StaysIn r.2 ∧
      Line.Sound r.2 ⟨{ v with dataPart := some r.1 },
        v.handedOver before (above.map fun a => a.part.known)⟩ ∧
      Hands r.2 (v.handedOver before (above.map fun a => a.part.known)) (some ⟨r.1, v.isLayer⟩))
      (v.addData context child above f).outcome := by
  refine delivers_bind (v.grow_grew context above f) fun b hgrew => ?_
  have hb := hgrew.traced hf h
  obtain ⟨hplanted, hkeeps, hreaches⟩ := v.addFacet_sprouts child hb.grew
  refine ⟨hplanted, hb.grew.stays.trans hkeeps, ⟨_, rfl, fun hoff field kind hkind => ?_⟩, hreaches,
    v.addFacet_traced child hb⟩
  exact (hb.kinds hoff field kind hkind).imp_left hkeeps.settled

theorem builds_traced (context : DataContext) : Builds context (fun _ f => f.Planted)
    Forest.StaysIn Hands fun f before above t =>
      ∀ l ∈ lines before (above.map fun a => a.part.known) t, l.Sound f where
  refl _ := .refl _
  trans := .trans
  hands hstays h := h.mono hstays
  tells hstays h l hl := (h l hl).mono hstays
  add {v children rest f before above} hf habove := by
    refine (v.addData_traced context _ hf habove).mono fun r hr => ?_
    obtain ⟨hplanted, hstays, hsound, hhands⟩ := hr
    refine ⟨hplanted, hstays, _, fun _ => hhands, fun g ts hg hts l hl => ?_⟩
    rcases mem_cons.mp hl with rfl | hl
    · exact hsound.mono hg
    · obtain ⟨t, ht, hl⟩ := mem_linesAll.mp hl
      exact hts t ht l hl

end View

/-- Every kind on the record of a view was given to its field on the path to the main output of the
view, or stood on the record that the view was handed because it, or the view from which it inherits,
takes its data by name. When only the top view does, nothing is handed over. -/
theorem withData_kinds_settled {context : DataContext} {t : Tree View} {r : Tree View × Forest}
    (hr : (View.withData context t).outcome = .ok r) :
    (View.lines {} none r.1).map View.Line.view = r.1.preorder ∧
    (∀ l ∈ View.lines {} none r.1, ∃ part, l.view.dataPart = some part ∧
      (part.known.off = false → ∀ field kind, part.known.kind? field = some kind →
        (∃ j ∈ r.2.path part.main, ∃ n, r.2.node? j = some n ∧ n.Gives field kind) ∨
          l.handed.kind? field = some kind)) ∧
    ((∀ v ∈ Tree.preorders r.1.children, v.byName = false) →
      ∀ l ∈ View.lines {} none r.1, l.handed = {}) := by
  obtain ⟨hplanted, hsound⟩ := ((View.builds_traced context).withData (s := {}) Forest.planted_empty
    True.intro).of_eq_ok hr
  refine ⟨View.map_view_lines r.1 {} none, fun l hl => ?_, fun hnone => ?_⟩
  · obtain ⟨part, hpart, hkinds⟩ := hsound l hl
    refine ⟨part, hpart, fun hoff field kind hkind => ?_⟩
    exact (hkinds hoff field kind hkind).imp_left fun h => h.exists_path hplanted.toLinked
  · exact View.handed_below r.1 hnone

/-- Rows with a date that the user asks for and one that the encoding needs, split into cells. -/
def datedCells : Json :=
  .object [
    ("data", .object [("values", .arr [.object [("a", .str "2020"), ("b", .nat 1), ("d", .str "2021")]]),
      ("format", .object [("parse", .object [("a", .str "date")])])]),
    ("transform", .arr [.object [("calculate", .str "datum.b * 2"), ("as", .str "c")]]),
    ("facet", .object [("row", .object [("field", .str "b"), ("type", .str "nominal")])]),
    ("spec", .object [("mark", .str "point"), ("encoding", .object [
      ("x", .object [("field", .str "a"), ("type", .str "temporal")]),
      ("y", .object [("field", .str "d"), ("type", .str "temporal")])])])]

/-- What a view knows of some fields. -/
structure KnownKinds.Excerpt where
  view : String
  off : Bool
  kinds : List (Option String)
deriving DecidableEq

def View.excerpt? (fields : List String) (v : View) : Option KnownKinds.Excerpt :=
  v.dataPart.map fun part => ⟨v.name, part.known.off, fields.map part.known.kind?⟩

theorem withData_datedCells : ∃ c : Compilation {} datedCells,
    (View.withData c.context c.projected.1).outcome = .ok c.grown ∧
    ∃ l ∈ View.lines {} none c.grown.1, l.view.name = "child" ∧ l.handed = {} ∧
      ∃ part, l.view.dataPart = some part ∧ part.known.off = false ∧
        ∀ entry ∈ [("a", "date"), ("c", "derived"), ("d", "date")],
          part.known.kind? entry.1 = some entry.2 ∧
          ∃ j ∈ c.grown.2.path part.main, ∃ n, c.grown.2.node? j = some n ∧ n.Gives entry.1 entry.2 := by
  have hfacts : (Compilation.run {} datedCells).map (fun c =>
      ((View.lines {} none c.grown.1).map fun l => l.view.excerpt? ["a", "c", "d"],
        (Tree.preorders c.grown.1.children).all fun v => !v.byName)) =
      some ([some ⟨"", false, [some "date", some "derived", none]⟩,
        some ⟨"child", false, [some "date", some "derived", some "date"]⟩], true) := by
    decide +kernel
  obtain ⟨c, -, hfacts⟩ := map_eq_some_iff.mp hfacts
  obtain ⟨hlines, hnamed⟩ := Prod.mk.inj hfacts
  obtain ⟨-, hsettled, hnone⟩ := withData_kinds_settled c.grown_eq
  obtain ⟨l, hl, hlook⟩ := mem_map.mp (hlines ▸ mem_cons_of_mem _ mem_cons_self)
  obtain ⟨part, hpart, hkinds⟩ := hsettled l hl
  unfold View.excerpt? at hlook
  rw [hpart] at hlook
  simp only [map_some, Option.some.injEq, KnownKinds.Excerpt.mk.injEq, map_cons,
    map_nil, cons.injEq, and_true] at hlook
  obtain ⟨hname, hoff, ha, hc, hd⟩ := hlook
  have hempty : l.handed = {} :=
    hnone (fun v hv => by simpa using all_eq_true.mp hnamed v hv) l hl
  refine ⟨c, c.grown_eq, l, hl, hname, hempty, part, hpart, hoff, ?_⟩
  have hgiven {field kind : String} (hkind : part.known.kind? field = some kind) :
      part.known.kind? field = some kind ∧
        ∃ j ∈ c.grown.2.path part.main, ∃ n, c.grown.2.node? j = some n ∧ n.Gives field kind := by
    refine ⟨hkind, (hkinds hoff field kind hkind).resolve_right ?_⟩
    rw [hempty]
    exact fun h => nomatch h
  simp only [forall_mem_cons]
  exact ⟨hgiven ha, hgiven hc, hgiven hd, fun _ h => absurd h not_mem_nil⟩

/-- A layer that takes its data by name, below a view whose dates are coerced. -/
def namedLayer : Json :=
  .object [
    ("data", .object [("values", .arr [.object [("a", .str "2020")]]),
      ("format", .object [("parse", .object [("a", .str "date")])])]),
    ("layer", .arr [.object [("data", .object [("name", .str "other")]), ("mark", .str "point"),
      ("encoding", .object [("x", .object [("field", .str "a"), ("type", .str "temporal")])])]])]

/-- Where the view above coerced a field, a view that takes its data by name leaves the coercion out. -/
theorem withData_namedLayer : ∃ c : Compilation {} namedLayer,
    (View.withData c.context c.projected.1).outcome = .ok c.grown ∧
    ∃ v ∈ c.grown.1.preorder, v.name = "layer_0" ∧ ∃ part, v.dataPart = some part ∧
      part.known.off = false ∧ part.known.kind? "a" = some "date" ∧
      ¬ ∃ j ∈ c.grown.2.path part.main, ∃ n, c.grown.2.node? j = some n ∧ n.Gives "a" "date" := by
  have hfacts : (Compilation.run {} namedLayer).map (fun c => c.grown.1.preorder.map fun v =>
      (v.excerpt? ["a"], v.dataPart.map fun part => (c.grown.2.path part.main).all fun j =>
        (c.grown.2.node? j).all fun n => !n.written.contains "a")) =
      some [(some ⟨"", false, [some "date"]⟩, some false),
        (some ⟨"layer_0", false, [some "date"]⟩, some true)] := by
    decide +kernel
  obtain ⟨c, -, hviews⟩ := map_eq_some_iff.mp hfacts
  obtain ⟨v, hv, hlook⟩ := mem_map.mp (hviews ▸ mem_cons_of_mem _ mem_cons_self)
  obtain ⟨hlook, hwritten⟩ := Prod.mk.inj hlook
  obtain ⟨part, hpart, hwritten⟩ := map_eq_some_iff.mp hwritten
  unfold View.excerpt? at hlook
  rw [hpart] at hlook
  simp only [map_some, Option.some.injEq, KnownKinds.Excerpt.mk.injEq, map_cons,
    map_nil, cons.injEq, and_true] at hlook
  obtain ⟨hname, hoff, hkind⟩ := hlook
  refine ⟨c, c.grown_eq, v, hv, hname, part, hpart, hoff, hkind, ?_⟩
  rintro ⟨j, hj, n, hn, hgives⟩
  have hlacks := all_eq_true.mp hwritten j hj
  rw [hn] at hlacks
  simp [hgives.mem_written] at hlacks

end ChartPlan
