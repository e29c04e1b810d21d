import ChartPlan.Proofs.Stages

/-!
# References in a compiled chart

A compiled chart is a group with datasets and marks, and a mark may be a group again. A group defines
the names of its datasets, and the one of a cell when it splits data. Whatever a dataset, a lookup or a
mark refers to is defined by a group around it.

* `Scoped`: everything in a group refers to what is defined there or around it.
* `Compilation.scoped`: so does everything in a compiled chart whose views have different names.
-/

namespace ChartPlan

open ChartPlan.Flow ChartPlan.Flow.Dataset List Option Dict

/-! ### Groups -/

namespace Json

/-- The items of an array in a field; none without such a field. -/
def itemsField (v : Json) (key : String) : List Json :=
  ((v.field? key).bind items?).getD []

def split? (v : Json) : Option Json :=
  (v.field? "from").bind fun source => source.field? "facet"

/-- The names that a group defines: those of its datasets, and that of a cell. -/
def defined (v : Json) : List String :=
  names (v.itemsField "data") ++ (v.split?.bind fun split => split.textField? "name").toList

end Json

def Names (scope : List String) (v : Json) : Prop :=
  ∃ name ∈ scope, v = .str name

/-- Everything in a group refers to what the group defines or to the names around it: the datasets
that start from others, the transforms that search in others, the data of marks, and the data that is
split into cells. `searches` tells which transforms search. -/
inductive Scoped (searches : Json → Prop) : List String → Json → Prop
  | group {scope : List String} {v : Json} :
      (∀ d ∈ v.itemsField "data", ∀ source, d.field? "source" = some source →
        Names (v.defined ++ scope) source) →
      (∀ d ∈ v.itemsField "data", ∀ record ∈ transforms d, searches record →
        ∃ other, record.field? "from" = some other ∧ Names (v.defined ++ scope) other) →
      (∀ source, (v.field? "from").bind (fun source => source.field? "data") = some source →
        Names scope source) →
      (∀ source, v.split?.bind (fun split => split.field? "data") = some source →
        Names scope source) →
      (∀ mark ∈ v.itemsField "marks", Scoped searches (v.defined ++ scope) mark) →
      Scoped searches scope v

variable {searches : Json → Prop} {scope more : List String} {v : Json}

theorem Names.mono (h : Names scope v) (hsub : scope ⊆ more) : Names more v :=
  have ⟨name, hname, hv⟩ := h
  ⟨name, hsub hname, hv⟩

namespace Group

theorem get?_extend_sections (g : Group) (d : Dict Json) (key : String) :
    (d.extend g.sections).get? key = (g.sections.get? key).or (d.get? key) :=
  get?_extend (sorted_ofList _)

theorem get?_sections (g : Group) :
    g.sections.get? "scales" = (if g.scales.isEmpty then none else some (.arr g.scales)) ∧
      g.sections.get? "marks" = (if g.marks.isEmpty then none else some (.arr g.marks)) ∧
      g.sections.get? "data" = none ∧ g.sections.get? "from" = none := by
  unfold sections
  cases hp : g.projections <;> cases hs : g.scales <;> cases ha : g.axes <;> cases hl : g.legends <;>
    cases hm : g.marks <;> simp

theorem itemsField_marks (g : Group) {d : Dict Json} (hd : d.get? "marks" = none) :
    (Json.obj (d.extend g.sections)).itemsField "marks" = g.marks := by
  unfold Json.itemsField
  rw [Json.field?_obj, get?_extend_sections, g.get?_sections.2.1, hd]
  cases g.marks <;> rfl

theorem field?_extend (g : Group) (d : Dict Json) :
    (Json.obj (d.extend g.sections)).field? "data" = d.get? "data" ∧
      (Json.obj (d.extend g.sections)).field? "from" = d.get? "from" := by
  obtain ⟨-, -, hdata, hfrom⟩ := g.get?_sections
  rw [Json.field?_obj, Json.field?_obj, get?_extend_sections, get?_extend_sections, hdata, hfrom]
  exact ⟨rfl, rfl⟩

end Group

/-! ### Marks -/

theorem Json.itemsField_of_none {key : String} (h : v.field? key = none) : v.itemsField key = [] := by
  simp [itemsField, h]

theorem Scoped.mark (source : String) (hdata : v.field? "data" = none)
    (hmarks : v.field? "marks" = none)
    (hfrom : v.field? "from" = some (.object [("data", .str source)])) (h : source ∈ scope) :
    Scoped searches scope v := by
  have hno := Json.itemsField_of_none hdata
  refine .group (by simp [hno]) (by simp [hno]) (fun s hs => ?_) (by simp [Json.split?, hfrom])
    (by simp [Json.itemsField_of_none hmarks])
  rw [hfrom] at hs
  exact ⟨source, h, (Option.some.inj hs).symm⟩

theorem Scoped.plain (hdata : v.field? "data" = none) (hfrom : v.field? "from" = none)
    (hmarks : ∀ mark ∈ v.itemsField "marks", Scoped searches scope mark) :
    Scoped searches scope v := by
  have hno := Json.itemsField_of_none hdata
  have hdefined : v.defined = [] := by simp [Json.defined, Json.split?, hno, hfrom, names]
  refine .group (by simp [hno]) (by simp [hno]) (by simp [hfrom]) (by simp [Json.split?, hfrom]) ?_
  rwa [hdefined]

/-- The names around the marks in some cells: they hold whatever can be referred to in one of the cells
or in none, and whatever a transform searches. -/
structure Hosts (searches : Json → Prop) (d : Datasets) (cells scope : List String) : Prop where
  visible : ∀ cell : Option String, (∀ name, cell = some name → name ∈ cells) → ∀ datasets,
    d.within? cell = some datasets → ∀ name, Visible datasets cell name → name ∈ scope
  searched : ∀ record, searches record →
    ∃ other, record.field? "from" = some other ∧ Names scope other

namespace Hosts

variable {d : Datasets} {cells : List String}

theorem inside (h : Hosts searches d cells scope) {name data : String} {datasets : List Json}
    (hcell : d.cells.get? name = some ⟨data, datasets⟩) :
    Hosts searches d (name :: cells) ((names datasets ++ [name]) ++ scope) where
  visible cell hcells written hwritten other hother := by
    by_cases hname : cell = some name
    · rw [hname] at hwritten hother
      have hsame : datasets = written := by simpa [Datasets.within?, hcell] using hwritten
      rcases hother with hother | hother
      · exact mem_append_left _ (mem_append_left _ (hsame ▸ hother))
      · cases hother
        simp
    · refine mem_append_right _ (h.visible cell (fun n hn => ?_) written hwritten other hother)
      rcases mem_cons.mp (hcells n hn) with rfl | hmem
      · exact absurd hn hname
      · exact hmem
  searched record hrecord :=
    have ⟨other, hfrom, hother⟩ := h.searched record hrecord
    ⟨other, hfrom, hother.mono (subset_append_right _ _)⟩

theorem top {stores : List Json} (hsearched : ∀ record, searches record →
    ∃ other, record.field? "from" = some other ∧ Names (names (stores ++ d.top)) other) :
    Hosts searches d [] (names (stores ++ d.top)) := by
  refine ⟨fun cell hcell datasets hdatasets name hname => ?_, hsearched⟩
  cases cell with
  | some cell => exact absurd (hcell cell rfl) not_mem_nil
  | none =>
    cases hdatasets
    rw [names_append]
    exact mem_append_right _ (hname.resolve_right nofun)

end Hosts

namespace Layout

def cellDatasets (l : Layout) (facet : Facet) : List Json :=
  ((l.datasets.cells.get? facet.name).map CellData.datasets).getD []

theorem get?_cellData (l : Layout) (m : Facet) : Dict.Sorted (l.cellData m) ∧
    (l.cellData m).get? "from" = some (.object [("facet", .object [("name", .str m.name),
      ("data", .ofText? m.data), ("groupby", .texts m.fields)])]) ∧
    (l.cellData m).get? "data" =
      (if (l.cellDatasets m).isEmpty then none else some (.arr (l.cellDatasets m))) ∧
    ∀ key, key ≠ "from" → key ≠ "data" → (l.cellData m).get? key = none := by
  unfold cellData cellDatasets
  cases l.datasets.cells.get? m.name with
  | none => exact ⟨pairwise_singleton _ _, by simp [Dict.get?], by simp [Dict.get?],
      fun key hfrom _ => by simp [Dict.get?, hfrom]⟩
  | some cell =>
    cases hdatasets : cell.datasets with
    | nil => exact ⟨by simp [hdatasets, Dict.Sorted], by simp [hdatasets, Dict.get?],
        by simp [hdatasets, Dict.get?], fun key hfrom _ => by simp [hdatasets, Dict.get?, hfrom]⟩
    | cons d rest =>
      refine ⟨?_, ?_, ?_, fun key hfrom hdata => ?_⟩
      · simpa [hdatasets] using sorted_ofList _
      all_goals simp [*]

/-- The group of the cells of a view: it has the datasets of the cells and splits the data of the facet. -/
theorem cell_fields (l : Layout) (w : View) (m : Facet) (g : Group) {cell : Dict Json}
    (hcell : cell = Dict.extend
      (Dict.ofList [("name", .str (w.inner "cell")), ("type", .str "group")]) (l.cellData m)) :
    (Json.obj (cell.extend g.sections)).itemsField "data" = l.cellDatasets m ∧
      (Json.obj (cell.extend g.sections)).field? "from" = some (.object [("facet", .object
        [("name", .str m.name), ("data", .ofText? m.data), ("groupby", .texts m.fields)])]) ∧
      (Json.obj (cell.extend g.sections)).defined = names (l.cellDatasets m) ++ [m.name] ∧
      ∀ key, key ≠ "name" → key ≠ "type" → key ≠ "from" → key ≠ "data" → cell.get? key = none := by
  obtain ⟨hsorted, hfrom, hdata, hother⟩ := l.get?_cellData m
  have hget : ∀ key, key ≠ "name" → key ≠ "type" → cell.get? key = (l.cellData m).get? key := by
    intro key hname htype
    rw [hcell, get?_extend hsorted]
    simp [hname, htype]
  obtain ⟨hdata', hfrom'⟩ := g.field?_extend cell
  rw [hget _ (by decide) (by decide), hdata] at hdata'
  rw [hget _ (by decide) (by decide), hfrom] at hfrom'
  have hitems : (Json.obj (cell.extend g.sections)).itemsField "data" = l.cellDatasets m := by
    unfold Json.itemsField
    rw [hdata']
    cases l.cellDatasets m <;> rfl
  refine ⟨hitems, hfrom', ?_, fun key hname htype hfrom hdata =>
    (hget key hname htype).trans (hother key hfrom hdata)⟩
  unfold Json.defined Json.split?
  rw [hitems, hfrom']
  simp [Json.textField?, Json.text?]

end Layout

namespace Compilation

variable {given : Config} {spec : Json} {c : Compilation given spec} {cells : List String} {w : View}

/-- Whether a transform was written for a lookup of the optimized dataflow. -/
def IsSearch (c : Compilation given spec) (record : Json) : Prop :=
  ∃ i l, c.forest.node? i = some (.lookup l) ∧
    record = resolveLookup c.layout.forest l.record.value

section

variable (h : c.Orderly) (hosts : Hosts searches c.layout.datasets cells scope)
  (hw : w.Housed c.grown.2 cells) (hunit : w.unit?.isSome) (outside : Bool)

include h hosts hw hunit

theorem Orderly.dataset_visible :
    ∃ source, c.layout.dataset? outside (w.inner "main") = some source ∧ source ∈ scope := by
  obtain ⟨part, o, -, hname, hfinds⟩ := hw.main hunit
  obtain ⟨j, o', source, hsupplies, hsource, hdataset⟩ := h.exists_supply hfinds hname outside
  obtain ⟨source', datasets, hsource', hwithin, hvisible⟩ := h.grounded.output j o' hsupplies.node
  cases hsource'.symm.trans hsource
  have hcell : ∀ cell, c.forest.cell? j = some cell → cell ∈ cells := by
    intro cell hcell
    rcases hsupplies.own with rfl | ⟨-, -, -, hnone⟩
    · exact hfinds.cell cell ((h.housing.cell hfinds.node hfinds.vital).symm.trans hcell)
    · rw [hnone] at hcell
      cases hcell
  exact ⟨source, hdataset, hosts.visible _ hcell datasets hwithin _ hvisible⟩

theorem Orderly.scoped_unitMark (mark : Mark) :
    Scoped searches scope (c.layout.unitMark outside w mark) := by
  obtain ⟨source, hdataset, hvisible⟩ := h.dataset_visible hosts hw hunit outside
  refine .mark source ?_ ?_ ?_ hvisible
  all_goals
    unfold Layout.unitMark
    simp [hdataset]

end

theorem scoped_concatMark (v : View) (g : Group) (hmarks : ∀ mark ∈ g.marks, Scoped searches scope mark) :
    Scoped searches scope (Layout.concatMark v g) := by
  obtain ⟨hdata, hfrom⟩ := g.field?_extend
    (Dict.ofList [("name", .str (v.inner "group")), ("type", .str "group")])
  refine .plain (hdata.trans ?_) (hfrom.trans ?_) ?_
  · simp
  · simp
  · rwa [Layout.concatMark, g.itemsField_marks]
    simp

theorem scoped_headerMarks (v : View) {m : Facet} (hnames : ∀ name ∈ names m.datasets, name ∈ scope) :
    ∀ mark ∈ Layout.headerMarks v m, Scoped searches scope mark := by
  intro mark hmark
  obtain ⟨⟨channel, header⟩, hheader, rfl⟩ := mem_map.mp hmark
  have hname : header.name ∈ names m.datasets := by
    rw [m.names_datasets]
    refine mem_append_right _ (mem_filterMap.mpr ⟨some header, ?_, rfl⟩)
    obtain ⟨⟨name, header?⟩, hmem, hsome⟩ := mem_filterMap.mp hheader
    obtain ⟨_, rfl, he⟩ := map_eq_some_iff.mp hsome
    cases he
    simp only [mem_cons, Prod.mk.injEq, not_mem_nil, or_false] at hmem ⊢
    rcases hmem with ⟨-, h⟩ | ⟨-, h⟩ | ⟨-, h⟩
    · exact .inr (.inl h)
    · exact .inl h
    · exact .inr (.inr h)
  refine .mark header.name ?_ ?_ ?_ (hnames _ hname)
  all_goals
    simp

theorem scoped_cell (l : Layout) {m : Facet} {source : String} {cell : Dict Json} {g : Group}
    (hcell : cell = Dict.extend
      (Dict.ofList [("name", .str (w.inner "cell")), ("type", .str "group")]) (l.cellData m))
    (hdata : m.data = some source) (hsource : source ∈ scope)
    (hclosed : Closed (l.cellDatasets m) (some m.name))
    (hsearched : ∀ record, searches record → ∃ other, record.field? "from" = some other ∧
      Names ((names (l.cellDatasets m) ++ [m.name]) ++ scope) other)
    (hinner : ∀ mark ∈ g.marks,
      Scoped searches ((names (l.cellDatasets m) ++ [m.name]) ++ scope) mark) :
    Scoped searches scope (.obj (cell.extend g.sections)) := by
  obtain ⟨hitems, hfrom, hdefined, hnone⟩ := l.cell_fields w m g hcell
  have hmarks := g.itemsField_marks (hnone "marks" (by decide) (by decide) (by decide) (by decide))
  generalize Json.obj (cell.extend g.sections) = v at *
  refine .group (fun d hd s hs => ?_) (fun d _ r _ hr => ?_) (fun s hs => ?_) (fun s hs => ?_) ?_
  · rw [hitems] at hd
    rw [hdefined]
    obtain ⟨origin, rfl, hvisible⟩ := hclosed d hd s hs
    refine ⟨origin, mem_append_left _ ?_, rfl⟩
    rcases hvisible with hmem | hcell
    · exact mem_append_left _ hmem
    · cases hcell
      simp
  · rw [hdefined]
    exact hsearched r hr
  · simp [hfrom] at hs
  · simp [Json.split?, hfrom, hdata, Json.ofText?] at hs
    exact ⟨source, hsource, hs.symm⟩
  · rw [hdefined, hmarks]
    exact hinner

/-- The facet of a faceted view, when datasets have been told: what it splits and its headers can be seen
where the view is, and the datasets inside of its cells are known. -/
theorem Orderly.exists_facet (h : c.Orderly) (hw : w.Housed c.grown.2 cells) (hfacet : w.isFacet) :
    ∃ (m : Facet) (data source : String) (datasets : List Json), m.name = w.inner "facet" ∧
      c.layout.facet? w = some { m with data := some data } ∧
      c.layout.datasets.cells.get? m.name = some ⟨source, datasets⟩ ∧ Closed datasets (some m.name) ∧
      ∀ searches scope, Hosts searches c.layout.datasets cells scope →
        data ∈ scope ∧ ∀ name ∈ names m.datasets, name ∈ scope := by
  obtain ⟨i, m, hname, hfinds⟩ := hw.facet hfacet
  have hentry := h.housing.get?_eq h.arranged hfinds.entry hfinds.node hfinds.vital
    (h.unscaled _ (mem_of_get? hfinds.entry))
  obtain ⟨data, around, datasets, hnode, hwithin, hvisible, hheaders, hcell, hclosed⟩ :=
    h.grounded.facet i m (h.housing.keeps.node hfinds.node hfinds.vital)
  have hfacet? : c.layout.facet? w = some { m with data := some data } := by
    have hentry' : c.layout.forest.outputs.get? (w.inner "facet") = some i :=
      h.grounded.told.outputs ▸ hentry
    unfold Layout.facet?
    rw [hentry', bind_some, show c.layout.forest.node? i = _ from hnode]
    rfl
  refine ⟨m, data, _, _, hname, hfacet?, hcell, hclosed, fun searches scope hosts => ?_⟩
  have hscope := hosts.visible (c.forest.cell? i) (fun cell hcell => hfinds.cell cell
    ((h.housing.cell hfinds.node hfinds.vital).symm.trans hcell)) _ hwithin
  exact ⟨hscope data hvisible, fun name hmem => hscope name (.inl (hheaders name hmem))⟩

theorem Orderly.scoped_facetMarks (h : c.Orderly)
    (hosts : Hosts searches c.layout.datasets cells scope) (hw : w.Housed c.grown.2 cells)
    (hfacet : w.isFacet) {g : Group}
    (hinner : ∀ inside, Hosts searches c.layout.datasets (w.inner "facet" :: cells) inside →
      ∀ mark ∈ g.marks, Scoped searches inside mark) :
    ∀ mark ∈ c.layout.facetMarks w g, Scoped searches scope mark := by
  obtain ⟨m, data, source, datasets, hname, hfacet?, hcell, hclosed, hscope⟩ := h.exists_facet hw hfacet
  obtain ⟨hdata, hheaders⟩ := hscope searches scope hosts
  intro mark hmark
  unfold Layout.facetMarks at hmark
  rw [hfacet?] at hmark
  rcases mem_append.mp hmark with hmark | hmark
  · refine scoped_headerMarks w (fun name hmem => ?_) mark hmark
    rw [Facet.names_datasets_data] at hmem
    exact hheaders name hmem
  · rw [mem_singleton.mp hmark]
    have hdatasets : c.layout.cellDatasets { m with data := some data } = datasets := by
      unfold Layout.cellDatasets
      rw [hcell]
      rfl
    have hosts' := hosts.inside hcell
    refine scoped_cell c.layout rfl rfl hdata ?_ ?_ ?_
    all_goals rw [hdatasets]
    · exact hclosed
    · exact hosts'.searched
    · exact hinner _ (hname ▸ hosts')

/-! ### Trees of views -/

theorem marks_foldl (groups : List Group) (g : Group) :
    (groups.foldl Group.append g).marks = g.marks ++ groups.flatMap Group.marks := by
  induction groups generalizing g with
  | nil => simp
  | cons first rest ih =>
    rw [foldl_cons, ih, flatMap_cons, ← append_assoc]
    rfl

theorem Orderly.scoped_node (h : c.Orderly) (hosts : Hosts searches c.layout.datasets cells scope)
    (hw : w.Housed c.grown.2 cells) (outside : Bool) {children : List (Tree View)}
    (hbelow : ∀ outside inside, Hosts searches c.layout.datasets (w.cellsInside cells) inside →
      ∀ g ∈ c.layout.groups outside children, ∀ mark ∈ g.marks, Scoped searches inside mark) :
    ∀ mark ∈ (c.layout.group outside (.node w children)).marks, Scoped searches scope mark := by
  have hsame : w.isFacet = false → Hosts searches c.layout.datasets (w.cellsInside cells) scope :=
    fun hfacet => by rwa [View.cellsInside, hfacet]
  intro mark hmark
  unfold Layout.group at hmark
  dsimp only at hmark
  split at hmark
  · rename_i kind _ hbody
    rw [mem_singleton.mp hmark]
    exact h.scoped_unitMark hosts hw (by rw [View.unit?, hbody]; rfl) outside kind
  · rename_i hbody
    rw [marks_foldl] at hmark
    obtain ⟨g, hg, hmark⟩ := mem_flatMap.mp hmark
    exact hbelow outside scope (hsame (by rw [View.isFacet, hbody])) g hg mark hmark
  · rename_i hbody
    have hmark : mark ∈ List.zipWith Layout.concatMark (children.map Tree.value)
      (c.layout.groups outside children) := hmark
    rw [← map_uncurry_zip_eq_zipWith] at hmark
    obtain ⟨⟨v, g⟩, hzip, rfl⟩ := mem_map.mp hmark
    have hg := (of_mem_zip hzip).2
    exact scoped_concatMark v g (hbelow outside scope (hsame (by rw [View.isFacet, hbody])) g hg)
  · rename_i hbody
    have hfacet : w.isFacet := by rw [View.isFacet, hbody]
    refine h.scoped_facetMarks hosts hw hfacet (fun inside hinside mark hmark => ?_) mark hmark
    rw [marks_foldl] at hmark
    obtain ⟨g, hg, hmark⟩ := mem_flatMap.mp hmark
    exact hbelow false inside (by rwa [View.cellsInside, hfacet]) g hg mark hmark

theorem groups_eq (l : Layout) (outside : Bool) (ts : List (Tree View)) :
    l.groups outside ts = ts.map (l.group outside) := by
  induction ts with
  | nil => rfl
  | cons t rest ih => rw [Layout.groups, ih, map_cons]

theorem Orderly.scoped_group (h : c.Orderly) (t : Tree View) {outside : Bool}
    (ht : View.Placed c.grown.2 cells t) (hosts : Hosts searches c.layout.datasets cells scope) :
    ∀ mark ∈ (c.layout.group outside t).marks, Scoped searches scope mark := by
  induction t generalizing outside cells scope with
  | node w children ih =>
    refine h.scoped_node hosts ht.1 outside fun outside inside hinside g hg => ?_
    rw [groups_eq] at hg
    obtain ⟨t, hmem, rfl⟩ := mem_map.mp hg
    exact ih t hmem (View.placedAll_iff.mp ht.2 t hmem) hinside

/-! ### Stores and lookups -/

/-- The names of the distinct selections are those of all selections, each once. -/
theorem names_distinctSelections (t : Tree View) :
    ((View.distinctSelections t).map SelectionPart.name).Nodup ∧
      (View.allSelections t).map SelectionPart.name ⊆ (View.distinctSelections t).map SelectionPart.name := by
  unfold View.distinctSelections
  induction View.allSelections t using reverseRecOn with
  | nil => exact ⟨nodup_nil, nil_subset _⟩
  | append_singleton done s ih =>
    obtain ⟨hnodup, hsub⟩ := ih
    rw [foldl_append, foldl_cons, foldl_nil, map_append, map_singleton]
    split
    · rename_i hknown
      obtain ⟨known, hmem, hsame⟩ := any_eq_true.mp hknown
      have hname := mem_map.mpr ⟨known, hmem, beq_iff_eq.mp hsame⟩
      exact ⟨hnodup, append_subset.mpr ⟨hsub, cons_subset.mpr ⟨hname, nil_subset _⟩⟩⟩
    · rename_i hunknown
      rw [map_append, map_singleton]
      refine ⟨hnodup.append (nodup_singleton _) fun name hname hname' => hunknown ?_,
        append_subset.mpr ⟨List.Subset.trans hsub (subset_append_left _ _),
          subset_append_right _ _⟩⟩
      obtain ⟨known, hknown, rfl⟩ := mem_map.mp hname
      exact any_eq_true.mpr ⟨known, hknown, beq_iff_eq.mpr (mem_singleton.mp hname')⟩

theorem exists_distinctSelection {t : Tree View} {name : String}
    (h : (View.selectionNames t).contains name) :
    ∃ s ∈ View.distinctSelections t, s.name = name := by
  refine mem_map.mp ((names_distinctSelections t).2 ?_)
  simpa [View.selectionNames, NameSet.mem_ofList] using h

theorem field?_storeDataset (s : SelectionPart) (key : String) : s.storeDataset.field? key =
    if key = "values" ∧ s.initialRows.isSome then s.initialRows
    else if key = "name" then some (.str s.store) else none := by
  unfold SelectionPart.storeDataset Json.object
  cases s.initialRows with
  | none => simp [Json.withField?, Json.field?_obj, Dict.ofList, Dict.extend, get?_insert]
  | some rows =>
    simp [Json.withField?, Json.withField, Json.field?_obj, Dict.ofList, Dict.extend, get?_insert]

theorem name?_storeDataset (s : SelectionPart) : name? s.storeDataset = some s.store := by
  unfold name? Json.textField?
  rw [field?_storeDataset]
  simp [Json.text?]

theorem field?_record (l : Lookup) : l.record.value.field? "type" = some (.str "lookup") ∧
    l.record.value.field? "from" = some (.str l.secondary) := by
  unfold Lookup.record Json.object
  rcases l with ⟨field, secondary, key, fields, outputs, default⟩
  cases fields <;> cases outputs <;> cases default <;>
    simp [Logged.value_bind, Json.withField?, Json.withField, Json.field?_obj, Dict.ofList, Dict.extend,
      get?_insert]

theorem resolveLookup_record (f : Forest) (l : Lookup) :
    (resolveLookup f l.record.value).field? "from" =
      some (.str ((f.datasetName? l.secondary).getD l.secondary)) := by
  obtain ⟨htype, hfrom⟩ := field?_record l
  have htext : l.record.value.textField? "from" = some l.secondary := by
    unfold Json.textField?
    rw [hfrom]
    rfl
  unfold resolveLookup
  rw [htype, if_pos (by rfl), htext, bind_some]
  cases f.datasetName? l.secondary with
  | none => exact hfrom
  | some source => exact Json.field?_withField_self _ (by rw [hfrom]; rfl)

theorem Orderly.datasetName?_mem_top (h : c.Orderly) {name : String} {j : NodeId} {o : Output}
    (hentry : c.forest.outputs.get? name = some j) (ho : c.forest.node? j = some (.output o))
    (hcell : c.forest.cell? j = none) : ∃ source, c.layout.forest.datasetName? name = some source ∧
      source ∈ names c.layout.datasets.top := by
  obtain ⟨source, hsource, hname⟩ := h.datasetName?_eq hentry ho
  obtain ⟨source', datasets, hsource', hwithin, hvisible⟩ := h.grounded.output j o ho
  rw [hcell] at hwithin hvisible
  cases hwithin
  cases hsource'.symm.trans hsource
  exact ⟨_, hname, hvisible.resolve_right nofun⟩

theorem Orderly.searched (h : c.Orderly) {record : Json} (hrecord : c.IsSearch record) :
    ∃ other, record.field? "from" = some (.str other) ∧
      other ∈ names (View.storeDatasets c.views ++ c.layout.datasets.top) := by
  obtain ⟨i, l, hl, rfl⟩ := hrecord
  refine ⟨_, resolveLookup_record _ l, ?_⟩
  rw [names_append, mem_append]
  obtain ⟨j, hj⟩ := h.housing.given hl rfl
  rcases h.sown.suits hj with ⟨selection, hselection, hstore⟩ | ⟨k, o, hentry, ho, hvital, hcell⟩
  · cases hfound : c.forest.outputs.get? l.secondary with
    | none =>
      have hselection' : (View.selectionNames c.views).contains selection := by
        unfold View.selectionNames
        rw [c.selections_views]
        exact hselection
      obtain ⟨s, hs, rfl⟩ := exists_distinctSelection hselection'
      rw [h.datasetName?_eq_none hfound, hstore]
      exact .inl (mem_names.mpr ⟨_, mem_map_of_mem hs, name?_storeDataset s⟩)
    | some k =>
      rcases h.housing.entry (mem_of_get? hfound) with hold | ⟨o, ho, -, -, hcell⟩
      · exact absurd hstore (h.unstored _ hold selection)
      · obtain ⟨source, hsource, hmem⟩ := h.datasetName?_mem_top hfound ho hcell
        rw [hsource]
        exact .inr hmem
  · have hentry' := h.housing.get?_eq h.arranged hentry ho hvital
      (h.unscaled _ (mem_of_get? hentry))
    obtain ⟨source, hsource, hmem⟩ := h.datasetName?_mem_top hentry'
      (h.housing.keeps.node ho hvital) ((h.housing.cell ho hvital).trans hcell)
    rw [hsource]
    exact .inr hmem

/-! ### The whole chart -/

theorem exists_write (t : Tree View) (l : Layout) : ∃ d : Dict Json,
    Compiled.write t l = .obj (d.extend (l.group true t).sections) ∧
      ∀ key, key ≠ "title" → key ≠ "signals" → d.get? key =
        Dict.get? (Dict.ofList [("$schema", .str Compiled.schema),
          ("data", .arr (View.storeDatasets t ++ l.datasets.top))]) key := by
  refine ⟨_, rfl, fun key htitle hsignals => ?_⟩
  cases (View.selectionSignals t).isEmpty <;> cases t.value.title <;>
    simp [Json.object, Json.withField?, Json.withField, Json.fields?, get?_insert, htitle, hsignals]

theorem field?_write (t : Tree View) (l : Layout) :
    (Compiled.write t l).field? "data" = some (.arr (View.storeDatasets t ++ l.datasets.top)) ∧
      (Compiled.write t l).field? "from" = none ∧
      (Compiled.write t l).itemsField "marks" = (l.group true t).marks := by
  obtain ⟨d, hwrite, hd⟩ := exists_write t l
  obtain ⟨hdata, hfrom⟩ := (l.group true t).field?_extend d
  rw [hwrite]
  refine ⟨hdata.trans ((hd _ (by decide) (by decide)).trans ?_),
    hfrom.trans ((hd _ (by decide) (by decide)).trans ?_),
    (l.group true t).itemsField_marks ((hd _ (by decide) (by decide)).trans ?_)⟩
  all_goals simp

variable (c) in
theorem itemsField_data :
    c.compiled.spec.itemsField "data" = View.storeDatasets c.views ++ c.layout.datasets.top := by
  unfold Json.itemsField
  rw [show c.compiled.spec.field? "data" = _ from (field?_write c.views c.layout).1]
  rfl

variable (c) in
theorem defined_compiled : c.compiled.spec.defined =
    names (View.storeDatasets c.views ++ c.layout.datasets.top) := by
  have hfrom : c.compiled.spec.field? "from" = none := (field?_write c.views c.layout).2.1
  simp [Json.defined, Json.split?, c.itemsField_data, hfrom]

theorem Orderly.scoped (h : c.Orderly) : Scoped c.IsSearch [] c.compiled.spec := by
  obtain ⟨-, hfrom, hmarks⟩ : _ ∧ c.compiled.spec.field? "from" = none ∧
    c.compiled.spec.itemsField "marks" = _ := field?_write c.views c.layout
  have hdefined := (append_nil _).trans c.defined_compiled
  have hosts : Hosts c.IsSearch c.layout.datasets []
      (names (View.storeDatasets c.views ++ c.layout.datasets.top)) := .top fun record hrecord => by
    obtain ⟨other, hother, hmem⟩ := h.searched hrecord
    exact ⟨_, hother, other, hmem, rfl⟩
  refine .group (fun d hd s hs => ?_) (fun d _ r _ hr => ?_) (by simp [hfrom])
    (by simp [Json.split?, hfrom]) ?_
  · rw [hdefined]
    rw [c.itemsField_data] at hd
    rcases mem_append.mp hd with hd | hd
    · obtain ⟨part, -, rfl⟩ := mem_map.mp hd
      rw [field?_storeDataset] at hs
      simp at hs
    · obtain ⟨source, rfl, hvisible⟩ := h.grounded.top d hd s hs
      refine ⟨source, ?_, rfl⟩
      rw [names_append]
      exact mem_append_right _ (hvisible.resolve_right (by rintro ⟨⟩))
  · rw [hdefined]
    exact hosts.searched r hr
  · rw [hdefined, hmarks]
    exact h.scoped_group c.views h.placed hosts

end Compilation

/-- No reference of a compiled chart dangles. When the views have different names, none of which is
called like a copy, every dataset, lookup, cell, header and mark refers to a dataset, a store or a cell
that is defined in its group or in one around it. -/
theorem compile_references_defined {given : Config} {spec : Json} {compiled : Compiled}
    {views : Tree View} (hcompile : (compile given spec).outcome = .ok compiled)
    (hviews : (Chart.read spec >>= View.build).outcome = .ok views) (hapart : View.Apart views) :
    ∃ c : Compilation given spec, c.compiled = compiled ∧ Scoped c.IsSearch [] compiled.spec := by
  obtain ⟨c, rfl, hnamed⟩ := exists_compilation hcompile hviews
  exact ⟨c, rfl, (Compilation.Orderly.of_apart (hnamed ▸ hapart)).scoped⟩

/-- Layers in cells, of which one searches in rows of its own, beside a view that searches in the store
of its selection. -/
def searchingCells : Json :=
  let a : Json := .object [("field", .str "a"), ("type", .str "quantitative")]
  let rows (key : String) : Json := .object [("values", .arr [.object [("a", .nat 1), (key, .nat 2)]])]
  let search (target : List (String × Json)) : Json := .object [("lookup", .str "a"),
    ("from", .object (("key", .str "a") :: target))]
  .object [("data", rows "b"), ("hconcat", .arr [
    .object [
      ("facet", .object [("row", .object [("field", .str "b"), ("type", .str "nominal")])]),
      ("spec", .object [("layer", .arr [
        .object [("mark", .str "bar"), ("encoding", .object [("x", a)]),
          ("transform", .arr [search [("data", rows "c"), ("fields", .texts ["c"])]])],
        .object [("mark", .str "point"), ("encoding", .object [("y", a)])]])])],
    .object [("mark", .str "point"), ("encoding", .object [("x", a)]),
      ("params", .arr [.object [("name", .str "p"), ("select", .str "point")]]),
      ("transform", .arr [search [("param", .str "p")]])]])]

theorem compile_searchingCells : ∃ compiled views,
    (compile {} searchingCells).outcome = .ok compiled ∧
    (Chart.read searchingCells >>= View.build).outcome = .ok views ∧ View.Apart views ∧
    views.preorder.map View.name = ["", "concat_0", "concat_0_child", "concat_0_child_layer_0",
      "concat_0_child_layer_1", "concat_1"] ∧
    ∃ c : Compilation {} searchingCells, c.compiled = compiled ∧ Scoped c.IsSearch [] compiled.spec := by
  have hcompile : (compile {} searchingCells).outcome.toOption.isSome := by decide +kernel
  have hviews : (Chart.read searchingCells >>= View.build).outcome.toOption.map
      (fun views => views.preorder.map View.name) = some ["", "concat_0", "concat_0_child",
        "concat_0_child_layer_0", "concat_0_child_layer_1", "concat_1"] := by decide +kernel
  obtain ⟨compiled, hcompiled⟩ := exists_ok hcompile
  obtain ⟨views, hviews, hnames⟩ := exists_ok_of_map hviews
  have hapart : View.Apart views := ⟨by rw [hnames]; decide, by rw [hnames]; decide⟩
  exact ⟨compiled, views, hcompiled, hviews, hapart, hnames,
    compile_references_defined hcompiled hviews hapart⟩

end ChartPlan
