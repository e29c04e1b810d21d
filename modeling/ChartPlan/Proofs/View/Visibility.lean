import ChartPlan.Proofs.Flow.Pass.Copies
import ChartPlan.Proofs.View.Reading
import ChartPlan.Proofs.View.Scoping

/-!
# What scales can see

A scale is written in the group of the view that owns it. Its domain refers to datasets, which have to be
defined in this group or in one around it. Outside of cells this is so, because there a scale reads copies
of the outputs in cells. In a cell it reads the outputs themselves, and those of views in cells further
inside cannot be seen from there.

* `HoldsScale`: where scales stand in a written chart, and what is defined there.
* `Layout.scenes`: the views of a layout with the names that they can see; `Layout.holds_group`: their
  scales are the ones that are written.
* `Orderly.dataset_outside`: outside of cells every unit view has a dataset outside of cells.
* `compile_domains_visible`: what inferred domains read.
* `compile_nestedCells`: a scale in a cell that reads a dataset of a cell inside.
-/

namespace ChartPlan

open ChartPlan.Flow ChartPlan.Flow.Dataset List

/-! ### Scales in groups -/

/-- A scale stands in a group or in one of the groups among its marks. `scope` are the names around the
group, and `inside` are those around the scale. -/
inductive HoldsScale : List String → Json → List String → Json → Prop
  | here {scope : List String} {v scale : Json} : scale ∈ v.itemsField "scales" →
      HoldsScale scope v (v.defined ++ scope) scale
  | mark {scope inside : List String} {v mark scale : Json} : mark ∈ v.itemsField "marks" →
      HoldsScale (v.defined ++ scope) mark inside scale → HoldsScale scope v inside scale

variable {scope inside : List String} {v scale : Json}

theorem holdsScale_iff : HoldsScale scope v inside scale ↔
    scale ∈ v.itemsField "scales" ∧ inside = v.defined ++ scope ∨
      ∃ mark ∈ v.itemsField "marks", HoldsScale (v.defined ++ scope) mark inside scale := by
  constructor
  · rintro (h | ⟨hmark, h⟩)
    · exact .inl ⟨h, rfl⟩
    · exact .inr ⟨_, hmark, h⟩
  · rintro (⟨h, rfl⟩ | ⟨mark, hmark, h⟩)
    · exact .here h
    · exact .mark hmark h

theorem not_holdsScale (hscales : v.field? "scales" = none) (hmarks : v.field? "marks" = none) :
    ¬ HoldsScale scope v inside scale := by
  rw [holdsScale_iff]
  simp [Json.itemsField, hscales, hmarks]

namespace Group

/-- A scale stands in the group or in one of the groups among its marks. -/
def Holds (g : Group) (scope inside : List String) (scale : Json) : Prop :=
  scale ∈ g.scales ∧ inside = scope ∨ ∃ mark ∈ g.marks, HoldsScale scope mark inside scale

theorem holds_append (a b : Group) : (a.append b).Holds scope inside scale ↔
    a.Holds scope inside scale ∨ b.Holds scope inside scale := by
  unfold Holds append
  simp only [mem_append, or_and_right, exists_or]
  exact or_or_or_comm

theorem holds_foldl (groups : List Group) (g : Group) :
    (groups.foldl append g).Holds scope inside scale ↔
      g.Holds scope inside scale ∨ ∃ other ∈ groups, other.Holds scope inside scale := by
  induction groups generalizing g with
  | nil => simp
  | cons first rest ih =>
    rw [foldl_cons, ih, holds_append, or_assoc]
    simp

theorem not_holds_empty : ¬ ({} : Group).Holds scope inside scale := by
  simp [Holds]

theorem holds_of_marks (marks : List Json) : ({ marks := marks } : Group).Holds scope inside scale ↔
    ∃ mark ∈ marks, HoldsScale scope mark inside scale := by
  simp [Holds]

theorem itemsField_scales (g : Group) {d : Dict Json} (hd : d.get? "scales" = none) :
    (Json.obj (d.extend g.sections)).itemsField "scales" = g.scales := by
  unfold Json.itemsField
  rw [Json.field?_obj, get?_extend_sections, g.get?_sections.1, hd]
  cases g.scales <;> rfl

theorem holdsScale_written (g : Group) {d : Dict Json} (hscales : d.get? "scales" = none)
    (hmarks : d.get? "marks" = none) {defined : List String}
    (hdefined : (Json.obj (d.extend g.sections)).defined = defined) :
    HoldsScale scope (.obj (d.extend g.sections)) inside scale ↔
      g.Holds (defined ++ scope) inside scale := by
  rw [holdsScale_iff, hdefined, g.itemsField_scales hscales, g.itemsField_marks hmarks]
  rfl

end Group

/-! ### Views and what they can see -/

/-- A tree of views in a layout: whether it is outside of cells, and the names that it can see. -/
structure Scene where
  outside : Bool
  scope : List String
  tree : Tree View

namespace Layout

/-- The names that the group of the cells of a view defines. -/
def cellNames (l : Layout) (v : View) : List String :=
  match l.facet? v with
  | some facet => names (l.cellDatasets facet) ++ [facet.name]
  | none => []

mutual

/-- A tree of views and all trees in it, as far as they are written. -/
def scenes (l : Layout) (outside : Bool) (scope : List String) : Tree View → List Scene
  | .node v children => ⟨outside, scope, .node v children⟩ ::
    match v.body with
    | .unit _ _ => []
    | .facet _ => scenesAll l false (l.cellNames v ++ scope) children
    | _ => scenesAll l outside scope children

def scenesAll (l : Layout) (outside : Bool) (scope : List String) : List (Tree View) → List Scene
  | [] => []
  | t :: rest => scenes l outside scope t ++ scenesAll l outside scope rest

end

/-- The written scales of a view: those that no view above has taken over. -/
def written (l : Layout) (scene : Scene) : List Json :=
  (l.components scene.outside scene.tree.value).scales

variable (l : Layout) {outside : Bool}

theorem not_holdsScale_unitMark (w : View) (mark : Mark) :
    ¬ HoldsScale scope (l.unitMark outside w mark) inside scale := by
  apply not_holdsScale
  all_goals
    unfold unitMark
    simp

theorem not_holdsScale_headerMarks (w : View) (m : Facet) :
    ∀ mark ∈ headerMarks w m, ¬ HoldsScale scope mark inside scale := by
  intro mark hmark
  obtain ⟨⟨channel, header⟩, -, rfl⟩ := mem_map.mp hmark
  apply not_holdsScale
  all_goals
    simp

theorem holdsScale_plain (name : String) (g : Group) :
    HoldsScale scope (.obj (Dict.extend (Dict.ofList [("name", .str name), ("type", .str "group")])
      g.sections)) inside scale ↔ g.Holds scope inside scale := by
  have hget : ∀ key, key ≠ "name" → key ≠ "type" → Dict.get? (Dict.ofList
      [("name", Json.str name), ("type", .str "group")]) key = none := by
    intro key hname htype
    simp [hname, htype]
  obtain ⟨hdata, hfrom⟩ := g.field?_extend (Dict.ofList [("name", .str name), ("type", .str "group")])
  rw [hget _ (by decide) (by decide)] at hdata hfrom
  have hdefined : (Json.obj (Dict.extend (Dict.ofList [("name", .str name), ("type", .str "group")])
      g.sections)).defined = [] := by
    simp [Json.defined, Json.itemsField, Json.split?, hdata, hfrom, names]
  exact g.holdsScale_written (hget _ (by decide) (by decide)) (hget _ (by decide) (by decide)) hdefined

theorem holdsScale_cell (w : View) (m : Facet) (g : Group) {cell : Dict Json}
    (hcell : cell = Dict.extend
      (Dict.ofList [("name", .str (w.inner "cell")), ("type", .str "group")]) (l.cellData m)) :
    HoldsScale scope (.obj (cell.extend g.sections)) inside scale ↔
      g.Holds (names (l.cellDatasets m) ++ [m.name] ++ scope) inside scale := by
  obtain ⟨-, -, hdefined, hnone⟩ := l.cell_fields w m g hcell
  exact g.holdsScale_written (hnone _ (by decide) (by decide) (by decide) (by decide))
    (hnone _ (by decide) (by decide) (by decide) (by decide)) hdefined

theorem holds_facetMarks (w : View) (g : Group) :
    (∃ mark ∈ l.facetMarks w g, HoldsScale scope mark inside scale) ↔
      g.Holds (l.cellNames w ++ scope) inside scale := by
  cases hfacet : l.facet? w with
  | none =>
    have hmarks : l.facetMarks w g = [.obj (Dict.extend (Dict.ofList [("name", .str (w.inner "cell")),
        ("type", .str "group")]) g.sections)] := by
      unfold facetMarks
      rw [hfacet]
    have hnames : l.cellNames w = [] := by
      unfold cellNames
      rw [hfacet]
    simp [hmarks, hnames, holdsScale_plain]
  | some m =>
    obtain ⟨cell, hcell⟩ : ∃ cell : Dict Json, cell = Dict.extend
      (Dict.ofList [("name", .str (w.inner "cell")), ("type", .str "group")]) (l.cellData m) := ⟨_, rfl⟩
    have hmarks : l.facetMarks w g = headerMarks w m ++ [.obj (cell.extend g.sections)] := by
      unfold facetMarks
      rw [hfacet, hcell]
    have hnames : l.cellNames w = names (l.cellDatasets m) ++ [m.name] := by
      unfold cellNames
      rw [hfacet]
    rw [hmarks, hnames, ← l.holdsScale_cell w m g hcell]
    simp only [mem_append, mem_singleton, or_and_right, exists_or, exists_eq_left]
    refine or_iff_right ?_
    rintro ⟨mark, hmark, h⟩
    exact not_holdsScale_headerMarks w m mark hmark h

theorem holds_components (w : View) : (l.components outside w).Holds scope inside scale ↔
    scope = inside ∧ scale ∈ (l.components outside w).scales := by
  constructor
  · rintro (⟨h, rfl⟩ | ⟨_, hmark, _⟩)
    · exact ⟨rfl, h⟩
    · exact absurd hmark not_mem_nil
  · rintro ⟨rfl, h⟩
    exact .inl ⟨h, rfl⟩

theorem holds_concat (outside : Bool) (ts : List (Tree View)) :
    (∃ mark ∈ List.zipWith concatMark (ts.map Tree.value) (l.groups outside ts),
      HoldsScale scope mark inside scale) ↔
      ∃ g ∈ l.groups outside ts, g.Holds scope inside scale := by
  induction ts with
  | nil => simp [groups]
  | cons t rest ih =>
    unfold groups
    simp only [map_cons, zipWith_cons_cons, mem_cons, exists_eq_or_imp, ih,
      concatMark, holdsScale_plain]

theorem scenesAll_eq (scope : List String) (ts : List (Tree View)) :
    l.scenesAll outside scope ts = ts.flatMap (l.scenes outside scope) := by
  induction ts with
  | nil => rfl
  | cons t rest ih => rw [scenesAll, ih, flatMap_cons]

theorem holds_group (t : Tree View) : (l.group outside t).Holds scope inside scale ↔
    ∃ scene ∈ l.scenes outside scope t, scene.scope = inside ∧ scale ∈ l.written scene := by
  induction t generalizing outside scope with
  | node w children ih =>
    have hown : ∀ scenes : List Scene, (∃ scene ∈ (⟨outside, scope, .node w children⟩ : Scene) :: scenes,
        scene.scope = inside ∧ scale ∈ l.written scene) ↔
        (l.components outside w).Holds scope inside scale ∨
          ∃ scene ∈ scenes, scene.scope = inside ∧ scale ∈ l.written scene := by
      intro scenes
      simp only [mem_cons, or_and_right, exists_or, exists_eq_left, holds_components]
      rfl
    have hbelow : ∀ {outside scope}, (∃ g ∈ l.groups outside children, g.Holds scope inside scale) ↔
        ∃ scene ∈ l.scenesAll outside scope children, scene.scope = inside ∧ scale ∈ l.written scene := by
      intro outside scope
      simp only [Compilation.groups_eq, scenesAll_eq, mem_flatMap, exists_exists_and_eq_and, mem_map]
      rw [exists_congr fun t => and_congr_right fun ht => ih t ht]
      grind
    unfold group scenes
    rw [hown]
    cases w.body with
    | unit mark e => simp [Group.holds_append, Group.holds_of_marks, not_holdsScale_unitMark]
    | layer => rw [Group.holds_foldl, hbelow]
    | concat => rw [Group.holds_append, Group.holds_of_marks, holds_concat, hbelow]
    | facet mapping =>
      rw [Group.holds_append, Group.holds_of_marks, holds_facetMarks, Group.holds_foldl,
        hbelow, or_iff_right Group.not_holds_empty]

end Layout

/-! ### Views in cells -/

namespace View

mutual

/-- The views of a tree that are in a cell of a view of the tree. -/
def celled : Tree View → List View
  | .node v children => if v.isFacet then Tree.preorders children else celledAll children

/-- The views of several trees that are in a cell of a view of their tree. -/
def celledAll : List (Tree View) → List View
  | [] => []
  | t :: rest => celled t ++ celledAll rest

end

variable {f : Forest} {u : View}

theorem mem_celledAll {ts : List (Tree View)} : u ∈ celledAll ts ↔ ∃ t ∈ ts, u ∈ celled t := by
  induction ts with
  | nil => simp [celledAll]
  | cons t rest ih => simp [celledAll, ih]

theorem Placed.housed_or_celled (t : Tree View) {cells : List String} (h : Placed f cells t)
    (hu : u ∈ t.preorder) : u.Housed f cells ∨ u ∈ celled t ∧ ∃ cells, u.Housed f cells := by
  have hhoused := h.housed _ u hu
  induction t generalizing cells with
  | node v children ih =>
    rcases mem_cons.mp hu with rfl | hu
    · exact .inl h.1
    · unfold celled
      have hbelow := h.2
      unfold cellsInside at hbelow
      split at hbelow
      · rename_i hfacet
        exact .inr ⟨by rwa [if_pos hfacet], hhoused⟩
      · rename_i hfacet
        rw [if_neg hfacet]
        obtain ⟨t, ht, hu⟩ := Tree.mem_preorders.mp hu
        exact (ih t ht (placedAll_iff.mp hbelow t ht) hu).imp_right fun hcelled =>
          ⟨mem_celledAll.mpr ⟨t, ht, hcelled.1⟩, hcelled.2⟩

end View

namespace Compilation

variable {given : Config} {spec : Json} {c : Compilation given spec} {cells : List String} {w : View}

/-- Outside of cells every unit view has a dataset that is outside of cells: its own one, or that of the
copy of its main output. -/
theorem Orderly.dataset_outside (h : c.Orderly) (hw : w.Housed c.grown.2 cells)
    (hunit : w.unit?.isSome) : ∃ source, c.layout.dataset? true (w.inner "main") = some source ∧
      source ∈ names c.layout.datasets.top := by
  obtain ⟨part, o, -, hname, hfinds⟩ := hw.main hunit
  have hunscaled := h.unscaled _ (Dict.mem_of_get? hfinds.entry)
  have hnode := h.housing.keeps.node hfinds.node hfinds.vital
  unfold Layout.dataset?
  rw [if_pos rfl]
  cases hcopy : c.forest.outputs.get? (scaleStem ++ w.inner "main") with
  | none =>
    -- Without a copy the output is in no cell.
    have hcell : c.grown.2.cell? part.main = none := by
      by_contra hcell
      obtain ⟨k, -, hk, -⟩ := h.arranged.optimize_serves c.optimized_eq hfinds.node hfinds.vital hcell
      rw [h.arranged.fresh _ _ hfinds.node, hname] at hk
      exact absurd (hcopy.symm.trans hk) nofun
    have hmain := h.housing.get?_eq h.arranged hfinds.entry hfinds.node hfinds.vital hunscaled
    obtain ⟨source, hsource, hmem⟩ := h.datasetName?_mem_top hmain hnode
      ((h.housing.cell hfinds.node hfinds.vital).trans hcell)
    exact ⟨source, by rw [h.datasetName?_eq_none hcopy, hsource]; rfl, hmem⟩
  | some k =>
    rcases h.housing.entry (Dict.mem_of_get? hcopy) with hold | ⟨o', ho', -, -, hcell⟩
    · exact absurd rfl (h.unscaled _ hold (w.inner "main"))
    · obtain ⟨source, hsource, hmem⟩ := h.datasetName?_mem_top hcopy ho' hcell
      exact ⟨source, by rw [hsource]; rfl, hmem⟩

/-- What is known of the place of a tree of views. -/
structure Staged (c : Compilation given spec) (scene : Scene) : Prop where
  placed : ∃ cells, View.Placed c.grown.2 cells scene.tree ∧
    Hosts (fun _ => False) c.layout.datasets cells scene.scope
  top : names c.layout.datasets.top ⊆ scene.scope
  reading : View.Reading scene.tree

theorem Orderly.staged (h : c.Orderly) (t : Tree View) {outside : Bool}
    (hplaced : View.Placed c.grown.2 cells t) (hosts : Hosts (fun _ => False) c.layout.datasets cells scope)
    (htop : names c.layout.datasets.top ⊆ scope) (hreading : View.Reading t) :
    ∀ scene ∈ c.layout.scenes outside scope t, c.Staged scene := by
  induction t generalizing outside cells scope with
  | node w children ih =>
    intro scene hscene
    unfold Layout.scenes at hscene
    rcases mem_cons.mp hscene with rfl | hscene
    · exact ⟨⟨cells, hplaced, hosts⟩, htop, hreading⟩
    obtain ⟨hw, hbelow⟩ := hplaced
    have hall : ∀ {outside scope}, Hosts (fun _ => False) c.layout.datasets (w.cellsInside cells) scope →
        names c.layout.datasets.top ⊆ scope → scene ∈ c.layout.scenesAll outside scope children →
        c.Staged scene := fun hosts htop hscene => by
      obtain ⟨t, ht, hscene⟩ := mem_flatMap.mp (c.layout.scenesAll_eq _ children ▸ hscene)
      exact ih t ht (View.placedAll_iff.mp hbelow t ht) hosts htop
        (View.readingAll_iff.mp hreading.2 t ht) scene hscene
    split at hscene
    · exact absurd hscene not_mem_nil
    · rename_i hbody
      have hfacet : w.isFacet := by rw [View.isFacet, hbody]
      obtain ⟨m, data, source, datasets, hname, hfacet?, hcell, -⟩ := h.exists_facet hw hfacet
      have hnames : c.layout.cellNames w = names datasets ++ [m.name] := by
        unfold Layout.cellNames Layout.cellDatasets
        rw [hfacet?]
        show names (((c.layout.datasets.cells.get? m.name).map CellData.datasets).getD []) ++ _ = _
        rw [hcell]
        rfl
      rw [hnames] at hscene
      refine hall ?_ (List.Subset.trans htop (subset_append_right _ _)) hscene
      rw [View.cellsInside, if_pos hfacet, ← hname]
      exact hosts.inside hcell
    · rename_i hunit hnot
      have hfacet : w.isFacet = false := by unfold View.isFacet; split <;> simp_all
      exact hall (by rwa [View.cellsInside, hfacet]) htop hscene

/-- What a unit view below a scene is read as: a dataset that the scene can see, or, in a cell, one of a
cell further inside. -/
theorem Orderly.dataset_of_staged (h : c.Orderly) {scene : Scene} (hscene : c.Staged scene) {u : View}
    (hu : u ∈ scene.tree.preorder) (hunit : u.unit?.isSome) :
    ∃ source, c.layout.dataset? scene.outside (u.inner "main") = some source ∧
      (source ∈ scene.scope ∨ scene.outside = false ∧ u ∈ View.celled scene.tree) := by
  obtain ⟨cells, hplaced, hosts⟩ := hscene.placed
  rcases View.Placed.housed_or_celled _ hplaced hu with hhoused | ⟨hcelled, cells', hhoused⟩
  · obtain ⟨source, hsource, hmem⟩ := h.dataset_visible hosts hhoused hunit scene.outside
    exact ⟨source, hsource, .inl hmem⟩
  · cases hside : scene.outside with
    | true =>
      obtain ⟨source, hsource, hmem⟩ := h.dataset_outside hhoused hunit
      exact ⟨source, hsource, .inl (hscene.top hmem)⟩
    | false =>
      obtain ⟨part, o, -, hname, hfinds⟩ := hhoused.main hunit
      obtain ⟨j, o', source, -, -, hsource⟩ := h.exists_supply hfinds hname false
      exact ⟨source, hsource, .inr ⟨rfl, hcelled⟩⟩

end Compilation

namespace Scale

theorem exists_domain_of_toJson {signals : Renames} {dataset? : String → Option String} {s : Scale}
    {domain : Json} (hexplicit : s.props.explicit.get? "domain" = none)
    (h : (s.toJson signals dataset?).field? "domain" = some domain) :
    ∃ inferred, ("domain", inferred) ∈ s.props.implicit ∧
      domain.dataNames = inferred.dataNames.map fun name => (dataset? name).getD name := by
  have hget : (Dict.get? (Dict.extend [("name", .str s.name)] s.props.combine) "domain").map
      (fun d => Reference.resolveData dataset? (Reference.resolveSignals signals d)) = some domain := by
    rw [← h]
    show _ = Dict.get? (Reference.resolveDataFields dataset? (Reference.resolveSignalFields signals _)) _
    rw [Reference.get?_resolveDataFields _ (by decide), Reference.get?_resolveSignalFields _ (by decide),
      Option.map_map]
    rfl
  obtain ⟨inferred, hinferred, rfl⟩ := Option.map_eq_some_iff.mp hget
  refine ⟨inferred, ?_, ?_⟩
  · rcases Dict.mem_of_mem_extend (Dict.mem_of_get? hinferred) with hmem | hmem
    · rcases Dict.mem_of_mem_extend hmem with hmem | hmem
      · exact absurd rfl (Dict.ne_of_get?_eq_none hexplicit hmem)
      · exact hmem
    · simp at hmem
  · rw [Reference.dataNames_resolveData, Reference.dataNames_resolveSignals]

end Scale

namespace Compilation

variable {given : Config} {spec : Json} {c : Compilation given spec}

/-- The trees of views of a chart, each with the names that it can see. -/
def scenes (c : Compilation given spec) : List Scene :=
  c.layout.scenes true (names (View.storeDatasets c.views ++ c.layout.datasets.top)) c.views

theorem holdsScale_compiled (c : Compilation given spec) :
    HoldsScale [] c.compiled.spec inside scale ↔
      ∃ scene ∈ c.scenes, scene.scope = inside ∧ scale ∈ c.layout.written scene := by
  obtain ⟨d, hwrite, hd⟩ := exists_write c.views c.layout
  have hnone : ∀ key, key ≠ "title" → key ≠ "signals" → key ≠ "$schema" → key ≠ "data" →
      d.get? key = none := by
    intro key htitle hsignals hschema hdata
    rw [hd key htitle hsignals]
    simp [hschema, hdata]
  have hdefined : (Compiled.write c.views c.layout).defined = _ := c.defined_compiled
  rw [hwrite] at hdefined
  show HoldsScale [] (Compiled.write c.views c.layout) inside scale ↔ _
  rw [hwrite, Group.holdsScale_written _
    (hnone _ (by decide) (by decide) (by decide) (by decide))
    (hnone _ (by decide) (by decide) (by decide) (by decide)) hdefined, append_nil]
  exact c.layout.holds_group c.views

theorem Orderly.staged_scenes (h : c.Orderly) : ∀ scene ∈ c.scenes, c.Staged scene := by
  have hnames : names (View.storeDatasets c.views ++ c.layout.datasets.top) =
      names (View.storeDatasets c.views) ++ names c.layout.datasets.top := names_append
  exact h.staged c.views h.placed (.top nofun) (hnames ▸ subset_append_right _ _) c.reading_views

end Compilation

/-- The domains of scales read what they can see, for every nesting of views and every way to share
scales, when the views have different names, none of which is called like a copy. The scales in a compiled
chart are those of its views that no view above has taken over, each in the group of its view. Whatever
the domain of such a scale refers to, if the user did not write it, is defined in this group or in one
around it. The exception is a scale in a cell: it may also refer to the dataset of a view in a cell
further inside. -/
theorem compile_domains_visible {given : Config} {spec : Json} {compiled : Compiled}
    {views : Tree View} (hcompile : (compile given spec).outcome = .ok compiled)
    (hviews : (Chart.read spec >>= View.build).outcome = .ok views) (hapart : View.Apart views) :
    ∃ c : Compilation given spec, c.compiled = compiled ∧
      (∀ inside scale, HoldsScale [] compiled.spec inside scale ↔
        ∃ scene ∈ c.scenes, scene.scope = inside ∧ ∃ s ∈ scene.tree.value.scales.values,
          s.merged = false ∧ scale = s.toJson c.layout.forest.signals (c.layout.dataset? scene.outside)) ∧
      ∀ scene ∈ c.scenes, ∀ s ∈ scene.tree.value.scales.values,
        s.props.explicit.get? "domain" = none → ∀ domain,
        (s.toJson c.layout.forest.signals (c.layout.dataset? scene.outside)).field? "domain" = some domain →
        ∀ name ∈ domain.dataNames, name ∈ scene.scope ∨ scene.outside = false ∧
          ∃ u ∈ View.celled scene.tree, u.unit?.isSome ∧
            c.layout.dataset? false (u.inner "main") = some name := by
  obtain ⟨c, rfl, hnamed⟩ := exists_compilation hcompile hviews
  have h := Compilation.Orderly.of_apart (hnamed ▸ hapart)
  refine ⟨c, rfl, fun inside scale => ?_, fun scene hscene s hs hexplicit domain hdomain name hname => ?_⟩
  · rw [c.holdsScale_compiled]
    refine exists_congr fun scene => and_congr_right fun _ => and_congr_right fun _ => ?_
    unfold Layout.written Layout.components
    simp only [mem_map, mem_filter, Bool.not_eq_true', and_assoc, eq_comm (a := scale)]
  · have hstaged := h.staged_scenes scene hscene
    obtain ⟨inferred, hinferred, hnames⟩ := Scale.exists_domain_of_toJson hexplicit hdomain
    rw [hnames] at hname
    obtain ⟨main, hmain, rfl⟩ := mem_map.mp hname
    obtain ⟨u, hu, hunit, rfl⟩ := hstaged.reading.exists_unit hs hinferred hmain
    obtain ⟨source, hsource, hseen⟩ := h.dataset_of_staged hstaged hu hunit
    rw [hsource]
    rcases hseen with hmem | ⟨hinside, hcelled⟩
    · exact .inl hmem
    · rw [hinside] at hsource
      exact .inr ⟨hinside, u, hcelled, hunit, hsource⟩

/-! ### Charts -/

/-- The scales in the group that is found by going to the marks at some places, with the names around
them. -/
def Json.scalesAt (scope : List String) (v : Json) : List Nat → List String × List Json
  | [] => (v.defined ++ scope, v.itemsField "scales")
  | i :: path => (((v.itemsField "marks")[i]?).map fun mark =>
      scalesAt (v.defined ++ scope) mark path).getD ([], [])

theorem holdsScale_scalesAt (path : List Nat) (h : scale ∈ (v.scalesAt scope path).2) :
    HoldsScale scope v (v.scalesAt scope path).1 scale := by
  induction path generalizing scope v with
  | nil => exact .here h
  | cons i path ih =>
    unfold Json.scalesAt at h ⊢
    cases hmark : (v.itemsField "marks")[i]? with
    | none => simp [hmark] at h
    | some mark =>
      rw [hmark] at h
      exact .mark (mem_of_getElem? hmark) (ih h)

def Json.domainsAt (v : Json) (path : List Nat) : List String × List (Option String × List String) :=
  ((v.scalesAt [] path).1, (v.scalesAt [] path).2.map fun scale =>
    (scale.textField? "name", ((scale.field? "domain").map Json.dataNames).getD []))

/-- Layers in cells that share a scale with each other and with the views beside them, and cells with
scales of their own. -/
def sharingCells : Json :=
  let field (name type : String) : Json := .object [("field", .str name), ("type", .str type)]
  let unit (mark x : String) : Json := .object [("mark", .str mark),
    ("encoding", .object [("x", field x "quantitative")])]
  let resolve (sharing : String) : Json := .object [("scale", .object [("x", .str sharing)])]
  .object [
    ("data", .object [("values", .arr [
      .object [("a", .nat 1), ("b", .nat 2), ("c", .str "u"), ("d", .str "v")]])]),
    ("hconcat", .arr [
      .object [("facet", .object [("row", field "c" "nominal")]),
        ("spec", .object [("layer", .arr [unit "point" "a", unit "bar" "b"])])],
      .object [("facet", .object [("column", field "d" "nominal")]), ("spec", unit "point" "a"),
        ("resolve", resolve "independent")]]),
    ("resolve", resolve "shared")]

theorem compile_sharingCells : ∃ compiled views, (compile {} sharingCells).outcome = .ok compiled ∧
    (Chart.read sharingCells >>= View.build).outcome = .ok views ∧ View.Apart views ∧
    compiled.spec.domainsAt [] = (["source_0", "data_0", "concat_1_column_domain", "concat_0_row_domain",
      "data_3"], [(some "x", ["data_0", "data_3", "data_3"])]) ∧
    compiled.spec.domainsAt [1, 1] = (["concat_1_facet", "source_0", "data_0", "concat_1_column_domain",
      "concat_0_row_domain", "data_3"], [(some "concat_1_child_x", ["concat_1_facet"])]) ∧
    ∃ c : Compilation {} sharingCells, c.compiled = compiled ∧
      (∀ inside scale, HoldsScale [] compiled.spec inside scale ↔
        ∃ scene ∈ c.scenes, scene.scope = inside ∧ ∃ s ∈ scene.tree.value.scales.values,
          s.merged = false ∧ scale = s.toJson c.layout.forest.signals (c.layout.dataset? scene.outside)) ∧
      ∀ scene ∈ c.scenes, ∀ s ∈ scene.tree.value.scales.values,
        s.props.explicit.get? "domain" = none → ∀ domain,
        (s.toJson c.layout.forest.signals (c.layout.dataset? scene.outside)).field? "domain" = some domain →
        ∀ name ∈ domain.dataNames, name ∈ scene.scope ∨ scene.outside = false ∧
          ∃ u ∈ View.celled scene.tree, u.unit?.isSome ∧
            c.layout.dataset? false (u.inner "main") = some name := by
  have hcompile : (compile {} sharingCells).outcome.toOption.map (fun compiled =>
      (compiled.spec.domainsAt [], compiled.spec.domainsAt [1, 1])) =
      some ((["source_0", "data_0", "concat_1_column_domain", "concat_0_row_domain", "data_3"],
        [(some "x", ["data_0", "data_3", "data_3"])]),
        (["concat_1_facet", "source_0", "data_0", "concat_1_column_domain", "concat_0_row_domain",
          "data_3"], [(some "concat_1_child_x", ["concat_1_facet"])])) := by decide +kernel
  have hviews : (Chart.read sharingCells >>= View.build).outcome.toOption.map
      (fun views => views.preorder.map View.name) = some ["", "concat_0", "concat_0_child",
        "concat_0_child_layer_0", "concat_0_child_layer_1", "concat_1", "concat_1_child"] := by
    decide +kernel
  obtain ⟨compiled, hcompiled, hdomains⟩ := exists_ok_of_map hcompile
  obtain ⟨views, hviews, hnames⟩ := exists_ok_of_map hviews
  obtain ⟨htop, hcell⟩ := Prod.mk.inj hdomains
  have hapart : View.Apart views := ⟨by rw [hnames]; decide, by rw [hnames]; decide⟩
  exact ⟨compiled, views, hcompiled, hviews, hapart, htop, hcell,
    compile_domains_visible hcompiled hviews hapart⟩

/-- Cells in cells: the inner ones share a scale in the outer ones, and each outer cell has its own. -/
def nestedCells : Json :=
  let field (name type : String) : Json := .object [("field", .str name), ("type", .str type)]
  .object [
    ("data", .object [("values", .arr [.object [("a", .nat 1), ("c", .str "u"), ("d", .str "v")]])]),
    ("facet", .object [("row", field "c" "nominal")]),
    ("spec", .object [("facet", .object [("column", field "d" "nominal")]),
      ("spec", .object [("mark", .str "point"), ("encoding", .object [("x", field "a" "quantitative")])])]),
    ("resolve", .object [("scale", .object [("x", .str "independent")])])]

/-- The scale in the outer cell reads a dataset that is defined in the inner cell only. -/
theorem compile_nestedCells : ∃ compiled views, (compile {} nestedCells).outcome = .ok compiled ∧
    (Chart.read nestedCells >>= View.build).outcome = .ok views ∧ View.Apart views ∧
    ∃ inside scale domain, HoldsScale [] compiled.spec inside scale ∧
      scale.textField? "name" = some "child_x" ∧ scale.field? "domain" = some domain ∧
      "data_1" ∈ domain.dataNames ∧ "data_1" ∉ inside := by
  have hcompile : (compile {} nestedCells).outcome.toOption.map (fun compiled =>
      compiled.spec.domainsAt [1]) = some (["child_column_domain", "facet", "source_0", "data_0",
        "row_domain"], [(some "child_x", ["data_1"])]) := by decide +kernel
  have hviews : (Chart.read nestedCells >>= View.build).outcome.toOption.map
      (fun views => views.preorder.map View.name) = some ["", "child", "child_child"] := by decide +kernel
  obtain ⟨compiled, hcompiled, hdomains⟩ := exists_ok_of_map hcompile
  obtain ⟨views, hviews, hnames⟩ := exists_ok_of_map hviews
  obtain ⟨hinside, hscales⟩ := Prod.mk.inj hdomains
  obtain ⟨scale, hscale, hfacts⟩ := map_eq_singleton_iff.mp hscales
  obtain ⟨hname, hdomain⟩ := Prod.mk.inj hfacts
  obtain ⟨domain, hfield⟩ : ∃ domain, scale.field? "domain" = some domain := by
    cases hfield : scale.field? "domain" with
    | none => simp [hfield] at hdomain
    | some domain => exact ⟨domain, rfl⟩
  rw [hfield] at hdomain
  have hapart : View.Apart views := ⟨by rw [hnames]; decide, by rw [hnames]; decide⟩
  refine ⟨compiled, views, hcompiled, hviews, hapart, _, scale, domain,
    holdsScale_scalesAt [1] (by rw [hscale]; exact mem_singleton_self _), hname, hfield, ?_, ?_⟩
  · rw [show domain.dataNames = ["data_1"] from hdomain]
    exact mem_singleton_self _
  · rw [hinside]
    decide

end ChartPlan
