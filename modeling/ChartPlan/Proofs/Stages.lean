import ChartPlan.Proofs.Flow.Grounding
import ChartPlan.Proofs.View.Placement
import ChartPlan.Proofs.View.Shape

/-!
# The stages of a compilation

A chart that is compiled is read and named, prepared, given a dataflow and drawn, and the dataflow is
optimized and written. All of these are determined by the chart and the configuration.

* `Compilation`: the stages of a chart that is compiled.
* `compile_eq_ok_iff`: a chart is compiled exactly if it goes through the stages.
* `Compilation.Orderly`: when the views have different names, all of them are found in the dataflow,
  and optimization keeps everything in its cell.
-/

namespace ChartPlan

open ChartPlan.Flow ChartPlan.Checked

/-! ### Stages -/

/-- What is read of a chart. -/
structure Reading (given : Config) (spec : Json) where
  config : Config
  chart : Chart
  /-- The views under their names. -/
  named : Tree View
  config_eq : Config.ofChart given spec = .ok config
  chart_eq : (Chart.read spec).outcome = .ok chart
  named_eq : (View.build chart).outcome = .ok named

namespace Reading

variable {given : Config} {spec : Json} (r : Reading given spec)

/-- The views with selections and scales, and the scales that were given up. -/
def scaled : Tree View × Renames :=
  (View.withScales r.config (View.withSelections r.named)).value

/-- The views with projections, and the projections that were given up. -/
def projected : Tree View × Renames :=
  (View.withProjections r.scaled.1).value

def context : DataContext :=
  .ofViews r.config r.projected.2 r.projected.1

end Reading

/-- The stages of a chart that is compiled. -/
structure Compilation (given : Config) (spec : Json) extends Reading given spec where
  /-- The views with the places of their data in the dataflow. -/
  grown : Tree View × Forest
  /-- The optimized dataflow. -/
  optimized : Progress
  grown_eq : (View.withData toReading.context toReading.projected.1).outcome = .ok grown
  optimized_eq : optimize toReading.context.rowIds grown.2 = .ok optimized

namespace Compilation

variable {given : Config} {spec : Json} (c : Compilation given spec)

def views : Tree View :=
  (View.withLegends (View.withAxes c.grown.1).value).value

/-- The optimized dataflow, before its datasets are written. -/
def forest : Forest :=
  c.optimized.forest

def layout : Layout where
  forest := c.forest.datasets.value.1
  datasets := c.forest.datasets.value.2
  scales := c.scaled.2

def compiled : Compiled where
  spec := Compiled.write c.views c.layout
  signals := c.layout.forest.signals
  scales := c.scaled.2

end Compilation

def Compilation.run (given : Config) (spec : Json) : Option (Compilation given spec) :=
  match config_eq : Config.ofChart given spec with
  | .error _ => none
  | .ok config =>
    match chart_eq : (Chart.read spec).outcome with
    | .error _ => none
    | .ok chart =>
      match named_eq : (View.build chart).outcome with
      | .error _ => none
      | .ok named =>
        let reading : Reading given spec := { config, chart, named, config_eq, chart_eq, named_eq }
        match grown_eq : (View.withData reading.context reading.projected.1).outcome with
        | .error _ => none
        | .ok grown =>
          match optimized_eq : optimize reading.context.rowIds grown.2 with
          | .error _ => none
          | .ok optimized => some { reading with grown, optimized, grown_eq, optimized_eq }

theorem Flow.outcome_toChecked {a : Attempt} {f : Forest} :
    (Attempt.toChecked a).outcome = .ok f ↔ ∃ p, a = .ok p ∧ p.forest = f := by
  cases a with
  | error e => exact ⟨fun h => (nomatch h), fun ⟨_, h, _⟩ => (nomatch h)⟩
  | ok p => exact ⟨fun h => ⟨p, rfl, Except.ok.inj h⟩, fun ⟨_, hp, h⟩ => Except.ok.inj hp ▸ h ▸ rfl⟩

theorem compile_eq_ok_iff {given : Config} {spec : Json} {compiled : Compiled} :
    (compile given spec).outcome = .ok compiled ↔
      ∃ c : Compilation given spec, c.compiled = compiled := by
  unfold compile
  simp only [outcome_bind_eq_ok, outcome_ofExcept, outcome_ofLogged, Except.ok.injEq, outcome_pure,
    outcome_toChecked]
  constructor
  · rintro ⟨config, hconfig, chart, hchart, named, hnamed, _, rfl, _, rfl, grown, hgrown, _, rfl, _,
      rfl, forest, ⟨p, hp, rfl⟩, _, rfl, h⟩
    exact ⟨⟨⟨config, chart, named, hconfig, hchart, hnamed⟩, grown, p, hgrown, hp⟩, h⟩
  · rintro ⟨c, rfl⟩
    exact ⟨c.config, c.config_eq, c.chart, c.chart_eq, c.named, c.named_eq, _, rfl, _, rfl, c.grown,
      c.grown_eq, _, rfl, _, rfl, c.forest, ⟨c.optimized, c.optimized_eq, rfl⟩, _, rfl, rfl⟩

theorem exists_compilation {given : Config} {spec : Json} {compiled : Compiled} {views : Tree View}
    (hcompile : (compile given spec).outcome = .ok compiled)
    (hviews : (Chart.read spec >>= View.build).outcome = .ok views) :
    ∃ c : Compilation given spec, c.compiled = compiled ∧ c.named = views := by
  obtain ⟨c, hc⟩ := compile_eq_ok_iff.mp hcompile
  obtain ⟨chart, hchart, hnamed⟩ := outcome_bind_eq_ok.mp hviews
  cases c.chart_eq.symm.trans hchart
  exact ⟨c, hc, Except.ok.inj (c.named_eq.symm.trans hnamed)⟩

/-! ### Views -/

/-- The views have different names, and none of them is called like a copy. -/
structure View.Apart (t : Tree View) : Prop where
  nodup : (t.preorder.map View.name).Nodup
  unscaled : ∀ name ∈ t.preorder.map View.name,
    name ≠ "scale" ∧ ¬ scaleStem.toList <+: name.toList

def View.outline (v : View) : String × Body × Option DataPart :=
  (v.name, v.body, v.dataPart)

theorem View.Housed.of_outline {v w : View} (h : w.outline = v.outline) {f : Forest}
    {cells : List String} (hv : v.Housed f cells) : w.Housed f cells := by
  obtain ⟨hname, hbody, hpart⟩ : w.name = v.name ∧ w.body = v.body ∧ w.dataPart = v.dataPart := by
    simpa [View.outline] using h
  refine ⟨fun hunit => ?_, fun hfacet => ?_⟩
  · rw [View.unit?, hbody] at hunit
    rw [hpart, View.inner, hname]
    exact hv.main hunit
  · rw [View.isFacet, hbody] at hfacet
    rw [View.inner, hname]
    exact hv.facet hfacet

theorem View.Placed.of_outline {f : Forest} {t u : Tree View} {cells : List String}
    (hmap : u.map View.outline = t.map View.outline) (h : View.Placed f cells t) :
    View.Placed f cells u := by
  induction u generalizing t cells with
  | node w us ih =>
    obtain ⟨v, ts⟩ := t
    obtain ⟨houtline, hmap⟩ := Tree.node.inj hmap
    have hcells : w.cellsInside cells = v.cellsInside cells := by
      obtain ⟨hname, hbody, -⟩ : w.name = v.name ∧ w.body = v.body ∧ w.dataPart = v.dataPart := by
        simpa [View.outline] using houtline
      unfold View.cellsInside View.isFacet View.inner
      rw [hname, hbody]
    refine ⟨h.1.of_outline houtline, View.placedAll_iff.mpr fun u hu => ?_⟩
    obtain ⟨t, ht, heq⟩ := Tree.exists_of_mapAll hmap hu
    exact ih u hu heq (hcells ▸ View.placedAll_iff.mp h.2 t ht)

namespace Compilation

variable {given : Config} {spec : Json} (c : Compilation given spec) {β : Type} {see : View → β}

theorem map_projected (h : ∀ v selections scales resolve projectionPart,
      see { v with selections, scales, resolve, projectionPart } = see v) :
    c.projected.1.map see = c.named.map see :=
  (View.map_withProjections (fun v part => h v v.selections v.scales v.resolve part) _).value.trans
    ((View.map_withScales (fun v scales resolve => h v v.selections scales resolve v.projectionPart)
      _ _).value.trans
      (View.map_withSelections (fun v selections =>
        h v selections v.scales v.resolve v.projectionPart) _))

theorem map_views (h : ∀ v axes legends, see { v with axes, legends } = see v) :
    c.views.map see = c.grown.1.map see :=
  (View.map_withLegends (fun v legends => h v v.axes legends) _).value.trans
    (View.map_withAxes (fun v axes => h v axes v.legends) _).value

theorem names_projected :
    c.projected.1.preorder.map View.name = c.named.preorder.map View.name := by
  rw [← Tree.preorder_map, ← Tree.preorder_map, c.map_projected fun _ _ _ _ _ => rfl]

theorem selections_views :
    View.allSelections c.views = View.allSelections c.projected.1 := by
  have hmap : c.views.map View.selections = c.projected.1.map View.selections :=
    (c.map_views fun _ _ _ => rfl).trans (View.map_withData (fun _ _ => rfl) c.grown_eq)
  have hpre := congrArg Tree.preorder hmap
  rw [Tree.preorder_map, Tree.preorder_map] at hpre
  unfold View.allSelections
  rw [List.flatMap_def, List.flatMap_def, hpre]

/-- What is known of the dataflow when the views have different names. -/
structure Orderly : Prop where
  sown : c.grown.2.Sown (View.IsStore c.context)
  arranged : c.grown.2.Arranged
  unscaled : ∀ e ∈ c.grown.2.outputs, ∀ s, e.1 ≠ scaleStem ++ s
  unstored : ∀ e ∈ c.grown.2.outputs, ∀ selection, e.1 ≠ selection ++ "_store"
  placed : View.Placed c.grown.2 [] c.views
  housing : c.grown.2.Housing c.forest
  grounded : c.forest.Grounded

variable {c}

theorem Orderly.of_apart (h : View.Apart c.named) : c.Orderly := by
  have hisName : ∀ v ∈ c.named.preorder, IsName v.name :=
    (View.isName_build c.chart).of_eq_ok c.named_eq
  have hmem : ∀ {a}, a ∈ c.projected.1.preorder.map View.name →
      IsName a ∧ a ≠ "scale" ∧ ∀ rest, a ≠ scaleStem ++ rest := by
    intro a ha
    rw [c.names_projected] at ha
    obtain ⟨hscale, hstem⟩ := h.unscaled a ha
    obtain ⟨v, hv, rfl⟩ := List.mem_map.mp ha
    refine ⟨hisName v hv, hscale, fun rest he => hstem ?_⟩
    rw [he, String.toList_append]
    exact List.prefix_append _ _
  obtain ⟨hsown, hplaced, hgiven⟩ := (View.withData_placed c.context c.projected.1
    (fun v hv => (hmem (List.mem_map_of_mem hv)).1) (c.names_projected ▸ h.nodup)).of_eq_ok c.grown_eq
  have hunscaled : ∀ e ∈ c.grown.2.outputs, ∀ s, e.1 ≠ scaleStem ++ s := by
    intro e he s
    obtain ⟨a, slot, ha, hkey⟩ := hgiven e he
    obtain ⟨hname, hscale, hstem⟩ := hmem ha
    exact hkey ▸ nameIn_slot_ne_scale hname hscale hstem slot s
  have harranged : c.grown.2.Arranged := hsown.arranged fun hm s => by
    obtain ⟨-, _, _, -, hentry, -⟩ := hsown.suits hm
    exact hunscaled _ (Dict.mem_of_get? hentry) s
  obtain ⟨p, hp, hplanted, hhousing⟩ := harranged.optimize c.context.rowIds
  cases c.optimized_eq.symm.trans hp
  refine ⟨hsown, harranged, hunscaled, fun e he selection => ?_, ?_, hhousing,
    datasets_grounded hplanted.toValidBut ?_ ?_⟩
  · obtain ⟨a, slot, ha, hkey⟩ := hgiven e he
    exact hkey ▸ nameIn_slot_ne_store (hmem ha).1 slot selection
  · exact View.Placed.of_outline (c.map_views fun _ _ _ => rfl) hplaced
  · exact fun hm hm' he => hsown.facetsApart (hhousing.facet hm) (hhousing.facet hm') he
  · intro i s hs
    obtain ⟨j, hj⟩ := hhousing.given hs rfl
    exact hsown.suits hj

/-! ### What marks read -/

/-- The output that a mark reads: the one of a view, or outside of cells its copy over all data. -/
structure Supplies (c : Compilation given spec) (outside : Bool) (name : String) (i j : NodeId)
    (o : Output) : Prop where
  node : c.forest.node? j = some (.output o)
  called : o.name = name
  own : j = i ∨ outside ∧ c.forest.outputs.get? (scaleStem ++ name) = some j ∧
    o.source = scaleStem ++ name ∧ c.forest.cell? j = none

theorem Orderly.datasetName?_eq (h : c.Orderly) {name : String} {j : NodeId} {o : Output}
    (hentry : c.forest.outputs.get? name = some j) (ho : c.forest.node? j = some (.output o)) :
    ∃ source, c.layout.forest.node? j = some (.output { o with source := source }) ∧
      c.layout.forest.datasetName? name = some source := by
  obtain ⟨source, _, hsource, -⟩ := h.grounded.output j o ho
  refine ⟨source, hsource, ?_⟩
  have hentry' : c.layout.forest.outputs.get? name = some j := h.grounded.told.outputs ▸ hentry
  unfold Forest.datasetName?
  rw [hentry', Option.bind_some, show c.layout.forest.node? j = _ from hsource]
  rfl

theorem Orderly.datasetName?_eq_none (h : c.Orderly) {name : String}
    (hentry : c.forest.outputs.get? name = none) : c.layout.forest.datasetName? name = none := by
  unfold Forest.datasetName?
  rw [show c.layout.forest.outputs = c.forest.outputs from h.grounded.told.outputs, hentry]
  rfl

theorem Orderly.exists_supply (h : c.Orderly) {cells : List String} {name : String} {i : NodeId}
    {o : Output} (hfinds : c.grown.2.Finds cells name i (.output o)) (hname : o.name = name)
    (outside : Bool) : ∃ j o' source, c.Supplies outside name i j o' ∧
      c.layout.forest.node? j = some (.output { o' with source := source }) ∧
      c.layout.dataset? outside name = some source := by
  have hunscaled := h.unscaled _ (Dict.mem_of_get? hfinds.entry)
  have hmain := h.housing.get?_eq h.arranged hfinds.entry hfinds.node hfinds.vital hunscaled
  have hnode := h.housing.keeps.node hfinds.node hfinds.vital
  obtain ⟨source, hsource, hdataset⟩ := h.datasetName?_eq hmain hnode
  have hown : c.Supplies outside name i i o := ⟨hnode, hname, .inl rfl⟩
  cases outside with
  | false => exact ⟨i, o, source, hown, hsource, hdataset⟩
  | true =>
    unfold Layout.dataset?
    rw [if_pos rfl]
    cases hcopy : c.forest.outputs.get? (scaleStem ++ name) with
    | none =>
      exact ⟨i, o, source, hown, hsource, by rw [h.datasetName?_eq_none hcopy, hdataset]; rfl⟩
    | some j =>
      rcases h.housing.entry (Dict.mem_of_get? hcopy) with hold | ⟨o', ho', hsource', hcopied, hcell⟩
      · exact absurd rfl (h.unscaled _ hold name)
      · obtain ⟨copied, hcopied', hdataset'⟩ := h.datasetName?_eq hcopy ho'
        -- The name of the copy tells whose copy it is.
        have hname' : o'.name = name := by
          obtain ⟨s, hs, hrest⟩ := hcopied
          have hs' : s = name := (String.append_right_inj _).mp (hs.symm.trans hsource')
          rcases hrest with hrest | ⟨r, hr⟩
          · exact hrest.symm.trans hs'
          · exact absurd (hs'.symm.trans hr) (hunscaled r)
        exact ⟨j, o', copied, ⟨ho', hname', .inr ⟨rfl, hcopy, hsource', hcell⟩⟩, hcopied',
          by rw [hdataset']; rfl⟩

end Compilation

end ChartPlan
