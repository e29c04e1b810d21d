import ChartPlan.Proofs.View.Sharing

/-!
# Axes and legends

An axis or a legend tells which scale it shows by the scale of the view for which it was made. A view
takes it over only together with that scale, so wherever it ends up, the replaced names lead from it to a
scale of its view or of a view above.

* `View.Guided`: the axes and legends of a view show scales of this view.
* `View.guided_withAxes`, `View.guided_withLegends`: all views are such.
* `withLegends_guidesOwned`: the scales to which axes, legends and the names of shared scales lead.
-/

namespace ChartPlan

open List Option Tree

/-! ### Merged axes and legends -/

theorem Axis.mergeInto_scale {acc merged : Axis} {rest : List Axis}
    (h : (mergeInto acc rest).value = some merged) :
    merged.channel = acc.channel ∧ merged.scale = acc.scale := by
  induction rest generalizing acc with
  | nil =>
    cases h
    exact ⟨rfl, rfl⟩
  | cons a rest ih =>
    unfold mergeInto at h
    split at h
    · cases h
    · have hrest := ih h
      exact hrest

theorem Axis.exists_of_mem_mergeAll {axes : List Axis} {a : Axis} (h : a ∈ (mergeAll axes).value) :
    ∃ b ∈ axes, a.channel = b.channel ∧ a.scale = b.scale := by
  cases axes with
  | nil => cases h
  | cons first rest =>
    unfold mergeAll at h
    simp only [Logged.value_bind] at h
    cases hmerged : (mergeInto first rest).value with
    | none =>
      rw [hmerged] at h
      exact ⟨a, h, rfl, rfl⟩
    | some merged =>
      rw [hmerged] at h
      rw [mem_singleton.mp h]
      exact ⟨first, mem_cons_self, mergeInto_scale hmerged⟩

theorem Legend.mergeInto_scale (acc : Legend) (rest : List Legend) :
    (mergeInto acc rest).value.channel = acc.channel ∧ (mergeInto acc rest).value.scale = acc.scale := by
  induction rest generalizing acc with
  | nil => exact ⟨rfl, rfl⟩
  | cons l rest ih => exact ih _

namespace View

variable {r : Renames} {v w : View} {c channel name : String} {t : Tree View} {ts : List (Tree View)}

/-! ### Guided views -/

/-- Whether a name leads to where the scale of a channel of the view leads. -/
def Shows (r : Renames) (v : View) (c name : String) : Prop :=
  ∃ s, v.scales.get? c = some s ∧ r.resolve name = r.resolve s.name

/-- The axes and legends of a view show scales of their channels in this view. -/
structure Guided (r : Renames) (v : View) : Prop where
  axes : ∀ entry ∈ v.axes, ∀ a ∈ entry.2, a.channel = entry.1 ∧ v.Shows r entry.1 a.scale
  legends : ∀ entry ∈ v.legends, entry.2.channel = entry.1 ∧ v.Shows r entry.1 entry.2.scale

/-- A view and the views below it while it takes over axes or legends. -/
structure Hosts (r : Renames) (v : View) (ts : List (Tree View)) : Prop where
  named : v.ScalesNamed
  roots : ∀ t ∈ ts, t.value.ScalesNamed ∧ ∀ c, Hangs r v t.value c
  guided : v.Guided r
  below : ∀ w ∈ Tree.preorders ts, w.Guided r

section

variable (h : Hosts r v ts)

include h

theorem Hosts.guided_root (ht : t ∈ ts) : t.value.Guided r :=
  h.below _ (mem_preorders.mpr ⟨t, ht, t.value_mem_preorder⟩)

theorem Hosts.shows (hr : r.Grounded) (ht : t ∈ ts)
    (hshared : v.sharing "scale" c ≠ .independent) (hshows : t.value.Shows r c name) : v.Shows r c name := by
  obtain ⟨s, hs, hresolve⟩ := hshows
  obtain ⟨hnamed, hhangs⟩ := h.roots t ht
  have hlink := hhangs c s hs
  rw [if_neg hshared] at hlink
  obtain ⟨-, hhas, hnext⟩ := hlink
  obtain ⟨s', hs'⟩ := isSome_iff_exists.mp hhas
  refine ⟨s', hs', hresolve.trans ?_⟩
  rw [(hnamed c s hs).2.2, (h.named c s' hs').2.2, hr.resolve_of_some hnext]

theorem Hosts.preorder : ∀ w ∈ (Tree.node v ts).preorder, w.Guided r := by
  intro w hw
  rcases mem_cons.mp hw with rfl | hw
  · exact h.guided
  · exact h.below w hw

/-! ### Axes -/

theorem Hosts.shareAxis (hr : r.Grounded) (channel : String) :
    Hosts r (View.shareAxis (v, ts) channel).value.1 (View.shareAxis (v, ts) channel).value.2 := by
  unfold View.shareAxis
  dsimp only
  split
  · exact h
  · split
    · split <;> exact h
    · rename_i hshared
      split
      · exact h
      · simp only [Logged.value_bind, Logged.value_pure]
        refine ⟨h.named, fun t ht => ?_, ⟨fun entry hentry a ha => ?_, h.guided.legends⟩, ?_⟩
        · obtain ⟨u, hu, rfl⟩ := mem_map.mp ht
          exact h.roots u hu
        · rcases Dict.mem_of_mem_insert hentry with rfl | hentry
          · obtain ⟨b, hb, hchannel, hscale⟩ := Axis.exists_of_mem_mergeAll ha
            obtain ⟨t, ht, hb⟩ := mem_flatMap.mp hb
            cases haxes : t.value.axes.get? channel with
            | none =>
              rw [haxes] at hb
              cases hb
            | some axes =>
              rw [haxes] at hb
              obtain ⟨hbchannel, hshows⟩ :=
                (h.guided_root ht).axes (channel, axes) (Dict.mem_of_get? haxes) b hb
              refine ⟨hchannel.trans hbchannel, ?_⟩
              rw [hscale]
              exact h.shows hr ht (fun heq => hshared (by simp [heq])) hshows
          · exact h.guided.axes entry hentry a ha
        · refine forall_mapChildren (fun w hw => ?_) ts h.below
          exact ⟨fun entry hentry => hw.axes entry (mem_filter.mp hentry).1, hw.legends⟩

theorem Hosts.shareAxes (hr : r.Grounded) :
    ∀ w ∈ (View.shareAxes v ts).value.preorder, w.Guided r := by
  unfold View.shareAxes
  split
  · exact h.preorder
  · exact ((h.shareAxis hr "x").shareAxis hr "y").preorder

end

/-- What matters of a view for its scales and their names. -/
def wiring (v : View) : String × Dict Scale × (String → Sharing) :=
  (v.name, v.scales, v.sharing "scale")

theorem ScalesNamed.of_wiring (h : v.ScalesNamed) (heq : w.wiring = v.wiring) : w.ScalesNamed := by
  simp only [wiring, Prod.mk.injEq] at heq
  unfold ScalesNamed inner
  rw [heq.1, heq.2.1]
  exact h

theorem Free.of_wiring (h : Free r v c) (heq : w.wiring = v.wiring) : Free r w c := by
  simp only [wiring, Prod.mk.injEq] at heq
  unfold Free inner
  rw [heq.1, heq.2.1]
  exact h

theorem Hangs.of_wiring {v' w' : View} (h : Hangs r v w c) (hv : v'.wiring = v.wiring)
    (hw : w'.wiring = w.wiring) : Hangs r v' w' c := by
  simp only [wiring, Prod.mk.injEq] at hv hw
  unfold Hangs inner
  rw [hv.1, hv.2.1, hw.1, hw.2.1, hv.2.2]
  exact h

theorem Wired.of_wiring {u : Tree View} (h : Wired r t) (hmap : u.map wiring = t.map wiring) : Wired r u := by
  induction h generalizing u with
  | node named hangs below ih =>
    obtain ⟨w, us⟩ := u
    obtain ⟨hroot, hbelow⟩ := Tree.node.inj hmap
    refine .node (named.of_wiring hroot) (fun x hx c => ?_) fun x hx => ?_
    · obtain ⟨t, ht, heq⟩ := exists_of_mapAll hbelow hx
      exact (hangs t ht c).of_wiring hroot (value_of_map heq)
    · obtain ⟨t, ht, heq⟩ := exists_of_mapAll hbelow hx
      exact ih t ht heq

/-- A step through the views that leaves their scales alone keeps them guided if it does so at a view whose
children are guided already. -/
theorem Wired.guided (give : Tree View → Tree View) (hmap : ∀ t, (give t).map wiring = t.map wiring)
    (hgive : ∀ {v ts}, (∀ w ∈ (Tree.node v ts).preorder, w.Guided r) → Hosts r v (ts.map give) →
      ∀ w ∈ (give (.node v ts)).preorder, w.Guided r)
    (h : Wired r t) (hall : ∀ v ∈ t.preorder, v.Guided r) : ∀ v ∈ (give t).preorder, v.Guided r := by
  induction h with
  | @node v ts named hangs below ih =>
    refine hgive hall ⟨named, fun u hu => ?_, hall v mem_cons_self, fun w hw => ?_⟩
    · obtain ⟨t, ht, rfl⟩ := mem_map.mp hu
      have hvalue := value_of_map (hmap t)
      exact ⟨(below t ht).named.of_wiring hvalue, fun c => (hangs t ht c).of_wiring rfl hvalue⟩
    · obtain ⟨u, hu, hw⟩ := mem_preorders.mp hw
      obtain ⟨t, ht, rfl⟩ := mem_map.mp hu
      exact ih t ht (fun w hw => hall w (mem_cons_of_mem _ (mem_preorders.mpr ⟨t, ht, hw⟩))) w hw

theorem guided_axes {e : Encoding} (h : v.Guided r) : Guided r { v with axes := Axis.ofUnit v e } := by
  refine ⟨fun entry hentry a ha => ?_, h.legends⟩
  rcases Dict.mem_of_mem_extend hentry with hentry | hentry
  · obtain ⟨b, hb, rfl⟩ := mem_map.mp hentry
    obtain ⟨channel, -, hmade⟩ := mem_filterMap.mp hb
    rw [mem_singleton.mp ha]
    obtain ⟨d, -, hmade⟩ := bind_eq_some_iff.mp hmade
    obtain ⟨s, hs, hmade⟩ := bind_eq_some_iff.mp hmade
    split at hmade
    · cases hmade
    · cases hmade
      exact ⟨rfl, s, hs, rfl⟩
  · cases hentry

theorem value_withAxesAll (ts : List (Tree View)) :
    (withAxesAll ts).value = ts.map fun t => (withAxes t).value := by
  induction ts with
  | nil => rfl
  | cons t rest ih => exact congrArg (_ :: ·) ih

theorem guided_withAxes (hr : r.Grounded) (h : Wired r t) :
    (∀ v ∈ t.preorder, v.Guided r) → ∀ v ∈ (withAxes t).value.preorder, v.Guided r := by
  refine h.guided (fun t => (withAxes t).value) (fun t => (map_withAxes (fun _ _ => rfl) t).value)
    fun {v ts} hall hosts => ?_
  unfold withAxes
  split
  · intro w hw
    rcases mem_cons.mp hw with rfl | hw
    · exact guided_axes (hall v mem_cons_self)
    · exact hall w (mem_cons_of_mem _ hw)
  · rw [Logged.value_bind, value_withAxesAll]
    exact hosts.shareAxes hr

/-! ### Legends -/

theorem Hosts.shareLegend (h : Hosts r v ts) (hr : r.Grounded) (channel : String) :
    Hosts r (View.shareLegend (v, ts) channel).value.1 (View.shareLegend (v, ts) channel).value.2 := by
  unfold View.shareLegend
  dsimp only
  split
  · exact h
  · rename_i hshared
    split
    · exact h
    · rename_i first rest hlegends
      simp only [Logged.value_bind, Logged.value_pure]
      refine ⟨h.named, fun t ht => ?_, ⟨h.guided.axes, fun entry hentry => ?_⟩, ?_⟩
      · obtain ⟨u, hu, rfl⟩ := mem_map.mp ht
        exact h.roots u hu
      · rcases Dict.mem_of_mem_insert hentry with rfl | hentry
        · obtain ⟨hchannel, hscale⟩ := Legend.mergeInto_scale first rest
          obtain ⟨t, ht, hfirst⟩ := mem_filterMap.mp (hlegends ▸ mem_cons_self : first ∈ _)
          obtain ⟨hfchannel, hshows⟩ := (h.guided_root ht).legends _ (Dict.mem_of_get? hfirst)
          refine ⟨hchannel.trans hfchannel, ?_⟩
          rw [hscale]
          exact h.shows hr ht (fun heq => hshared (by simp [heq])) hshows
        · exact h.guided.legends entry hentry
      · refine forall_mapChildren (fun w hw => ?_) ts h.below
        exact ⟨hw.axes, fun entry hentry => hw.legends entry (mem_filter.mp hentry).1⟩

theorem Hosts.shareLegends {m : View × List (Tree View)} (h : Hosts r m.1 m.2) (hr : r.Grounded)
    (channels : List String) : ∀ w ∈ (View.shareLegends channels m).value.preorder, w.Guided r := by
  induction channels generalizing m with
  | nil => exact h.preorder
  | cons channel rest ih => exact ih (h.shareLegend hr channel)

theorem guided_legends {mark : Mark} {e : Encoding} (h : v.Guided r) :
    Guided r { v with legends := Legend.ofUnit v mark e } := by
  refine ⟨h.axes, fun entry hentry => ?_⟩
  rcases Dict.mem_of_mem_extend hentry with hentry | hentry
  · obtain ⟨l, hl, rfl⟩ := mem_map.mp hentry
    obtain ⟨channel, -, hmade⟩ := mem_filterMap.mp hl
    obtain ⟨d, -, hmade⟩ := bind_eq_some_iff.mp hmade
    obtain ⟨s, hs, hmade⟩ := bind_eq_some_iff.mp hmade
    split at hmade
    · cases hmade
    · cases hmade
      exact ⟨rfl, s, hs, rfl⟩
  · cases hentry

theorem value_withLegendsAll (ts : List (Tree View)) :
    (withLegendsAll ts).value = ts.map fun t => (withLegends t).value := by
  induction ts with
  | nil => rfl
  | cons t rest ih => exact congrArg (_ :: ·) ih

theorem guided_withLegends (hr : r.Grounded) (h : Wired r t) :
    (∀ v ∈ t.preorder, v.Guided r) → ∀ v ∈ (withLegends t).value.preorder, v.Guided r := by
  refine h.guided (fun t => (withLegends t).value) (fun t => (map_withLegends (fun _ _ => rfl) t).value)
    fun {v ts} hall hosts => ?_
  unfold withLegends
  split
  · intro w hw
    rcases mem_cons.mp hw with rfl | hw
    · exact guided_legends (hall v mem_cons_self)
    · exact hall w (mem_cons_of_mem _ hw)
  · rw [Logged.value_bind, value_withLegendsAll]
    generalize Legend.channels = channels
    exact hosts.shareLegends hr channels

theorem Shows.owned {owners : List View} (h : v.Shows r c name)
    (howned : ∀ s, v.scales.get? c = some s → Owned r c s.name owners) : Owned r c name owners := by
  obtain ⟨s, hs, hresolve⟩ := h
  obtain ⟨owner, howner, final, hfinal, hchannel, hkept, hname⟩ := howned s hs
  exact ⟨owner, howner, final, hfinal, hchannel, hkept, hresolve.trans hname⟩

/-- Every scale of a tree leads to one that was not taken over, also when axes and legends were given to
the views. -/
theorem Scaled.owned {u : Tree View} {out : Tree View × Renames} (h : Scaled {} t out)
    (hunscaled : Unscaled {} t.preorder) (hname : out.1.value.name = t.value.name) (hr : out.2.Grounded)
    (hmap : u.map wiring = out.1.map wiring) : ∀ p ∈ u.lineages [], ∀ c s, p.1.scales.get? c = some s →
      Owned out.2 c s.name (p.1 :: p.2) ∧ (s.merged → Owned out.2 c s.name p.2) := by
  have hwired : Wired out.2 u := h.wired.of_wiring hmap
  refine hwired.owned hr fun c s hs => ?_
  obtain ⟨hkept, hend⟩ := (h.free hunscaled hname c).of_wiring (value_of_map hmap) s hs
  obtain ⟨-, hchannel, hsname⟩ := hwired.named c s hs
  refine ⟨⟨u.value, mem_cons_self, s, hs, hchannel, hkept, ?_⟩, fun hmerged => ?_⟩
  · rw [hsname, Renames.resolve_of_none hend]
  · rw [hkept] at hmerged
    cases hmerged

/-- Whether all axes, legends and scales that were taken over lead to a scale of their channel that was
not: those of a view to a scale of the view or of a view above, and scales that were taken over to one of a
view above. -/
structure GuidesOwned (r : Renames) (views : Tree View) : Prop where
  axes : ∀ p ∈ views.lineages [], ∀ entry ∈ p.1.axes, ∀ a ∈ entry.2,
    Owned r a.channel a.scale (p.1 :: p.2)
  legends : ∀ p ∈ views.lineages [], ∀ entry ∈ p.1.legends,
    Owned r entry.2.channel entry.2.scale (p.1 :: p.2)
  scales : ∀ p ∈ views.lineages [], ∀ channel s, p.1.scales.get? channel = some s → s.merged →
    Owned r channel s.name p.2

theorem guidesOwned_of_unscaled (config : Config) (hregular : Body.Regular (t.map View.body))
    (hunscaled : Unscaled {} t.preorder) (hbare : ∀ v ∈ t.preorder, v.axes = [] ∧ v.legends = []) :
    GuidesOwned (withScales config t).value.2
      (withLegends (withAxes (withScales config t).value.1).value).value := by
  have hscaled : Scaled {} t (withScales config t).value := scaled_addScales config t hregular hunscaled
  have hr : (withScales config t).value.2.Grounded := grounded_addScales config t Renames.grounded_empty
  have hname : (withScales config t).value.1.value.name = t.value.name :=
    value_of_map (map_addScales (fun _ _ _ => rfl) config t {}).value
  have hsame : (withScales config t).value.1.map (fun v : View => (v.axes, v.legends)) =
      t.map fun v => (v.axes, v.legends) :=
    (map_addScales (fun _ _ _ => rfl) config t {}).value
  generalize (withScales config t).value = scaled at *
  have hfresh : ∀ v ∈ scaled.1.preorder, v.Guided scaled.2 := by
    intro v hv
    obtain ⟨u, hu, heq⟩ := exists_of_map hsame hv
    obtain ⟨haxes, hlegends⟩ := Prod.mk.inj heq
    refine ⟨fun entry hentry => ?_, fun entry hentry => ?_⟩
    · rw [← haxes, (hbare u hu).1] at hentry
      cases hentry
    · rw [← hlegends, (hbare u hu).2] at hentry
      cases hentry
  have haxes : (withAxes scaled.1).value.map wiring = scaled.1.map wiring :=
    (map_withAxes (fun _ _ => rfl) _).value
  have hguided := guided_withLegends hr (hscaled.wired.of_wiring haxes)
    (guided_withAxes hr hscaled.wired hfresh)
  have howned := hscaled.owned hunscaled hname hr
    ((map_withLegends (fun _ _ => rfl) _).value.trans haxes)
  refine ⟨fun p hp entry hentry a ha => ?_, fun p hp entry hentry => ?_, fun p hp c s hs =>
    (howned p hp c s hs).2⟩
  · obtain ⟨hchannel, hshows⟩ :=
      (hguided p.1 (mem_preorder_of_lineages _ hp)).axes entry hentry a ha
    exact hchannel ▸ hshows.owned fun s hs => (howned p hp _ s hs).1
  · obtain ⟨hchannel, hshows⟩ :=
      (hguided p.1 (mem_preorder_of_lineages _ hp)).legends entry hentry
    exact hchannel ▸ hshows.owned fun s hs => (howned p hp _ s hs).1

end View

/-- Axes and legends always lead to a scale that is written. When the views of a chart have different
names, every axis and every legend of a view names a scale that is resolved to one of its channel which
the view or a view above has and which was not taken over; and the name of a scale that was taken over
is resolved to one that a view above has and that was not. -/
theorem withLegends_guidesOwned (config : Config) {spec : Json} {t : Tree View}
    (hviews : (Chart.read spec >>= View.build).outcome = .ok t)
    (hnames : (t.preorder.map View.name).Nodup) :
    View.GuidesOwned (View.withScales config t).value.2
      (View.withLegends (View.withAxes (View.withScales config t).value.1).value).value := by
  obtain ⟨chart, hread, hbuild⟩ := Checked.outcome_bind_eq_ok.mp hviews
  have hbuilt := (View.ofSpec_build chart).of_eq_ok hbuild
  refine View.guidesOwned_of_unscaled config ?_
    ⟨(View.isName_build chart).of_eq_ok hbuild, hnames, fun v hv => ?_, fun _ _ _ _ => rfl⟩ fun v hv => ?_
  · rw [(View.map_build chart).of_eq_ok hbuild]
    exact (Chart.regular_read spec).of_eq_ok hread
  · obtain ⟨s, name, stack, rfl⟩ := hbuilt v hv
    rfl
  · obtain ⟨s, name, stack, rfl⟩ := hbuilt v hv
    exact ⟨rfl, rfl⟩

/-- A concatenation of layers inside layers and of a single view, all of them colored. -/
def nestedLayers : Json :=
  let unit : Json := .object [("mark", .str "bar"), ("encoding", .object [
    ("x", .object [("field", .str "a"), ("type", .str "nominal")]),
    ("color", .object [("field", .str "b"), ("type", .str "nominal")])])]
  .object [("vconcat", .arr [
    .object [("layer", .arr [.object [("layer", .arr [unit, unit])], unit])],
    unit])]

/-- The names by which the axes and legends of views tell their scales, with the views that have them and
the names to which they are resolved. -/
def View.guideNames (r : Renames) (views : Tree View) : List (String × String × String) :=
  views.preorder.flatMap fun v => (v.axes.values.flatten.map Axis.scale ++
    v.legends.values.map Legend.scale).map fun name => (v.name, name, r.resolve name)

theorem withLegends_nestedLayers : ∃ t,
    (Chart.read nestedLayers >>= View.build).outcome = .ok t ∧ (t.preorder.map View.name).Nodup ∧
    View.guideNames (View.withScales {} t).value.2
        (View.withLegends (View.withAxes (View.withScales {} t).value.1).value).value =
      [("", "concat_0_layer_0_layer_0_color", "color"),
        ("concat_0", "concat_0_layer_0_layer_0_x", "concat_0_x"),
        ("concat_1", "concat_1_x", "concat_1_x")] ∧
    View.GuidesOwned (View.withScales {} t).value.2
      (View.withLegends (View.withAxes (View.withScales {} t).value.1).value).value := by
  have hfacts : (Chart.read nestedLayers >>= View.build).outcome.toOption.map (fun t =>
      (t.preorder.map View.name, View.guideNames (View.withScales {} t).value.2
        (View.withLegends (View.withAxes (View.withScales {} t).value.1).value).value)) =
      some (["", "concat_0", "concat_0_layer_0", "concat_0_layer_0_layer_0", "concat_0_layer_0_layer_1",
          "concat_0_layer_1", "concat_1"],
        [("", "concat_0_layer_0_layer_0_color", "color"),
          ("concat_0", "concat_0_layer_0_layer_0_x", "concat_0_x"),
          ("concat_1", "concat_1_x", "concat_1_x")]) := by
    decide +kernel
  obtain ⟨t, ht, hfacts⟩ := exists_ok_of_map hfacts
  obtain ⟨hnames, hguides⟩ := Prod.mk.inj hfacts
  have hnodup : (t.preorder.map View.name).Nodup := by
    rw [hnames]
    decide
  exact ⟨t, ht, hnodup, hguides,
    withLegends_guidesOwned {} ht hnodup⟩

end ChartPlan
