import ChartPlan.Compile
import ChartPlan.Proofs.Warnings
import Mathlib.Logic.Basic

/-!
# The shape of the tree of views

Every stage of compilation gives components to views and takes some of them over from the views
below. The tree itself stays, and so does everything about a view that is no such component.

* `Tree.map`: the tree of what is seen of the values.
* `Tree.lineages`: the values with those above them.
* `View.map_withScales` and others: a stage changes nothing but its own components.
-/

namespace ChartPlan

open List

/-! ### Trees -/

namespace Tree

variable {α β : Type}

mutual

def map (see : α → β) : Tree α → Tree β
  | node v ts => node (see v) (mapAll see ts)

def mapAll (see : α → β) : List (Tree α) → List (Tree β)
  | [] => []
  | t :: rest => map see t :: mapAll see rest

end

mutual

theorem preorder_map (see : α → β) : (t : Tree α) → (t.map see).preorder = t.preorder.map see
  | node v ts => congrArg (see v :: ·) (preorders_map see ts)

theorem preorders_map (see : α → β) : (ts : List (Tree α)) →
    preorders (mapAll see ts) = (preorders ts).map see
  | [] => rfl
  | t :: rest => by
    rw [mapAll, preorders, preorders, map_append, preorder_map see t, preorders_map see rest]

end

theorem mapAll_eq_map (see : α → β) (ts : List (Tree α)) : mapAll see ts = ts.map (map see) := by
  induction ts with
  | nil => rfl
  | cons t rest ih => rw [mapAll, ih, List.map_cons]

theorem map_withValue {see : α → β} {t : Tree α} {v : α} (h : see v = see t.value) :
    (t.withValue v).map see = t.map see := by
  cases t with
  | node w ts => exact congrArg (node · (mapAll see ts)) h

section Members

variable {see : α → β} {a : α} {t u : Tree α} {ts us : List (Tree α)}

theorem value_of_map (h : t.map see = u.map see) : see t.value = see u.value := by
  cases t with
  | node v ts =>
    cases u with
    | node w us => exact (Tree.node.inj h).1

theorem exists_of_mapAll (h : mapAll see ts = mapAll see us) (ht : t ∈ ts) :
    ∃ u ∈ us, t.map see = u.map see := by
  rw [mapAll_eq_map, mapAll_eq_map] at h
  obtain ⟨u, hu, heq⟩ := mem_map.mp (h ▸ mem_map_of_mem ht)
  exact ⟨u, hu, heq.symm⟩

theorem exists_of_map (h : t.map see = u.map see) (ha : a ∈ t.preorder) :
    ∃ b ∈ u.preorder, see b = see a := by
  have hmem : see a ∈ u.preorder.map see := by
    rw [← preorder_map, ← h, preorder_map]
    exact mem_map_of_mem ha
  exact mem_map.mp hmem

theorem preorder_eq (t : Tree α) : t.preorder = t.value :: preorders t.children := by
  cases t with
  | node v ts => rfl

theorem value_mem_preorder (t : Tree α) : t.value ∈ t.preorder := by
  rw [preorder_eq]
  exact mem_cons_self

theorem preorders_node (v : α) (ts us : List (Tree α)) :
    preorders (node v ts :: us) = v :: preorders (ts ++ us) := by
  rw [preorders, preorder, preorders_append, cons_append]

theorem ne_of_nodup_preorders (h : ((preorders ts).map see).Nodup) (hu : u ∈ ts) (ht : t ∈ ts)
    (ha : a ∈ preorders t.children) : see u.value ≠ see a := by
  induction ts with
  | nil => cases hu
  | cons first rest ih =>
    rw [preorders, map_append, nodup_append] at h
    obtain ⟨hfirst, hrest, hapart⟩ := h
    have hbelow : a ∈ t.preorder := t.preorder_eq ▸ mem_cons_of_mem _ ha
    have hin {x : α} {s : Tree α} (hs : s ∈ rest) (hx : x ∈ s.preorder) :
        see x ∈ (preorders rest).map see :=
      mem_map_of_mem (mem_preorders.mpr ⟨s, hs, hx⟩)
    rcases mem_cons.mp hu with rfl | hu'
    · rcases mem_cons.mp ht with rfl | ht'
      · rw [preorder_eq, map_cons, nodup_cons] at hfirst
        exact fun heq => hfirst.1 (heq ▸ mem_map_of_mem ha)
      · exact hapart _ (mem_map_of_mem u.value_mem_preorder) _ (hin ht' hbelow)
    · rcases mem_cons.mp ht with rfl | ht'
      · exact fun heq =>
          hapart _ (mem_map_of_mem hbelow) _ (hin hu' u.value_mem_preorder) heq.symm
      · exact ih hrest hu' ht'

end Members

mutual

/-- The values of a tree, each with those above it, the nearest first; `above` are those above the
tree. -/
def lineages (above : List α) : Tree α → List (α × List α)
  | node v ts => (v, above) :: lineagesAll (v :: above) ts

def lineagesAll (above : List α) : List (Tree α) → List (α × List α)
  | [] => []
  | t :: rest => lineages above t ++ lineagesAll above rest

end

theorem mem_lineagesAll {above : List α} {p : α × List α} {ts : List (Tree α)} :
    p ∈ lineagesAll above ts ↔ ∃ t ∈ ts, p ∈ t.lineages above := by
  induction ts with
  | nil => simp [lineagesAll]
  | cons t rest ih => simp [lineagesAll, ih]

theorem mem_preorder_of_lineages {p : α × List α} (t : Tree α) {above : List α}
    (h : p ∈ t.lineages above) : p.1 ∈ t.preorder := by
  induction t generalizing above with
  | node v ts ih =>
    rcases mem_cons.mp h with rfl | h
    · exact mem_cons_self
    · obtain ⟨t, ht, h⟩ := mem_lineagesAll.mp h
      exact mem_cons_of_mem _ (mem_preorders.mpr ⟨t, ht, ih t ht h⟩)

end Tree

/-! ### Merged components -/

theorem Setting.warns_mergeNoted (tie : Option TieBreaker) (owner property : String)
    (a b : Option (Setting Json)) : (mergeNoted tie owner property a b).Warns := by
  unfold mergeNoted
  split
  · exact (Logged.warns_warn _).map
  · exact Logged.warns_pure _

theorem Split.warns_merge (tie : String → Option TieBreaker) (owner : String) (a b : Split Json) :
    (merge tie owner a b).Warns := by
  have hkeys (names : List String) (acc : Split Json) : (mergeKeys tie owner a b names acc).Warns := by
    induction names generalizing acc with
    | nil => exact Logged.warns_pure _
    | cons key rest ih =>
      refine (Setting.warns_mergeNoted _ _ _ _ _).bind fun merged => ?_
      cases merged with
      | some setting => exact ih _
      | none => exact ih _
  exact hkeys _ _

namespace Scale

theorem warns_mergeProperty (property : String) (scales : List Scale) (acc : Option (Setting Json)) :
    (mergeProperty property scales acc).Warns := by
  induction scales generalizing acc with
  | nil => exact Logged.warns_pure _
  | cons s rest ih => exact (Setting.warns_mergeNoted _ _ _ _ _).bind ih

theorem warns_mergeAll (scales : List Scale) : (mergeAll scales).Warns := by
  have hproperties (names : List String) (acc : Split Json) :
      (mergeProperties scales names acc).Warns := by
    induction names generalizing acc with
    | nil => exact Logged.warns_pure _
    | cons property rest ih =>
      refine (warns_mergeProperty _ _ _).bind fun merged => ?_
      cases merged with
      | some setting => exact ih _
      | none => exact ih _
  exact hproperties _ _

end Scale

theorem Axis.warns_mergeInto (acc : Axis) (rest : List Axis) : (mergeInto acc rest).Warns := by
  induction rest generalizing acc with
  | nil => exact Logged.warns_pure _
  | cons a rest ih =>
    unfold mergeInto
    split
    · exact Logged.warns_pure _
    · exact (Split.warns_merge _ _ _ _).bind fun props => ih _

theorem Axis.warns_mergeAll (axes : List Axis) : (mergeAll axes).Warns := by
  cases axes with
  | nil => exact Logged.warns_pure _
  | cons first rest =>
    refine (warns_mergeInto first rest).bind fun merged => ?_
    cases merged <;> exact Logged.warns_pure _

theorem Legend.warns_mergeInto (acc : Legend) (rest : List Legend) : (mergeInto acc rest).Warns := by
  induction rest generalizing acc with
  | nil => exact Logged.warns_pure _
  | cons l rest ih => exact (Split.warns_merge _ _ _ _).bind fun props => ih _

theorem Projection.warns_mergeAll (acc : Projection) (rest : List Projection) :
    (mergeAll acc rest).Warns := by
  induction rest generalizing acc with
  | nil => exact Logged.warns_pure _
  | cons p rest ih => exact (Split.warns_merge _ _ _ _).bind fun props => ih _

namespace View

open ChartPlan.Tree Logged

variable {β : Type} {see : View → β}

theorem mapAll_mapChildren (change : View → View) (h : ∀ v, see (change v) = see v) :
    (ts : List (Tree View)) → mapAll see (mapChildren change ts) = mapAll see ts
  | [] => rfl
  | t :: rest => by
    show Tree.map see (t.withValue (change t.value)) :: mapAll see (mapChildren change rest) = _
    rw [map_withValue (h t.value), mapAll_mapChildren change h rest]
    rfl

set_option linter.unusedSectionVars false

/-! ### Selections -/

section

variable (h : ∀ v selections, see { v with selections } = see v)

include h

mutual

theorem map_addSelections :
    (t : Tree View) → (inherited : List Param) → (addSelections inherited t).map see = t.map see
  | .node v children, inherited => by
    unfold addSelections
    dsimp only
    split
    · exact congrArg (Tree.node · _) (h v _)
    · exact congrArg (Tree.node (see v)) (mapAll_addSelectionsAll children _)

theorem mapAll_addSelectionsAll : (ts : List (Tree View)) → (inherited : List Param) →
    mapAll see (addSelectionsAll inherited ts) = mapAll see ts
  | [], _ => rfl
  | t :: rest, inherited => congrArg₂ List.cons (map_addSelections t inherited)
      (mapAll_addSelectionsAll rest inherited)

end

theorem map_withSelections (t : Tree View) : (withSelections t).map see = t.map see :=
  map_addSelections h t []

end

/-! ### Scales -/

theorem shareScales_induction {P : Merging → Prop}
    (step : ∀ m channel, P m → P (shareScale m channel).value) (channels : List String) {m : Merging}
    (hm : P m) : P (shareScales channels m).value := by
  induction channels generalizing m with
  | nil => exact hm
  | cons channel rest ih => exact ih (step m channel hm)

section

variable (h : ∀ v scales resolve, see { v with scales, resolve } = see v)

include h

theorem see_giveUpScale (channel : String) (v : View) : see (giveUpScale channel v) = see v := by
  unfold giveUpScale
  split
  · exact h v _ v.resolve
  · rfl

theorem see_shareScale (m : Merging) (channel : String) : (shareScale m channel).Yields fun n =>
    see n.view = see m.view ∧ mapAll see n.children = mapAll see m.children := by
  unfold shareScale
  dsimp only
  split
  · exact yields_pure ⟨rfl, rfl⟩
  · split
    · exact (Scale.warns_mergeAll _).yields fun _ => yields_pure
        ⟨h m.view _ m.view.resolve, mapAll_mapChildren _ (see_giveUpScale h channel) _⟩
    · exact (warns_warn _).yields fun _ => yields_pure ⟨h m.view m.view.scales _, rfl⟩

theorem see_shareScales (channels : List String) (m : Merging) :
    (shareScales channels m).Yields fun n =>
      see n.view = see m.view ∧ mapAll see n.children = mapAll see m.children := by
  induction channels generalizing m with
  | nil => exact yields_pure ⟨rfl, rfl⟩
  | cons channel rest ih =>
    exact (see_shareScale h m channel).bind fun n hn =>
      (ih n).mono fun _ hr => ⟨hr.1.trans hn.1, hr.2.trans hn.2⟩

theorem map_composeScales (v : View) (children : List (Tree View)) (renames : Renames) :
    (composeScales v children renames).Yields fun r =>
      r.1.map see = .node (see v) (mapAll see children) := by
  unfold composeScales
  generalize Channel.scaled = channels
  exact (see_shareScales h channels ⟨v, children, renames⟩).bind fun _ hm =>
    yields_pure (congrArg₂ Tree.node hm.1 hm.2)

mutual

theorem map_addScales (config : Config) : (t : Tree View) → (renames : Renames) →
    (addScales config renames t).Yields fun r => r.1.map see = t.map see
  | .node v children, renames => by
    unfold addScales
    split
    · exact yields_pure (congrArg (Tree.node · _) (h v _ v.resolve))
    · exact (mapAll_addScalesAll config children renames).bind fun r hr =>
        (map_composeScales h v _ _).mono fun _ ht => ht.trans (congrArg (Tree.node (see v)) hr)

theorem mapAll_addScalesAll (config : Config) : (ts : List (Tree View)) → (renames : Renames) →
    (addScalesAll config renames ts).Yields fun r => mapAll see r.1 = mapAll see ts
  | [], _ => yields_pure rfl
  | t :: rest, renames => by
    unfold addScalesAll
    exact (map_addScales config t renames).bind fun r hr =>
      (mapAll_addScalesAll config rest r.2).bind fun _ hrest => yields_pure (congrArg₂ List.cons hr hrest)

end

theorem map_withScales (config : Config) (t : Tree View) :
    (withScales config t).Yields fun r => r.1.map see = t.map see :=
  map_addScales h config t {}

end

/-! ### Projections -/

section

variable (h : ∀ v projectionPart, see { v with projectionPart } = see v)

include h

theorem map_shareProjections (v : View) (children : List (Tree View)) (renames : Renames) :
    (shareProjections v children renames).Yields fun r =>
      r.1.map see = .node (see v) (mapAll see children) := by
  unfold shareProjections
  split
  · exact (Projection.warns_mergeAll _ _).yields fun _ => yields_pure
      (congrArg₂ Tree.node (h v _) (mapAll_mapChildren giveUpProjection (fun v => h v _) children))
  · exact yields_pure rfl

mutual

theorem map_addProjections : (t : Tree View) → (inherited : Option Json) → (renames : Renames) →
    (addProjections inherited renames t).Yields fun r => r.1.map see = t.map see
  | .node v children, inherited, renames => by
    unfold addProjections
    dsimp only
    split
    · split
      · exact yields_pure (congrArg (Tree.node · _) (h v _))
      · exact yields_pure rfl
    · exact (mapAll_addProjectionsAll children _ renames).bind fun r hr =>
        (map_shareProjections h v _ _).mono fun _ ht => ht.trans (congrArg (Tree.node (see v)) hr)

theorem mapAll_addProjectionsAll :
    (ts : List (Tree View)) → (inherited : Option Json) → (renames : Renames) →
    (addProjectionsAll inherited renames ts).Yields fun r => mapAll see r.1 = mapAll see ts
  | [], _, _ => yields_pure rfl
  | t :: rest, inherited, renames => by
    unfold addProjectionsAll
    exact (map_addProjections t inherited renames).bind fun r hr =>
      (mapAll_addProjectionsAll rest inherited r.2).bind fun _ hrest =>
        yields_pure (congrArg₂ List.cons hr hrest)

end

theorem map_withProjections (t : Tree View) :
    (withProjections t).Yields fun r => r.1.map see = t.map see :=
  map_addProjections h t none {}

end

/-! ### Dataflow -/

section

variable (h : ∀ v dataPart, see { v with dataPart } = see v)

include h

mutual

theorem map_buildData (context : DataContext) :
    (t : Tree View) → {above : Option Above} → {f : Flow.Forest} → {r : Tree View × Flow.Forest} →
    (buildData context above f t).outcome = .ok r → r.1.map see = t.map see
  | .node v children, above, f, r, hr => by
    unfold buildData at hr
    obtain ⟨⟨part, f'⟩, -, hr⟩ := Checked.outcome_bind_eq_ok.mp hr
    obtain ⟨below, hbelow, hr⟩ := Checked.outcome_bind_eq_ok.mp hr
    cases hr
    exact congrArg₂ Tree.node (h v _) (mapAll_buildDataAll context children hbelow)

theorem mapAll_buildDataAll (context : DataContext) : (ts : List (Tree View)) →
    {above : Option Above} → {f : Flow.Forest} → {r : List (Tree View) × Flow.Forest} →
    (buildDataAll context above f ts).outcome = .ok r → mapAll see r.1 = mapAll see ts
  | [], _, _, _, hr => by
    cases hr
    rfl
  | t :: rest, above, f, r, hr => by
    unfold buildDataAll at hr
    obtain ⟨first, hfirst, hr⟩ := Checked.outcome_bind_eq_ok.mp hr
    obtain ⟨others, hothers, hr⟩ := Checked.outcome_bind_eq_ok.mp hr
    cases hr
    exact congrArg₂ List.cons (map_buildData context t hfirst)
      (mapAll_buildDataAll context rest hothers)

end

theorem map_withData {context : DataContext} {t : Tree View} {r : Tree View × Flow.Forest}
    (hr : (withData context t).outcome = .ok r) : r.1.map see = t.map see :=
  map_buildData h context t hr

end

/-! ### Axes -/

section

variable (h : ∀ v axes, see { v with axes } = see v)

include h

theorem see_shareAxis (m : View × List (Tree View)) (channel : String) :
    (shareAxis m channel).Yields fun n => see n.1 = see m.1 ∧ mapAll see n.2 = mapAll see m.2 := by
  unfold shareAxis
  dsimp only
  split
  · exact yields_pure ⟨rfl, rfl⟩
  · split
    · split
      · exact (warns_warn _).yields fun _ => yields_pure ⟨rfl, rfl⟩
      · exact yields_pure ⟨rfl, rfl⟩
    · split
      · exact yields_pure ⟨rfl, rfl⟩
      · exact (Axis.warns_mergeAll _).yields fun _ => yields_pure ⟨h m.1 _, mapAll_mapChildren
          (fun c => { c with axes := c.axes.erase channel }) (fun v => h v _) m.2⟩

theorem map_shareAxes (v : View) (children : List (Tree View)) :
    (shareAxes v children).Yields fun t => t.map see = .node (see v) (mapAll see children) := by
  unfold shareAxes
  split
  · exact yields_pure rfl
  · refine (see_shareAxis h (v, children) "x").bind fun m hm => ?_
    exact (see_shareAxis h m "y").bind fun n hn =>
      yields_pure (congrArg₂ Tree.node (hn.1.trans hm.1) (hn.2.trans hm.2))

mutual

theorem map_withAxes : (t : Tree View) → (withAxes t).Yields fun u => u.map see = t.map see
  | .node v children => by
    unfold withAxes
    split
    · exact yields_pure (congrArg (Tree.node · _) (h v _))
    · exact (mapAll_withAxesAll children).bind fun _ hts =>
        (map_shareAxes h v _).mono fun _ ht => ht.trans (congrArg (Tree.node (see v)) hts)

theorem mapAll_withAxesAll : (ts : List (Tree View)) →
    (withAxesAll ts).Yields fun us => mapAll see us = mapAll see ts
  | [] => yields_pure rfl
  | t :: rest => by
    unfold withAxesAll
    exact (map_withAxes t).bind fun _ ht => (mapAll_withAxesAll rest).bind fun _ hrest =>
      yields_pure (congrArg₂ List.cons ht hrest)

end

end

/-! ### Legends -/

section

variable (h : ∀ v legends, see { v with legends } = see v)

include h

theorem see_shareLegend (m : View × List (Tree View)) (channel : String) :
    (shareLegend m channel).Yields fun n => see n.1 = see m.1 ∧ mapAll see n.2 = mapAll see m.2 := by
  unfold shareLegend
  dsimp only
  split
  · exact yields_pure ⟨rfl, rfl⟩
  · split
    · exact yields_pure ⟨rfl, rfl⟩
    · exact (Legend.warns_mergeInto _ _).yields fun _ => yields_pure ⟨h m.1 _, mapAll_mapChildren
        (fun c => { c with legends := c.legends.erase channel }) (fun v => h v _) m.2⟩

theorem map_shareLegends : (channels : List String) → (m : View × List (Tree View)) →
    (shareLegends channels m).Yields fun t => t.map see = .node (see m.1) (mapAll see m.2)
  | [], _ => yields_pure rfl
  | channel :: rest, m => by
    unfold shareLegends
    exact (see_shareLegend h m channel).bind fun n hn =>
      (map_shareLegends rest n).mono fun _ ht => ht.trans (congrArg₂ Tree.node hn.1 hn.2)

mutual

theorem map_withLegends : (t : Tree View) → (withLegends t).Yields fun u => u.map see = t.map see
  | .node v children => by
    unfold withLegends
    split
    · exact yields_pure (congrArg (Tree.node · _) (h v _))
    · generalize Legend.channels = channels
      exact (mapAll_withLegendsAll children).bind fun _ hts =>
        (map_shareLegends h channels (v, _)).mono fun _ ht =>
          ht.trans (congrArg (Tree.node (see v)) hts)

theorem mapAll_withLegendsAll : (ts : List (Tree View)) →
    (withLegendsAll ts).Yields fun us => mapAll see us = mapAll see ts
  | [] => yields_pure rfl
  | t :: rest => by
    unfold withLegendsAll
    exact (map_withLegends t).bind fun _ ht => (mapAll_withLegendsAll rest).bind fun _ hrest =>
      yields_pure (congrArg₂ List.cons ht hrest)

end

end

end View

end ChartPlan
