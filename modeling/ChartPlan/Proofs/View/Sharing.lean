import ChartPlan.Proofs.Renames
import ChartPlan.Proofs.View.Domains

/-!
# Shared scales

A view takes over the scale of a channel from all views right below it that have one, or from none of
them. The name of a scale tells its view and its channel, so the recorded replacements lead from each
scale that was taken over to the scale of the view above, and end at a scale that was not.

* `View.Hangs`: how the scale of a channel hangs together with the view above.
* `View.Wired`: a tree whose scales all hang together with the views above.
* `View.scaled_addScales`: the trees to which scales were given are such.
* `View.Wired.owned`: every scale leads to one that was not taken over.
-/

namespace ChartPlan

open List Option Tree

/-! ### Names of scales -/

theorem Channel.isName_of_mem {c : String} (hc : c ∈ Channel.scaled) :
    IsName c ∧ c ≠ "" ∧ pieces c = [c.toList] := by
  have hplain : ∀ c ∈ Channel.scaled, c.toList.all isNameChar ∧
      (c.toList.head?.all fun a => !a.isDigit) ∧ c ≠ "" ∧ '_' ∉ c.toList := by
    decide
  obtain ⟨hchars, hhead, hne, hpiece⟩ := hplain c hc
  exact ⟨isName_of_all hchars hhead, hne,
    (pieces_of_ne hne).trans (splitOn_eq_singleton hpiece)⟩

theorem nameIn_channel_inj {a b c d : String} (ha : IsName a) (hb : IsName b)
    (hc : c ∈ Channel.scaled) (hd : d ∈ Channel.scaled) (h : nameIn a c = nameIn b d) :
    a = b ∧ c = d := by
  obtain ⟨hcname, hcne, hcpieces⟩ := Channel.isName_of_mem hc
  obtain ⟨hdname, hdne, hdpieces⟩ := Channel.isName_of_mem hd
  have hpieces := congrArg pieces h
  rw [pieces_nameIn ha hcname hcne, pieces_nameIn hb hdname hdne, hcpieces, hdpieces] at hpieces
  obtain ⟨hview, hchannel⟩ := append_inj' hpieces rfl
  exact ⟨pieces_injective hview, String.toList_inj.mp (cons.inj hchannel).1⟩

namespace View

variable {r r' : Renames} {v w : View} {c channel : String} {t : Tree View} {ts : List (Tree View)}

/-- Whether the scales of a view stand under their channels and are called after the view. -/
def ScalesNamed (v : View) : Prop :=
  ∀ c s, v.scales.get? c = some s → c ∈ Channel.scaled ∧ s.channel = c ∧ s.name = v.inner c

section

variable (channel : String) (v : View)

theorem get?_giveUpScale (c : String) :
    (giveUpScale channel v).scales.get? c =
      if c = channel then (v.scales.get? c).map fun s => { s with merged := true }
      else v.scales.get? c := by
  unfold giveUpScale
  by_cases hc : c = channel
  · subst hc
    cases hs : v.scales.get? c <;> simp [hs, Dict.get?_insert]
  · cases hs : v.scales.get? channel <;> simp [hc, Dict.get?_insert]

theorem has_giveUpScale (c : String) : (giveUpScale channel v).scales.has c = v.scales.has c := by
  unfold Dict.has
  rw [get?_giveUpScale]
  split
  · exact isSome_map
  · rfl

theorem name_giveUpScale : (giveUpScale channel v).name = v.name :=
  see_giveUpScale (fun _ _ _ => rfl) channel v

theorem inner_giveUpScale (text : String) : (giveUpScale channel v).inner text = v.inner text := by
  unfold inner
  rw [name_giveUpScale]

theorem sharing_giveUpScale (kind c : String) :
    (giveUpScale channel v).sharing kind c = v.sharing kind c := by
  unfold giveUpScale
  split <;> rfl

end

theorem ScalesNamed.giveUpScale (h : v.ScalesNamed) (channel : String) :
    (giveUpScale channel v).ScalesNamed := by
  intro c s hs
  rw [get?_giveUpScale] at hs
  rw [inner_giveUpScale]
  split at hs
  · obtain ⟨s', hs', rfl⟩ := map_eq_some_iff.mp hs
    exact h c s' hs'
  · exact h c s hs

theorem sharing_set (v : View) (channel : String) (c : String) :
    sharing { v with resolve := v.resolve.set "scale" channel .independent } "scale" c =
      if c = channel then .independent else v.sharing "scale" c := by
  unfold sharing Resolve.get? Resolve.set
  by_cases hc : c = channel
  · simp [hc, Dict.get?_insert]
  · cases hmodes : v.resolve.modes.get? "scale" <;> simp [hc, Dict.get?_insert, isConcat]

/-! ### Scales and the views above -/

/-- Whether the scale of a channel has not been taken over. -/
def Free (r : Renames) (w : View) (c : String) : Prop :=
  ∀ s, w.scales.get? c = some s → s.merged = false ∧ r.entries.get? (w.inner c) = none

/-- How the scale of a channel hangs together with the view right above: that view shares scales of the
channel and has taken over this one, or has left it alone. -/
def Hangs (r : Renames) (v w : View) (c : String) : Prop :=
  ∀ s, w.scales.get? c = some s →
    if v.sharing "scale" c = .independent then s.merged = false ∧ r.entries.get? (w.inner c) = none
    else s.merged = true ∧ v.scales.has c ∧ r.entries.get? (w.inner c) = some (v.inner c)

/-- Whether all scales of a tree hang together with the views above. -/
inductive Wired (r : Renames) : Tree View → Prop
  | node {v : View} {ts : List (Tree View)} (named : v.ScalesNamed)
      (hangs : ∀ t ∈ ts, ∀ c, Hangs r v t.value c) (below : ∀ t ∈ ts, Wired r t) : Wired r (.node v ts)

theorem Wired.named (h : Wired r t) : t.value.ScalesNamed := by
  cases h with
  | node named => exact named

theorem Wired.congr (h : Wired r t) (hsame : ∀ w ∈ Tree.preorders t.children, ∀ c ∈ Channel.scaled,
    r'.entries.get? (w.inner c) = r.entries.get? (w.inner c)) : Wired r' t := by
  induction h with
  | node named hangs below ih =>
    refine .node named (fun t ht c s hs => ?_) fun t ht => ih t ht fun w hw => hsame w ?_
    · rw [hsame t.value (mem_preorders.mpr ⟨t, ht, t.value_mem_preorder⟩) c
        ((below t ht).named c s hs).1]
      exact hangs t ht c s hs
    · exact mem_preorders.mpr ⟨t, ht, t.preorder_eq ▸ mem_cons_of_mem _ hw⟩

theorem Wired.giveUpScale (h : Wired r t) (channel : String) :
    Wired r (t.withValue (giveUpScale channel t.value)) := by
  cases h with
  | node named hangs below =>
    refine .node (named.giveUpScale channel) (fun t ht c s hs => ?_) below
    show if View.sharing (View.giveUpScale channel _) "scale" c = .independent then _ else _
    simp only [Tree.value, sharing_giveUpScale, has_giveUpScale, inner_giveUpScale]
    exact hangs t ht c s hs

/-! ### Taking over scales -/

/-- What is known while a view takes over scales, where `todo` are the channels that are still to come and
`base` are the replacements before. -/
structure Merging.Orderly (base : Renames) (todo : List String) (m : Merging) : Prop where
  isName : IsName m.view.name
  isNames : ∀ w ∈ Tree.preorders m.children, IsName w.name
  apart : (m.view.name :: (Tree.preorders m.children).map View.name).Nodup
  named : m.view.ScalesNamed
  kept : ∀ c s, m.view.scales.get? c = some s → s.merged = false
  ends : ∀ c ∈ Channel.scaled, m.renames.entries.get? (m.view.inner c) = none
  below : ∀ t ∈ m.children, Wired m.renames t
  done : ∀ t ∈ m.children, ∀ c ∉ todo, Hangs m.renames m.view t.value c
  free : ∀ t ∈ m.children, ∀ c ∈ todo, Free m.renames t.value c
  same : ∀ name, IsName name → name ∉ m.children.map (fun t => t.value.name) → ∀ c ∈ Channel.scaled,
    m.renames.entries.get? (nameIn name c) = base.entries.get? (nameIn name c)

namespace Merging

variable {base : Renames} {todo : List String} {m : Merging}

theorem Orderly.skip (h : m.Orderly base (channel :: todo))
    (hhangs : ∀ t ∈ m.children, Hangs m.renames m.view t.value channel) : m.Orderly base todo where
  __ := h
  done t ht c hc := by
    by_cases heq : c = channel
    · exact heq ▸ hhangs t ht
    · exact h.done t ht c fun hmem => (mem_cons.mp hmem).elim heq hc
  free t ht c hc := h.free t ht c (mem_cons_of_mem _ hc)

theorem Orderly.mem_scales (h : m.Orderly base todo) {n : String} :
    n ∈ (m.children.filterMap fun t => t.value.scales.get? channel).map Scale.name ↔
      ∃ t ∈ m.children, t.value.scales.has channel ∧ n = t.value.inner channel := by
  rw [List.mem_map]
  constructor
  · rintro ⟨s, hs, rfl⟩
    obtain ⟨t, ht, hs⟩ := mem_filterMap.mp hs
    exact ⟨t, ht, isSome_iff_exists.mpr ⟨s, hs⟩, ((h.below t ht).named channel s hs).2.2⟩
  · rintro ⟨t, ht, hhas, rfl⟩
    obtain ⟨s, hs⟩ := isSome_iff_exists.mp hhas
    exact ⟨s, mem_filterMap.mpr ⟨t, ht, hs⟩, ((h.below t ht).named channel s hs).2.2⟩

theorem Orderly.isName_root (h : m.Orderly base todo) (ht : t ∈ m.children) : IsName t.value.name :=
  h.isNames _ (mem_preorders.mpr ⟨t, ht, t.value_mem_preorder⟩)

theorem Orderly.ne_root (h : m.Orderly base todo) (ht : t ∈ m.children) :
    m.view.name ≠ t.value.name := fun heq =>
  (nodup_cons.mp h.apart).1 (heq ▸ mem_map_of_mem
    (mem_preorders.mpr ⟨t, ht, t.value_mem_preorder⟩))

/-- The replacements once the scales of a channel are taken over. -/
def replaced (m : Merging) (channel : String) : Renames :=
  m.renames.renameAll ((m.children.filterMap fun t => t.value.scales.get? channel).map
    fun s => (s.name, m.view.inner channel))

theorem Orderly.get?_replaced (h : m.Orderly base todo) (hchannel : channel ∈ Channel.scaled)
    (n : String) : (m.replaced channel).entries.get? n =
      if n ∈ (m.children.filterMap fun t => t.value.scales.get? channel).map Scale.name then
        some (m.view.inner channel)
      else m.renames.entries.get? n := by
  have hpairs : (m.children.filterMap fun t => t.value.scales.get? channel).map
      (fun s => (s.name, m.view.inner channel)) =
      ((m.children.filterMap fun t => t.value.scales.get? channel).map Scale.name).map
        fun old => (old, m.view.inner channel) := by
    rw [List.map_map]
    rfl
  unfold replaced
  rw [hpairs]
  refine Renames.get?_renameAll (h.ends channel hchannel) (fun old hold heq => ?_) n
  obtain ⟨t, ht, -, rfl⟩ := h.mem_scales.mp hold
  exact h.ne_root ht (nameIn_channel_inj (h.isName_root ht) h.isName hchannel hchannel heq).1.symm

theorem Orderly.get?_replaced_of_ne (h : m.Orderly base todo) (hchannel : channel ∈ Channel.scaled)
    {name : String} (hname : IsName name) (hc : c ∈ Channel.scaled)
    (hne : c = channel → ∀ t ∈ m.children, t.value.name ≠ name) :
    (m.replaced channel).entries.get? (nameIn name c) = m.renames.entries.get? (nameIn name c) := by
  rw [h.get?_replaced hchannel, if_neg]
  rw [h.mem_scales]
  rintro ⟨t, ht, -, heq⟩
  obtain ⟨hview, hceq⟩ := nameIn_channel_inj hname (h.isName_root ht) hc hchannel heq
  exact hne hceq t ht hview.symm

section

variable (h : m.Orderly base (channel :: todo))

include h

theorem Orderly.takeOver (hnew : channel ∉ todo) (hchannel : channel ∈ Channel.scaled)
    (hshared : m.view.sharing "scale" channel ≠ .independent) (props : Split Json) :
    Orderly base todo {
      view := { m.view with
        scales := m.view.scales.insert channel { name := m.view.inner channel, channel, props } }
      children := mapChildren (giveUpScale channel) m.children
      renames := m.replaced channel } := by
  have hnames : (Tree.preorders (mapChildren (giveUpScale channel) m.children)).map View.name =
      (Tree.preorders m.children).map View.name := by
    rw [← preorders_map, ← preorders_map,
      mapAll_mapChildren _ (see_giveUpScale (fun _ _ _ => rfl) channel)]
  have hother {t : Tree View} (ht : t ∈ m.children) {c : String} (hc : c ∈ Channel.scaled)
      (hne : c ≠ channel) : (m.replaced channel).entries.get? (t.value.inner c) =
        m.renames.entries.get? (t.value.inner c) :=
    h.get?_replaced_of_ne hchannel (h.isName_root ht) hc fun heq => absurd heq hne
  constructor
  case isName => exact h.isName
  case isNames =>
    intro w hw
    have hmem : w.name ∈ (Tree.preorders m.children).map View.name := hnames ▸ mem_map_of_mem hw
    obtain ⟨u, hu, heq⟩ := List.mem_map.mp hmem
    exact heq ▸ h.isNames u hu
  case apart =>
    show (m.view.name :: _).Nodup
    rw [hnames]
    exact h.apart
  case named =>
    intro c s hs
    rw [Dict.get?_insert] at hs
    split at hs
    · rename_i hc
      cases hs
      exact ⟨hc ▸ hchannel, hc.symm, hc ▸ rfl⟩
    · exact h.named c s hs
  case kept =>
    intro c s hs
    rw [Dict.get?_insert] at hs
    split at hs
    · cases hs
      rfl
    · exact h.kept c s hs
  case ends =>
    intro c hc
    exact (h.get?_replaced_of_ne hchannel h.isName hc fun _ t ht => (h.ne_root ht).symm).trans
      (h.ends c hc)
  case below =>
    intro t ht
    obtain ⟨u, hu, rfl⟩ := List.mem_map.mp ht
    refine ((h.below u hu).congr fun w hw c hc => ?_).giveUpScale channel
    refine h.get?_replaced_of_ne hchannel (h.isNames w ?_) hc fun _ x hx => ?_
    · exact mem_preorders.mpr ⟨u, hu, u.preorder_eq ▸ mem_cons_of_mem _ hw⟩
    · exact ne_of_nodup_preorders (nodup_cons.mp h.apart).2 hx hu hw
  case done =>
    intro t ht c hc s hs
    obtain ⟨u, hu, rfl⟩ := List.mem_map.mp ht
    replace hs : (giveUpScale channel u.value).scales.get? c = some s := hs
    rw [get?_giveUpScale] at hs
    show if m.view.sharing "scale" c = .independent then s.merged = false ∧
        (m.replaced channel).entries.get? ((giveUpScale channel u.value).inner c) = none
      else s.merged = true ∧ Dict.has (m.view.scales.insert channel _) c ∧
        (m.replaced channel).entries.get? ((giveUpScale channel u.value).inner c) =
          some (m.view.inner c)
    rw [inner_giveUpScale]
    by_cases heq : c = channel
    · subst heq
      rw [if_pos rfl] at hs
      obtain ⟨s', hs', rfl⟩ := map_eq_some_iff.mp hs
      have hmem := h.mem_scales.mpr ⟨u, hu, isSome_iff_exists.mpr ⟨s', hs'⟩, rfl⟩
      rw [if_neg hshared, h.get?_replaced hchannel, if_pos hmem]
      exact ⟨rfl, by simp [Dict.has, Dict.get?_insert], rfl⟩
    · rw [if_neg heq] at hs
      have hhas : Dict.has (m.view.scales.insert channel
          { name := m.view.inner channel, channel, props }) c = m.view.scales.has c := by
        simp [Dict.has, Dict.get?_insert, heq]
      rw [hother hu ((h.below u hu).named c s hs).1 heq, hhas]
      exact h.done u hu c (fun hmem => (mem_cons.mp hmem).elim heq hc) s hs
  case free =>
    intro t ht c hc s hs
    obtain ⟨u, hu, rfl⟩ := List.mem_map.mp ht
    have heq : c ≠ channel := fun heq => hnew (heq ▸ hc)
    replace hs : (giveUpScale channel u.value).scales.get? c = some s := hs
    rw [get?_giveUpScale, if_neg heq] at hs
    show s.merged = false ∧ (m.replaced channel).entries.get? ((giveUpScale channel u.value).inner c) = none
    rw [inner_giveUpScale, hother hu ((h.below u hu).named c s hs).1 heq]
    exact h.free u hu c (mem_cons_of_mem _ hc) s hs
  case same =>
    intro name hname hmem c hc
    have hroots : (mapChildren (giveUpScale channel) m.children).map (fun t => t.value.name) =
        m.children.map fun t => t.value.name := by
      unfold mapChildren
      rw [List.map_map]
      exact List.map_congr_left fun t _ => name_giveUpScale channel t.value
    replace hmem : name ∉ m.children.map fun t => t.value.name := hroots ▸ hmem
    rw [← h.same name hname hmem c hc]
    exact h.get?_replaced_of_ne hchannel hname hc fun _ t ht heq =>
      hmem (heq ▸ mem_map_of_mem ht)

theorem Orderly.leave :
    Orderly base todo { m with
      view := { m.view with resolve := m.view.resolve.set "scale" channel .independent } } := by
  refine ⟨h.isName, h.isNames, h.apart, h.named, h.kept, h.ends, h.below, fun t ht c hc s hs => ?_,
    fun t ht c hc => h.free t ht c (mem_cons_of_mem _ hc), h.same⟩
  rw [sharing_set]
  by_cases heq : c = channel
  · rw [if_pos heq, if_pos rfl]
    exact h.free t ht c (heq ▸ mem_cons_self) s hs
  · rw [if_neg heq]
    exact h.done t ht c (fun hmem => (mem_cons.mp hmem).elim heq hc) s hs

theorem Orderly.shareScale (hnew : channel ∉ todo) (hchannel : channel ∈ Channel.scaled) :
    (View.shareScale m channel).value.Orderly base todo := by
  unfold View.shareScale
  dsimp only
  split
  · rename_i hskip
    refine h.skip fun t ht s hs => ?_
    rcases Bool.or_eq_true _ _ ▸ hskip with hempty | hindependent
    · rw [List.isEmpty_iff, List.filterMap_eq_nil_iff] at hempty
      cases (hempty t ht).symm.trans hs
    · rw [if_pos (beq_iff_eq.mp hindependent)]
      exact h.free t ht channel mem_cons_self s hs
  · rename_i hshared
    split
    · exact h.takeOver hnew hchannel (fun heq => hshared (by simp [heq])) _
    · exact h.leave

end

theorem Orderly.shareScales : (channels : List String) → {m : Merging} → m.Orderly base channels →
    channels.Nodup → (∀ c ∈ channels, c ∈ Channel.scaled) →
    (View.shareScales channels m).value.Orderly base []
  | [], _, h, _, _ => h
  | channel :: rest, _, h, hnodup, hscaled => by
    unfold View.shareScales
    obtain ⟨hnew, hrest⟩ := nodup_cons.mp hnodup
    exact Orderly.shareScales rest (h.shareScale hnew (hscaled channel mem_cons_self)) hrest
      fun c hc => hscaled c (mem_cons_of_mem _ hc)

end Merging

/-! ### All views -/

/-- Views with different names that have no scales, under which nothing is recorded. -/
structure Unscaled (r : Renames) (views : List View) : Prop where
  isName : ∀ v ∈ views, IsName v.name
  apart : (views.map View.name).Nodup
  bare : ∀ v ∈ views, v.scales = []
  unused : ∀ v ∈ views, ∀ c ∈ Channel.scaled, r.entries.get? (v.inner c) = none

/-- What is known of a tree to which scales were given, and of the replacements: the scales at the root are
its own, and only names below the root were replaced. -/
structure Scaled (r : Renames) (t : Tree View) (out : Tree View × Renames) : Prop where
  wired : Wired out.2 out.1
  kept : ∀ c s, out.1.value.scales.get? c = some s → s.merged = false
  same : ∀ name, IsName name → name ∉ (Tree.preorders t.children).map View.name →
    ∀ c ∈ Channel.scaled, out.2.entries.get? (nameIn name c) = r.entries.get? (nameIn name c)

/-- The same for several trees. -/
structure ScaledAll (r : Renames) (ts : List (Tree View)) (out : List (Tree View) × Renames) : Prop where
  wired : ∀ t ∈ out.1, Wired out.2 t
  free : ∀ t ∈ out.1, ∀ c, Free out.2 t.value c
  same : ∀ name, IsName name → name ∉ (ts.flatMap fun t => Tree.preorders t.children).map View.name →
    ∀ c ∈ Channel.scaled, out.2.entries.get? (nameIn name c) = r.entries.get? (nameIn name c)

theorem scalesNamed_ofUnit (config : Config) (v : View) (mark : Mark) {e : Encoding} (he : e.Keyed)
    {s : Scale} (hs : (Scale.ofUnit config v mark e).get? c = some s) :
    (c ∈ Channel.scaled ∧ s.channel = c ∧ s.name = v.inner c) ∧ s.merged = false := by
  obtain ⟨own, hown, d, hd, heq⟩ := Scale.of_mem_ofUnit (Dict.mem_of_get? hs)
  cases heq
  have hstands : d.channel = own := (he.stands_of_get? hd).channel
  exact ⟨⟨show d.channel ∈ _ from hstands ▸ hown, rfl, rfl⟩, rfl⟩

theorem Unscaled.mono {views others : List View} (h : Unscaled r views) (hsub : others.Sublist views) :
    Unscaled r others where
  isName v hv := h.isName v (hsub.subset hv)
  apart := h.apart.sublist (hsub.map _)
  bare v hv := h.bare v (hsub.subset hv)
  unused v hv := h.unused v (hsub.subset hv)

theorem Unscaled.ne {rest : List (Tree View)} (h : Unscaled r (Tree.preorders (t :: rest)))
    (hv : v ∈ t.preorder) (hw : w ∈ Tree.preorders rest) : v.name ≠ w.name := by
  have happart := h.apart
  rw [Tree.preorders, map_append, nodup_append] at happart
  exact happart.2.2 _ (mem_map_of_mem hv) _ (mem_map_of_mem hw)

theorem mem_preorders_of_below (hw : w ∈ ts.flatMap fun t => Tree.preorders t.children) :
    w ∈ Tree.preorders ts := by
  obtain ⟨t, ht, hw⟩ := mem_flatMap.mp hw
  exact mem_preorders.mpr ⟨t, ht, t.preorder_eq ▸ mem_cons_of_mem _ hw⟩

theorem Scaled.unscaled_rest {rest : List (Tree View)} {out : Tree View × Renames} (h : Scaled r t out)
    (hall : Unscaled r (Tree.preorders (t :: rest))) : Unscaled out.2 (Tree.preorders rest) where
  __ := hall.mono (sublist_append_right _ _)
  unused w hw c hc := by
    have hmem : w ∈ Tree.preorders (t :: rest) := mem_append_right _ hw
    refine (h.same w.name (hall.isName w hmem) (fun hin => ?_) c hc).trans (hall.unused w hmem c hc)
    obtain ⟨u, hu, heq⟩ := List.mem_map.mp hin
    exact hall.ne (t.preorder_eq ▸ mem_cons_of_mem _ hu) hw heq

theorem Scaled.free {out : Tree View × Renames} (h : Scaled r t out) (hall : Unscaled r t.preorder)
    (hname : out.1.value.name = t.value.name) (c : String) : Free out.2 out.1.value c := by
  intro s hs
  have hc := (h.wired.named c s hs).1
  have happart := hall.apart
  rw [t.preorder_eq] at happart
  refine ⟨h.kept c s hs, ?_⟩
  unfold inner
  rw [hname]
  exact (h.same _ (hall.isName _ t.value_mem_preorder) (nodup_cons.mp happart).1 c hc).trans
    (hall.unused _ t.value_mem_preorder c hc)

theorem ScaledAll.cons {t' : Tree View} {rest ts' : List (Tree View)} {r₁ r₂ : Renames}
    (hall : Unscaled r (Tree.preorders (t :: rest))) (h : Scaled r t (t', r₁))
    (hnames : t'.preorder.map View.name = t.preorder.map View.name)
    (hrest : ScaledAll r₁ rest (ts', r₂)) : ScaledAll r (t :: rest) (t' :: ts', r₂) := by
  -- The names of the first tree are none of those that the others replace.
  have hkeep : ∀ w ∈ t'.preorder, ∀ c ∈ Channel.scaled,
      r₂.entries.get? (w.inner c) = r₁.entries.get? (w.inner c) := by
    intro w hw c hc
    obtain ⟨u, hu, heq⟩ := List.mem_map.mp (hnames ▸ mem_map_of_mem hw : w.name ∈ _)
    refine hrest.same w.name (heq ▸ hall.isName u (mem_append_left _ hu)) (fun hin => ?_) c hc
    obtain ⟨x, hx, hxw⟩ := List.mem_map.mp hin
    exact hall.ne hu (mem_preorders_of_below hx) (heq.trans hxw.symm)
  have hroot : t'.value.name = t.value.name := by
    rw [t'.preorder_eq, t.preorder_eq] at hnames
    exact (cons.inj hnames).1
  have hfree := h.free (hall.mono (sublist_append_left _ _)) hroot
  refine ⟨fun u hu => ?_, fun u hu c s hs => ?_, fun name hname hnot c hc => ?_⟩
  · rcases mem_cons.mp hu with rfl | hu
    · exact h.wired.congr fun w hw => hkeep w (u.preorder_eq ▸ mem_cons_of_mem _ hw)
    · exact hrest.wired u hu
  · rcases mem_cons.mp hu with rfl | hu
    · obtain ⟨hkept, hend⟩ := hfree c s hs
      exact ⟨hkept, (hkeep _ u.value_mem_preorder c (h.wired.named c s hs).1).trans hend⟩
    · exact hrest.free u hu c s hs
  · rw [flatMap_cons, map_append, mem_append, not_or] at hnot
    exact (hrest.same name hname hnot.2 c hc).trans (h.same name hname hnot.1 c hc)

theorem scaled_composeScales {children out : List (Tree View)} (h : Unscaled r (v :: Tree.preorders children))
    (hchildren : ScaledAll r children (out, r'))
    (hnames : (Tree.preorders out).map View.name = (Tree.preorders children).map View.name) :
    Scaled r (.node v children) (composeScales v out r').value := by
  have hsame : ∀ name, IsName name → name ∉ (Tree.preorders children).map View.name →
      ∀ c ∈ Channel.scaled, r'.entries.get? (nameIn name c) = r.entries.get? (nameIn name c) :=
    fun name hname hmem => hchildren.same name hname fun hin => by
      obtain ⟨w, hw, heq⟩ := List.mem_map.mp hin
      exact hmem (List.mem_map.mpr ⟨w, mem_preorders_of_below hw, heq⟩)
  have hv : v.name ∉ (Tree.preorders children).map View.name := (nodup_cons.mp h.apart).1
  have hisName : IsName v.name := h.isName v mem_cons_self
  have hbare : v.scales = [] := h.bare v mem_cons_self
  have hstart : Merging.Orderly r' Channel.scaled ⟨v, out, r'⟩ := by
    constructor
    case isName => exact hisName
    case isNames =>
      intro w hw
      have hmem : w.name ∈ (Tree.preorders children).map View.name := hnames ▸ mem_map_of_mem hw
      obtain ⟨u, hu, heq⟩ := List.mem_map.mp hmem
      exact heq ▸ h.isName u (mem_cons_of_mem _ hu)
    case apart =>
      show (v.name :: _).Nodup
      rw [hnames]
      exact h.apart
    case named => exact fun c s hs => by simp [hbare] at hs
    case kept => exact fun c s hs => by simp [hbare] at hs
    case ends =>
      exact fun c hc => (hsame v.name hisName hv c hc).trans (h.unused v mem_cons_self c hc)
    case below => exact hchildren.wired
    case done => exact fun t ht c hc s hs => absurd ((hchildren.wired t ht).named c s hs).1 hc
    case free => exact fun t ht c _ => hchildren.free t ht c
    case same => exact fun _ _ _ _ _ => rfl
  have hdone := hstart.shareScales Channel.scaled (by decide) fun _ hc => hc
  have hfinal := congrArg Tree.preorders
    (@see_shareScales String View.name (fun _ _ _ => rfl) Channel.scaled ⟨v, out, r'⟩).value.2
  rw [preorders_map, preorders_map] at hfinal
  unfold composeScales
  rw [Logged.value_bind]
  generalize (shareScales Channel.scaled ⟨v, out, r'⟩).value = m at hdone hfinal
  refine ⟨.node hdone.named (fun t ht c => hdone.done t ht c not_mem_nil) hdone.below, hdone.kept,
    fun name hname hmem c hc => (hdone.same name hname (fun hin => ?_) c hc).trans
      (hsame name hname hmem c hc)⟩
  obtain ⟨t, ht, rfl⟩ := List.mem_map.mp hin
  refine hmem (hnames ▸ hfinal ▸ mem_map_of_mem ?_)
  exact mem_preorders.mpr ⟨t, ht, t.value_mem_preorder⟩

mutual

theorem scaled_addScales (config : Config) : (t : Tree View) → {r : Renames} →
    Body.Regular (t.map View.body) → Unscaled r t.preorder → Scaled r t (addScales config r t).value
  | .node v children, r, hregular, h => by
    unfold addScales
    split
    · rename_i mark e hunit
      obtain ⟨he, hnil⟩ := hregular.1 _ _ (body_of_unit? hunit)
      cases children with
      | cons t rest => exact (nomatch hnil)
      | nil =>
        refine ⟨.node (fun c s hs => (scalesNamed_ofUnit config v mark he hs).1) nofun nofun,
          fun c s hs => (scalesNamed_ofUnit config v mark he hs).2, fun _ _ _ _ _ => rfl⟩
    · refine scaled_composeScales h
        (scaledAll_addScalesAll config children hregular.2 (h.mono (sublist_cons_self _ _))) ?_
      rw [← preorders_map, ← preorders_map, (mapAll_addScalesAll (fun _ _ _ => rfl) _ _ _).value]

theorem scaledAll_addScalesAll (config : Config) : (ts : List (Tree View)) → {r : Renames} →
    Body.RegularAll (Tree.mapAll View.body ts) → Unscaled r (Tree.preorders ts) →
    ScaledAll r ts (addScalesAll config r ts).value
  | [], r, _, _ => ⟨nofun, nofun, fun _ _ _ _ _ => rfl⟩
  | t :: rest, r, hregular, h => by
    have hfirst := scaled_addScales config t hregular.1 (h.mono (sublist_append_left _ _))
    have hnames : ((addScales config r t).value.1.preorder).map View.name = t.preorder.map View.name := by
      rw [← preorder_map, ← preorder_map, (map_addScales (fun _ _ _ => rfl) _ _ _).value]
    unfold addScalesAll
    rw [Logged.value_bind]
    generalize (addScales config r t).value = first at hfirst hnames
    obtain ⟨t', r₁⟩ := first
    have hrest := scaledAll_addScalesAll config rest hregular.2 (hfirst.unscaled_rest h)
    exact .cons h hfirst hnames hrest

end

theorem grounded_shareScale (m : Merging) (channel : String) (h : m.renames.Grounded) :
    (shareScale m channel).value.renames.Grounded := by
  unfold shareScale
  dsimp only
  split
  · exact h
  · split
    · exact h.renameAll _
    · exact h

mutual

theorem grounded_addScales (config : Config) : (t : Tree View) → {r : Renames} → r.Grounded →
    (addScales config r t).value.2.Grounded
  | .node v children, r, h => by
    unfold addScales
    split
    · exact h
    · unfold composeScales
      generalize Channel.scaled = channels
      exact shareScales_induction grounded_shareScale channels (grounded_addScalesAll config children h)

theorem grounded_addScalesAll (config : Config) : (ts : List (Tree View)) → {r : Renames} →
    r.Grounded → (addScalesAll config r ts).value.2.Grounded
  | [], _, h => h
  | t :: rest, _, h => by
    unfold addScalesAll
    exact grounded_addScalesAll config rest (grounded_addScales config t h)

end

/-! ### Owners -/

/-- Whether a name is resolved to that of a scale of the channel that one of the views has and that was
not taken over. -/
def Owned (r : Renames) (c name : String) (owners : List View) : Prop :=
  ∃ owner ∈ owners, ∃ s, owner.scales.get? c = some s ∧ s.channel = c ∧ s.merged = false ∧
    r.resolve name = s.name

theorem Owned.mono {name : String} {owners others : List View} (h : Owned r c name owners)
    (hsub : owners ⊆ others) : Owned r c name others := by
  obtain ⟨owner, howner, hs⟩ := h
  exact ⟨owner, hsub howner, hs⟩

theorem Wired.owned (h : Wired r t) (hr : r.Grounded) {above : List View}
    (hroot : ∀ c s, t.value.scales.get? c = some s → Owned r c s.name (t.value :: above) ∧
      (s.merged → Owned r c s.name above)) :
    ∀ p ∈ t.lineages above, ∀ c s, p.1.scales.get? c = some s →
      Owned r c s.name (p.1 :: p.2) ∧ (s.merged → Owned r c s.name p.2) := by
  induction h generalizing above with
  | @node v ts named hangs below ih =>
    intro p hp
    rcases mem_cons.mp hp with rfl | hp
    · exact hroot
    · obtain ⟨t, ht, hp⟩ := mem_lineagesAll.mp hp
      refine ih t ht (fun c s hs => ?_) p hp
      obtain ⟨-, hchannel, hname⟩ := (below t ht).named c s hs
      have hlink := hangs t ht c s hs
      split at hlink
      · obtain ⟨hmerged, hend⟩ := hlink
        refine ⟨⟨t.value, mem_cons_self, s, hs, hchannel, hmerged, ?_⟩, fun h => ?_⟩
        · rw [hname, Renames.resolve_of_none hend]
        · rw [hmerged] at h
          cases h
      · obtain ⟨-, hhas, hnext⟩ := hlink
        obtain ⟨s', hs'⟩ := isSome_iff_exists.mp hhas
        obtain ⟨owner, howner, final, hfinal, hchannel', hkept, hresolve⟩ := (hroot c s' hs').1
        have hup : Owned r c s.name (v :: above) := by
          refine ⟨owner, howner, final, hfinal, hchannel', hkept, ?_⟩
          rw [hname, hr.resolve_of_some hnext, ← hresolve, (named c s' hs').2.2]
        exact ⟨hup.mono (subset_cons_self _ _), fun _ => hup⟩

end View

end ChartPlan
