import ChartPlan.View.Axes
import ChartPlan.View.Geography
import ChartPlan.View.Legends
import Mathlib.Data.List.Basic

/-!
# What the user wrote comes first

Scales, axes, legends and projections that become one merge property by property. A property that the
user wrote in one of them is settled by what users wrote, and a property that nobody wrote by all that
was inferred. No tie breaker changes the standing of a value, so this holds for any number of
components, in whatever order written, inferred and absent values come.

* `TieBreaker.Impartial`: a choice between two values of equal standing has their standing.
* `Setting.mergeAll_of_explicit`: inferred values have no influence on written ones.
* `Split.Settled`: what is said of each property of merged components.
* `unites_settled`: it holds of all components that become one.
-/

namespace ChartPlan

open List Option

variable {parts : List (Split Json)}

/-! ### Properties -/

namespace Split

variable {α : Type} {s : Split α} {key : String}

def Apart (s : Split α) : Prop :=
  ∀ key, s.explicit.has key → s.implicit.has key = false

theorem apart_empty : ({} : Split α).Apart :=
  fun _ _ => rfl

theorem setting?_put (s : Split α) (key other : String) (setting : Setting α) :
    (s.put key setting).setting? other = if other = key then some setting else s.setting? other := by
  obtain ⟨value, explicit⟩ := setting
  unfold put set setting?
  cases explicit <;> by_cases h : other = key <;> simp [Dict.get?_insert, Dict.get?_erase, h]

theorem Apart.put (h : s.Apart) (key : String) (setting : Setting α) : (s.put key setting).Apart := by
  intro other
  have hother := h other
  obtain ⟨value, explicit⟩ := setting
  unfold Split.put set
  cases explicit <;> by_cases hk : other = key <;>
    simp_all [Dict.has, Dict.get?_insert, Dict.get?_erase]

theorem isSome_setting? (s : Split α) (key : String) : (s.setting? key).isSome = s.has key := by
  unfold setting? has Dict.has
  cases s.explicit.get? key <;> simp

theorem mem_keys : key ∈ s.keys ↔ s.has key := by
  unfold keys has
  rw [mem_append, mem_filter, Dict.mem_keys, Dict.mem_keys, Bool.or_eq_true]
  cases s.explicit.has key <;> simp

def written? (s : Split α) (key : String) : Option (Setting α) :=
  (s.explicit.get? key).map (⟨·, true⟩)

def inferred? (s : Split α) (key : String) : Option (Setting α) :=
  (s.implicit.get? key).map (⟨·, false⟩)

end Split

/-! ### Tie breakers -/

/-- A choice between two values of equal standing has their standing. -/
def TieBreaker.Impartial (choose : TieBreaker) : Prop :=
  ∀ a b : Setting Json, a.explicit = b.explicit → (choose a b).explicit = a.explicit

namespace TieBreaker

theorem impartial_uniteDomains : Impartial uniteDomains := by
  intro a b h
  show (a.explicit || b.explicit) = a.explicit
  rw [← h, Bool.or_self]

theorem impartial_mergeTitles : Impartial mergeTitles :=
  fun _ _ _ => rfl

theorem impartial_of_choice {choose : TieBreaker} (h : ∀ a b, choose a b = a ∨ choose a b = b) :
    Impartial choose := by
  intro a b hab
  rcases h a b with hc | hc
  · rw [hc]
  · rw [hc, hab]

theorem impartial_largerStep : Impartial largerStep := by
  refine impartial_of_choice fun a b => ?_
  unfold largerStep
  split
  · split
    · exact .inr rfl
    · exact .inl rfl
  · exact .inr rfl
  · exact .inl rfl

theorem impartial_ite (p : Setting Json → Setting Json → Prop) [∀ a b, Decidable (p a b)] :
    Impartial fun a b => if p a b then b else a :=
  impartial_of_choice fun _ _ => (ite_eq_or_eq ..).symm

theorem impartial_prefer : Impartial ScaleType.prefer :=
  impartial_ite _

theorem impartial_preferCircle : Impartial preferCircle :=
  impartial_ite fun _ b => b.value == .str "circle"

theorem impartial_firstDefined : Impartial firstDefined :=
  impartial_ite fun a _ => a.value.isNull

end TieBreaker

/-- The tie breakers of a kind of components, property by property. -/
def ImpartialTies (tie : String → Option TieBreaker) : Prop :=
  ∀ key, ∀ choose ∈ tie key, TieBreaker.Impartial choose

theorem Scale.impartial_tieBreaker : ImpartialTies Scale.tieBreaker := by
  intro key choose h
  unfold Scale.tieBreaker at h
  split at h <;> cases h
  · exact TieBreaker.impartial_uniteDomains
  · exact TieBreaker.impartial_largerStep
  · exact TieBreaker.impartial_prefer

theorem Axis.impartial_tieBreaker : ImpartialTies Axis.tieBreaker := by
  intro key choose h
  unfold Axis.tieBreaker at h
  split at h <;> cases h
  · exact TieBreaker.impartial_mergeTitles
  · exact TieBreaker.impartial_firstDefined
  · exact TieBreaker.impartial_firstDefined

theorem Legend.impartial_tieBreaker : ImpartialTies Legend.tieBreaker := by
  intro key choose h
  unfold Legend.tieBreaker at h
  split at h <;> cases h
  · exact TieBreaker.impartial_mergeTitles
  · exact TieBreaker.impartial_preferCircle

/-! ### Values of several components -/

namespace Setting

variable {tie : Option TieBreaker} {a b : Setting Json} {acc : Option (Setting Json)}
  {settings : List (Setting Json)}

@[simp] theorem merge_none_left (b : Option (Setting Json)) : merge tie none b = b := by
  unfold merge
  rfl

@[simp] theorem merge_none_right (a : Option (Setting Json)) : merge tie a none = a := by
  cases a <;> rfl

theorem merge_of_explicit_left (ha : a.explicit) (hb : b.explicit = false) :
    merge tie (some a) (some b) = some a := by
  simp [merge, ha, hb]

theorem merge_of_explicit_right (ha : a.explicit = false) (hb : b.explicit) :
    merge tie (some a) (some b) = some b := by
  simp [merge, ha, hb]

theorem exists_merge_of_equal (htie : ∀ choose ∈ tie, TieBreaker.Impartial choose)
    (h : a.explicit = b.explicit) :
    ∃ m, merge tie (some a) (some b) = some m ∧ m.explicit = a.explicit := by
  unfold merge
  simp only [h, Bool.and_not_self, Bool.false_eq_true, if_false]
  split
  · exact ⟨a, rfl, h⟩
  · cases tie with
    | none => exact ⟨a, rfl, h⟩
    | some choose => exact ⟨choose a b, rfl, (htie choose rfl a b h).trans h⟩

/-- The value of a property that several components give, from the first one on. -/
def mergeAll (tie : Option TieBreaker) (settings : List (Setting Json)) : Option (Setting Json) :=
  settings.foldl (fun acc s => merge tie acc (some s)) none

theorem isSome_mergeAll (tie : Option TieBreaker) (settings : List (Setting Json)) :
    (mergeAll tie settings).isSome ↔ settings ≠ [] := by
  rcases eq_nil_or_concat' settings with rfl | ⟨done, s, rfl⟩
  · simp [mergeAll]
  · have hsome : ∀ acc, (merge tie acc (some s)).isSome := fun acc => by
      cases acc with
      | none => rfl
      | some a =>
        unfold merge
        grind
    simp [mergeAll, hsome]

section

variable (htie : ∀ choose ∈ tie, TieBreaker.Impartial choose)

include htie

theorem foldl_merge_of_explicit (settings : List (Setting Json)) (ha : a.explicit) :
    ∃ m, m.explicit ∧ settings.foldl (fun acc s => merge tie acc (some s)) (some a) = some m ∧
      (settings.filter Setting.explicit).foldl (fun acc s => merge tie acc (some s)) (some a) = some m := by
  induction settings generalizing a with
  | nil => exact ⟨a, ha, rfl, rfl⟩
  | cons s rest ih =>
    cases hs : s.explicit with
    | true =>
      obtain ⟨m, hm, hexplicit⟩ := exists_merge_of_equal htie (ha.trans hs.symm)
      rw [filter_cons_of_pos hs, foldl_cons, foldl_cons, hm]
      exact ih (hexplicit.trans ha)
    | false =>
      rw [filter_cons_of_neg (by simp [hs]), foldl_cons, merge_of_explicit_left ha hs]
      exact ih ha

theorem foldl_merge_of_mem (hmem : ∃ s ∈ settings, s.explicit)
    (hacc : ∀ a ∈ acc, a.explicit = false) :
    ∃ m, m.explicit ∧ settings.foldl (fun acc s => merge tie acc (some s)) acc = some m ∧
      mergeAll tie (settings.filter Setting.explicit) = some m := by
  induction settings generalizing acc with
  | nil => obtain ⟨s, hs, -⟩ := hmem; cases hs
  | cons s rest ih =>
    cases hs : s.explicit with
    | true =>
      have hfirst : merge tie acc (some s) = some s := by
        cases acc with
        | none => rfl
        | some a => exact merge_of_explicit_right (hacc a rfl) hs
      rw [foldl_cons, hfirst, filter_cons_of_pos hs]
      exact foldl_merge_of_explicit htie rest hs
    | false =>
      rw [foldl_cons, filter_cons_of_neg (by simp [hs])]
      refine ih ?_ ?_
      · obtain ⟨t, ht, hexplicit⟩ := hmem
        rcases mem_cons.mp ht with rfl | ht
        · rw [hs] at hexplicit
          cases hexplicit
        · exact ⟨t, ht, hexplicit⟩
      · cases acc with
        | none => rintro a ⟨⟩; exact hs
        | some a =>
          obtain ⟨m, hm, hexplicit⟩ := exists_merge_of_equal htie ((hacc a rfl).trans hs.symm)
          rw [hm]
          rintro a ⟨⟩
          exact hexplicit.trans (hacc _ rfl)

theorem mergeAll_of_explicit (hmem : ∃ s ∈ settings, s.explicit) :
    ∃ m, m.explicit ∧ mergeAll tie settings = some m ∧
      mergeAll tie (settings.filter Setting.explicit) = some m :=
  foldl_merge_of_mem htie hmem (by simp)

theorem mergeAll_of_inferred (hne : settings ≠ []) (hall : ∀ s ∈ settings, s.explicit = false) :
    ∃ m, m.explicit = false ∧ mergeAll tie settings = some m := by
  cases settings with
  | nil => exact absurd rfl hne
  | cons s rest =>
    obtain ⟨hs, hrest⟩ := forall_mem_cons.mp hall
    refine foldlRecOn rest _ (motive := fun acc => ∃ m, m.explicit = false ∧ acc = some m)
      ⟨s, hs, rfl⟩ fun acc hacc t ht => ?_
    obtain ⟨a, ha, rfl⟩ := hacc
    obtain ⟨m, hm, hexplicit⟩ := exists_merge_of_equal htie (ha.trans (hrest t ht).symm)
    exact ⟨m, hexplicit.trans ha, hm⟩

end

end Setting

/-! ### Components -/

namespace Split

def putAll {α : Type} (value? : String → Option (Setting α)) : List String → Split α → Split α
  | [], s => s
  | name :: rest, s => putAll value? rest ((value? name).elim s (s.put name))

section

variable {α : Type} {value? : String → Option (Setting α)} {s : Split α}

theorem setting?_putAll (names : List String) (s : Split α) (key : String) :
    (putAll value? names s).setting? key =
      if key ∈ names then (value? key).or (s.setting? key) else s.setting? key := by
  induction names generalizing s with
  | nil => rfl
  | cons name rest ih =>
    rw [putAll, ih]
    by_cases hk : key = name
    · subst hk
      cases hvalue : value? key <;> simp [setting?_put]
    · cases hvalue : value? name <;> simp [setting?_put, hk]

theorem Apart.putAll (h : s.Apart) (names : List String) : (putAll value? names s).Apart := by
  induction names generalizing s with
  | nil => exact h
  | cons name rest ih =>
    unfold Split.putAll
    cases value? name with
    | none => exact ih h
    | some setting => exact ih (h.put name setting)

end

variable {tie : String → Option TieBreaker} {owner : String} {a b : Split Json}

theorem value_mergeKeys (names : List String) (acc : Split Json) :
    (mergeKeys tie owner a b names acc).value =
      putAll (fun key => Setting.merge (tie key) (a.setting? key) (b.setting? key)) names acc := by
  induction names generalizing acc with
  | nil => rfl
  | cons name rest ih =>
    unfold mergeKeys
    rw [putAll, Logged.value_bind, Setting.value_mergeNoted]
    cases Setting.merge (tie name) (a.setting? name) (b.setting? name) with
    | none => exact ih acc
    | some setting => exact ih (acc.put name setting)

theorem setting?_merge (key : String) : (merge tie owner a b).value.setting? key =
    Setting.merge (tie key) (a.setting? key) (b.setting? key) := by
  unfold merge
  rw [value_mergeKeys, setting?_putAll]
  split
  · exact or_none
  · rename_i hkey
    rw [NameSet.mem_ofList, mem_append, mem_keys, mem_keys, ← isSome_setting?,
      ← isSome_setting?, not_or] at hkey
    simp only [Bool.not_eq_true, isSome_eq_false_iff, isNone_iff_eq_none] at hkey
    rw [hkey.1, hkey.2]
    rfl

theorem apart_merge : (merge tie owner a b).value.Apart := by
  unfold merge
  rw [value_mergeKeys]
  exact apart_empty.putAll _

/-- Whether the properties of a component are those of its parts, merged in order. -/
structure Agrees (tie : String → Option TieBreaker) (parts : List (Split Json)) (whole : Split Json) :
    Prop where
  apart : whole.Apart
  setting? : ∀ key, whole.setting? key =
    Setting.mergeAll (tie key) (parts.filterMap fun part => part.setting? key)

theorem agrees_single (ha : a.Apart) : Agrees tie [a] a := by
  refine ⟨ha, fun key => ?_⟩
  cases hkey : a.setting? key <;> simp [Setting.mergeAll, hkey]

theorem Agrees.merge {parts : List (Split Json)} {whole : Split Json} (h : Agrees tie parts whole)
    (owner : String) (part : Split Json) :
    Agrees tie (parts ++ [part]) (merge tie owner whole part).value := by
  refine ⟨apart_merge, fun key => ?_⟩
  rw [setting?_merge, h.setting?, Setting.mergeAll, Setting.mergeAll, filterMap_append,
    foldl_append]
  cases hkey : part.setting? key <;> simp [hkey]

/-- What is known of every property of a component that replaces its parts. -/
structure Settled (tie : String → Option TieBreaker) (parts : List (Split Json)) (whole : Split Json) :
    Prop where
  /-- A property that the user wrote in some part is merged from what was written, in order. -/
  written : ∀ key, (∃ part ∈ parts, part.explicit.has key) →
    ∃ s, Setting.mergeAll (tie key) (parts.filterMap fun part => part.written? key) = some s ∧
      whole.explicit.get? key = some s.value ∧ whole.implicit.get? key = none
  /-- Any other property is merged from all that was inferred, in order. -/
  inferred : ∀ key, (∀ part ∈ parts, part.explicit.has key = false) →
    (∃ part ∈ parts, part.implicit.has key) →
    ∃ s, Setting.mergeAll (tie key) (parts.filterMap fun part => part.inferred? key) = some s ∧
      whole.implicit.get? key = some s.value ∧ whole.explicit.get? key = none
  /-- The properties are those of the parts. -/
  has_iff : ∀ key, whole.has key ↔ ∃ part ∈ parts, part.has key
  apart : whole.Apart

theorem filter_setting? (s : Split Json) (key : String) :
    (s.setting? key).filter Setting.explicit = s.written? key := by
  unfold Split.setting? written?
  cases s.explicit.get? key with
  | some v => rfl
  | none => cases hkey : s.implicit.get? key <;> rfl

theorem setting?_of_has_eq_false {s : Split Json} {key : String} (h : s.explicit.has key = false) :
    s.setting? key = s.inferred? key := by
  unfold Split.setting? inferred?
  rw [not_isSome_iff_eq_none.mp (Bool.eq_false_iff.mp h)]

theorem get?_of_setting? {s : Split Json} {key : String} {m : Setting Json}
    (h : s.setting? key = some m) : if m.explicit then s.explicit.get? key = some m.value
      else s.explicit.get? key = none ∧ s.implicit.get? key = some m.value := by
  unfold Split.setting? at h
  cases hexplicit : s.explicit.get? key with
  | some v =>
    rw [hexplicit] at h
    cases h
    rfl
  | none =>
    rw [hexplicit] at h
    obtain ⟨v, hv, rfl⟩ := map_eq_some_iff.mp h
    exact ⟨rfl, hv⟩

theorem Agrees.settled {parts : List (Split Json)} {whole : Split Json} (h : Agrees tie parts whole)
    (htie : ImpartialTies tie) : Settled tie parts whole := by
  refine ⟨?_, ?_, fun key => ?_, h.apart⟩
  · rintro key ⟨part, hpart, hhas⟩
    obtain ⟨v, hv⟩ := isSome_iff_exists.mp hhas
    have hsetting : part.setting? key = some ⟨v, true⟩ := by simp [Split.setting?, hv]
    have hmem : (⟨v, true⟩ : Setting Json) ∈ parts.filterMap fun part => part.setting? key :=
      mem_filterMap.mpr ⟨part, hpart, hsetting⟩
    obtain ⟨m, hm, hmerged, hfiltered⟩ := Setting.mergeAll_of_explicit (htie key) ⟨_, hmem, rfl⟩
    rw [filter_filterMap] at hfiltered
    simp only [filter_setting?] at hfiltered
    have hwhole := get?_of_setting? ((h.setting? key).trans hmerged)
    rw [if_pos hm] at hwhole
    refine ⟨m, hfiltered, hwhole, not_isSome_iff_eq_none.mp (Bool.eq_false_iff.mp ?_)⟩
    exact h.apart key (by simp [Dict.has, hwhole])
  · rintro key hnone ⟨part, hpart, hhas⟩
    obtain ⟨v, hv⟩ := isSome_iff_exists.mp hhas
    have hparts : parts.filterMap (fun part => part.setting? key) =
        parts.filterMap fun part => part.inferred? key :=
      filterMap_congr fun part hpart => setting?_of_has_eq_false (hnone part hpart)
    have hmem : (⟨v, false⟩ : Setting Json) ∈ parts.filterMap fun part => part.inferred? key :=
      mem_filterMap.mpr ⟨part, hpart, by simp [inferred?, hv]⟩
    obtain ⟨m, hm, hmerged⟩ := Setting.mergeAll_of_inferred (htie key) (ne_nil_of_mem hmem)
      fun s hs => by
        obtain ⟨p, -, hp⟩ := mem_filterMap.mp hs
        obtain ⟨w, -, rfl⟩ := map_eq_some_iff.mp hp
        rfl
    have hwhole := get?_of_setting? ((h.setting? key).trans (hparts ▸ hmerged))
    rw [if_neg (by simp [hm])] at hwhole
    exact ⟨m, hmerged, hwhole.2, hwhole.1⟩
  · rw [← isSome_setting?, h.setting?, Setting.isSome_mergeAll]
    simp [filterMap_eq_nil_iff, ← isSome_setting?, isSome_iff_ne_none]

end Split

/-! ### Scales -/

namespace Scale

theorem value_mergeProperty (property : String) (scales : List Scale) (acc : Option (Setting Json)) :
    (mergeProperty property scales acc).value =
      ((scales.map Scale.props).filterMap fun part => part.setting? property).foldl
        (fun acc s => Setting.merge (tieBreaker property) acc (some s)) acc := by
  induction scales generalizing acc with
  | nil => rfl
  | cons s rest ih =>
    unfold mergeProperty
    rw [Logged.value_bind, Setting.value_mergeNoted, ih]
    cases hsetting : s.props.setting? property <;> simp [hsetting]

theorem value_mergeProperties (scales : List Scale) (names : List String) (acc : Split Json) :
    (mergeProperties scales names acc).value =
      Split.putAll (fun key => (mergeProperty key scales none).value) names acc := by
  induction names generalizing acc with
  | nil => rfl
  | cons name rest ih =>
    unfold mergeProperties
    rw [Split.putAll, Logged.value_bind]
    cases (mergeProperty name scales none).value with
    | none => exact ih acc
    | some setting => exact ih (acc.put name setting)

theorem agrees_mergeAll (scales : List Scale) :
    Split.Agrees tieBreaker (scales.map Scale.props) (mergeAll scales).value := by
  unfold mergeAll
  rw [value_mergeProperties]
  refine ⟨Split.apart_empty.putAll _, fun key => ?_⟩
  rw [Split.setting?_putAll, value_mergeProperty]
  split
  · exact or_none
  · rename_i hkey
    have hnil : (scales.map Scale.props).filterMap (fun part => part.setting? key) = [] := by
      refine filterMap_eq_nil_iff.mpr fun part hpart => ?_
      obtain ⟨s, hs, rfl⟩ := mem_map.mp hpart
      rw [← not_isSome_iff_eq_none, Split.isSome_setting?, ← Split.mem_keys]
      exact fun hmem => hkey (NameSet.mem_ofList.mpr (mem_flatMap.mpr ⟨s, hs, hmem⟩))
    rw [hnil]
    rfl

end Scale

/-! ### Axes, legends and projections -/

theorem Axis.agrees_mergeInto {acc merged : Axis} {rest : List Axis}
    (h : Split.Agrees tieBreaker parts acc.props)
    (hmerged : (mergeInto acc rest).value = some merged) :
    Split.Agrees tieBreaker (parts ++ rest.map Axis.props) merged.props := by
  induction rest generalizing acc parts with
  | nil =>
    cases hmerged
    simpa using h
  | cons a rest ih =>
    unfold mergeInto at hmerged
    split at hmerged
    · cases hmerged
    · simpa using ih (h.merge "axis" a.props) hmerged

theorem Legend.agrees_mergeInto {acc : Legend} {rest : List Legend}
    (h : Split.Agrees tieBreaker parts acc.props) :
    Split.Agrees tieBreaker (parts ++ rest.map Legend.props) (mergeInto acc rest).value.props := by
  induction rest generalizing acc parts with
  | nil =>
    rw [map_nil, append_nil]
    exact h
  | cons l rest ih =>
    unfold mergeInto
    rw [Logged.value_bind, map_cons, append_cons]
    apply ih
    exact h.merge "legend" l.props

theorem Projection.agrees_mergeAll {acc : Projection} {rest : List Projection}
    (h : Split.Agrees (fun _ => none) parts acc.props) :
    Split.Agrees (fun _ => none) (parts ++ rest.map Projection.props) (mergeAll acc rest).value.props := by
  induction rest generalizing acc parts with
  | nil =>
    rw [map_nil, append_nil]
    exact h
  | cons p rest ih =>
    unfold mergeAll
    rw [Logged.value_bind, map_cons, append_cons]
    apply ih
    exact h.merge "projection" p.props

/-! ### Components that become one -/

/-- Components that become one, with the tie breakers of their kind: scales of a channel, axes that are
not on different sides, legends and projections. -/
inductive Unites : (String → Option TieBreaker) → List (Split Json) → Split Json → Prop
  | scales (scales : List Scale) :
      Unites Scale.tieBreaker (scales.map Scale.props) (Scale.mergeAll scales).value
  | axes {first merged : Axis} {rest : List Axis} : (Axis.mergeInto first rest).value = some merged →
      Unites Axis.tieBreaker ((first :: rest).map Axis.props) merged.props
  | legends (first : Legend) (rest : List Legend) :
      Unites Legend.tieBreaker ((first :: rest).map Legend.props)
        (Legend.mergeInto first rest).value.props
  | projections (first : Projection) (rest : List Projection) :
      Unites (fun _ => none) ((first :: rest).map Projection.props)
        (Projection.mergeAll first rest).value.props

theorem Unites.agrees {tie : String → Option TieBreaker} {whole : Split Json}
    (h : Unites tie parts whole) (hparts : ∀ part ∈ parts, part.Apart) :
    Split.Agrees tie parts whole := by
  cases h with
  | scales scales => exact Scale.agrees_mergeAll scales
  | axes hmerged =>
    exact Axis.agrees_mergeInto (Split.agrees_single (hparts _ mem_cons_self)) hmerged
  | legends first rest =>
    exact Legend.agrees_mergeInto (Split.agrees_single (hparts _ mem_cons_self))
  | projections first rest =>
    exact Projection.agrees_mergeAll (Split.agrees_single (hparts _ mem_cons_self))

theorem Unites.impartialTies {tie : String → Option TieBreaker} {whole : Split Json}
    (h : Unites tie parts whole) : ImpartialTies tie := by
  cases h with
  | scales => exact Scale.impartial_tieBreaker
  | axes => exact Axis.impartial_tieBreaker
  | legends => exact Legend.impartial_tieBreaker
  | projections => exact fun _ _ h => nomatch h

/-- What the user wrote comes first in all components that become one. A property that some part has
from the user is explicit, and its value is merged from the written values alone; any other property of
the parts is implicit, and its value is merged from all inferred ones. No property is lost, none comes
from elsewhere, and none is on both sides. -/
theorem unites_settled {tie : String → Option TieBreaker} {parts : List (Split Json)}
    {whole : Split Json} (h : Unites tie parts whole) (hparts : ∀ part ∈ parts, part.Apart) :
    Split.Settled tie parts whole :=
  (h.agrees hparts).settled h.impartialTies

/-- Three axes of a channel. The title is inferred for the first and written for the others, a grid is
only inferred, and the second axis alone has a side. -/
def titledAxes : Axis × List Axis :=
  ({ channel := "x"
     scale := "x"
     props := ⟨[], [("grid", .bool true), ("title", .str "Year")]⟩ },
    [{ channel := "x"
       scale := "layer_1_x"
       props := ⟨[("orient", .str "top"), ("title", .str "Sales")], []⟩ },
     { channel := "x"
       scale := "layer_2_x"
       props := ⟨[("title", .str "Costs")], [("grid", .bool false)]⟩ }])

theorem unites_settled_titledAxes :
    ∃ merged : Axis, (Axis.mergeInto titledAxes.1 titledAxes.2).value = some merged ∧
      merged.props.explicit.get? "title" = some (.str "Sales, Costs") ∧
      merged.props.implicit.get? "grid" = some (.bool true) ∧
      (∀ part ∈ (titledAxes.1 :: titledAxes.2).map Axis.props, part.Apart) ∧
      Split.Settled Axis.tieBreaker ((titledAxes.1 :: titledAxes.2).map Axis.props) merged.props := by
  have hapart : ∀ part ∈ (titledAxes.1 :: titledAxes.2).map Axis.props, part.Apart := by
    intro part hpart key hkey
    simp only [titledAxes, map_cons, map_nil, mem_cons, not_mem_nil, or_false]
      at hpart
    rcases hpart with rfl | rfl | rfl <;>
      simp_all [Dict.has, Dict.get?]
  exact ⟨_, rfl, rfl, rfl, hapart, unites_settled (.axes rfl) hapart⟩

end ChartPlan
