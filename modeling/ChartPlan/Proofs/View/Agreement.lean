import ChartPlan.Proofs.Json.Equality
import ChartPlan.Proofs.Property.Precedence
import ChartPlan.Proofs.View.Sharing

/-!
# When axes and scales agree

Axes of layers become one unless users put two of them on different sides, and scales are shared when
the types of neighbours go together. An axis is compared with what was merged so far, and a scale with
the one before it, so what is said of all pairs has to be carried along.

* `Axis.mergeInto_sides`: when axes become one, and on which side.
* `ScaleType.compatible_of_isChain`: types that go together from neighbour to neighbour go together in
  all pairs, unless a time stands between a number and a position.
* `View.shareScale_shares`: when views share a scale.
-/

namespace ChartPlan

open List

/-! ### Sides of axes -/

namespace Axis

/-- The sides that axes have, each with its standing. -/
def sides (axes : List Axis) : List (Setting Json) :=
  axes.filterMap fun a => a.props.setting? "orient"

/-- Whether the user put no two axes on different sides. -/
def Agree (sides : List (Setting Json)) : Prop :=
  ∀ a ∈ sides, ∀ b ∈ sides, a.explicit → b.explicit → a.value == b.value

/-- The first side that a user wrote, or else the first that is not null. -/
def preferred? (sides : List (Setting Json)) : Option (Setting Json) :=
  ((sides.find? Setting.explicit).or (sides.find? fun s => !s.value.isNull)).or sides.head?

def prefer (a b : Setting Json) : Setting Json :=
  if !a.explicit && (b.explicit || a.value.isNull && !b.value.isNull) then b else a

section

variable {a b : Setting Json} {rest : List (Setting Json)}

theorem merge_sides (h : a.explicit → b.explicit → a.value == b.value) :
    Setting.merge (some firstDefined) (some a) (some b) = some (prefer a b) := by
  obtain ⟨a, ea⟩ := a
  obtain ⟨b, eb⟩ := b
  cases ea <;> cases eb <;> cases a <;> cases b <;>
    simp_all [Setting.merge, firstDefined, prefer, Json.isNull, Json.beq_iff_unsigned, Json.unsigned]

theorem preferred?_prefer : preferred? (prefer a b :: rest) = preferred? (a :: b :: rest) := by
  cases ha : a.explicit <;> cases hb : b.explicit <;> cases hna : a.value.isNull <;>
    cases hnb : b.value.isNull <;> simp [preferred?, prefer, ha, hb, hna, hnb]

theorem agree_prefer (h : a.explicit → b.explicit → a.value == b.value) :
    Agree (prefer a b :: rest) ↔ Agree (a :: b :: rest) := by
  simp only [Agree, prefer, Json.beq_iff_unsigned] at *
  grind

end

theorem onOtherSide_eq_false_iff {a b : Axis} : a.onOtherSide b = false ↔
    ∀ s ∈ a.props.setting? "orient", ∀ t ∈ b.props.setting? "orient",
      s.explicit → t.explicit → s.value == t.value := by
  unfold onOtherSide Split.setting?
  cases a.props.explicit.get? "orient" <;> cases b.props.explicit.get? "orient" <;>
    cases a.props.implicit.get? "orient" <;> cases b.props.implicit.get? "orient" <;> simp

theorem sides_cons (a : Axis) (axes : List Axis) :
    sides (a :: axes) = (a.props.setting? "orient").toList ++ sides axes := by
  unfold sides
  cases h : a.props.setting? "orient" <;> simp [h]

theorem sides_merge {a b : Axis} (h : a.onOtherSide b = false) (axes : List Axis) :
    (Agree (sides ({ a with props := (Split.merge tieBreaker "axis" a.props b.props).value } :: axes)) ↔
      Agree (sides (a :: b :: axes))) ∧
    preferred? (sides ({ a with props := (Split.merge tieBreaker "axis" a.props b.props).value } :: axes)) =
      preferred? (sides (a :: b :: axes)) := by
  rw [onOtherSide_eq_false_iff] at h
  simp only [sides_cons, Split.setting?_merge]
  cases ha : a.props.setting? "orient" with
  | none => simp
  | some s =>
    cases hb : b.props.setting? "orient" with
    | none => simp
    | some t =>
      have hst := h s ha t hb
      rw [show tieBreaker "orient" = some firstDefined from rfl, merge_sides hst]
      exact ⟨agree_prefer hst, preferred?_prefer⟩

/-- Axes become one exactly if users put no two of them on different sides, be they neighbours or not.
The one axis is on the side that users chose, or else on the first side that is not null. -/
theorem mergeInto_sides (first : Axis) (rest : List Axis) :
    ((mergeInto first rest).value.isSome ↔ Agree (sides (first :: rest))) ∧
      ∀ merged, (mergeInto first rest).value = some merged →
        merged.props.setting? "orient" = preferred? (sides (first :: rest)) := by
  induction rest generalizing first with
  | nil =>
    refine ⟨⟨fun _ => ?_, fun _ => rfl⟩, ?_⟩
    · rw [sides_cons]
      cases first.props.setting? "orient" <;> simp [Agree, sides]
    · intro merged hmerged
      cases hmerged
      rw [sides_cons]
      cases first.props.setting? "orient" with
      | none => rfl
      | some s => cases hs : s.explicit <;> cases hn : s.value.isNull <;> simp [preferred?, sides, hs, hn]
  | cons a rest ih =>
    unfold mergeInto
    cases hside : first.onOtherSide a with
    | true =>
      refine ⟨⟨fun h => Bool.noConfusion h, fun h => ?_⟩, fun _ h => by cases h⟩
      have hsame : first.onOtherSide a = false := onOtherSide_eq_false_iff.mpr fun s hs t ht =>
        h s (mem_filterMap.mpr ⟨first, by simp, hs⟩) t (mem_filterMap.mpr ⟨a, by simp, ht⟩)
      rw [hside] at hsame
      cases hsame
    | false =>
      obtain ⟨hagree, hside⟩ := sides_merge hside rest
      rw [← hagree, ← hside]
      exact ih _

def onSide (side : Json) (explicit : Bool) : Axis where
  channel := "x"
  scale := "x"
  props := Split.put {} "orient" ⟨side, explicit⟩

/-- A user puts the third of four axes to the top, and another one there as well. -/
theorem mergeInto_sides_top : Agree (sides [onSide .null false, onSide (.str "bottom") false,
      onSide (.str "top") true, onSide (.str "top") true]) ∧
    ∃ merged, (mergeInto (onSide .null false) [onSide (.str "bottom") false, onSide (.str "top") true,
        onSide (.str "top") true]).value = some merged ∧
      merged.props.setting? "orient" = some ⟨.str "top", true⟩ := by
  obtain ⟨hagree, hside⟩ := mergeInto_sides (onSide .null false)
    [onSide (.str "bottom") false, onSide (.str "top") true, onSide (.str "top") true]
  exact ⟨hagree.mp rfl, _, rfl, hside _ rfl⟩

end Axis

/-! ### Types of scales -/

namespace ScaleType

theorem compatible_iff {a b : String} : compatible a b ↔ category a = category b ∨
    (category a = "ordinal-position" ∧ b = "time") ∨ (category b = "ordinal-position" ∧ a = "time") := by
  simp [compatible, or_assoc]

/-- Types with a time, which goes together with numbers and with positions, and with both of these. -/
def Mixed (types : List String) : Prop :=
  "time" ∈ types ∧ (∃ a ∈ types, category a = "ordinal-position") ∧
    ∃ b ∈ types, category b = "numeric" ∧ b ≠ "time"

theorem Mixed.mono {types more : List String} (h : Mixed types) (hsub : types ⊆ more) : Mixed more := by
  obtain ⟨htime, ⟨a, ha, hposition⟩, b, hb, hnumeric⟩ := h
  exact ⟨hsub htime, ⟨a, hsub ha, hposition⟩, b, hsub hb, hnumeric⟩

theorem compatible_comm {a b : String} : compatible a b ↔ compatible b a := by
  rw [compatible_iff, compatible_iff]
  grind

theorem compatible_trans {a b c : String} (hab : compatible a b) (hbc : compatible b c)
    (hmixed : ¬ Mixed [a, b, c]) : compatible a c := by
  have htime : category "time" = "numeric" := by decide
  rw [compatible_iff] at *
  grind [Mixed]

theorem compatible_of_isChain {types : List String} (h : types.IsChain fun a b => compatible a b)
    (hmixed : ¬ Mixed types) : ∀ a ∈ types, ∀ b ∈ types, compatible a b := by
  induction types with
  | nil => nofun
  | cons a rest ih =>
    have hrest := ih h.of_cons fun hrest => hmixed (hrest.mono (subset_cons_self a rest))
    have hfirst : ∀ x ∈ rest, compatible a x := by
      cases h with
      | singleton => nofun
      | @cons_cons _ b rest hab _ =>
        intro x hx
        refine compatible_trans hab (hrest b mem_cons_self x hx) fun h => hmixed (h.mono ?_)
        simp_all
    have hself : compatible a a := compatible_iff.mpr (.inl rfl)
    simp only [mem_cons, forall_eq_or_imp]
    exact ⟨⟨hself, hfirst⟩, fun x hx => ⟨compatible_comm.mp (hfirst x hx), hrest x hx⟩⟩

end ScaleType

theorem Scale.compatible_iff_isChain {scales : List Scale} : compatible scales ↔
    (scales.map type).IsChain fun a b => ScaleType.compatible a b := by
  induction scales with
  | nil => simp [compatible]
  | cons a rest ih =>
    cases rest with
    | nil => simp [compatible]
    | cons b rest =>
      rw [compatible, Bool.and_eq_true, ih]
      simp

/-! ### Shared scales -/

namespace View

def Merging.scales (m : Merging) (channel : String) : List Scale :=
  m.children.filterMap fun t => t.value.scales.get? channel

/-- Whether the views below get one scale for a channel. -/
def Merging.Shares (m : Merging) (channel : String) : Prop :=
  ((shareScale m channel).value.view.scales.get? channel).isSome

/-- Whether a view may have a scale for the views below, and has none yet. -/
structure Merging.Open (m : Merging) (channel : String) : Prop where
  sharing : m.view.sharing "scale" channel ≠ .independent
  scale : m.view.scales.get? channel = none

variable {m : Merging} {channel : String}

theorem Merging.Open.shares_iff (h : m.Open channel) :
    m.Shares channel ↔ m.scales channel ≠ [] ∧ Scale.compatible (m.scales channel) := by
  unfold Shares shareScale
  dsimp only
  rw [← Merging.scales]
  split
  · rename_i hempty
    simp_all [h.sharing, h.scale]
  · rename_i hempty
    have hne : m.scales channel ≠ [] := by
      rintro hnil
      simp [hnil] at hempty
    split
    · rename_i hcompatible
      show ((m.view.scales.insert channel _).get? channel).isSome ↔ _
      simp [Dict.get?_insert, hne, hcompatible]
    · rename_i hcompatible
      show (m.view.scales.get? channel).isSome ↔ _
      simp [h.scale, hcompatible]

theorem Merging.Open.shares_iff_forall (h : m.Open channel)
    (hmixed : ¬ ScaleType.Mixed ((m.scales channel).map Scale.type)) :
    m.Shares channel ↔ m.scales channel ≠ [] ∧ ∀ a ∈ m.scales channel, ∀ b ∈ m.scales channel,
      ScaleType.compatible a.type b.type := by
  rw [h.shares_iff, Scale.compatible_iff_isChain]
  refine and_congr_right fun _ => ⟨fun hchain a ha b hb => ?_, fun hall => ?_⟩
  · exact ScaleType.compatible_of_isChain hchain hmixed _ (mem_map_of_mem ha) _
      (mem_map_of_mem hb)
  · exact (pairwise_map.mpr (pairwise_of_forall_mem_list hall)).isChain

/-- Views share a scale exactly if there is one and the types of neighbours go together. Unless a time
is among numbers and positions, all types go together then, and the order of the views does not
matter. -/
theorem shareScale_shares (h : m.Open channel) :
    (m.Shares channel ↔ m.scales channel ≠ [] ∧
      ((m.scales channel).map Scale.type).IsChain fun a b => ScaleType.compatible a b) ∧
    (¬ ScaleType.Mixed ((m.scales channel).map Scale.type) →
      (m.Shares channel ↔ m.scales channel ≠ [] ∧ ∀ a ∈ m.scales channel, ∀ b ∈ m.scales channel,
        ScaleType.compatible a.type b.type) ∧
      ∀ children, children.Perm m.children →
        (({ m with children } : Merging).Shares channel ↔ m.Shares channel)) := by
  refine ⟨by rw [h.shares_iff, Scale.compatible_iff_isChain], fun hmixed =>
    ⟨h.shares_iff_forall hmixed, fun children hperm => ?_⟩⟩
  have hscales : (Merging.scales { m with children } channel).Perm (m.scales channel) :=
    hperm.filterMap _
  have hreordered := Merging.Open.shares_iff_forall (m := { m with children }) ⟨h.sharing, h.scale⟩
    fun h => hmixed (h.mono (hscales.map _).subset)
  rw [hreordered, h.shares_iff_forall hmixed]
  simp only [hscales.mem_iff, ne_eq, ← length_eq_zero_iff, hscales.length_eq]

def layerView (scales : Dict Scale) : View where
  name := ""
  data := .inherit
  transforms := []
  params := []
  resolve := {}
  projection := none
  title := none
  body := .layer
  scales := scales

/-- Layers that have scales of some types for a channel. -/
def layersOf (types : List String) : Merging where
  view := layerView []
  children := types.map fun type =>
    .node (layerView [("x", ⟨"x", "x", Split.put {} "type" ⟨.str type, false⟩, false⟩)]) []
  renames := {}

/-- Times are shared with bands and points, in every order. -/
theorem shareScale_shares_times : (layersOf ["band", "time", "point"]).Open "x" ∧
    (layersOf ["band", "time", "point"]).Shares "x" ∧
    (layersOf ["point", "band", "time"]).Shares "x" := by
  have hopen : (layersOf ["band", "time", "point"]).Open "x" := ⟨by decide, rfl⟩
  obtain ⟨hshares, horders⟩ := shareScale_shares hopen
  have hband : (layersOf ["band", "time", "point"]).Shares "x" := hshares.mpr ⟨by decide, by decide⟩
  have hmixed : ¬ ScaleType.Mixed ["band", "time", "point"] := by
    unfold ScaleType.Mixed
    decide
  have hperm : ["point", "band", "time"].Perm ["band", "time", "point"] := by decide
  exact ⟨hopen, hband, ((horders hmixed).2 _ (hperm.map _)).mpr hband⟩

/-- A time between a number and a band hides that these do not go together; in another order it is
seen. -/
theorem shareScale_hidden : (layersOf ["linear", "time", "band"]).Shares "x" ∧
    ¬ ScaleType.compatible "linear" "band" ∧ ¬ (layersOf ["linear", "band", "time"]).Shares "x" :=
  ⟨rfl, by decide, nofun⟩

end View

end ChartPlan
