import ChartPlan.Chart.TimeUnit
import Mathlib.Data.List.Infix

/-!
# Time units as words over their parts

The name of a unit is read from the left by the longest part that fits. One part is the beginning of
another, `day` of `dayofyear`, but no part begins with what then follows, so the reading finds the parts
that a name was put together from.

* `TimePart.spell`: the name that a list of parts spells.
* `TimeUnit.parts_spell`: reading inverts spelling, what is read is the beginning of a name, and the name
  of a unit with its mark for UTC gives the unit back.
-/

namespace ChartPlan

open List

namespace TimePart

def spell (parts : List TimePart) : String :=
  String.join (parts.map name)

theorem toList_spell_cons (part : TimePart) (parts : List TimePart) :
    (spell (part :: parts)).toList = part.name.toList ++ (spell parts).toList := by
  simp [spell]

theorem name_ne_nil (part : TimePart) : part.name.toList ≠ [] := by
  cases part <;> decide

/-- `day` is the beginning of `dayofyear`, and no part goes on as the latter does. -/
theorem not_ofyear_prefix_spell (parts : List TimePart) :
    ¬ "ofyear".toList <+: (spell parts).toList := by
  cases parts with
  | nil => decide
  | cons part parts =>
    rw [toList_spell_cons]
    cases part <;> simp [name]

theorem atFront?_name_append (part : TimePart) {rest : List Char}
    (h : ¬ "ofyear".toList <+: rest) : atFront? (part.name.toList ++ rest) = some part := by
  have hday : "ofyear".toList.isPrefixOf rest = false := by
    rwa [← Bool.not_eq_true, isPrefixOf_iff_prefix]
  have hlonger : "day".length ≤ "dayofyear".length := by decide
  cases part <;> simp_all [atFront?, all, name, longer]

theorem readFrom_length_append (word rest : List Char) :
    readFrom word.length (word ++ rest) = readFrom 0 rest := by
  induction word with
  | nil => rfl
  | cons c word ih => simpa [readFrom] using ih

theorem readFrom_name_append (part : TimePart) {rest : List Char}
    (h : atFront? (part.name.toList ++ rest) = some part) :
    readFrom 0 (part.name.toList ++ rest) = part :: readFrom 0 rest := by
  cases hname : part.name.toList with
  | nil => exact absurd hname (name_ne_nil part)
  | cons c word =>
    have hlength : part.name.length - 1 = word.length := by
      rw [← String.length_toList, hname]
      rfl
    rw [hname, cons_append] at h
    simp only [cons_append, readFrom, h, hlength, readFrom_length_append]

theorem readFrom_spell (parts : List TimePart) : readFrom 0 (spell parts).toList = parts := by
  induction parts with
  | nil => rfl
  | cons part parts ih =>
    rw [toList_spell_cons,
      readFrom_name_append part (atFront?_name_append part (not_ofyear_prefix_spell parts)), ih]

theorem prefix_of_atFront? {text : List Char} {part : TimePart} (h : atFront? text = some part) :
    part.name.toList <+: text := by
  have hchosen : ∀ (found : List TimePart) (best : Option TimePart),
      found.foldl longer best = some part → best = some part ∨ part ∈ found := by
    intro found
    induction found with
    | nil => exact fun best hbest => .inl hbest
    | cons next found ih =>
      intro best hbest
      have hlonger : longer best next = best ∨ longer best next = some next := by
        unfold longer
        grind
      grind
  have hmem := (hchosen _ none h).resolve_left nofun
  exact isPrefixOf_iff_prefix.mp (mem_filter.mp hmem).2

theorem prefix_spell_readFrom (skip : Nat) (text : List Char) :
    (spell (readFrom skip text)).toList <+: text.drop skip := by
  fun_induction readFrom skip text with
  | case1 skip => simp [spell]
  | case2 skip c rest ih => exact ih
  | case3 c rest part hpart ih =>
    obtain ⟨behind, hbehind⟩ := prefix_of_atFront? hpart
    have hrest : rest.drop (part.name.length - 1) = behind := by
      have hdrop : (c :: rest).drop part.name.length = behind := by
        rw [← hbehind, ← String.length_toList, drop_left]
      have hpos := length_pos_iff.mpr (name_ne_nil part)
      rw [String.length_toList] at hpos
      rwa [← Nat.sub_add_cancel hpos, drop_succ_cons] at hdrop
    rw [hrest] at ih
    rw [toList_spell_cons, drop_zero, ← hbehind]
    exact (prefix_append_right_inj _).mpr ih
  | case4 => simp [spell]

end TimePart

namespace TimeUnit

open TimePart

/-- Only a unit in UTC may have a name that begins with the mark for UTC. -/
def Marked (u : TimeUnit) : Prop :=
  u.utc = false → ¬ "utc".toList.isPrefixOf u.unit.toList

theorem marked_ofName (name : String) : (ofName name).Marked := by
  grind [ofName, Marked]

theorem ofName_fullName {u : TimeUnit} (h : u.Marked) : ofName u.fullName = u := by
  obtain ⟨unit, utc⟩ := u
  cases utc with
  | false => simpa [fullName, ofName] using h rfl
  | true => simp [fullName, ofName]

theorem marked_of_ofJson? (value : Json) : ∀ u ∈ ofJson? value, u.Marked := by
  apply ofJson?.induct (fun value => ∀ u ∈ ofJson? value, u.Marked)
    fun fields => ∀ u ∈ ofFields? fields, u.Marked
  case case1 =>
    rintro name u ⟨⟩
    exact marked_ofName name
  case case2 =>
    intro fields ih u hu
    rw [ofJson?] at hu
    obtain ⟨inner, hinner, rfl⟩ := Option.map_eq_some_iff.mp hu
    have hmarked := ih inner hinner
    split
    · exact nofun
    · exact hmarked
  case case3 =>
    intro value hstr hobj u hu
    rw [ofJson?.eq_def] at hu
    grind
  case case4 => simp [ofFields?]
  case case5 => simp [ofFields?]
  case case6 => simp +contextual [ofFields?]

/-- A unit whose name is spelled by parts has these parts, in their order and as often as they stand. Of
any unit the parts spell a beginning of the name, and the whole name exactly when some parts spell it. A
unit that was read from a value is read from its full name again. -/
theorem parts_spell :
    (∀ parts utc, (TimeUnit.mk (spell parts) utc).parts = parts) ∧
    (∀ u : TimeUnit, (spell u.parts).toList <+: u.unit.toList ∧
      (spell u.parts = u.unit ↔ ∃ parts, spell parts = u.unit)) ∧
    ∀ value u, ofJson? value = some u → ofJson? (.str u.fullName) = some u := by
  refine ⟨fun parts _ => readFrom_spell parts, fun u => ⟨prefix_spell_readFrom 0 u.unit.toList,
    fun h => ⟨_, h⟩, ?_⟩, fun value u hu => ?_⟩
  · rintro ⟨parts, hparts⟩
    rw [TimeUnit.parts, ← hparts, readFrom_spell]
  · rw [ofJson?, ofName_fullName (marked_of_ofJson? value u hu)]

/-- A day before the day of the year, and a unit in UTC whose name begins with the mark once more. -/
theorem parts_spell_days : (TimeUnit.mk "daydayofyear" false).parts = [.day, .dayOfYear] ∧
    ofJson? (.str (TimeUnit.mk "utcday" true).fullName) = some ⟨"utcday", true⟩ :=
  ⟨parts_spell.1 [.day, .dayOfYear] false, parts_spell.2.2 (.str "utcutcday") _ (by decide +kernel)⟩

end TimeUnit

end ChartPlan
