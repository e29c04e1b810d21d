import ChartPlan.Proofs.Json.Fields
import ChartPlan.Proofs.Renames
import ChartPlan.View.Scales
import Mathlib.Data.List.Infix

/-!
# Renamed signals in expressions

An expression is rewritten by replacing, from long to short, the recorded names wherever they occur
in it as parts of the text. So a signal gets its own new name unless another recorded name occurs
in the expression: one that comes before it in the expression as it was written, one that comes
after it in the expression with the new name.

* `Text.replaceAll_of_not_infix`, `Text.replaceAll_extent`: what is replaced in a text.
* `Reference.foldl_longestFirst`: which of the replacements counts.
* `Reference.resolveSignals_by_name`: when a reference is rewritten as the name is.
-/

namespace ChartPlan

open List

/-! ### Replacing parts of a text -/

namespace Text

variable {old new text word rest : List Char} {c : Char}

theorem not_isPrefixOf (h : ¬ old <+: text) : ¬ old.isPrefixOf text = true :=
  mt isPrefixOf_iff_prefix.mp h

theorem replaceAll_of_not_infix (h : ¬ old <:+: text) : replaceAll old new text = text := by
  have hne : old.isEmpty = false := by
    cases old with
    | nil => exact absurd nil_infix h
    | cons => rfl
  simp only [replaceAll, hne, Bool.false_eq_true, if_false]
  induction text with
  | nil => rfl
  | cons c rest ih =>
    obtain ⟨hfirst, hrest⟩ := not_or.mp (infix_cons_iff.not.mp h)
    rw [replaceFrom, if_neg (not_isPrefixOf hfirst), ih hrest]

theorem replaceFrom_skipped (skipped rest : List Char) :
    replaceFrom old new skipped.length (skipped ++ rest) = replaceFrom old new 0 rest := by
  induction skipped with
  | nil => rfl
  | cons c skipped ih => exact ih

theorem replaceFrom_self (h : old ≠ []) :
    replaceFrom old new 0 (old ++ rest) = new ++ replaceFrom old new 0 rest := by
  cases old with
  | nil => exact absurd rfl h
  | cons c tail =>
    have hfits : (c :: tail).isPrefixOf (c :: (tail ++ rest)) = true :=
      isPrefixOf_iff_prefix.mpr (prefix_append (c :: tail) rest)
    show replaceFrom (c :: tail) new 0 (c :: (tail ++ rest)) = _
    rw [replaceFrom, if_pos hfits]
    exact congrArg (new ++ ·) (replaceFrom_skipped tail rest)

theorem prefix_of_prefix_append_cons (hc : c ∉ old) (h : old <+: word ++ c :: rest) : old <+: word := by
  rcases prefix_or_prefix_of_prefix h (prefix_append word (c :: rest)) with hold | ⟨tail, rfl⟩
  · exact hold
  · cases tail with
    | nil => simp
    | cons d tail =>
      obtain rfl : d = c := by
        simpa using (cons_prefix_cons.mp ((prefix_append_right_inj word).mp h)).1
      exact absurd (mem_append_right word mem_cons_self) hc

/-- Nothing is replaced in a word that does not have `old` in it, up to a character that `old` does not
have. -/
theorem replaceFrom_word (h : ¬ old <:+: word) (hc : c ∉ old) :
    replaceFrom old new 0 (word ++ c :: rest) = word ++ c :: replaceFrom old new 0 rest := by
  have hword {word : List Char} (h : ¬ old <:+: word) : ¬ old <+: word ++ c :: rest := fun hp =>
    h (prefix_of_prefix_append_cons hc hp).isInfix
  induction word with
  | nil =>
    have hfirst : ¬ old <+: c :: rest := hword h
    rw [nil_append, replaceFrom, if_neg (not_isPrefixOf hfirst), nil_append]
  | cons d word ih =>
    have hfirst : ¬ old <+: d :: (word ++ c :: rest) := hword h
    rw [cons_append, replaceFrom, if_neg (not_isPrefixOf hfirst),
      ih fun hin => h (infix_cons hin), cons_append]

theorem replaceAll_self (old new : List Char) : replaceAll old new old = new := by
  unfold replaceAll
  split
  · rename_i hempty
    rw [isEmpty_iff.mp hempty]
    simp
  · rename_i hne
    have hself := @replaceFrom_self old new [] (isEmpty_iff.not.mp hne)
    rwa [append_nil, replaceFrom, append_nil] at hself

end Text

namespace Reference

/-- The extent of the bins that a signal holds, as an expression. -/
def extent (signal : String) : String :=
  "[" ++ signal ++ ".start, " ++ signal ++ ".stop]"

theorem toList_extent (signal : String) : (extent signal).toList =
    [] ++ '[' :: (signal.toList ++ ([] ++ '.' :: ("start".toList ++ ',' :: ([] ++ ' ' :: (signal.toList ++
      ([] ++ '.' :: ("stop".toList ++ ']' :: []))))))) := by
  simp [extent]

/-- A name without the punctuation of the expression is replaced in its two places, unless it is part
of the words that stand there as well. -/
theorem replaceAll_extent {next : String} (hname : ∀ c ∈ name.toList, c ∉ "[]., ".toList)
    (hstart : ¬ name.toList <:+: "start".toList) (hstop : ¬ name.toList <:+: "stop".toList) :
    Text.replaceAll name.toList next.toList (extent name).toList = (extent next).toList := by
  have hne : name.toList ≠ [] := fun hnil => hstart (hnil ▸ nil_infix)
  have hnil : ¬ name.toList <:+: [] := fun h => hne (infix_nil.mp h)
  have hfree {c : Char} (hc : c ∈ "[]., ".toList) : c ∉ name.toList := fun h => hname c h hc
  unfold Text.replaceAll
  rw [if_neg (isEmpty_iff.not.mpr hne), toList_extent, toList_extent,
    Text.replaceFrom_word hnil (hfree (by decide)), Text.replaceFrom_self hne,
    Text.replaceFrom_word hnil (hfree (by decide)), Text.replaceFrom_word hstart (hfree (by decide)),
    Text.replaceFrom_word hnil (hfree (by decide)), Text.replaceFrom_self hne,
    Text.replaceFrom_word hnil (hfree (by decide)), Text.replaceFrom_word hstop (hfree (by decide)),
    Text.replaceFrom]

/-! ### From long to short -/

theorem insertByLength_perm (name : String) (names : List String) :
    (insertByLength name names).Perm (name :: names) := by
  induction names with
  | nil => exact .refl _
  | cons a rest ih =>
    unfold insertByLength
    split
    · exact .refl _
    · exact (ih.cons a).trans (.swap name a rest)

def Shortening (names : List String) : Prop :=
  names.Pairwise fun a b => b.utf8ByteSize ≤ a.utf8ByteSize

theorem Shortening.insertByLength {names : List String} (h : Shortening names) (name : String) :
    Shortening (insertByLength name names) := by
  induction names with
  | nil => exact pairwise_singleton _ _
  | cons a rest ih =>
    obtain ⟨hfirst, hrest⟩ := pairwise_cons.mp h
    unfold Reference.insertByLength
    split
    · rename_i hlt
      refine pairwise_cons.mpr ⟨fun b hb => ?_, h⟩
      rcases mem_cons.mp hb with rfl | hb
      · exact Nat.le_of_lt hlt
      · exact (hfirst b hb).trans (Nat.le_of_lt hlt)
    · rename_i hle
      refine pairwise_cons.mpr ⟨fun b hb => ?_, ih hrest⟩
      rcases mem_cons.mp ((insertByLength_perm name rest).mem_iff.mp hb) with rfl | hb
      · exact Nat.not_lt.mp hle
      · exact hfirst b hb

theorem longestFirst_shortening (names : List String) : Shortening (longestFirst names) :=
  foldlRecOn names _ (motive := Shortening) .nil fun _ h name _ => h.insertByLength name

theorem longestFirst_perm (names : List String) : (longestFirst names).Perm names := by
  have hfold : ∀ acc : List String,
      (names.foldl (fun acc name => insertByLength name acc) acc).Perm (names ++ acc) := by
    induction names with
    | nil => exact fun acc => .refl acc
    | cons name rest ih =>
      intro acc
      exact ((ih _).trans ((insertByLength_perm name acc).append_left rest)).trans perm_middle
  exact (hfold []).trans (.of_eq (append_nil names))

theorem foldl_of_forall_eq {α β : Type} {step : α → β → α} {a : α} {items : List β}
    (h : ∀ b ∈ items, step a b = a) : items.foldl step a = a := by
  induction items with
  | nil => rfl
  | cons b rest ih =>
    rw [foldl_cons, h b mem_cons_self]
    exact ih fun b hb => h b (mem_cons_of_mem _ hb)

/-- When the names before `name` leave the first text as it is and those after it the second one, the
replacement of `name` alone counts. -/
theorem foldl_longestFirst {step : List Char → String → List Char} {names : List String}
    {first second : List Char} (hnodup : names.Nodup)
    (hstep : if name ∈ names then step first name = second else first = second)
    (hlong : ∀ old ∈ names, old ≠ name → name.utf8ByteSize ≤ old.utf8ByteSize → step first old = first)
    (hshort : ∀ old ∈ names, old ≠ name → old.utf8ByteSize ≤ name.utf8ByteSize → step second old = second) :
    (longestFirst names).foldl step first = second := by
  have hmem {old : String} : old ∈ longestFirst names ↔ old ∈ names := (longestFirst_perm names).mem_iff
  by_cases hname : name ∈ names
  · rw [if_pos hname] at hstep
    obtain ⟨before, after, hsplit⟩ := append_of_mem (hmem.mpr hname)
    have hnodup' := (longestFirst_perm names).nodup_iff.mpr hnodup
    have horder := longestFirst_shortening names
    rw [hsplit] at hnodup'
    rw [Shortening, hsplit, pairwise_append, pairwise_cons] at horder
    obtain ⟨-, ⟨hafter, -⟩, hbefore⟩ := horder
    have hapart := nodup_middle.mp hnodup'
    rw [nodup_cons, mem_append, not_or] at hapart
    rw [hsplit, foldl_append, foldl_cons]
    have hfirst : before.foldl step first = first := foldl_of_forall_eq fun old hold => hlong old
      (hmem.mp (hsplit ▸ mem_append_left _ hold)) (fun heq => hapart.1.1 (heq ▸ hold))
      (hbefore old hold name mem_cons_self)
    rw [hfirst, hstep]
    exact foldl_of_forall_eq fun old hold => hshort old
      (hmem.mp (hsplit ▸ mem_append_right _ (mem_cons_of_mem _ hold)))
      (fun heq => hapart.1.2 (heq ▸ hold)) (hafter old hold)
  · rw [if_neg hname] at hstep
    subst hstep
    refine foldl_of_forall_eq fun old hold => ?_
    have hne : old ≠ name := fun heq => hname (heq ▸ hmem.mp hold)
    rcases Nat.le_total name.utf8ByteSize old.utf8ByteSize with hle | hle
    · exact hlong old (hmem.mp hold) hne hle
    · exact hshort old (hmem.mp hold) hne hle

/-! ### References -/

/-- No other recorded name gets in the way of a signal in an expression: one that is tried before the
name is no part of the expression, one that is tried after it no part of the rewritten one. -/
def Clear (r : Renames) (name : String) (expression : String → String) : Prop :=
  ∀ old ∈ r.entries.keys, old ≠ name →
    (name.utf8ByteSize ≤ old.utf8ByteSize → ¬ old.toList <:+: (expression name).toList) ∧
    (old.utf8ByteSize ≤ name.utf8ByteSize → ¬ old.toList <:+: (expression (r.resolve name)).toList)

variable {r : Renames} {name : String} {expression : String → String}

theorem renameIn_of_clear (hnodup : r.entries.keys.Nodup) (hclear : Clear r name expression)
    (hown : name ∈ r.entries.keys → Text.replaceAll name.toList (r.resolve name).toList
      (expression name).toList = (expression (r.resolve name)).toList) :
    renameIn r (expression name) = expression (r.resolve name) := by
  have hstep : if name ∈ r.entries.keys then Text.replaceAll name.toList (r.resolve name).toList
      (expression name).toList = (expression (r.resolve name)).toList
      else (expression name).toList = (expression (r.resolve name)).toList := by
    split
    · exact hown ‹_›
    · rename_i hname
      rw [Renames.resolve_of_none (Option.not_isSome_iff_eq_none.mp (Dict.mem_keys.not.mp hname))]
  unfold renameIn
  rw [foldl_longestFirst hnodup hstep
    (fun old hold hne hle => Text.replaceAll_of_not_infix ((hclear old hold hne).1 hle))
    (fun old hold hne hle => Text.replaceAll_of_not_infix ((hclear old hold hne).2 hle)),
    String.ofList_toList]

theorem keys_renameAll_nodup (pairs : List (String × String)) :
    (({} : Renames).renameAll pairs).entries.keys.Nodup := by
  have hsorted : (({} : Renames).renameAll pairs).entries.Sorted := by
    unfold Renames.renameAll
    refine foldlRecOn pairs _ (motive := fun r : Renames => r.entries.Sorted) .nil fun r hr pair _ => ?_
    by_cases h : pair.1 = pair.2 ∨ r.resolve pair.2 = pair.1
    · rwa [Renames.rename_of_settled h]
    · rw [Renames.rename_of_ne (not_or.mp h).1 (not_or.mp h).2]
      exact hr.insert _ _
  exact pairwise_map.mpr (hsorted.imp fun h => ne_of_lt h)

theorem resolveSignals_signal (r : Renames) (text : String) :
    resolveSignals r (Scale.signal text) = Scale.signal (renameIn r text) :=
  rfl

/-- After any replacements, a signal whose name has none of the punctuation of an extent is rewritten to
what its name resolves to, in an expression of its own and, unless the name is part of the words
there, in an extent, as long as no other recorded name gets in the way. -/
theorem resolveSignals_by_name {r : Renames} (pairs : List (String × String)) (name : String)
    (hmade : r = ({} : Renames).renameAll pairs) (hname : ∀ c ∈ name.toList, c ∉ "[]., ".toList) :
    (Clear r name id →
      resolveSignals r (Scale.signal name) = Scale.signal (r.resolve name)) ∧
    (Clear r name extent →
      (name ∈ r.entries.keys →
        ¬ name.toList <:+: "start".toList ∧ ¬ name.toList <:+: "stop".toList) →
      resolveSignals r (Scale.signal (extent name)) = Scale.signal (extent (r.resolve name))) := by
  have hnodup : r.entries.keys.Nodup := hmade ▸ keys_renameAll_nodup pairs
  refine ⟨fun hclear => ?_, fun hclear hwords => ?_⟩
  · rw [resolveSignals_signal]
    exact congrArg Scale.signal (renameIn_of_clear hnodup hclear fun _ => Text.replaceAll_self _ _)
  · rw [resolveSignals_signal]
    exact congrArg Scale.signal (renameIn_of_clear hnodup hclear fun hrenamed =>
      replaceAll_extent hname (hwords hrenamed).1 (hwords hrenamed).2)

/-- Two signals of bins, of which one has the name of the other in its own. -/
def binSignals : Renames :=
  ({} : Renames).renameAll
    [("layer_1_x_bins", "layer_0_x_bins"), ("concat_0_layer_1_x_bins", "concat_0_layer_0_x_bins")]

theorem resolveSignals_nestedBins :
    resolveSignals binSignals (Scale.signal "concat_0_layer_1_x_bins") =
      Scale.signal "concat_0_layer_0_x_bins" ∧
    resolveSignals binSignals (Scale.signal (extent "concat_0_layer_1_x_bins")) =
      Scale.signal (extent "concat_0_layer_0_x_bins") := by
  have h := resolveSignals_by_name (r := binSignals)
    [("layer_1_x_bins", "layer_0_x_bins"), ("concat_0_layer_1_x_bins", "concat_0_layer_0_x_bins")]
    "concat_0_layer_1_x_bins" rfl (by simp)
  exact ⟨h.1 (by unfold Clear; decide +kernel), h.2 (by unfold Clear; decide +kernel) fun _ => by decide +kernel⟩

/-- A signal that was never renamed is rewritten when its name has that of a renamed one in it. -/
theorem resolveSignals_rewrites_parts :
    (({} : Renames).renameAll [("layer_1_x_bins", "layer_0_x_bins")]).resolve "concat_0_layer_1_x_bins" =
      "concat_0_layer_1_x_bins" ∧
    resolveSignals (({} : Renames).renameAll [("layer_1_x_bins", "layer_0_x_bins")])
      (Scale.signal "concat_0_layer_1_x_bins") = Scale.signal "concat_0_layer_0_x_bins" :=
  ⟨by decide +kernel, congrArg Scale.signal (by decide +kernel : renameIn _ _ = "concat_0_layer_0_x_bins")⟩

end Reference

end ChartPlan
