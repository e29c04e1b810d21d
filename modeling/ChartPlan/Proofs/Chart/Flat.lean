import ChartPlan.Field.Path
import Mathlib.Data.List.Infix

/-!
# Flat names of fields

The flat name of a path joins its segments by dots and escapes the dots. The other marks of a path, the
backslash and the opening bracket, are not escaped, so a flat name is one segment exactly when no segment
of the path holds one of them.

* `Path.plainName`: the segments of a path, joined by dots.
* `Path.segments_flatName`: when a flat name is the one segment of the plain name.
-/

namespace ChartPlan.Path

open List

variable {started : Bool} {current text out : List Char}

/-- The name of a field in flat data as it is meant, without escapes. -/
def plainName (path : String) : String :=
  ".".intercalate (segments path)

/-- A text without the marks that are not escaped in a flat name. -/
def Unmarked (text : List Char) : Prop :=
  '\\' ∉ text ∧ '[' ∉ text

theorem toList_flatName (path : String) :
    (flatName path).toList = escapeDots (plainName path).toList := by
  have hjoin : ∀ segments : List (List Char), "\\.".toList.intercalate (segments.map escapeDots) =
      escapeDots (".".toList.intercalate segments) := by
    intro segments
    induction segments with
    | nil => rfl
    | cons s rest ih =>
      cases rest with
      | nil => simp [List.intercalate]
      | cons t rest =>
        rw [map_cons, map_cons, intercalate_cons_cons, ← map_cons, ih,
          intercalate_cons_cons]
        simp [escapeDots]
  rw [flatName, plainName, String.toList_intercalate, String.toList_intercalate, ← hjoin]
  simp [Function.comp_def]

theorem plainSegments_escapeDots (h : Unmarked text) :
    plainSegments started current (escapeDots text) = plainSegments started (current ++ text) [] := by
  induction text generalizing current with
  | nil => simp [escapeDots]
  | cons c text ih =>
    obtain ⟨⟨hslash, hslashes⟩, hbracket, hbrackets⟩ : ('\\' ≠ c ∧ '\\' ∉ text) ∧ '[' ≠ c ∧ '[' ∉ text := by
      simpa [Unmarked] using h
    have hrest := @ih (current ++ [c]) ⟨hslashes, hbrackets⟩
    by_cases hc : c = '.'
    · subst hc
      simpa [escapeDots, plainSegments] using hrest
    · simpa [escapeDots, plainSegments, hc, hslash.symm, hbracket.symm] using hrest

theorem plainSegments_nil_of_ne (h : started = false ∨ current ≠ []) :
    plainSegments started current [] = [current] := by
  rw [plainSegments, if_neg (by grind)]

/-- The first segment of a bracket is a part of what follows it. -/
theorem bracketSegment_sublist (current text : List Char) :
    ∃ inner rest, bracketSegment current text = (current ++ inner) :: rest ∧ inner.Sublist text := by
  induction text generalizing current with
  | nil => exact ⟨[], [], by simp [bracketSegment]⟩
  | cons c text ih =>
    by_cases hclose : c = ']'
    · subst hclose
      rcases text with _ | ⟨d, rest⟩
      · exact ⟨[], plainSegments true [] [], by simp [bracketSegment]⟩
      · by_cases hd : d = '.'
        · exact ⟨[], plainSegments true [] rest, by simp [bracketSegment, hd]⟩
        · exact ⟨[], plainSegments true [] (d :: rest), by simp [bracketSegment, hd]⟩
    · by_cases hquote : c == '"' || c == '\''
      · obtain ⟨inner, rest, heq, hsub⟩ := ih current
        exact ⟨inner, rest, by simpa [bracketSegment, hclose, hquote] using heq, hsub.cons c⟩
      · obtain ⟨inner, rest, heq, hsub⟩ := ih (current ++ [c])
        refine ⟨c :: inner, rest, ?_, hsub.cons_cons c⟩
        simpa [bracketSegment, hclose, hquote] using heq

/-- When an escaped text is read as one segment, a mark in it makes the segment shorter than the text. -/
theorem unmarked_or_length_lt (text : List Char) (hhead : current = [] → text.head? ≠ some '[')
    (h : plainSegments started current (escapeDots text) = [out]) :
    Unmarked text ∨ out.length < current.length + text.length := by
  -- A backslash takes the next character with it, so the induction is on the length.
  induction hlen : text.length using Nat.strongRecOn generalizing text current with
  | ind n ih =>
    subst hlen
    have hstep : ∀ c rest, rest.length < text.length →
        plainSegments started (current ++ [c]) (escapeDots rest) = [out] →
        Unmarked rest ∨ out.length < current.length + 1 + rest.length := by
      intro c rest hlt hrest
      simpa using ih rest.length hlt rest (by simp) hrest rfl
    rcases text with _ | ⟨c, rest⟩
    · exact .inl (by simp [Unmarked])
    by_cases hslash : c = '\\'
    · subst hslash
      right
      rcases rest with _ | ⟨d, rest⟩
      · have hout : current = out := by
          simp only [escapeDots] at h
          grind [plainSegments]
        simp [hout]
      by_cases hdot : d = '.'
      · obtain ⟨hout, -⟩ : current ++ ['\\'] = out ∧ plainSegments true [] (escapeDots rest) = [] := by
          simpa [escapeDots, plainSegments, hdot] using h
        simp [← hout]
      · have hrest : plainSegments started (current ++ [d]) (escapeDots rest) = [out] := by
          simpa [escapeDots, plainSegments, hdot] using h
        rcases hstep d rest (by grind) hrest with hclean | hlt
        · rw [plainSegments_escapeDots hclean, plainSegments_nil_of_ne (.inr (by simp))] at hrest
          simp [← singleton_inj.mp hrest]
        · simp only [length_cons]
          omega
    by_cases hbracket : c = '['
    · subst hbracket
      have hcurrent : current ≠ [] := fun hnil => hhead hnil rfl
      obtain ⟨inner, behind, heq, -⟩ := bracketSegment_sublist [] (escapeDots rest)
      simp [escapeDots] at h heq
      simp [plainSegments, hcurrent, heq] at h
    · have hrest : plainSegments started (current ++ [c]) (escapeDots rest) = [out] := by
        by_cases hdot : c = '.' <;> simpa [escapeDots, plainSegments, hdot, hslash, hbracket] using h
      rcases hstep c rest (by simp) hrest with ⟨hslashes, hbrackets⟩ | hlt
      · left
        simp [Unmarked, hslashes, hbrackets, Ne.symm hslash, Ne.symm hbracket]
      · right
        simp only [length_cons]
        omega

/-- Reading what was escaped gives it back exactly when it holds no other mark. -/
theorem plainSegments_escapeDots_iff (text : List Char) :
    plainSegments false [] (escapeDots text) = [text] ↔ Unmarked text := by
  refine ⟨fun h => ?_, fun h => ?_⟩
  · by_cases hhead : text.head? = some '['
    · obtain ⟨rest, rfl⟩ := head?_eq_some_iff.mp hhead
      obtain ⟨inner, behind, heq, hsub⟩ := bracketSegment_sublist [] (escapeDots rest)
      have hopen : plainSegments false [] (escapeDots ('[' :: rest)) = bracketSegment [] (escapeDots rest) := by
        simp [escapeDots, plainSegments]
      have hinner : inner = '[' :: rest := by
        rw [hopen, heq] at h
        exact (cons.inj h).1
      -- The bracket that opens the segment is missing in it.
      have hle := hsub.count_le '['
      have hcount : (escapeDots rest).count '[' = rest.count '[' := by
        clear * -
        induction rest with
        | nil => rfl
        | cons c rest ih => by_cases hdot : c = '.' <;> simp_all [escapeDots, count_cons]
      rw [hinner, hcount, count_cons_self] at hle
      omega
    · exact (unmarked_or_length_lt text (fun _ => hhead) h).resolve_right (by simp)
  · rw [plainSegments_escapeDots h, plainSegments_nil_of_ne (.inl rfl), nil_append]

/-- A flat name is read as one segment, the plain name, exactly when the plain name holds neither a
backslash nor an opening bracket, and then it is its own flat name. -/
theorem segments_flatName (path : String) :
    (segments (flatName path) = [plainName path] ↔ Unmarked (plainName path).toList) ∧
    (Unmarked (plainName path).toList → flatName (flatName path) = flatName path) := by
  have hiff : segments (flatName path) = [plainName path] ↔ Unmarked (plainName path).toList := by
    have hplain : [plainName path] = [(plainName path).toList].map String.ofList := by simp
    rw [← plainSegments_escapeDots_iff, segments, toList_flatName, hplain]
    exact (map_injective_iff.mpr fun _ _ => String.ofList_inj.mp).eq_iff
  refine ⟨hiff, fun h => ?_⟩
  have hplain : plainName (flatName path) = plainName path := by
    rw [plainName, hiff.mpr h]
    simp
  rw [← String.toList_inj, toList_flatName, hplain, toList_flatName]

theorem segments_flatName_marked :
    segments "a\\\\b" = ["a\\b"] ∧ flatName "a\\\\b" = "a\\b" ∧ segments (flatName "a\\\\b") = ["ab"] ∧
    segments "a\\[b" = ["a[b"] ∧ segments (flatName "a\\[b") = ["a", "b"] ∧
    flatName (flatName "a\\[b") ≠ flatName "a\\[b" := by
  decide +kernel

end ChartPlan.Path
