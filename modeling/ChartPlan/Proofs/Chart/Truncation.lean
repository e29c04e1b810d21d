import ChartPlan.Chart.Predicate
import Mathlib.Data.List.Infix

/-!
# What a truncated date is made of

The expression that cuts a date to a unit asks for parts of the date and puts constants in the place of
the other ones. It has no place for weeks and for days of the week or of the year, so a unit of such
parts alone gives a constant.

* `TimePart.isRead`: the parts that have a place.
* `truncation_reads`: these parts are read, and the expression depends on the date exactly when the unit
  has one of them.
-/

namespace ChartPlan

open List

def TimePart.isRead : TimePart → Bool
  | .week | .day | .dayOfYear => false
  | _ => true

namespace TimeUnit

variable {u : TimeUnit} {part : TimePart}

/-- The text that asks for a part of a date. -/
def call (u : TimeUnit) (date : String) (part : TimePart) : String :=
  (if u.utc then "utc" else "") ++ part.name ++ "(" ++ date ++ ")"

theorem isInfix_intercalate {sep x : String} {xs : List String} (h : x ∈ xs) :
    x.toList.IsInfix (sep.intercalate xs).toList := by
  induction xs with
  | nil => exact absurd h not_mem_nil
  | cons a rest ih =>
    cases rest with
    | nil => simp [mem_singleton.mp h]
    | cons b rest =>
      rw [String.intercalate_cons_cons, String.toList_append, String.toList_append]
      rcases mem_cons.mp h with rfl | h
      · rw [append_assoc]
        exact (prefix_append _ _).isInfix
      · exact (ih h).trans (suffix_append _ _).isInfix

/-- The arguments of the expression, which the unit fills with calls or constants. -/
def slots (u : TimeUnit) (date : String) : List String :=
  [u.readPart date .year "2012", u.readMonth date, u.readPart date .date "1",
    u.readPart date .hours "0", u.readPart date .minutes "0", u.readPart date .seconds "0",
    u.readPart date .milliseconds "0"]

theorem truncation_eq (u : TimeUnit) (date : String) : u.truncation date =
    (if u.utc then "utc" else "datetime") ++ "(" ++ ", ".intercalate (u.slots date) ++ ")" :=
  rfl

theorem isInfix_truncation {date text : String} (h : text ∈ u.slots date) :
    text.toList.IsInfix (u.truncation date).toList := by
  rw [truncation_eq, String.toList_append, String.toList_append]
  exact (isInfix_intercalate h).trans (infix_append _ _ _)

theorem readPart_of_mem (h : part ∈ u.parts) (date otherwise : String) :
    u.readPart date part otherwise = u.call date part := by
  rw [readPart, if_pos (contains_iff_mem.mpr h)]
  rfl

theorem readPart_of_not_mem (h : part ∉ u.parts) (date otherwise : String) :
    u.readPart date part otherwise = otherwise :=
  if_neg (mt contains_iff_mem.mp h)

theorem call_isInfix_truncation (h : part ∈ u.parts) (hread : part.isRead)
    (hmonth : part = .quarter → .month ∉ u.parts) (date : String) :
    (u.call date part).toList.IsInfix (u.truncation date).toList := by
  have hslot : ∀ otherwise, u.readPart date part otherwise ∈ u.slots date →
      (u.call date part).toList.IsInfix (u.truncation date).toList := fun otherwise hmem =>
    isInfix_truncation (readPart_of_mem h date otherwise ▸ hmem)
  cases part with
  | week => cases hread
  | day => cases hread
  | dayOfYear => cases hread
  | quarter =>
    have hno : .month ∉ u.parts := hmonth rfl
    have hthree : u.readMonth date = "3*" ++ u.call date .quarter := by
      simp [readMonth, h, hno, readPart_of_mem]
    have hmem : u.readMonth date ∈ u.slots date := by simp [slots]
    have hinside := isInfix_truncation hmem
    rw [hthree, String.toList_append] at hinside
    exact (suffix_append _ _).isInfix.trans hinside
  | month =>
    refine hslot "0" ?_
    have hplain : u.readMonth date = u.readPart date .month "0" := by
      simp [readMonth, h]
    simp [slots, hplain]
  | year => exact hslot "2012" (by simp [slots])
  | date => exact hslot "1" (by simp [slots])
  | _ => exact hslot "0" (by simp [slots])

theorem truncation_of_unread (h : ∀ part ∈ u.parts, part.isRead = false) (date : String) :
    u.truncation date = (if u.utc then "utc" else "datetime") ++ "(2012, 0, 1, 0, 0, 0, 0)" := by
  have hconst : ∀ part otherwise, part.isRead → u.readPart date part otherwise = otherwise :=
    fun part otherwise hread => readPart_of_not_mem (fun hmem => by simp [h part hmem] at hread) _ _
  have hquarter : TimePart.quarter ∉ u.parts := fun hmem => by cases h _ hmem
  have hmonth : u.readMonth date = "0" := by
    rw [readMonth, if_neg (by simp [hquarter])]
    exact hconst .month "0" rfl
  have hslots : u.slots date = ["2012", "0", "1", "0", "0", "0", "0"] := by
    rw [slots, hmonth, hconst .year _ rfl, hconst .date _ rfl, hconst .hours _ rfl, hconst .minutes _ rfl,
      hconst .seconds _ rfl, hconst .milliseconds _ rfl]
  rw [truncation_eq, hslots, String.append_assoc, String.append_assoc]
  rfl

theorem exists_call_isInfix (h : part ∈ u.parts) (hread : part.isRead) :
    ∃ part, ∀ date, (u.call date part).toList.IsInfix (u.truncation date).toList := by
  by_cases hmonth : .month ∈ u.parts
  · exact ⟨.month, call_isInfix_truncation hmonth rfl nofun⟩
  · exact ⟨part, call_isInfix_truncation h hread fun _ => hmonth⟩

theorem not_isRead_of_constant (h : ∀ a b, u.truncation a = u.truncation b) (hpart : part ∈ u.parts) :
    part.isRead = false := by
  by_contra hread
  obtain ⟨called, hinside⟩ := exists_call_isInfix hpart (by simpa using hread)
  -- A date text that is longer than the constant expression does not fit into it.
  let long := String.ofList (List.replicate (u.truncation "").toList.length 'x')
  have hle := (hinside long).length_le
  rw [h long ""] at hle
  have hlong : long.toList.length = (u.truncation "").toList.length := by simp [long]
  simp only [call, String.toList_append, length_append, hlong] at hle
  have hparens : "(".toList.length = 1 := rfl
  omega

end TimeUnit

/-- The expression for a truncated date calls for every part of the unit that has a place in it, a
quarter only when there is no month. When the unit has no such part, and only then, the expression is
the same for all dates, and so are the tests of predicates. -/
theorem truncation_reads (u : TimeUnit) :
    (∀ part ∈ u.parts, part.isRead → (part = .quarter → .month ∉ u.parts) →
      ∀ date, (u.call date part).toList.IsInfix (u.truncation date).toList) ∧
    ((∀ a b, u.truncation a = u.truncation b) ↔ ∀ part ∈ u.parts, part.isRead = false) ∧
    ((∀ part ∈ u.parts, part.isRead = false) → ∀ a b test,
      (Predicate.field a (some u) test).toExpr = (Predicate.field b (some u) test).toExpr) := by
  have hconst : (∀ part ∈ u.parts, part.isRead = false) → ∀ a b, u.truncation a = u.truncation b :=
    fun h a b => (TimeUnit.truncation_of_unread h a).trans (TimeUnit.truncation_of_unread h b).symm
  refine ⟨fun part hpart hread hmonth => TimeUnit.call_isInfix_truncation hpart hread hmonth,
    ⟨fun h part hpart => TimeUnit.not_isRead_of_constant h hpart, hconst⟩, fun h a b test => ?_⟩
  rw [Predicate.toExpr, Predicate.toExpr, Predicate.tested, Predicate.tested, hconst h]

theorem truncation_yearquarter : (TimeUnit.ofName "utcyearquarter").parts = [.year, .quarter] ∧
    "utcquarter(when)".toList.IsInfix ((TimeUnit.ofName "utcyearquarter").truncation "when").toList ∧
    ¬ ∀ a b, (TimeUnit.ofName "utcyearquarter").truncation a =
      (TimeUnit.ofName "utcyearquarter").truncation b := by
  have hparts : (TimeUnit.ofName "utcyearquarter").parts = [.year, .quarter] := by decide +kernel
  obtain ⟨hcalls, hconst, -⟩ := truncation_reads (TimeUnit.ofName "utcyearquarter")
  rw [hparts] at hcalls hconst
  refine ⟨hparts, hcalls .quarter (by simp) rfl (by simp) "when", fun h => ?_⟩
  simpa [TimePart.isRead] using hconst.mp h

/-- Weeks and days of the week or of the year are parts of units, and the expression has no call for them. -/
theorem truncation_week : (TimeUnit.ofName "week").parts = [.week] ∧
    (TimeUnit.ofName "week").truncation "when" = "datetime(2012, 0, 1, 0, 0, 0, 0)" ∧
    ¬ "week(when)".toList.IsInfix ((TimeUnit.ofName "week").truncation "when").toList ∧
    (TimeUnit.ofName "yearday").parts = [.year, .day] ∧
    (TimeUnit.ofName "yearday").truncation "when" = "datetime(year(when), 0, 1, 0, 0, 0, 0)" ∧
    (TimeUnit.ofName "dayofyear").parts = [.dayOfYear] ∧
    (Predicate.field "a" (some (TimeUnit.ofName "dayofyear")) (.equal (.nat 3))).toExpr =
      (Predicate.field "b" (some (TimeUnit.ofName "dayofyear")) (.equal (.nat 3))).toExpr := by
  decide +kernel

end ChartPlan
