import ChartPlan.Renames
import Mathlib.Data.List.Nodup
import Mathlib.Data.List.Perm.Subperm
import Mathlib.Data.Nat.Find
import Mathlib.Logic.Relation

/-!
# Chains of replacements

A replacement is resolved before it is recorded, so no chain of replacements comes back to its start.
The names on a chain are then different keys of the map, and following as many links as there are
entries leads to the end of every chain.

* `Renames.Grounded`: every chain has an end.
* `Renames.Grounded.exists_le`: the end is found within as many steps as there are entries.
* `Renames.Grounded.resolve_of_some`: a name is resolved as its replacement is.
* `Renames.Grounded.rename`: recording a replacement keeps this.
* `Renames.renameAll_follows`: what resolving a name gives, after any replacements and after one more.
-/

namespace ChartPlan.Renames

open List

variable {r : Renames} {name next old new : String} {i j k : Nat}

/-! ### Following links -/

theorem follow_of_none (h : r.entries.get? name = none) (k : Nat) : r.follow k name = name := by
  cases k with
  | zero => rfl
  | succ k => simp [follow, h]

theorem follow_succ_of_some (h : r.entries.get? name = some next) (k : Nat) :
    r.follow (k + 1) name = r.follow k next := by
  simp [follow, h]

theorem follow_add (r : Renames) (i j : Nat) (name : String) :
    r.follow (i + j) name = r.follow j (r.follow i name) := by
  induction i generalizing name with
  | zero => rw [Nat.zero_add, follow]
  | succ i ih =>
    cases h : r.entries.get? name with
    | none => rw [follow_of_none h, follow_of_none h, follow_of_none h]
    | some next => rw [Nat.succ_add, follow_succ_of_some h, follow_succ_of_some h, ih]

theorem follow_of_le (h : r.entries.get? (r.follow k name) = none) (hle : k ≤ j) :
    r.follow j name = r.follow k name := by
  obtain ⟨d, rfl⟩ := Nat.exists_eq_add_of_le hle
  rw [follow_add, follow_of_none h]

/-! ### Ends of chains -/

def Grounded (r : Renames) : Prop :=
  ∀ name, ∃ k, r.entries.get? (r.follow k name) = none

theorem grounded_empty : ({} : Renames).Grounded :=
  fun _ => ⟨0, rfl⟩

theorem Grounded.exists_le (hr : r.Grounded) (name : String) :
    ∃ k ≤ r.entries.length, r.entries.get? (r.follow k name) = none := by
  let k := Nat.find (hr name)
  have hend : r.entries.get? (r.follow k name) = none := Nat.find_spec (hr name)
  have hfirst : ∀ i < k, r.entries.get? (r.follow i name) ≠ none := fun i hi => Nat.find_min (hr name) hi
  -- A name that comes twice would bring the end forward.
  have hne : ∀ i j, i < j → j < k → r.follow i name ≠ r.follow j name := by
    intro i j hij hjk heq
    have hshift : r.follow (i + (k - j)) name = r.follow k name := by
      rw [follow_add, heq, ← follow_add, Nat.add_sub_cancel' (Nat.le_of_lt hjk)]
    exact hfirst (i + (k - j)) (by omega) (hshift ▸ hend)
  have hnodup : ((List.range k).map fun i => r.follow i name).Nodup := by
    refine List.Nodup.map_on (fun i hi j hj heq => ?_) nodup_range
    rw [mem_range] at hi hj
    rcases Nat.lt_trichotomy i j with hij | hij | hij
    · exact absurd heq (hne i j hij hj)
    · exact hij
    · exact absurd heq.symm (hne j i hij hi)
  have hsubset : ((List.range k).map fun i => r.follow i name) ⊆ r.entries.keys := by
    intro n hn
    obtain ⟨i, hi, rfl⟩ := mem_map.mp hn
    exact Dict.mem_keys.mpr (Option.isSome_iff_ne_none.mpr (hfirst i (mem_range.mp hi)))
  have hlength := (subperm_of_subset hnodup hsubset).length_le
  rw [length_map, length_range] at hlength
  exact ⟨k, by simpa [Dict.keys] using hlength, hend⟩

theorem Grounded.get?_resolve (hr : r.Grounded) (name : String) :
    r.entries.get? (r.resolve name) = none := by
  obtain ⟨k, hk, hend⟩ := hr.exists_le name
  unfold resolve
  rwa [follow_of_le hend (Nat.le_succ_of_le hk)]

theorem resolve_of_none (h : r.entries.get? name = none) : r.resolve name = name :=
  follow_of_none h _

theorem Grounded.resolve_of_some (hr : r.Grounded) (h : r.entries.get? name = some next) :
    r.resolve name = r.resolve next := by
  obtain ⟨k, hk, hend⟩ := hr.exists_le next
  unfold resolve
  rw [follow_succ_of_some h, follow_of_le hend hk, follow_of_le hend (Nat.le_succ_of_le hk)]

/-! ### Recording replacements -/

theorem rename_of_settled (h : old = new ∨ r.resolve new = old) :
    r.rename old new = r := by
  unfold rename
  split
  · rfl
  · rename_i hne
    exact if_pos (h.resolve_left hne)

theorem rename_of_ne (hne : old ≠ new) (hend : r.resolve new ≠ old) :
    r.rename old new = ⟨r.entries.insert old (r.resolve new)⟩ := by
  unfold rename
  rw [if_neg hne, if_neg hend]

theorem get?_rename (hne : old ≠ new) (hend : r.resolve new ≠ old) (name : String) :
    (r.rename old new).entries.get? name =
      if name = old then some (r.resolve new) else r.entries.get? name := by
  rw [rename_of_ne hne hend, Dict.get?_insert]

/-- Recording a replacement leaves every chain with an end: one that leads through the replaced name
now goes on to an end. -/
theorem Grounded.rename (hr : r.Grounded) (old new : String) : (r.rename old new).Grounded := by
  by_cases hsettled : old = new ∨ r.resolve new = old
  · rwa [rename_of_settled hsettled]
  · obtain ⟨hne, hend⟩ := not_or.mp hsettled
    have hother {n : String} (hn : n ≠ old) :
        (r.rename old new).entries.get? n = r.entries.get? n :=
      (get?_rename hne hend n).trans (if_neg hn)
    have hold : ∃ k, (r.rename old new).entries.get? ((r.rename old new).follow k old) = none := by
      refine ⟨1, ?_⟩
      rw [follow_succ_of_some ((get?_rename hne hend old).trans (if_pos rfl))]
      exact (hother hend).trans (hr.get?_resolve new)
    intro name
    obtain ⟨k, hk⟩ := hr name
    induction k generalizing name with
    | zero =>
      by_cases hname : name = old
      · exact hname ▸ hold
      · exact ⟨0, (hother hname).trans hk⟩
    | succ k ih =>
      by_cases hname : name = old
      · exact hname ▸ hold
      · cases hnext : r.entries.get? name with
        | none => exact ⟨0, (hother hname).trans hnext⟩
        | some next =>
          rw [follow_succ_of_some hnext] at hk
          obtain ⟨i, hi⟩ := ih next hk
          exact ⟨i + 1, by rwa [follow_succ_of_some ((hother hname).trans hnext)]⟩

theorem Grounded.renameAll (hr : r.Grounded) (pairs : List (String × String)) :
    (r.renameAll pairs).Grounded := by
  unfold Renames.renameAll
  exact foldlRecOn pairs _ (motive := Grounded) hr fun s hs pair _ => hs.rename pair.1 pair.2

theorem get?_renameAll {olds : List String} (hnew : r.entries.get? new = none)
    (holds : ∀ old ∈ olds, old ≠ new) (name : String) :
    (r.renameAll (olds.map fun old => (old, new))).entries.get? name =
      if name ∈ olds then some new else r.entries.get? name := by
  induction olds generalizing r with
  | nil => rfl
  | cons old rest ih =>
    have hne : old ≠ new := holds old mem_cons_self
    have hend : r.resolve new = new := resolve_of_none hnew
    have hget (n : String) : (r.rename old new).entries.get? n =
        if n = old then some new else r.entries.get? n := by
      rw [get?_rename hne (hend.symm ▸ hne.symm), hend]
    show ((r.rename old new).renameAll (rest.map fun old => (old, new))).entries.get? name = _
    rw [ih (by rw [hget, if_neg (Ne.symm hne), hnew]) fun o ho => holds o (mem_cons_of_mem _ ho),
      hget]
    by_cases hname : name = old <;> simp [hname]

/-! ### The effect of one more replacement -/

def Link (r : Renames) (name next : String) : Prop :=
  r.entries.get? name = some next

theorem Grounded.acyclic (hr : r.Grounded) (name : String) : ¬ Relation.TransGen r.Link name name := by
  obtain ⟨k, hk⟩ := hr name
  induction k generalizing name with
  | zero =>
    intro hcycle
    obtain ⟨next, hnext, -⟩ := Relation.TransGen.head'_iff.mp hcycle
    exact Option.some_ne_none next (hnext.symm.trans hk)
  | succ k ih =>
    intro hcycle
    obtain ⟨next, hnext, hback⟩ := Relation.TransGen.head'_iff.mp hcycle
    rw [follow_succ_of_some hnext] at hk
    exact ih next hk (Relation.TransGen.tail' hback hnext)

theorem Grounded.resolve_rename_of_through (hr : r.Grounded) (hne : old ≠ new)
    (hend : r.resolve new ≠ old) (h : Relation.ReflTransGen r.Link name old) :
    (r.rename old new).resolve name = r.resolve new := by
  have hs := hr.rename old new
  have hold : (r.rename old new).resolve old = r.resolve new := by
    rw [hs.resolve_of_some ((get?_rename hne hend old).trans (if_pos rfl))]
    exact resolve_of_none (by rw [get?_rename hne hend, if_neg hend, hr.get?_resolve])
  induction h using Relation.ReflTransGen.head_induction_on with
  | refl => exact hold
  | @head name _ hlink _ ih =>
    by_cases hname : name = old
    · rw [hname, hold]
    · rw [hs.resolve_of_some (((get?_rename hne hend name).trans (if_neg hname)).trans hlink), ih]

theorem Grounded.resolve_rename_of_not_through (hr : r.Grounded) (hne : old ≠ new)
    (hend : r.resolve new ≠ old) (h : ¬ Relation.ReflTransGen r.Link name old) :
    (r.rename old new).resolve name = r.resolve name := by
  have hs := hr.rename old new
  have hget {n : String} (hn : ¬ Relation.ReflTransGen r.Link n old) :
      (r.rename old new).entries.get? n = r.entries.get? n :=
    (get?_rename hne hend n).trans (if_neg fun (heq : n = old) => hn (heq ▸ .refl))
  obtain ⟨k, hk⟩ := hr name
  induction k generalizing name with
  | zero => exact (resolve_of_none ((hget h).trans hk)).trans (resolve_of_none hk).symm
  | succ k ih =>
    cases hnext : r.entries.get? name with
    | none => rw [resolve_of_none hnext, resolve_of_none ((hget h).trans hnext)]
    | some next =>
      rw [follow_succ_of_some hnext] at hk
      rw [hs.resolve_of_some ((hget h).trans hnext), hr.resolve_of_some hnext]
      exact ih (fun hthrough => h (.head hnext hthrough)) hk

/-- After any replacements the chains run in no circle, and a name is resolved, within as many links
as there are entries, to a name without replacement. One more replacement `old` by `new` is dropped
when `old` is `new` or the end of its chain; recorded, it leads the chains through `old`, and no
others, to the end of the chain of `new`. -/
theorem renameAll_follows {r : Renames} (pairs : List (String × String))
    (hmade : r = ({} : Renames).renameAll pairs) :
    (∀ x, ¬ Relation.TransGen r.Link x x) ∧
    (∀ x, ∃ k ≤ r.entries.length, r.follow k x = r.resolve x) ∧
    (∀ x, r.entries.get? (r.resolve x) = none) ∧
    (∀ x, r.resolve (r.resolve x) = r.resolve x) ∧
    ∀ old new,
      (old = new ∨ r.resolve new = old → r.rename old new = r) ∧
      (old ≠ new ∧ r.resolve new ≠ old → ∀ x,
        (Relation.ReflTransGen r.Link x old → (r.rename old new).resolve x = r.resolve new) ∧
        (¬ Relation.ReflTransGen r.Link x old → (r.rename old new).resolve x = r.resolve x)) := by
  have hr : r.Grounded := hmade ▸ grounded_empty.renameAll pairs
  refine ⟨hr.acyclic, fun x => ?_, hr.get?_resolve, fun x => resolve_of_none (hr.get?_resolve x),
    fun old new => ⟨rename_of_settled, fun ⟨hne, hend⟩ x =>
      ⟨hr.resolve_rename_of_through hne hend, hr.resolve_rename_of_not_through hne hend⟩⟩⟩
  obtain ⟨k, hle, hend⟩ := hr.exists_le x
  exact ⟨k, hle, (follow_of_le hend (Nat.le_succ_of_le hle)).symm⟩

/-- A chain of two replacements gets a third one at its end. -/
theorem rename_chained :
    ((({} : Renames).renameAll [("a", "b"), ("b", "c")]).rename "c" "d").resolve "a" = "d" := by
  obtain ⟨-, -, -, -, hrename⟩ := renameAll_follows [("a", "b"), ("b", "c")] rfl
  have hab : (({} : Renames).renameAll [("a", "b"), ("b", "c")]).Link "a" "b" := rfl
  have hbc : (({} : Renames).renameAll [("a", "b"), ("b", "c")]).Link "b" "c" := rfl
  have hend := (hrename "c" "d").2 ⟨by decide, by decide +kernel⟩ "a"
  exact (hend.1 (.head hab (.single hbc))).trans (by decide +kernel)

end ChartPlan.Renames
