import ChartPlan.Json.Basic
import Mathlib.Data.String.Basic

/-!
# Fields of objects

What is found in an object after fields were stored. Names are in increasing order in every
dictionary that insertions make, so each is there once.

* `Dict.Sorted`: the names increase.
* `Dict.get?_extend`: of two dictionaries the entries of the second win.
-/

namespace ChartPlan

open List

namespace Dict

variable {α : Type} {d other : Dict α} {key : String} {v : α}

def Sorted (d : Dict α) : Prop :=
  d.Pairwise fun a b => a.1 < b.1

theorem get?_eq_none (h : ∀ entry ∈ d, entry.1 ≠ key) : get? d key = none := by
  induction d with
  | nil => rfl
  | cons entry rest ih =>
    obtain ⟨k, w⟩ := entry
    have hk : key ≠ k := fun he => h (k, w) mem_cons_self he.symm
    unfold get?
    rw [if_neg hk]
    exact ih fun e he => h e (mem_cons_of_mem _ he)

theorem Sorted.get?_of_mem (h : Sorted d) (hmem : (key, v) ∈ d) : get? d key = some v := by
  induction d with
  | nil => cases hmem
  | cons first rest ih =>
    obtain ⟨hfirst, hrest⟩ := pairwise_cons.mp h
    unfold get?
    rcases mem_cons.mp hmem with rfl | hmem
    · exact if_pos rfl
    · rw [if_neg fun he => String.lt_irrefl _ (he ▸ hfirst _ hmem), ih hrest hmem]

theorem Sorted.insert (h : Sorted d) (key : String) (v : α) : Sorted (Dict.insert d key v) := by
  induction d with
  | nil => exact pairwise_singleton _ _
  | cons entry rest ih =>
    obtain ⟨k, w⟩ := entry
    obtain ⟨hfirst, hrest⟩ := pairwise_cons.mp h
    unfold Dict.insert
    split
    · rename_i hlt
      refine pairwise_cons.mpr ⟨fun e he => ?_, h⟩
      rcases mem_cons.mp he with rfl | he
      · exact hlt
      · exact lt_trans hlt (hfirst e he)
    · split
      · rename_i hk
        subst hk
        exact pairwise_cons.mpr ⟨hfirst, hrest⟩
      · rename_i hlt hne
        refine pairwise_cons.mpr ⟨fun e he => ?_, ih hrest⟩
        rcases mem_of_mem_insert he with rfl | he
        · exact lt_of_le_of_ne (not_lt.mp hlt) (Ne.symm hne)
        · exact hfirst e he

theorem Sorted.extend (h : Sorted d) (other : Dict α) : Sorted (Dict.extend d other) := by
  induction other generalizing d with
  | nil => exact h
  | cons e rest ih => exact ih (h.insert e.1 e.2)

theorem sorted_ofList (entries : List (String × α)) : Sorted (ofList entries) :=
  Sorted.extend .nil entries

theorem get?_extend (h : Sorted other) :
    get? (extend d other) key = (get? other key).or (get? d key) := by
  induction other generalizing d with
  | nil => rfl
  | cons entry rest ih =>
    obtain ⟨k, w⟩ := entry
    obtain ⟨hfirst, hrest⟩ := pairwise_cons.mp h
    show get? (extend (Dict.insert d k w) rest) key = _
    rw [ih hrest, get?_insert]
    by_cases hk : key = k
    · have hnone : get? rest key = none :=
        get?_eq_none fun e he => by rw [hk]; exact (hfirst e he).ne'
      simp [get?, hk, hk ▸ hnone]
    · simp [get?, hk]

theorem get?_extend_or (d other : Dict α) :
    get? (extend d other) key = (get? (ofList other) key).or (get? d key) := by
  induction other generalizing d with
  | nil => rfl
  | cons entry rest ih =>
    show get? (extend (insert d entry.1 entry.2) rest) key =
      (get? (extend (insert [] entry.1 entry.2) rest) key).or _
    rw [ih, ih (insert [] entry.1 entry.2), get?_insert, get?_insert]
    cases get? (ofList rest) key with
    | some v => rfl
    | none => split <;> rfl

@[simp] theorem get?_ofList_nil : get? (ofList ([] : List (String × α))) key = none :=
  rfl

@[simp] theorem get?_ofList_cons (entry : String × α) (rest : List (String × α)) :
    get? (ofList (entry :: rest)) key =
      (get? (ofList rest) key).or (if key = entry.1 then some entry.2 else none) := by
  rw [← get?_nil key, ← get?_insert]
  exact get?_extend_or (insert [] entry.1 entry.2) rest

theorem get?_mapValues {β : Type} (f : α → β) : get? (mapValues f d) key = (get? d key).map f := by
  induction d with
  | nil => rfl
  | cons entry rest ih =>
    obtain ⟨k, w⟩ := entry
    show (if key = k then some (f w) else get? (mapValues f rest) key) =
      (if key = k then some w else get? rest key).map f
    rw [ih]
    split <;> rfl

theorem insert_map {β : Type} {g : String × α → String × β} (hg : ∀ e, (g e).1 = e.1)
    (d : Dict α) (key : String) (v : α) :
    insert (d.map g) key (g (key, v)).2 = (insert d key v).map g := by
  have hpair : ∀ e, (e.1, (g e).2) = g e := fun e => Prod.ext (hg e).symm rfl
  induction d with
  | nil => exact congrArg (fun e => [e]) (hpair (key, v))
  | cons e rest ih =>
    have hentry := hpair (key, v)
    rw [map_cons, insert, insert, hg]
    split
    · simp [hentry, hpair]
    · split <;> simp [hentry, hpair, ih]

end Dict

namespace Json

variable {v : Json} {fields : Dict Json} {key other : String}

theorem field?_obj : (Json.obj fields).field? key = fields.get? key :=
  rfl

@[simp] theorem field?_object (fields : List (String × Json)) :
    (Json.object fields).field? key = (Dict.ofList fields).get? key :=
  rfl

theorem field?_withField_ne (value : Json) (h : other ≠ key) :
    (v.withField key value).field? other = v.field? other := by
  cases v with
  | obj fields =>
    show Dict.get? (Dict.insert fields key value) other = _
    rw [Dict.get?_insert, if_neg h]
    rfl
  | _ => rfl

theorem field?_withField_self (value : Json) (h : (v.field? key).isSome) :
    (v.withField key value).field? key = some value := by
  cases v with
  | obj fields =>
    show Dict.get? (Dict.insert fields key value) key = _
    rw [Dict.get?_insert, if_pos rfl]
  | _ => cases h

end Json

end ChartPlan
