import ChartPlan.Proofs.Flow.Check

/-!
# Paths

The path of a node leads from its root to the node itself. In a linked forest it is the path of the
parent and one more node.

* `Forest.path`, `Forest.above`: the nodes on the way to a node.
* `Linked.down`: what holds of roots and passes from parents to children holds of every node.
-/

namespace ChartPlan.Flow.Forest

open List

variable {f g : Forest} {i j p : NodeId}

/-- The nodes from the root to a node, for at most `fuel` links. -/
def climb (f : Forest) : Nat → NodeId → List NodeId
  | 0, i => [i]
  | fuel + 1, i =>
    match f.parent? i with
    | some p => f.climb fuel p ++ [i]
    | none => [i]

def path (f : Forest) (i : NodeId) : List NodeId :=
  f.climb f.slots.length i

theorem climb_of_length_le {fuel : Nat} (h : (f.climb fuel i).length ≤ fuel) :
    f.climb (fuel + 1) i = f.climb fuel i := by
  induction fuel generalizing i with
  | zero => simp [climb] at h
  | succ fuel ih =>
    rw [climb, climb]
    unfold climb at h
    cases hp : f.parent? i with
    | none => rfl
    | some p =>
      rw [hp] at h
      simp only [length_append, length_singleton, Nat.add_le_add_iff_right] at h
      show f.climb (fuel + 1) p ++ [i] = f.climb fuel p ++ [i]
      rw [ih h]

theorem Linked.nodup_climb (hf : f.Linked) (fuel : Nat) (hi : f.contains i) :
    (f.climb fuel i).Nodup ∧ ∀ j ∈ f.climb fuel i, f.contains j := by
  obtain ⟨rank, hrank⟩ := hf.ranked
  suffices h : (f.climb fuel i).Nodup ∧ ∀ j ∈ f.climb fuel i, f.contains j ∧ rank j ≤ rank i from
    ⟨h.1, fun j hj => (h.2 j hj).1⟩
  induction fuel generalizing i with
  | zero => simp [climb, hi]
  | succ fuel ih =>
    unfold climb
    cases hp : f.parent? i with
    | none => simp [hi]
    | some p =>
      have hchild : i ∈ f.children p := hf.child hp
      obtain ⟨hnodup, hmem⟩ := ih (hf.live hchild).1
      have hlt : rank p < rank i := hrank hchild
      refine ⟨nodup_append.mpr ⟨hnodup, by simp, fun a ha b hb hab => ?_⟩, fun j hj => ?_⟩
      · have hle := (hmem a ha).2
        rw [hab, mem_singleton.mp hb] at hle
        exact absurd hlt (Nat.not_lt.mpr hle)
      · rcases mem_append.mp hj with hj | hj
        · exact ⟨(hmem j hj).1, Nat.le_of_lt (Nat.lt_of_le_of_lt (hmem j hj).2 hlt)⟩
        · rw [mem_singleton.mp hj]
          exact ⟨hi, Nat.le_refl _⟩

theorem path_of_parent?_eq_none (hp : f.parent? i = none) : f.path i = [i] := by
  unfold path
  cases f.slots.length with
  | zero => rfl
  | succ n =>
    unfold climb
    rw [hp]

theorem Linked.path_of_parent? (hf : f.Linked) (hp : f.parent? i = some p) :
    f.path i = f.path p ++ [i] := by
  have hi : f.contains i := (hf.live_of_parent? hp).2
  obtain ⟨hnodup, hlive⟩ := hf.nodup_climb f.slots.length hi
  unfold path
  rw [← climb_of_length_le (length_le_slots hnodup hlive), climb, hp]

def above (f : Forest) (i : NodeId) : List NodeId :=
  (f.path i).dropLast.reverse

theorem above_of_parent?_eq_none (hp : f.parent? i = none) : f.above i = [] := by
  unfold above
  rw [path_of_parent?_eq_none hp]
  rfl

theorem Linked.above_of_parent? (hf : f.Linked) (hp : f.parent? i = some p) :
    f.above i = p :: f.above p := by
  have hend : f.path p = (f.path p).dropLast ++ [p] := by
    cases hq : f.parent? p with
    | none => rw [path_of_parent?_eq_none hq]; rfl
    | some q => rw [hf.path_of_parent? hq, dropLast_concat]
  unfold above
  rw [hf.path_of_parent? hp, dropLast_concat]
  conv_lhs => rw [hend]
  rw [reverse_append]
  rfl

theorem Linked.down {P : NodeId → Prop} (hf : f.Linked) (hroot : ∀ i, f.parent? i = none → P i)
    (hstep : ∀ i p, f.parent? i = some p → P p → P i) (i : NodeId) : P i := by
  refine hf.descend (fun i ih => ?_) i
  cases hp : f.parent? i with
  | none => exact hroot i hp
  | some p => exact hstep i p hp (ih p hp)

theorem Valid.exists_root (hf : f.Valid) (hi : f.contains i) : ∃ r ∈ f.sources, f.Below r i := by
  refine hf.down (P := fun i => f.contains i → ∃ r ∈ f.sources, f.Below r i)
    (fun i hp hi => ?_) (fun i p hp ih _ => ?_) i hi
  · exact ⟨i, hf.mem_sources.mpr ⟨hi, hp⟩, .refl f i⟩
  · have hc : i ∈ f.children p := hf.child hp
    obtain ⟨r, hr, hb⟩ := ih (hf.live hc).1
    exact ⟨r, hr, hb.step hc⟩

end ChartPlan.Flow.Forest
