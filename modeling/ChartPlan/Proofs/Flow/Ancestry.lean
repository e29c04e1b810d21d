import ChartPlan.Proofs.Flow.Pass.Regroup

/-!
# What is above what

`Forest.Below` counts a node among those below it. A node is over another one when it is above it and
is not the node itself; a node has the parent over it, and what is over the parent.

* `Forest.Over`: the proper ancestors of a node.
* `Linked.exists_nearest`: of the nodes with a property over a node one is the nearest.
-/

namespace ChartPlan.Flow.Forest

variable {f g : Forest} {a b i j p : NodeId}

def Over (f : Forest) (a i : NodeId) : Prop :=
  f.Below a i ∧ a ≠ i

section

variable (hf : f.Linked)

include hf

section

variable (hp : f.parent? i = some p)

include hp

theorem Linked.below_of_parent? : f.Below p i :=
  (Below.refl f p).step (hf.child hp)

theorem Linked.over_of_parent? : f.Over p i :=
  ⟨hf.below_of_parent? hp, (hf.ne_parent hp).symm⟩

theorem Linked.over_of_below (hb : f.Below a p) : f.Over a i := by
  refine ⟨hb.trans (hf.below_of_parent? hp), ?_⟩
  rintro rfl
  exact hf.not_below_of_child (hf.child hp) hb

theorem Linked.over_iff : f.Over a i ↔ f.Below a p :=
  ⟨fun ho => hf.below_parent ho.1 ho.2 hp, hf.over_of_below hp⟩

end

theorem Linked.exists_parent_of_over (h : f.Over a i) :
    ∃ p, f.parent? i = some p ∧ f.Below a p :=
  (h.1.cases_parent hf.single).resolve_left h.2

theorem Linked.over_of_below_of_over (hb : f.Below a b) (h : f.Over b i) : f.Over a i := by
  obtain ⟨p, hp, hbp⟩ := hf.exists_parent_of_over h
  exact hf.over_of_below hp (hb.trans hbp)

theorem Linked.over_trans (h : f.Over a b) (h' : f.Over b i) : f.Over a i :=
  hf.over_of_below_of_over h.1 h'

theorem Linked.exists_nearest {P : NodeId → Prop} (h : ∃ a, f.Over a i ∧ P a) :
    ∃ a, f.Over a i ∧ P a ∧ ∀ m, f.Over a m → f.Over m i → ¬ P m := by
  refine hf.down (P := fun i => (∃ a, f.Over a i ∧ P a) →
    ∃ a, f.Over a i ∧ P a ∧ ∀ m, f.Over a m → f.Over m i → ¬ P m) (fun i hroot h => ?_)
    (fun i p hp ih h => ?_) i h
  · obtain ⟨a, ha, -⟩ := h
    obtain ⟨p, hp, -⟩ := hf.exists_parent_of_over ha
    rw [hroot] at hp
    cases hp
  · by_cases hP : P p
    · refine ⟨p, hf.over_of_parent? hp, hP, fun m hpm hmi => ?_⟩
      exact absurd (hf.below_antisymm hpm.1 ((hf.over_iff hp).mp hmi)) hpm.2
    · obtain ⟨a, ha, hPa⟩ := h
      have hap : f.Over a p := ⟨(hf.over_iff hp).mp ha, fun he => hP (he ▸ hPa)⟩
      obtain ⟨b, hb, hPb, hnearest⟩ := ih ⟨a, hap, hPa⟩
      refine ⟨b, hf.over_trans hb (hf.over_of_parent? hp), hPb, fun m hbm hmi => ?_⟩
      by_cases hmp : m = p
      · rwa [hmp]
      · exact hnearest m hbm ⟨(hf.over_iff hp).mp hmi, hmp⟩

end

end ChartPlan.Flow.Forest
