import ChartPlan.Proofs.Flow.Pass.Walk

/-!
# Nodes that move down

A facet moves below its only child as long as that is no output, and a main output does as long as it is no
facet. Both loops are the same (`Descends`), so what a step keeps is kept by both (`Descends.run`).
-/

namespace ChartPlan.Flow

open Forest

variable {p q : Progress} {i c : NodeId} {fuel : Nat} {stop : Node → Bool} {change : Node → Node}
  {loop : Nat → Progress → Attempt}

/-- A loop that moves a node below its only child, which it changes, until that is of some kind. -/
structure Descends (i : NodeId) (stop : Node → Bool) (change : Node → Node)
    (loop : Nat → Progress → Attempt) : Prop where
  zero (p : Progress) : loop 0 p = .ok p
  stay {fuel : Nat} {p : Progress} : (∀ c, p.forest.children i = [c] → p.forest.holds c stop) →
    loop (fuel + 1) p = .ok p
  step {fuel : Nat} {p : Progress} {c : NodeId} : p.forest.children i = [c] →
    p.forest.holds c stop = false →
    loop (fuel + 1) p = { p with forest := p.forest.modify c change }.swapUp c >>= loop fuel

theorem descends_sinkFacet (fields : List String) (i : NodeId) :
    Descends i Node.isOutput (Node.addDimensions fields) (sinkFacet fields i) where
  zero _ := rfl
  stay hstop := by
    unfold sinkFacet
    split
    · rename_i child hchild
      exact if_pos (hstop child hchild)
    · rfl
  step {fuel p c} hc hgo := by
    unfold sinkFacet
    simp only [hc, hgo, Bool.false_eq_true, if_false]
    cases { p with forest := p.forest.modify c (Node.addDimensions fields) }.swapUp c <;> rfl

theorem Forest.modify_id (f : Forest) (i : NodeId) : f.modify i id = f := by
  simp [modify]

theorem descends_sinkMain (i : NodeId) : Descends i Node.isFacet id (sinkMain i) where
  zero _ := rfl
  stay hstop := by
    unfold sinkMain
    split
    · rename_i child hchild
      exact if_pos (hstop child hchild)
    · rfl
  step {fuel p c} hc hgo := by
    unfold sinkMain
    simp only [hc, hgo, Bool.false_eq_true, if_false, modify_id]
    cases p.swapUp c <;> rfl

theorem Forest.Linked.swapUp_error (hp : p.forest.Linked) (hc : c ∈ p.forest.children i)
    (hroot : p.forest.parent? i = none) : ∃ e, p.swapUp c = .error e := by
  unfold Progress.swapUp Forest.exchange
  simp only [hp.parent?_of_mem hc, hroot]
  exact ⟨_, rfl⟩

theorem Descends.run {I : Forest → Prop} (hloop : Descends i stop change loop)
    (hvalid : ∀ {f}, I f → ∃ loose, f.ValidBut loose)
    (hstep : ∀ {f c grand}, I f → f.children i = [c] → f.holds c stop = false →
      f.parent? i = some grand → I ((f.modify c change).exchange c).2) (fuel : Nat) (hp : I p.forest) :
    (∃ q, loop fuel p = .ok q ∧ I q.forest ∧ q.notes = p.notes) ∨
      (∃ e, loop fuel p = .error e) ∧ ∃ f, I f ∧ f.parent? i = none := by
  induction fuel generalizing p with
  | zero => exact .inl ⟨p, hloop.zero p, hp, rfl⟩
  | succ fuel ih =>
    by_cases hgo : ∃ c, p.forest.children i = [c] ∧ p.forest.holds c stop = false
    · obtain ⟨c, hc, hgo⟩ := hgo
      obtain ⟨loose, hchanged⟩ := hvalid hp
      have hlinked := (hchanged.modify c change).toLinked
      have hmem : c ∈ p.forest.children i := by simp [hc]
      rw [hloop.step hc hgo]
      cases hgrand : p.forest.parent? i with
      | none =>
        obtain ⟨e, he⟩ := Linked.swapUp_error
          (p := { p with forest := p.forest.modify c change }) hlinked hmem hgrand
        rw [he]
        exact .inr ⟨⟨e, rfl⟩, p.forest, hp, hgrand⟩
      | some grand =>
        rw [Linked.swapUp_eq (p := { p with forest := p.forest.modify c change }) hlinked
          (hlinked.parent?_of_mem hmem) hgrand]
        exact ih (hstep hp hc hgo hgrand)
    · refine .inl ⟨p, hloop.stay fun c hc => ?_, hp, rfl⟩
      rw [← Bool.not_eq_false]
      exact fun hno => hgo ⟨c, hc, hno⟩

end ChartPlan.Flow
