import ChartPlan.Proofs.Flow.Pass.Outputs
import ChartPlan.Proofs.Flow.Pass.Siblings

/-!
# Passes succeed and rewrite

On a planted forest no pass fails, and all that the passes do, once or until nothing changes, is a
sequence of rewrites.
-/

namespace ChartPlan.Flow

variable {rowIds : Bool} {f : Forest} {p : Progress}

namespace Pass

def deed (rowIds : Bool) : Pass → Forest → Forest → Prop
  | removeUnrequestedOutputs | removeNeedlessIdentifiers | removeUnusedSubtrees => Removal rowIds
  | moveParseUp => Lift
  | mergeBins => BinMove Bins.Clears
  | mergeParse => Hoist
  | mergeAggregates | mergeTimeUnits | mergeIdenticalNodes => Union
  | removeDuplicateTimeUnits => Thinning
  | mergeOutputs => Chaining

def silent : Pass → Forest → Forest → Prop
  | removeDuplicateTimeUnits => Vacates
  | _ => Nothing

theorem tame (rowIds : Bool) (pass : Pass) : Tame rowIds pass.silent (pass.deed rowIds) := by
  cases pass with
  | removeUnrequestedOutputs | removeNeedlessIdentifiers | removeUnusedSubtrees => exact Removal.tame
  | moveParseUp => exact Lift.tame
  | mergeBins => exact BinMove.tame
  | mergeParse => exact Hoist.tame
  | mergeAggregates | mergeTimeUnits | mergeIdenticalNodes => exact Union.tame
  | removeDuplicateTimeUnits => exact Thinning.tame
  | mergeOutputs => exact Chaining.tame

theorem does (rowIds : Bool) (pass : Pass) (hf : f.Planted) : ∃ q, pass.run rowIds f = .ok q ∧
    Progress.Does pass.silent (pass.deed rowIds) { forest := f } q := by
  have htame := pass.tame rowIds
  cases pass with
  | removeUnrequestedOutputs => exact ⟨_, rfl, removeUnrequestedOutputs_does hf⟩
  | removeNeedlessIdentifiers => exact ⟨_, rfl, removeNeedlessIdentifiers_does rowIds hf⟩
  | removeUnusedSubtrees => exact pruneLeaf_does.run htame hf
  | moveParseUp => exact raiseCoercion_does.run htame hf
  | mergeBins => exact gatherBins_does.run htame hf
  | mergeParse => exact hoistCoercions_does.run htame hf
  | mergeAggregates => exact gatherAggregates_does.run htame hf
  | mergeTimeUnits => exact gatherTimeUnits_does.run htame hf
  | removeDuplicateTimeUnits => exact dropBelow_does.run htame hf
  | mergeIdenticalNodes => exact mergeIdenticalNodes_does hf
  | mergeOutputs => exact chainOutputs_does.run htame hf

theorem does_of_run (pass : Pass) (hf : f.Planted) {q : Progress} (h : pass.run rowIds f = .ok q) :
    Progress.Does pass.silent (pass.deed rowIds) { forest := f } q := by
  obtain ⟨q', heq, hdoes⟩ := pass.does rowIds hf
  cases heq.symm.trans h
  exact hdoes

theorem run_rewrites (rowIds : Bool) (pass : Pass) (hf : f.Planted) :
    ∃ q, pass.run rowIds f = .ok q ∧ Rewrites rowIds f q.forest := by
  obtain ⟨q, heq, hdoes⟩ := pass.does rowIds hf
  exact ⟨q, heq, hdoes.rewrites (pass.tame rowIds) hf⟩

/-- Whether roots that feed nothing go before a pass. -/
def prunes : Pass → Bool
  | removeUnusedSubtrees | moveParseUp => true
  | _ => false

def step (rowIds : Bool) (p : Progress) (pass : Pass) : Attempt :=
  (if pass.prunes then pruned p else p).andThen (pass.run rowIds)

end Pass

def firstPasses : List Pass :=
  [.removeUnrequestedOutputs, .removeNeedlessIdentifiers]

/-- The passes that come after pruning and before time units are dropped. -/
def earlyPasses : List Pass :=
  [.removeUnusedSubtrees, .moveParseUp, .mergeBins, .mergeParse, .mergeAggregates, .mergeTimeUnits]

def lastPasses : List Pass :=
  [.mergeIdenticalNodes, .mergeOutputs]

theorem runPasses_eq (rowIds : Bool) (f : Forest) : runPasses rowIds f =
    (firstPasses ++ (earlyPasses ++ .removeDuplicateTimeUnits :: lastPasses)).foldlM (Pass.step rowIds)
      { forest := f } := by
  simp only [firstPasses, earlyPasses, lastPasses, List.cons_append, List.nil_append,
    List.foldlM_cons, List.foldlM_nil, bind_pure]
  rfl

/-- `p` is what came of `f` by rewrites, with no notes but warnings. -/
structure Reached (rowIds : Bool) (f : Forest) (p : Progress) : Prop where
  planted : f.Planted
  rewrites : Rewrites rowIds f p.forest
  warns : Warnings p.notes

namespace Reached

theorem planted' (h : Reached rowIds f p) : p.forest.Planted :=
  h.rewrites.planted h.planted

theorem pruned (h : Reached rowIds f p) : Reached rowIds f (Flow.pruned p) :=
  ⟨h.planted, h.rewrites.trans (pruneRoots_rewrites h.planted'), h.warns⟩

theorem foldlM (h : Reached rowIds f p) (passes : List Pass) :
    ∃ q, passes.foldlM (Pass.step rowIds) p = .ok q ∧ Reached rowIds f q := by
  induction passes generalizing p with
  | nil => exact ⟨p, rfl, h⟩
  | cons pass rest ih =>
    have h' : Reached rowIds f (if pass.prunes then Flow.pruned p else p) := by
      split
      · exact h.pruned
      · exact h
    obtain ⟨q, heq, hq⟩ := pass.does rowIds h'.planted'
    have hsteps := hq.rewrites (pass.tame rowIds) h'.planted'
    rw [List.foldlM_cons, Pass.step, Progress.andThen, heq]
    exact ih ⟨h'.planted, h'.rewrites.trans hsteps, h'.warns.append (hq.warns warnings_nil)⟩

end Reached

/-- The forest without the outputs that nobody requested. -/
def Forest.purged (f : Forest) : Forest :=
  (dropWhere isUnrequested f).forest

theorem Forest.Planted.rewrites_purged (rowIds : Bool) (hf : f.Planted) :
    Rewrites rowIds f f.purged :=
  (removeUnrequestedOutputs_does hf).rewrites Removal.tame hf

theorem Forest.Planted.purged (hf : f.Planted) : f.purged.Planted :=
  (hf.rewrites_purged false).planted hf

theorem runPasses_purged (rowIds : Bool) (hf : f.Planted) :
    ∃ q, runPasses rowIds f = .ok q ∧ Reached rowIds f.purged q := by
  have hdoes := @removeUnrequestedOutputs_does rowIds f hf
  have h₁ : Reached rowIds f.purged (Progress.follow { forest := f } (dropWhere isUnrequested f)) :=
    ⟨hf.purged, .refl, hdoes.warns warnings_nil⟩
  obtain ⟨q, hq, hreached⟩ := h₁.foldlM
    (.removeNeedlessIdentifiers :: (earlyPasses ++ .removeDuplicateTimeUnits :: lastPasses))
  exact ⟨q, (runPasses_eq rowIds f).trans hq, hreached⟩

theorem runPasses_rewrites (rowIds : Bool) (hf : f.Planted) :
    ∃ q, runPasses rowIds f = .ok q ∧ Rewrites rowIds f q.forest := by
  obtain ⟨q, heq, hq⟩ := runPasses_purged rowIds hf
  exact ⟨q, heq, (hf.rewrites_purged rowIds).trans hq.rewrites⟩

theorem settle_rewrites (rowIds : Bool) (runs : Nat) (hp : p.forest.Planted) :
    ∃ q, settle rowIds runs p = .ok q ∧ Rewrites rowIds p.forest q.forest := by
  induction runs generalizing p with
  | zero => exact ⟨_, rfl, .refl⟩
  | succ runs ih =>
    obtain ⟨q, heq, hq⟩ := runPasses_rewrites rowIds hp
    unfold settle
    simp only [heq]
    split
    · obtain ⟨r, hr, hqr⟩ := ih (p := p.follow q) (hq.planted hp)
      exact ⟨r, hr, hq.trans hqr⟩
    · exact ⟨_, rfl, hq⟩

theorem settle_purged (rowIds : Bool) {runs : Nat} (hruns : 0 < runs) (hp : p.forest.Planted) :
    ∃ q, settle rowIds runs p = .ok q ∧ Rewrites rowIds p.forest.purged q.forest := by
  cases runs with
  | zero => exact absurd hruns (Nat.lt_irrefl 0)
  | succ runs =>
    obtain ⟨q, heq, hq⟩ := runPasses_purged rowIds hp
    unfold settle
    simp only [heq]
    split
    · obtain ⟨r, hr, hqr⟩ := settle_rewrites rowIds runs (p := p.follow q) hq.planted'
      exact ⟨r, hr, hq.rewrites.trans hqr⟩
    · exact ⟨_, rfl, hq.rewrites⟩

end ChartPlan.Flow
