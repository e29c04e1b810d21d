import ChartPlan.Flow.Pass.Coercions
import ChartPlan.Flow.Pass.Facets
import ChartPlan.Flow.Pass.Outputs
import ChartPlan.Flow.Pass.Prune
import ChartPlan.Flow.Pass.Siblings

/-!
# Optimization

The passes run in order, again and again until none changes anything. Then facets move down and the
passes run once more.
-/

namespace ChartPlan.Flow

/-- A pass over the forest. -/
inductive Pass where
  | removeUnrequestedOutputs
  | removeNeedlessIdentifiers
  | removeUnusedSubtrees
  | moveParseUp
  | mergeBins
  | mergeParse
  | mergeAggregates
  | mergeTimeUnits
  | removeDuplicateTimeUnits
  | mergeIdenticalNodes
  | mergeOutputs
deriving DecidableEq

def Pass.run (rowIds : Bool) : Pass → Forest → Attempt
  | .removeUnrequestedOutputs => Flow.removeUnrequestedOutputs
  | .removeNeedlessIdentifiers => Flow.removeNeedlessIdentifiers rowIds
  | .removeUnusedSubtrees => Flow.removeUnusedSubtrees
  | .moveParseUp => Flow.moveParseUp
  | .mergeBins => Flow.mergeBins
  | .mergeParse => Flow.mergeParse
  | .mergeAggregates => Flow.mergeAggregates
  | .mergeTimeUnits => Flow.mergeTimeUnits
  | .removeDuplicateTimeUnits => Flow.removeDuplicateTimeUnits
  | .mergeIdenticalNodes => Flow.mergeIdenticalNodes
  | .mergeOutputs => Flow.mergeOutputs

def pruned (p : Progress) : Progress :=
  { p with forest := pruneRoots p.forest }

def runPasses (rowIds : Bool) (f : Forest) : Attempt := do
  let step (pass : Pass) (p : Progress) : Attempt := p.andThen (pass.run rowIds)
  let p ← step .removeUnrequestedOutputs { forest := f }
  let p ← step .removeNeedlessIdentifiers p
  let p ← step .removeUnusedSubtrees (pruned p)
  let p ← step .moveParseUp (pruned p)
  let p ← step .mergeBins p
  let p ← step .mergeParse p
  let p ← step .mergeAggregates p
  let p ← step .mergeTimeUnits p
  let p ← step .removeDuplicateTimeUnits p
  let p ← step .mergeIdenticalNodes p
  step .mergeOutputs p

def maxRuns : Nat := 5

def unsettledNote : Note :=
  ⟨.warn, "Maximum optimization runs (" ++ toString maxRuns ++ ") reached.", true⟩

def settle (rowIds : Bool) : Nat → Progress → Attempt
  | 0, p => .ok { p with notes := p.notes ++ [unsettledNote] }
  | runs + 1, p =>
    match runPasses rowIds p.forest with
    | .ok q => if q.changed then settle rowIds runs (p.follow q) else .ok (p.follow q)
    | .error e => .error { e with progress := p.follow e.progress }

def optimize (rowIds : Bool) (f : Forest) : Attempt := do
  let p ← Progress.checked { forest := f }
  let p ← settle rowIds maxRuns p
  let p ← p.andThen moveFacetsDown
  let p ← settle rowIds maxRuns p
  p.checked

end ChartPlan.Flow
