import ChartPlan.Flow.Pass.Progress

/-!
# Pruning

Outputs that nobody requested, row numbers that nobody needs, and branches that lead to no output are
removed.
-/

namespace ChartPlan.Flow

def isUnrequested (f : Forest) (i : NodeId) : Bool :=
  f.holds i fun n => n.output?.any fun o => f.requestCount o.name == 0

def removeUnrequestedOutputs (f : Forest) : Attempt :=
  .ok (dropWhere isUnrequested f)

def keepsRows : Node → Bool
  | .aggregate _ | .parse _ => true
  | n => n.isDataSource

/-- Whether a node numbers rows without need: no selection asks for it, or the rows above are not
stable. -/
def isNeedlessIdentifier (required : Bool) (f : Forest) (i : NodeId) : Bool :=
  f.holds i fun n =>
    match n with
    | .identifier => !(required && (f.parent? i).any fun p => f.holds p keepsRows)
    | _ => false

def removeNeedlessIdentifiers (required : Bool) (f : Forest) : Attempt :=
  .ok (dropWhere (isNeedlessIdentifier required) f)

def endsBranch : Node → Bool
  | .output _ | .facet _ => true
  | _ => false

def pruneLeaf (p : Progress) (i : NodeId) : Except Failure (Step × Progress) :=
  if 0 < p.forest.childCount i || p.forest.holds i endsBranch then .ok (.stop, p)
  else .ok (.parent, p.change (p.forest.remove i))

def removeUnusedSubtrees (f : Forest) : Attempt :=
  (Climb.ofVisit pruneLeaf).run f

def pruneRoots (f : Forest) : Forest :=
  f.sources.foldl (fun f root => if f.childCount root = 0 then f.remove root else f) f

end ChartPlan.Flow
