import ChartPlan.Flow.Pass.Progress

/-!
# Merging siblings

Bins move above nodes that they do not depend on. Sibling bins, aggregates over the same groups, time
units and nodes with equal signatures become one. A time unit that an ancestor computes already is
dropped.
-/

namespace ChartPlan.Flow

/-! ### Bins -/

def mergeBinInto (keep : NodeId) (f : Forest) (other : NodeId) : Forest :=
  match (f.node? other).bind Node.bin? with
  | some theirs =>
    let f := match (f.node? keep).bind Node.bin? with
      | some ours =>
        let (merged, signals) := ours.merge theirs f.signals
        { f.setNode keep (.bin merged) with signals := signals }
      | none => f
    f.absorb keep other
  | none => f

def letsBinsPass : Node → Bool
  | .filter _ | .parse _ | .identifier => false
  | n => !n.isDataSource

/-- Whether a bin node reads nothing that the node above it writes and may move above it. -/
def isPromotable (f : Forest) (above child : NodeId) : Bool :=
  f.holds above fun n => letsBinsPass n &&
    n.produced?.any fun produced => produced.disjoint (((f.node? child).map Node.deps).getD [])

/-- Moves bins above their parent: they become one, which merges with a bin above or changes places
with the parent. -/
def promoteBins (above : NodeId) (bins : List NodeId) (p : Progress) : Attempt :=
  match bins with
  | [] => .ok p
  | keep :: rest =>
    let f := rest.foldl (mergeBinInto keep) p.forest
    if f.holds above Node.isBin then .ok (p.change (mergeBinInto above f keep))
    else ({ p with forest := f }.swapUp keep)

def joinBins (bins : List NodeId) (p : Progress) : Progress :=
  match bins with
  | keep :: other :: rest => p.change ((other :: rest).foldl (mergeBinInto keep) p.forest)
  | _ => p

def gatherBins (p : Progress) (i : NodeId) : Except Failure (Step × Progress) :=
  match p.forest.parent? i with
  | none => .ok (.stop, p)
  | some above =>
    let bins := (p.forest.children above).filter fun c => p.forest.holds c Node.isBin
    let promotable := bins.filter fun c => isPromotable p.forest above c
    let remaining := bins.filter fun c => !isPromotable p.forest above c
    (promoteBins above promotable p).map fun p => (.parent, joinBins remaining p)

def mergeBins (f : Forest) : Attempt :=
  (Climb.ofVisit gatherBins).run f

/-! ### Aggregates -/

def addToGroup (f : Forest) (groups : Dict (List NodeId)) (i : NodeId) : Dict (List NodeId) :=
  match (f.node? i).bind Node.aggregate? with
  | some a => groups.insert a.groupKey (((groups.get? a.groupKey).getD []) ++ [i])
  | none => groups

def aggregateGroups (f : Forest) (nodes : List NodeId) : Dict (List NodeId) :=
  nodes.foldl (addToGroup f) []

def mergeAggregateInto (keep : NodeId) (p : Progress) (other : NodeId) : Progress :=
  match (p.forest.node? keep).bind Node.aggregate?, (p.forest.node? other).bind Node.aggregate? with
  | some ours, some theirs =>
    match ours.merge? theirs with
    | some merged => p.change ((p.forest.setNode keep (.aggregate merged)).absorb keep other)
    | none => p
  | _, _ => p

def joinAggregates (p : Progress) (group : List NodeId) : Progress :=
  match group with
  | keep :: rest => rest.foldl (mergeAggregateInto keep) p
  | [] => p

def gatherAggregates (p : Progress) (i : NodeId) : Except Failure (Step × Progress) :=
  match p.forest.parent? i with
  | none => .ok (.stop, p)
  | some above =>
    let groups := aggregateGroups p.forest (p.forest.children above)
    .ok (.parent, groups.values.foldl joinAggregates p)

def mergeAggregates (f : Forest) : Attempt :=
  (Climb.ofVisit gatherAggregates).run f

/-! ### Time units -/

/-- The first of the kept nodes with which the cuts of a node agree, and the cuts of both. -/
def findTimeUnits (f : Forest) (theirs : TimeUnits) : List NodeId → Option (NodeId × TimeUnits)
  | [] => none
  | keep :: rest =>
    match ((f.node? keep).bind Node.timeUnit?).bind fun ours => ours.merge? theirs with
    | some merged => some (keep, merged)
    | none => findTimeUnits f theirs rest

/-- Merges a time unit node into the first kept one with which it agrees, or keeps it. -/
def placeTimeUnit (state : Progress × List NodeId) (i : NodeId) : Progress × List NodeId :=
  let (p, kept) := state
  match (p.forest.node? i).bind Node.timeUnit? with
  | some theirs =>
    match findTimeUnits p.forest theirs kept with
    | some (keep, merged) =>
      (p.change ((p.forest.setNode keep (.timeUnit merged)).absorb keep i), kept)
    | none => (p, kept ++ [i])
  | none => (p, kept)

def joinTimeUnits (p : Progress) (above : NodeId) : Progress :=
  ((p.forest.children above).foldl placeTimeUnit (p, [])).1

def gatherTimeUnits (p : Progress) (i : NodeId) : Except Failure (Step × Progress) :=
  match p.forest.parent? i with
  | none => .ok (.stop, p)
  | some above => .ok (.parent, joinTimeUnits p above)

def mergeTimeUnits (f : Forest) : Attempt :=
  (Climb.ofVisit gatherTimeUnits).run f

/-- Drops the cuts of a time unit node below that are already there; a node with nothing left is
removed, and any other is remembered. -/
def dropCuts (produced : NameSet) (state : Progress × List NodeId) (i : NodeId) :
    Progress × List NodeId :=
  let (p, kept) := state
  match p.forest.node? i with
  | none => (p, kept)
  | some (.timeUnit unit) =>
    let rest := unit.without produced
    let p := if rest.cuts.length == unit.cuts.length then p
      else p.change (p.forest.setNode i (.timeUnit rest))
    if rest.cuts.isEmpty then ({ p with forest := p.forest.remove i }, kept) else (p, kept ++ [i])
  | some _ => (p, kept ++ [i])

/-- Drops the cuts of remembered nodes below that a time unit node computes, and remembers the node. -/
def dropBelow (seen : List NodeId) (p : Progress) (i : NodeId) :
    Except Failure (Step × List NodeId × Progress) :=
  match (p.forest.node? i).bind Node.timeUnit? with
  | some unit =>
    let (p, kept) := seen.foldl (dropCuts unit.produced) (p, [])
    .ok (.parent, kept ++ [i], p)
  | none => .ok (.parent, seen, p)

def removeDuplicateTimeUnits (f : Forest) : Attempt :=
  Climb.run { start := [], visit := dropBelow } f

/-! ### Equal signatures -/

def signatureOf (f : Forest) (i : NodeId) : String :=
  ((f.node? i).map Node.signature).getD ""

/-- Adds a node to the bucket of its signature, or behind the others in a new bucket. -/
def addToBucket (signature : String) (i : NodeId) :
    List (String × List NodeId) → List (String × List NodeId)
  | [] => [(signature, [i])]
  | (s, bucket) :: rest =>
    if s == signature then (s, bucket ++ [i]) :: rest
    else (s, bucket) :: addToBucket signature i rest

def buckets (f : Forest) (nodes : List NodeId) : List (String × List NodeId) :=
  nodes.foldl (fun acc i => addToBucket (signatureOf f i) i acc) []

def joinBucket (p : Progress) (bucket : String × List NodeId) : Progress :=
  match bucket.2 with
  | keep :: rest => rest.foldl (fun p other => p.change (p.forest.absorb keep other)) p
  | [] => p

def joinEqual (p : Progress) (i : NodeId) : Progress :=
  (buckets p.forest (p.forest.children i)).foldl joinBucket p

/-- Merges children with equal signatures from a node downwards, to a depth of `fuel` links. -/
def joinEqualBelow : Nat → Progress → NodeId → Progress
  | 0, p, _ => p
  | fuel + 1, p, i =>
    let p := joinEqual p i
    (p.forest.children i).foldl (joinEqualBelow fuel) p

def mergeIdenticalNodes (f : Forest) : Attempt :=
  .ok (f.sources.foldl (fun p root =>
    if p.forest.contains root then joinEqualBelow (p.forest.slots.length + 1) p root else p)
    { forest := f })

end ChartPlan.Flow
