import ChartPlan.Flow.Pass.Progress

/-!
# Moving facets down

A facet moves below the computations that need not be done cell by cell: those that group rows group
by the facet fields as well. The computations that stay inside the cells are copied for the whole
data, where shared scales read them.
-/

namespace ChartPlan.Flow

def scaleStem : String := "scale_"

/-- Moves a facet below its only child as long as that is no output, for at most `fuel` links. -/
def sinkFacet (fields : List String) (facet : NodeId) : Nat → Progress → Attempt
  | 0, p => .ok p
  | fuel + 1, p =>
    match p.forest.children facet with
    | [child] =>
      if p.forest.holds child Node.isOutput then .ok p
      else
        let grouped := p.forest.modify child (Node.addDimensions fields)
        match { p with forest := grouped }.swapUp child with
        | .ok p => sinkFacet fields facet fuel p
        | .error e => .error e
    | _ => .ok p

def isMainOutput (n : Node) : Bool :=
  n.output?.any fun o => o.kind == .main

/-- Moves a main output below its only child as long as that is no facet, for at most `fuel`
links. -/
def sinkMain (main : NodeId) : Nat → Progress → Attempt
  | 0, p => .ok p
  | fuel + 1, p =>
    match p.forest.children main with
    | [child] =>
      if p.forest.holds child Node.isFacet then .ok p
      else
        match p.swapUp child with
        | .ok p => sinkMain main fuel p
        | .error e => .error e
    | _ => .ok p

/-- The copy of a node for the whole data: an output gets a dataset of its own, and a node that
groups also groups by the facet fields. -/
def globalCopy (fields : List String) : Node → Node
  | .output o => .output { o with source := scaleStem ++ o.source, kind := .scale }
  | n => n.addDimensions fields

def registerCopy (f : Forest) (i : NodeId) : Forest :=
  match (f.node? i).bind Node.output? with
  | some o => f.register o.source i
  | none => f

def attachAll (f : Forest) (parent : NodeId) (nodes : List NodeId) : Forest :=
  nodes.foldl (fun f i => f.attach i parent none) f

def collectCopies (copy : Forest → NodeId → Forest × List NodeId) (state : Forest × List NodeId)
    (i : NodeId) : Forest × List NodeId :=
  let (f, roots) := copy state.1 i
  (f, state.2 ++ roots)

def copyBelow (copy : Forest → NodeId → Forest × List NodeId) (parent : NodeId) (f : Forest)
    (i : NodeId) : Forest :=
  let (f, roots) := copy f i
  attachAll f parent roots

/-- Copies a node and all below it, without facets, to a depth of `fuel` links; gives the roots of
the copies. -/
def copySubtree (fields : List String) : Nat → Forest → NodeId → Forest × List NodeId
  | 0, f, _ => (f, [])
  | fuel + 1, f, i =>
    let children := f.children i
    if f.holds i Node.isFacet then children.foldl (collectCopies (copySubtree fields fuel)) (f, [])
    else
      let (f, copy) := f.duplicate i
      let f := registerCopy (f.modify copy (globalCopy fields)) copy
      (children.foldl (copyBelow (copySubtree fields fuel) copy) f, [copy])

def copyWhole (fields : List String) (f : Forest) (i : NodeId) : Forest × List NodeId :=
  copySubtree fields (f.slots.length + 1) f i

def copyCells (fields : List String) (facet main : NodeId) (f : Forest) : Forest :=
  let (f, copies) := (f.children facet).foldl (collectCopies (copyWhole fields)) (f, [])
  attachAll f main copies

def settleFacet (facet : NodeId) (node : Facet) (p : Progress) : Attempt := do
  let fields := node.fields
  let p ← sinkFacet fields facet p.forest.slots.length p
  match p.forest.outputs.get? node.main with
  | none => return p
  | some main =>
    let p ← if p.forest.holds main isMainOutput then sinkMain main p.forest.slots.length p else .ok p
    return { p with forest := copyCells fields facet main p.forest }

/-- Moves the facets at and below a node down, to a depth of `fuel` links. Facets inside a facet stay
there. -/
def settleBelow : Nat → Progress → NodeId → Attempt
  | 0, p, _ => .ok p
  | fuel + 1, p, i =>
    match (p.forest.node? i).bind Node.facet? with
    | some node => settleFacet i node p
    | none => (p.forest.children i).foldlM (settleBelow fuel) p

def moveFacetsDown (f : Forest) : Attempt :=
  f.sources.foldlM (fun p root => settleBelow (p.forest.slots.length + 1) p root) { forest := f }

end ChartPlan.Flow
