import ChartPlan.Flow.Forest

/-!
# Walking the forest

Nodes are listed a parent before its children and children in order. A path without repetition is no
longer than the number of slots, which bounds the walk.

* `Forest.preorder`, `Forest.leaves`: the nodes and the leaves below the sources.
* `Forest.check`: whether the forest is valid.
* `Forest.dump`, `Forest.diagram`: pictures of the forest.
-/

namespace ChartPlan.Flow.Forest

def below (f : Forest) : Nat → NodeId → List NodeId
  | 0, i => [i]
  | fuel + 1, i => i :: (f.children i).flatMap (f.below fuel)

def subtree (f : Forest) (i : NodeId) : List NodeId :=
  f.below f.slots.length i

def preorder (f : Forest) : List NodeId :=
  f.sources.flatMap f.subtree

def leaves (f : Forest) : List NodeId :=
  f.preorder.filter fun i => (f.children i).isEmpty

/-! ### Validity -/

def inner (edges : List Edge) : List Edge :=
  edges.filter fun e => edges.any fun above => above.child == e.parent

/-- The edges that remain when those of the uppermost parents are dropped again and again. -/
def core : Nat → List Edge → List Edge
  | 0, edges => edges
  | rounds + 1, edges => core rounds (inner edges)

def hasCycle (f : Forest) : Bool :=
  !(core f.slots.length f.edges).isEmpty

def contiguous (f : Forest) (i : NodeId) : Bool :=
  (Edge.sort (f.outgoing i)).map Edge.ordinal == List.range (f.childCount i)

def checkNode (f : Forest) (i : NodeId) : Except Error Unit :=
  let kind := ((f.node? i).map Node.kindName).getD ""
  let parents := (f.incoming i).length
  if 1 < parents then
    .error (.invalidGraph (kind ++ " has " ++ toString parents ++ " parents"))
  else if parents = 0 && !f.sources.contains i then
    .error (.invalidGraph (kind ++ " is detached from every source"))
  else if !f.contiguous i then
    .error (.invalidGraph ("children of " ++ kind ++ " are not contiguous"))
  else .ok ()

def check (f : Forest) : Except Error Unit := do
  if f.hasCycle then .error (.invalidGraph "cycle detected")
  f.liveIds.forM f.checkNode
  if f.sources.any fun i => (f.parent? i).isSome then
    .error (.invalidGraph "a source has a parent")
  match f.outputs.find? fun entry => !f.contains entry.2 with
  | some (name, _) =>
    .error (.invalidGraph ("output \"" ++ name ++ "\" points to a deleted node"))
  | none => .ok ()

/-! ### Pictures -/

def label (f : Forest) (i : NodeId) : String :=
  ((f.node? i).map Node.label).getD ""

/-- The lines of a node, the first one indented by depth; a label with line ends has several. -/
def nodeLines (f : Forest) (depth : Nat) (i : NodeId) : List String :=
  Text.lines (String.ofList (List.replicate (2 * depth) ' ') ++ f.label i)

def dumpFrom (f : Forest) : Nat → Nat → NodeId → List String
  | 0, depth, i => f.nodeLines depth i
  | fuel + 1, depth, i =>
    f.nodeLines depth i ++ (f.children i).flatMap (f.dumpFrom fuel (depth + 1))

def dump (f : Forest) : List String :=
  f.sources.flatMap (f.dumpFrom f.slots.length 0)

/-- The lines of a diagram: the nodes by number, then the links by parent and child. -/
def diagram (f : Forest) : List String :=
  let nodes := f.liveIds.flatMap fun i =>
    Text.lines ("    N" ++ toString i ++ "[\"" ++ f.label i ++ "\"]")
  let byParent := f.liveIds.flatMap fun i =>
    let targets := (f.outgoing i).map fun e => { e with ordinal := 0 }
    (Edge.sort targets).map fun e => "    N" ++ toString i ++ " --> N" ++ toString e.child
  "graph TD" :: (nodes ++ byParent)

end ChartPlan.Flow.Forest
