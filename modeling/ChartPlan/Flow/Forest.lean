import ChartPlan.Flow.Node

/-!
# The dataflow forest

Nodes live in numbered slots. An edge leads from a parent to a child and carries the place of the
child among its siblings. The parent of a node is the one that was linked last, and the children of a
node are ordered by place. In a valid forest every node has one parent or is listed as a source, and
the places of the children of a node are `0, 1, 2, …`.

* `Forest.setChildren`: the only operation that links; the others are built from it.
* `Forest.remove`, `Forest.absorb`, `Forest.swapWithParent`, `Forest.insertAbove`: the moves that
  reshape the forest.
-/

namespace ChartPlan.Flow

abbrev NodeId := Nat

/-- A link from a parent to a child. -/
structure Edge where
  parent : NodeId
  child : NodeId
  /-- The place of the child among its siblings. -/
  ordinal : Nat
deriving DecidableEq

namespace Edge

def precedes (a b : Edge) : Bool :=
  a.ordinal < b.ordinal || (a.ordinal == b.ordinal && a.child ≤ b.child)

def insertSorted (e : Edge) : List Edge → List Edge
  | [] => [e]
  | a :: rest => if e.precedes a then e :: a :: rest else a :: insertSorted e rest

def sort (edges : List Edge) : List Edge :=
  edges.foldr insertSorted []

def link (parent : NodeId) : Nat → List NodeId → List Edge
  | _, [] => []
  | start, child :: rest => ⟨parent, child, start⟩ :: link parent (start + 1) rest

end Edge

/-- The dataflow of a chart. -/
structure Forest where
  /-- The nodes; a slot whose node was removed is empty. -/
  slots : List (Option Node) := []
  /-- The empty slots, the one emptied last first. -/
  free : List NodeId := []
  /-- The links, the one made last first. -/
  edges : List Edge := []
  /-- The roots, in order. -/
  sources : List NodeId := []
  /-- Where named outputs and facets are. -/
  outputs : Dict NodeId := []
  /-- How often outputs were requested. -/
  requests : Dict Nat := []
  /-- Signals that were given up when nodes merged. -/
  signals : Renames := {}
  /-- The numbers for copied outputs and facets. -/
  ids : IdSupply := {}

namespace Forest

/-! ### Nodes -/

def node? (f : Forest) (i : NodeId) : Option Node :=
  (f.slots[i]?).join

def contains (f : Forest) (i : NodeId) : Bool :=
  (f.node? i).isSome

def holds (f : Forest) (i : NodeId) (p : Node → Bool) : Bool :=
  (f.node? i).any p

def liveIds (f : Forest) : List NodeId :=
  (List.range f.slots.length).filter f.contains

def size (f : Forest) : Nat :=
  f.liveIds.length

def store (f : Forest) (n : Node) : Forest × NodeId :=
  match f.free with
  | i :: rest => ({ f with slots := f.slots.set i (some n), free := rest }, i)
  | [] => ({ f with slots := f.slots ++ [some n] }, f.slots.length)

def modify (f : Forest) (i : NodeId) (change : Node → Node) : Forest :=
  { f with slots := f.slots.modify i (Option.map change) }

def setNode (f : Forest) (i : NodeId) (n : Node) : Forest :=
  f.modify i fun _ => n

def clear (f : Forest) (i : NodeId) : Forest :=
  if f.contains i then
    { f with
      slots := f.slots.set i none
      free := i :: f.free
      edges := f.edges.filter fun e => e.parent != i && e.child != i }
  else f

/-! ### Links -/

def incoming (f : Forest) (i : NodeId) : List Edge :=
  f.edges.filter fun e => e.child == i

def outgoing (f : Forest) (i : NodeId) : List Edge :=
  f.edges.filter fun e => e.parent == i

def parent? (f : Forest) (i : NodeId) : Option NodeId :=
  (f.incoming i).head?.map Edge.parent

def children (f : Forest) (i : NodeId) : List NodeId :=
  (Edge.sort (f.outgoing i)).map Edge.child

def childCount (f : Forest) (i : NodeId) : Nat :=
  (f.outgoing i).length

def setChildren (f : Forest) (parent : NodeId) (children : List NodeId) : Forest :=
  { f with
    edges := (Edge.link parent 0 children).reverse ++ f.edges.filter fun e => e.parent != parent }

def splice {α : Type} (items : List α) (i : Nat) (more : List α) : List α :=
  items.take i ++ more ++ items.drop i

def place? (f : Forest) (i : NodeId) : Option (NodeId × Nat) :=
  (f.parent? i).bind fun p => ((f.children p).idxOf? i).map (p, ·)

def detach (f : Forest) (i : NodeId) : Forest :=
  match f.place? i with
  | some (p, at_) => f.setChildren p ((f.children p).eraseIdx at_)
  | none => f

def attach (f : Forest) (i parent : NodeId) (at_ : Option Nat) : Forest :=
  let f := { f with sources := f.sources.filter (· != i) }
  let siblings := f.children parent
  f.setChildren parent (splice siblings (min (at_.getD siblings.length) siblings.length) [i])

def add (f : Forest) (n : Node) (parent : Option NodeId) : Forest × NodeId :=
  let (f, i) := f.store n
  match parent with
  | some p => (f.attach i p none, i)
  | none => ({ f with sources := f.sources ++ [i] }, i)

def setParent (f : Forest) (i parent : NodeId) : Forest :=
  (f.detach i).attach i parent none

def unwrap (f : Forest) (i : NodeId) : Forest :=
  let children := f.children i
  match f.place? i with
  | some (p, at_) =>
    let f := f.detach i
    f.setChildren p (splice (f.children p) at_ children)
  | none =>
    let rest := f.sources.filter (· != i)
    { f with sources := splice rest ((f.sources.idxOf? i).getD rest.length) children }

def remove (f : Forest) (i : NodeId) : Forest :=
  let f := (f.unwrap i).clear i
  { f with outputs := f.outputs.filter fun entry => entry.2 != i }

def adopt (f : Forest) (parent : NodeId) (nodes : List NodeId) : Forest :=
  nodes.foldl (fun f child => f.setParent child parent) f

def absorb (f : Forest) (keep other : NodeId) : Forest :=
  (f.adopt keep (f.children other)).remove other

def release (f : Forest) (i parent : NodeId) : Forest :=
  (f.detach i).adopt parent (f.children i)

/-- Exchanges a node with its parent: the node takes the place of the parent, the parent becomes its
only child, and the children of the node move below the parent. Gives the outcome with the forest
that is left, also when the exchange fails. -/
def exchange (f : Forest) (i : NodeId) : Except Error Unit × Forest :=
  match f.parent? i with
  | none => (.error (.invalidGraph "cannot swap a root with its parent"), f)
  | some p =>
    match f.parent? p with
    | none => (.error (.invalidGraph "cannot swap a node below a root"), f)
    | some grandparent =>
      let f := f.release i p
      match f.place? p with
      | none => (.error (.invalidGraph "parent lost its grandparent"), f)
      | some (_, at_) => (.ok (), ((f.detach p).attach i grandparent (some at_)).attach p i none)

def swapWithParent (f : Forest) (i : NodeId) : Except Error Forest :=
  (f.exchange i).1.map fun _ => (f.exchange i).2

def replaceRoot (f : Forest) (root i : NodeId) : Forest :=
  match f.sources.idxOf? root with
  | some at_ => { f with sources := f.sources.set at_ i }
  | none => f

def insertAbove (f : Forest) (i child : NodeId) : Forest :=
  match f.place? child with
  | some (p, at_) => ((f.detach child).attach i p (some at_)).attach child i none
  | none => (f.replaceRoot child i).attach child i none

def duplicate (f : Forest) (i : NodeId) : Forest × NodeId :=
  match f.node? i with
  | some n =>
    let (n, ids) := n.refresh f.ids
    { f with ids := ids }.store n
  | none => (f, i)

def siblings (f : Forest) (i : NodeId) : List NodeId :=
  match f.parent? i with
  | some p => f.children p
  | none => [i]

/-! ### Outputs -/

def requestCount (f : Forest) (name : String) : Nat :=
  (f.requests.get? name).getD 0

def request (f : Forest) (name : String) : Forest :=
  { f with requests := f.requests.insert name (f.requestCount name + 1) }

def register (f : Forest) (name : String) (i : NodeId) : Forest :=
  { f with outputs := f.outputs.insert name i }

def datasetName? (f : Forest) (name : String) : Option String :=
  (f.outputs.get? name).bind fun i => (f.node? i).bind fun n => n.output?.map Output.source

def freshId (f : Forest) : Forest × Nat :=
  ({ f with ids := f.ids.take.2 }, f.ids.take.1)

end Forest

end ChartPlan.Flow
