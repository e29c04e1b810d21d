import ChartPlan.Flow.Traversal

/-!
# Passes over the forest

A pass takes a forest to a forest and tells whether it changed anything. A pass that fails keeps what
it had done so far.

* `Climb`: a pass that starts at each leaf and walks towards the root.
* `dropWhere`: a pass that walks from the roots and removes nodes.
-/

namespace ChartPlan.Flow

/-- A forest, whether it was changed, and what there is to say about it. -/
structure Progress where
  forest : Forest
  changed : Bool := false
  notes : List Note := []

/-- An error and what was done before it arose. -/
structure Failure where
  error : Error
  progress : Progress

abbrev Attempt := Except Failure Progress

namespace Progress

def follow (p later : Progress) : Progress :=
  { forest := later.forest, changed := p.changed || later.changed, notes := p.notes ++ later.notes }

def andThen (p : Progress) (pass : Forest → Attempt) : Attempt :=
  match pass p.forest with
  | .ok q => .ok (p.follow q)
  | .error e => .error { e with progress := p.follow e.progress }

def change (p : Progress) (f : Forest) : Progress :=
  { p with forest := f, changed := true }

def swapUp (p : Progress) (i : NodeId) : Attempt :=
  match p.forest.exchange i with
  | (.ok _, f) => .ok (p.change f)
  | (.error e, f) => .error ⟨e, { p with forest := f }⟩

def checked (p : Progress) : Attempt :=
  match p.forest.check with
  | .ok _ => .ok p
  | .error e => .error ⟨e, p⟩

end Progress

/-! ### Walking up -/

/-- Where a walk goes after a visit. -/
inductive Step where
  | stop
  /-- To the parent that the node had before the visit. -/
  | parent
  | visit (i : NodeId)

/-- A pass that starts at each leaf and walks towards the root, with a memory for each walk. -/
structure Climb (σ : Type) where
  start : σ
  visit : σ → Progress → NodeId → Except Failure (Step × σ × Progress)

namespace Climb

variable {σ : Type}

def ofVisit (visit : Progress → NodeId → Except Failure (Step × Progress)) : Climb Unit where
  start := ()
  visit _ p i := (visit p i).map fun (step, p) => (step, (), p)

/-- Walks up from a node for at most `fuel` visits. A walk ends at a data source. -/
def walk (c : Climb σ) : Nat → σ → Progress → NodeId → Attempt
  | 0, _, p, _ => .ok p
  | fuel + 1, memory, p, i =>
    if !p.forest.contains i || p.forest.holds i Node.isDataSource then .ok p
    else
      let above := p.forest.parent? i
      match c.visit memory p i with
      | .error e => .error e
      | .ok (.stop, _, p) => .ok p
      | .ok (.visit j, memory, p) => c.walk fuel memory p j
      | .ok (.parent, memory, p) =>
        match above with
        | some a => c.walk fuel memory p a
        | none => .ok p

/-- A bound on the visits of a walk. A visit that does not move towards the root lifts a node over
another one or removes a node; there are at most as many such lifts as pairs of nodes. -/
def bound (f : Forest) : Nat :=
  Nat.pow (f.slots.length + 2) 3

def run (c : Climb σ) (f : Forest) : Attempt :=
  f.leaves.foldlM (fun p leaf => c.walk (bound p.forest) c.start p leaf) { forest := f }

end Climb

/-! ### Walking down -/

def dropNode (doomed : Forest → NodeId → Bool) (p : Progress) (i : NodeId) : Progress :=
  if doomed p.forest i then p.change (p.forest.remove i) else p

/-- Removes the nodes that meet a condition when they are reached from the roots. -/
def dropWhere (doomed : Forest → NodeId → Bool) (f : Forest) : Progress :=
  f.sources.foldl (fun p root =>
    if p.forest.contains root then
      (p.forest.subtree root).foldl (dropNode doomed) p
    else p) { forest := f }

end ChartPlan.Flow
