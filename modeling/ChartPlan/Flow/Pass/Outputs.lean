import ChartPlan.Flow.Pass.Progress

/-!
# Chaining outputs

Sibling outputs are put into a chain and their siblings below its end, so that a fork with outputs
gives one dataset instead of several copies.
-/

namespace ChartPlan.Flow

/-- The end of a chain of outputs that are only children, after at most `fuel` links. -/
def chainEnd (f : Forest) : Nat → NodeId → NodeId
  | 0, i => i
  | fuel + 1, i =>
    match f.children i with
    | [only] => if f.holds only Node.isOutput then chainEnd f fuel only else i
    | _ => i

/-- A chain of outputs in the making. -/
structure Chain where
  progress : Progress
  /-- The last output of the chain. -/
  last : Option NodeId := none
  /-- The nodes that go below the chain. -/
  others : List NodeId := []

/-- Puts an output with the outputs below it behind the chain; other nodes wait. -/
def Chain.add (c : Chain) (i : NodeId) : Chain :=
  let f := c.progress.forest
  if f.holds i Node.isOutput then
    let last := chainEnd f f.slots.length i
    let others := c.others ++ f.children last
    match c.last with
    | some before => ⟨c.progress.change (f.setParent i before), some last, others⟩
    | none => ⟨c.progress, some last, others⟩
  else { c with others := c.others ++ [i] }

def moveToEnd (last : NodeId) (p : Progress) (i : NodeId) : Progress :=
  if p.forest.parent? i == some last then p else p.change (p.forest.setParent i last)

def chainOutputs (p : Progress) (i : NodeId) : Except Failure (Step × Progress) :=
  match p.forest.parent? i with
  | none => .ok (.stop, p)
  | some above =>
    let children := p.forest.children above
    if children.length ≤ 1 || !children.any fun c => p.forest.holds c Node.isOutput then
      .ok (.parent, p)
    else
      let chain := children.foldl Chain.add { progress := p }
      match chain.last with
      | some last => .ok (.parent, chain.others.foldl (moveToEnd last) chain.progress)
      | none => .ok (.parent, chain.progress)

def mergeOutputs (f : Forest) : Attempt :=
  (Climb.ofVisit chainOutputs).run f

end ChartPlan.Flow
