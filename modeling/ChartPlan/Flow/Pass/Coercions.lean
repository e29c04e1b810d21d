import ChartPlan.Flow.Pass.Progress

/-!
# Moving coercions

Coercions move towards the source past nodes that do not write the coerced fields, and coercions that
siblings share are done once above them.
-/

namespace ChartPlan.Flow

def mayWrite (n : Node) (fields : NameSet) : Bool :=
  match n.produced? with
  | some produced => !produced.disjoint fields
  | none => true

def raiseCoercion (p : Progress) (i : NodeId) : Except Failure (Step × Progress) :=
  match p.forest.node? i, p.forest.parent? i with
  | some (.parse _), none => .ok (.stop, p)
  | some (.parse c), some above =>
    if p.forest.holds above Node.isDataSource then .ok (.stop, p)
    else if 1 < p.forest.childCount above then .ok (.parent, p)
    else
      match p.forest.node? above with
      | some (.parse target) =>
        let merged := target.merge c
        let f := (p.forest.setNode above (.parse merged.value)).remove i
        .ok (.visit above, { p.change f with notes := p.notes ++ merged.notes })
      | some n =>
        if mayWrite n c.fields then .ok (.parent, p)
        else (p.swapUp i).map fun p => (.visit i, p)
      | none => .ok (.parent, p)
  | _, _ => .ok (.parent, p)

def moveParseUp (f : Forest) : Attempt :=
  (Climb.ofVisit raiseCoercion).run f

/-- The coercions of several nodes, the first of each field, and the fields on which they differ. -/
def gatherKinds (nodes : List Coercion) : Dict String × List String :=
  (nodes.flatMap Coercion.kinds).foldl (fun (common, conflicting) (field, kind) =>
    match common.get? field with
    | none => (common.insert field kind, conflicting)
    | some known => (common, if known == kind then conflicting else conflicting ++ [field])) ([], [])

def siblingNote (field : String) : Note :=
  ⟨.warn, "Field \"" ++ field ++
    "\" is parsed differently by sibling views; each keeps its own parse.", true⟩

/-- The coercions on which several nodes agree, and notes on those on which they do not. -/
def sharedKinds (nodes : List Coercion) : Logged (Dict String) :=
  let (common, conflicting) := gatherKinds nodes
  conflicting.foldl (fun acc field =>
    if acc.value.has field then ⟨acc.value.erase field, acc.notes ++ [siblingNote field]⟩
    else acc) ⟨common, []⟩

/-- Moves a node below a coercion that does part of its work; a coercion with nothing left is
removed. -/
def moveBelow (merged : NodeId) (common : Dict String) (f : Forest) (child : NodeId) : Forest :=
  let f := f.setParent child merged
  match f.node? child with
  | some (.parse c) =>
    let rest : Coercion := ⟨c.kinds.filter fun entry => !common.has entry.1⟩
    if rest.kinds.isEmpty then f.remove child else f.setNode child (.parse rest)
  | _ => f

def hoistCoercions (p : Progress) (i : NodeId) : Except Failure (Step × Progress) :=
  match p.forest.parent? i with
  | none => .ok (.stop, p)
  | some above =>
    let children := p.forest.children above
    let nodes := children.filterMap fun c => (p.forest.node? c).bind Node.parse?
    if children.length ≤ 1 || nodes.isEmpty then .ok (.parent, p)
    else
      let common := sharedKinds nodes
      let p := { p with notes := p.notes ++ common.notes }
      if common.value.isEmpty then .ok (.parent, p)
      else
        let (f, merged) := p.forest.add (.parse ⟨common.value⟩) (some above)
        .ok (.parent, p.change (children.foldl (moveBelow merged common.value) f))

def mergeParse (f : Forest) : Attempt :=
  (Climb.ofVisit hoistCoercions).run f

end ChartPlan.Flow
