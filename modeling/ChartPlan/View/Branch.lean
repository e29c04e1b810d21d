import ChartPlan.View.Basic

/-!
# Branches of the dataflow

The dataflow of a view grows node by node at the end of a branch. A branch knows which fields were
coerced above its end, so that a coercion is not repeated, and an inferred one never overrides what
the user or a transform decided.
-/

namespace ChartPlan

namespace KnownKinds

def kind? (k : KnownKinds) (field : String) : Option String :=
  k.kinds.get? field

def learn (k : KnownKinds) (field kind : String) (explicit : Bool) : KnownKinds :=
  { k with kinds := k.kinds.set field kind explicit }

def learnAll (k : KnownKinds) (kinds : Dict String) (explicit : Bool) : KnownKinds :=
  kinds.foldl (fun k entry => k.learn entry.1 entry.2 explicit) k

def conflictNote (field kind known : String) : Note :=
  ⟨.warn, "Conflicting parse for field \"" ++ field ++ "\": \"" ++ kind ++ "\" vs. \"" ++ known ++
    "\" parsed by an ancestor. Using \"" ++ kind ++ "\".", false⟩

def lacks (k : KnownKinds) (field kind : String) : Bool :=
  k.kind? field != some kind

/-- Whether an inferred coercion is still to be done: the kind of the field must not be decided. -/
def allows (k : KnownKinds) (field kind : String) : Bool :=
  match k.kinds.setting? field with
  | none => true
  | some known =>
    !(known.explicit || known.value == kind || known.value == "derived" || kind == "flatten")

/-- The coercions still to be done, and notes on those that contradict known kinds. -/
def pending (k : KnownKinds) (due : String → String → Bool) (kinds : Dict String) :
    Logged (Dict String) :=
  let rest := kinds.filter fun entry => due entry.1 entry.2
  ⟨rest, rest.filterMap fun (field, kind) => (k.kind? field).map (conflictNote field kind)⟩

end KnownKinds

/-- The end of a growing branch of the dataflow. -/
structure Branch where
  forest : Flow.Forest
  /-- The node below which the branch grows. -/
  tip : Flow.NodeId
  known : KnownKinds

namespace Branch

def push (b : Branch) (n : Flow.Node) : Branch :=
  let (forest, tip) := b.forest.add n (some b.tip)
  { b with forest, tip }

def push? (b : Branch) (n : Option Flow.Node) : Branch :=
  match n with
  | some n => b.push n
  | none => b

def pushAll (b : Branch) (nodes : List Flow.Node) : Branch :=
  nodes.foldl push b

def coerce (b : Branch) (explicit implicit : Dict String) : Logged Branch := do
  let explicit ← b.known.pending b.known.lacks explicit
  let implicit ← b.known.pending b.known.allows implicit
  let b := { b with known := (b.known.learnAll explicit true).learnAll implicit false }
  let kinds := Split.combine ⟨explicit, implicit⟩
  return if kinds.isEmpty || b.known.off then b else b.push (.parse ⟨kinds⟩)

def pushKnown (b : Branch) (n : Flow.Node) (kind : String) : Branch :=
  let b := b.push n
  { b with known := (n.produced?.getD []).foldl (fun k field => k.learn field kind false) b.known }

def output (b : Branch) (name : String) (kind : Flow.OutputKind) : Branch :=
  let (forest, id) := b.forest.freshId
  let b := { b with forest }.push (.output (.fresh name kind id))
  { b with forest := b.forest.register name b.tip }

def request (b : Branch) (name : String) : Branch :=
  { b with forest := b.forest.request name }

end Branch

end ChartPlan
