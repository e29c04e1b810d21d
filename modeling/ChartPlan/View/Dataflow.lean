import ChartPlan.Flow.Roots
import ChartPlan.View.Branch
import ChartPlan.View.Preparation

/-!
# The dataflow of views

The data of a view comes from its data block or from the view around it. On the way to the main output
of the view stand the coercions that the user asks for, the transforms, and what the encoding needs;
the raw output is taken before rows are aggregated.

* `View.withData`: the dataflow of all views.
-/

namespace ChartPlan

/-- What the dataflow depends on beside the view. -/
structure DataContext where
  config : Config
  /-- The projections that were given up. -/
  projections : Renames
  /-- The names of all selections. -/
  selections : NameSet
  /-- Whether some selection needs numbered rows. -/
  rowIds : Bool

/-! ### Transforms -/

namespace Transform

def resultKind : Transform → String
  | .bin _ _ _ _ | .aggregate _ _ | .joinAggregate _ _ | .window _ => "number"
  | .timeUnit _ _ _ => "date"
  | _ => "derived"

def neededKinds (known : KnownKinds) : Transform → Dict String
  | .filter condition => condition.implicitParse
  | .timeUnit _ field _ => if (known.kind? field).isNone then [(field, "date")] else []
  | _ => []

def skipWarning : Transform → String
  | .bin _ field _ _ => "Ignoring bin transform on \"" ++ field ++ "\" that does not bin."
  | .timeUnit unit _ _ => "Ignoring invalid time unit " ++ unit.toText ++ "."
  | _ => ""

def isAggregate : Transform → Bool
  | .aggregate _ _ => true
  | _ => false

end Transform

namespace Branch

def identify (b : Branch) : Branch :=
  b.push .identifier

/-- Makes the rows of a lookup available as an output, which does not move the tip. -/
def lookupSource (b : Branch) (data : Json) (name : String) : Except Error Branch := do
  match ← DataSetting.read (some data) with
  | .block data =>
    let (forest, tip) := b.forest.root (.ofBlock data)
    let side : Branch := { forest, tip, known := {} }
    let side := match data.parse with
      | .given kinds => side.push (.parse ⟨kinds⟩)
      | _ => side
    return { b with forest := ((side.output name .lookup).request name).forest }
  | _ => .error (.invalidSpec "transform.lookup.from.data" "expected a data source")

/-- Finds the output in which a transform searches; `lookups` counts the data blocks met. -/
def secondary (context : DataContext) (v : View) (b : Branch) (lookups : Nat) :
    Transform → Except Error (Branch × Nat × String)
  | .lookup _ target _ _ =>
    match target.data, target.param with
    | some data, _ => do
      let name := v.inner ("lookup_" ++ toString lookups)
      return (← b.lookupSource data name, lookups + 1, name)
    | none, some param =>
      if context.selections.contains param then .ok (b, lookups, param ++ "_store")
      else .error (.invalidSpec "transform.lookup.from.param"
        ("undefined selection \"" ++ param ++ "\""))
    | none, none =>
      .error (.invalidSpec "transform.lookup.from" "lookup requires data or a param")
  | _ => .ok (b, lookups, "")

def transform (context : DataContext) (v : View) (b : Branch) (lookups : Nat) (t : Transform) :
    Checked (Branch × Nat) := do
  let (b, lookups, secondary) ← Checked.ofExcept (b.secondary context v lookups t)
  match Flow.Node.ofTransform? (Bin.signalStem v.name) secondary t with
  | none =>
    Checked.warn t.skipWarning
    return (b, lookups)
  | some node =>
    let b ← Checked.ofLogged (b.coerce [] (t.neededKinds b.known))
    let b := b.pushKnown node t.resultKind
    return (if t.isAggregate && context.rowIds then b.identify else b, lookups)

def transforms (context : DataContext) (v : View) : Branch → Nat → List Transform → Checked Branch
  | b, _, [] => pure b
  | b, lookups, t :: rest => do
    let (b, lookups) ← b.transform context v lookups t
    transforms context v b lookups rest

end Branch

namespace View

/-! ### Roots -/

/-- The data above a view. -/
structure Above where
  part : DataPart
  /-- Whether the view above is a layer. -/
  isLayer : Bool

def rootOf (v : View) (above : Option Above) (f : Flow.Forest) : Flow.Forest × Flow.NodeId :=
  match v.data, above with
  | .empty, _ => f.add (.source .empty) none
  | .block data, _ => f.root (.ofBlock data)
  | .inherit, some above => (f, above.part.facet.getD above.part.main)
  | .inherit, none => f.root (.source (.named "source"))

def hasNewData (v : View) : Bool :=
  match v.data with
  | .inherit => false
  | .empty => true
  | .block data => !data.isNamed

def knownAbove (v : View) (above : Option Above) : KnownKinds :=
  match above with
  | some above => if v.hasNewData then {} else above.part.known
  | none => {}

/-- The beginning of the branch of a view: its root, and the coercions that its data block asks for. -/
def startBranch (v : View) (above : Option Above) (f : Flow.Forest) : Logged Branch :=
  let (forest, tip) := v.rootOf above f
  let b : Branch := { forest, tip, known := v.knownAbove above }
  match v.data with
  | .block data =>
    match data.isGenerator, data.parse with
    | true, _ | _, .off => pure { b with known := { b.known with off := true } }
    | false, .given kinds => b.coerce kinds []
    | false, .inferred => pure b
  | _ => pure b

/-! ### One view -/

/-- What the encoding of a unit view computes between the raw and the main output. -/
def refine (context : DataContext) (v : View) (mark : Mark) (e : Encoding) (b : Branch) : Branch :=
  let b := match v.aggregate? e with
    | some a =>
      let b := b.push (.aggregate a)
      if context.rowIds then b.identify else b
    | none => b
  let b := b.push? ((impute? e).map .impute)
  let b := b.push? ((v.stackNode? e).map .stack)
  b.push? ((v.validFilter? context.config mark e).map .filterInvalid)

/-- The branch of a view up to its main output. Bins of layered views are computed before transforms,
where those of the other layers are. -/
def grow (context : DataContext) (v : View) (above : Option Above) (f : Flow.Forest) :
    Checked Branch := do
  let layered := above.any Above.isLayer
  let b := (← Checked.ofLogged (v.startBranch above f)).identify
  let b := if layered then b.push? v.binNode? else b
  let b ← b.transforms context v 0 v.transforms
  let b ← Checked.ofLogged (b.coerce [] v.neededKinds)
  let b := match v.unit? with
    | some (_, e) => b.pushAll (v.geoNodes context.projections e)
    | none => b
  let b := if layered then b else b.push? v.binNode?
  let b := (b.push? v.timeUnitNode?).pushAll v.sortNodes
  let b := b.output (v.inner "raw") .raw
  let b := match v.unit? with
    | some (mark, e) => v.refine context mark e b
    | none => b
  let b := b.output (v.inner "main") .main
  return if v.unit?.isSome then b.request (v.inner "main") else b

def addFacet (v : View) (child : Option View) (b : Branch) :
    Logged (Flow.Forest × Option Flow.NodeId) :=
  match v.body with
  | .facet mapping => do
    let (forest, id) := b.forest.freshId
    let facet ← v.facetNode mapping child id
    let (forest, i) := forest.add (.facet facet) (some b.tip)
    return ((forest.request (v.inner "main")).register facet.name i, some i)
  | _ => pure (b.forest, none)

def addData (context : DataContext) (v : View) (child : Option View) (above : Option Above)
    (f : Flow.Forest) : Checked (DataPart × Flow.Forest) := do
  let b ← v.grow context above f
  let (forest, facet) ← Checked.ofLogged (v.addFacet child b)
  return ({ main := b.tip, facet, known := b.known }, forest)

/-! ### All views -/

mutual

def buildData (context : DataContext) (above : Option Above) (f : Flow.Forest) :
    Tree View → Checked (Tree View × Flow.Forest)
  | .node v children => do
    let (part, f) ← v.addData context (children.head?.map Tree.value) above f
    let (children, f) ← buildDataAll context (some ⟨part, v.isLayer⟩) f children
    return (.node { v with dataPart := some part } children, f)

def buildDataAll (context : DataContext) (above : Option Above) (f : Flow.Forest) :
    List (Tree View) → Checked (List (Tree View) × Flow.Forest)
  | [] => pure ([], f)
  | t :: rest => do
    let (t, f) ← buildData context above f t
    let (rest, f) ← buildDataAll context above f rest
    return (t :: rest, f)

end

def withData (context : DataContext) (t : Tree View) : Checked (Tree View × Flow.Forest) :=
  buildData context none {} t

end View

end ChartPlan
