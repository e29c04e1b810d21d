import ChartPlan.Chart.View
import ChartPlan.Flow.Forest
import ChartPlan.Property.Merge
import ChartPlan.View.Stacking

/-!
# Views

A view of the chart under its final name, with the components that are made for it: data, scales,
axes, legends, a projection and selections.

* `View.build`: the named views of a chart.
* `View.sharing`: how views below a view share a component.
-/

namespace ChartPlan

/-! ### Components -/

/-- A scale of a channel. -/
structure Scale where
  name : String
  channel : String
  props : Split Json
  /-- A view above has taken the scale over. -/
  merged : Bool := false

/-- An axis of a position channel. -/
structure Axis where
  channel : String
  /-- The scale of the view for which the axis was made. -/
  scale : String
  props : Split Json

/-- A legend of a channel. -/
structure Legend where
  channel : String
  /-- The property that names the scale. -/
  scaleKey : String
  scale : String
  props : Split Json

/-- A map projection. -/
structure Projection where
  name : String
  props : Split Json
  /-- The signals of the features to which the projection is fitted. -/
  fit : List String
  /-- A view above has taken the projection over. -/
  merged : Bool := false

/-- A selection in a unit view. -/
structure SelectionPart where
  name : String
  type : SelectionType
  /-- The fields by which rows are selected. -/
  project : List String
  init : Option Json

/-- The coercions that were done above a view, so that they are neither repeated nor contradicted. -/
structure KnownKinds where
  kinds : Split String := {}
  /-- Nothing is coerced: rows are generated, or the user refused it. -/
  off : Bool := false

/-- Where the data of a view is in the dataflow. -/
structure DataPart where
  /-- The main output of the view. -/
  main : Flow.NodeId
  /-- The facet from which the views below go on. -/
  facet : Option Flow.NodeId
  known : KnownKinds

/-- A view with its components. -/
structure View where
  name : String
  data : DataSetting
  transforms : List Transform
  params : List Param
  resolve : Resolve
  projection : Option Json
  title : Option Json
  body : Body
  /-- How the marks of a unit view are stacked. -/
  stack : Option Stacking := none
  dataPart : Option DataPart := none
  scales : Dict Scale := []
  /-- Several axes of a channel stay when they cannot become one. -/
  axes : Dict (List Axis) := []
  legends : Dict Legend := []
  projectionPart : Option Projection := none
  selections : List SelectionPart := []

/-! ### Names -/

def nameIn (view text : String) : String :=
  if view.isEmpty then nameOf text else nameOf (view ++ "_" ++ text)

namespace View

def inner (v : View) (text : String) : String :=
  nameIn v.name text

def isLayer (v : View) : Bool :=
  match v.body with
  | .layer => true
  | _ => false

def isFacet (v : View) : Bool :=
  match v.body with
  | .facet _ => true
  | _ => false

def isConcat (v : View) : Bool :=
  match v.body with
  | .concat => true
  | _ => false

def unit? (v : View) : Option (Mark × Encoding) :=
  match v.body with
  | .unit mark encoding => some (mark, encoding)
  | _ => none

/-- How the views below share a component of a channel. Concatenated views have position scales of
their own unless told otherwise. -/
def sharing (v : View) (kind channel : String) : Sharing :=
  match v.resolve.get? kind channel with
  | some sharing => sharing
  | none => if v.isConcat && Channel.isPosition channel then .independent else .shared

def childName (body : Body) (parent : String) (i : Nat) : String :=
  match body with
  | .facet _ => nameIn parent "child"
  | .layer => nameIn parent ("layer_" ++ toString i)
  | _ => nameIn parent ("concat_" ++ toString i)

def stackOf : Body → Checked (Option Stacking)
  | .unit mark encoding => Stacking.ofEncoding mark.type encoding
  | _ => pure none

def ofSpec (s : ViewSpec) (name : String) (stack : Option Stacking) : View where
  name := name
  data := s.data
  transforms := s.transforms
  params := s.params
  resolve := s.resolve
  projection := s.projection
  title := s.title
  body := s.body
  stack := stack

mutual

def buildNamed (given : String) : Chart → Checked (Tree View)
  | .node s children => do
    let name := (s.name.map nameOf).getD given
    let stack ← stackOf s.body
    return .node (ofSpec s name stack) (← buildAll (childName s.body name) 0 children)

def buildAll (names : Nat → String) : Nat → List Chart → Checked (List (Tree View))
  | _, [] => pure []
  | i, c :: rest => do
    let t ← buildNamed (names i) c
    return t :: (← buildAll names (i + 1) rest)

end

def build (chart : Chart) : Checked (Tree View) :=
  buildNamed "" chart

end View

end ChartPlan
