import ChartPlan.View.Basic

/-!
# Projections

A unit view has a projection when it declares or inherits one, or shows geographic data. A layer takes
over the projections of its views. Features are kept in signals to which the projection is fitted.
-/

namespace ChartPlan

namespace View

def coordinates? (e : Encoding) (longitude latitude : String) : Option (String × String) := do
  return (← (← e.get? longitude).field, ← (← e.get? latitude).field)

/-- The pairs of channels that hold coordinates, and the positions to which they project. -/
def coordinateChannels : List ((String × String) × (String × String)) :=
  [(("longitude", "latitude"), ("x", "y")), (("longitude2", "latitude2"), ("x2", "y2"))]

def featureField? (e : Encoding) : Option String :=
  (e.get? "shape").bind fun d => if d.type == .geojson then d.field else none

/-- The features of a unit view: of each pair of coordinates, and of the shape channel. -/
def features (v : View) (e : Encoding) : List Flow.GeoJson :=
  let points := coordinateChannels.filterMap fun (channels, _) => coordinates? e channels.1 channels.2
  let signal (i : Nat) : String := v.inner "geojson" ++ "_" ++ toString i
  points.zipIdx.map (fun (pair, i) => ⟨some pair, none, signal i⟩)
    ++ (featureField? e).toList.map fun field => ⟨none, some field, signal points.length⟩

def isGeographic (mark : Mark) (e : Encoding) : Bool :=
  mark.type == "geoshape"
    || ["longitude", "latitude", "longitude2", "latitude2"].any e.has
    || (e.get? "shape").any fun d => d.type == .geojson

end View

namespace Projection

/-- The projection of a unit view, with the properties that it declares or inherits. -/
def ofUnit (v : View) (e : Encoding) (declared : Option Json) : Projection :=
  let props : Split Json := Split.writeAll {} ((declared.bind Json.fields?).getD [])
  let fit := (v.features e).map Flow.GeoJson.signal
  let size := Json.object [("signal", .str "[width, height]")]
  { name := v.inner "projection"
    props := if fit.isEmpty then props else props.set "size" size false
    fit }

def mergeAll : Projection → List Projection → Logged Projection
  | acc, [] => pure acc
  | acc, p :: rest => do
    let props ← Split.merge (fun _ => none) "projection" acc.props p.props
    let fit := p.fit.foldl (fun fit s => if fit.contains s then fit else fit ++ [s]) acc.fit
    mergeAll { acc with props, fit } rest

/-- The signal to which a projection is fitted: one feature, or a list of them. -/
def fitSignal? : List String → Option String
  | [] => none
  | [single] => some single
  | many => some ("[" ++ ", ".intercalate many ++ "]")

def toJson (p : Projection) : Json :=
  (Json.obj (Dict.extend [("name", .str p.name)] p.props.combine)).withField? "fit"
    ((fitSignal? p.fit).map fun s => .object [("signal", .str s)])

end Projection

namespace View

def giveUpProjection (v : View) : View :=
  { v with projectionPart := v.projectionPart.map fun p => { p with merged := true } }

def shareProjections (v : View) (children : List (Tree View)) (renames : Renames) :
    Logged (Tree View × Renames) :=
  match v.isLayer, children.filterMap fun t => t.value.projectionPart with
  | true, first :: rest => do
    let name := v.inner "projection"
    let merged ← Projection.mergeAll first rest
    return (.node { v with projectionPart := some { merged with name, merged := false } }
        (children.map fun t => t.withValue (giveUpProjection t.value)),
      renames.renameAll ((first :: rest).map fun p => (p.name, name)))
  | _, _ => pure (.node v children, renames)

mutual

/-- Makes the projections of a view and of all views below it; a view without a declaration inherits
one. -/
def addProjections (inherited : Option Json) (renames : Renames) :
    Tree View → Logged (Tree View × Renames)
  | .node v children => do
    let declared := v.projection.or inherited
    match v.unit? with
    | some (mark, e) =>
      if declared.isSome || isGeographic mark e then
        return (.node { v with projectionPart := some (Projection.ofUnit v e declared) } children,
          renames)
      else return (.node v children, renames)
    | none =>
      let (children, renames) ← addProjectionsAll declared renames children
      shareProjections v children renames

def addProjectionsAll (inherited : Option Json) (renames : Renames) :
    List (Tree View) → Logged (List (Tree View) × Renames)
  | [] => pure ([], renames)
  | t :: rest => do
    let (t, renames) ← addProjections inherited renames t
    let (rest, renames) ← addProjectionsAll inherited renames rest
    return (t :: rest, renames)

end

/-- Makes the projections of all views; the names of given-up projections are renamed. -/
def withProjections (t : Tree View) : Logged (Tree View × Renames) :=
  addProjections none {} t

end View

end ChartPlan
