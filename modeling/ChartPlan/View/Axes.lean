import ChartPlan.View.Scales

/-!
# Axes

A unit view has an axis for each position scale. A layer or a facet takes over the axes of a channel
that its views share: the axes merge into one, unless the user gave them different sides, in which case
all are kept.
-/

namespace ChartPlan

namespace Axis

def defaultSide (channel : String) : String :=
  if channel == "x" then "bottom" else "left"

def ofDef (channel : String) (d : ChannelDef) (scale : Scale) : Axis :=
  let grid := ScaleType.hasContinuousDomain scale.type && d.type == .quantitative && !d.isBinned
  let inferred := (((({} : Split Json).set "orient" (.str (defaultSide channel)) false).set
    "title" (.str d.defaultTitle) false).set "grid" (.bool grid) false)
  let written := inferred.writeAll ((d.axis.bind Json.fields?).getD [])
  { channel
    scale := scale.name
    props := match d.title with
      | some title => written.set "title" title true
      | none => written }

/-- The axis of a position channel, unless it has no field or no scale, or a null axis. -/
def ofChannel? (v : View) (e : Encoding) (channel : String) : Option Axis := do
  let d ← e.get? channel
  let scale ← v.scales.get? channel
  if d.axis == some .null then none else return ofDef channel d scale

def ofUnit (v : View) (e : Encoding) : Dict (List Axis) :=
  Dict.ofList ((["x", "y"].filterMap (ofChannel? v e)).map fun a => (a.channel, [a]))

def tieBreaker (property : String) : Option TieBreaker :=
  match property with
  | "title" => some mergeTitles
  | "gridScale" | "orient" => some firstDefined
  | _ => none

def onOtherSide (a b : Axis) : Bool :=
  match a.props.explicit.get? "orient", b.props.explicit.get? "orient" with
  | some a, some b => !(a == b)
  | _, _ => false

/-- Merges axes into the first one; none when the user put them on different sides. -/
def mergeInto : Axis → List Axis → Logged (Option Axis)
  | acc, [] => pure (some acc)
  | acc, a :: rest =>
    if acc.onOtherSide a then pure none
    else do
      let props ← Split.merge tieBreaker "axis" acc.props a.props
      mergeInto { acc with props } rest

def mergeAll (axes : List Axis) : Logged (List Axis) :=
  match axes with
  | [] => pure []
  | first :: rest => do
    match ← mergeInto first rest with
    | some merged => return [merged]
    | none => return axes

def toJson (scales : Renames) (a : Axis) : Json :=
  .obj (Dict.extend [("scale", .str (scales.resolve a.scale))] a.props.combine)

end Axis

namespace View

def shareAxis (m : View × List (Tree View)) (channel : String) :
    Logged (View × List (Tree View)) := do
  let (v, children) := m
  if !children.any fun t => t.value.axes.has channel then return m
  if v.sharing "scale" channel == .independent then
    if v.resolve.get? "axis" channel == some .shared then
      Logged.warn ("Setting the \"" ++ channel ++
        "\" axis to independent because its scale is independent.")
    return m
  if v.sharing "axis" channel == .independent then return m
  let axes ← Axis.mergeAll (children.flatMap fun t => (t.value.axes.get? channel).getD [])
  return ({ v with axes := v.axes.insert channel axes },
    mapChildren (fun c => { c with axes := c.axes.erase channel }) children)

def shareAxes (v : View) (children : List (Tree View)) : Logged (Tree View) := do
  if v.isConcat then return .node v children
  let (v, children) ← shareAxis (← shareAxis (v, children) "x") "y"
  return .node v children

mutual

def withAxes : Tree View → Logged (Tree View)
  | .node v children => do
    match v.unit? with
    | some (_, e) => return .node { v with axes := Axis.ofUnit v e } children
    | none => shareAxes v (← withAxesAll children)

def withAxesAll : List (Tree View) → Logged (List (Tree View))
  | [] => pure []
  | t :: rest => do
    let t ← withAxes t
    return t :: (← withAxesAll rest)

end

end View

end ChartPlan
