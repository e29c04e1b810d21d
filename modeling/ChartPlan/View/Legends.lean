import ChartPlan.View.Scales

/-!
# Legends

A unit view has a legend for each scale that is no position scale. A composed view takes over the
legends of a channel that its views share, merged into one.
-/

namespace ChartPlan

namespace Legend

def channels : List String :=
  ["color", "fill", "stroke", "size", "shape", "opacity", "strokeDash"]

def symbolFor (mark : String) : String :=
  if ["line", "rule", "trail"].contains mark then "stroke"
  else if mark == "square" then "square"
  else "circle"

def unfilledMarks : List String :=
  ["point", "line", "rule", "trail"]

def isFilled (mark : Mark) : Bool :=
  ((mark.props.get? "filled").bind Json.bool?).getD
    (!unfilledMarks.contains mark.type)

def scaleKeyOf (channel : String) (mark : Mark) : String :=
  if channel == "color" then if isFilled mark then "fill" else "stroke"
  else channel

def isGradient (channel : String) (d : ChannelDef) (scale : Scale) : Bool :=
  ["color", "fill", "stroke", "opacity"].contains channel
    && ScaleType.hasContinuousDomain scale.type && !d.isBinned

def ofDef (channel : String) (mark : Mark) (d : ChannelDef) (scale : Scale) : Legend :=
  let gradient := isGradient channel d scale
  let inferred := (({} : Split Json).set "type" (.str (if gradient then "gradient" else "symbol"))
    false).set "title" (.str d.defaultTitle) false
  let inferred := if gradient then inferred
    else inferred.set "symbolType" (.str (symbolFor mark.type)) false
  let written := inferred.writeAll ((d.legend.bind Json.fields?).getD [])
  { channel
    scaleKey := scaleKeyOf channel mark
    scale := scale.name
    props := match d.title with
      | some title => written.set "title" title true
      | none => written }

/-- The legend of a channel, unless it has no field or no scale, or a null legend. -/
def ofChannel? (v : View) (mark : Mark) (e : Encoding) (channel : String) : Option Legend := do
  let d ← e.get? channel
  let scale ← v.scales.get? channel
  if d.legend == some .null then none else return ofDef channel mark d scale

def ofUnit (v : View) (mark : Mark) (e : Encoding) : Dict Legend :=
  Dict.ofList ((channels.filterMap (ofChannel? v mark e)).map fun l => (l.channel, l))

def tieBreaker (property : String) : Option TieBreaker :=
  match property with
  | "title" => some mergeTitles
  | "symbolType" => some preferCircle
  | _ => none

def mergeInto : Legend → List Legend → Logged Legend
  | acc, [] => pure acc
  | acc, l :: rest => do
    let props ← Split.merge tieBreaker "legend" acc.props l.props
    mergeInto { acc with props } rest

def toJson (scales : Renames) (l : Legend) : Json :=
  .obj (Dict.extend [(l.scaleKey, .str (scales.resolve l.scale))] l.props.combine)

end Legend

namespace View

def shareLegend (m : View × List (Tree View)) (channel : String) :
    Logged (View × List (Tree View)) := do
  let (v, children) := m
  if v.sharing "scale" channel == .independent || v.sharing "legend" channel == .independent then
    return m
  match children.filterMap fun t => t.value.legends.get? channel with
  | [] => return m
  | first :: rest =>
    let merged ← Legend.mergeInto first rest
    return ({ v with legends := v.legends.insert channel merged },
      mapChildren (fun c => { c with legends := c.legends.erase channel }) children)

def shareLegends : List String → View × List (Tree View) → Logged (Tree View)
  | [], (v, children) => pure (.node v children)
  | channel :: rest, m => do shareLegends rest (← shareLegend m channel)

mutual

def withLegends : Tree View → Logged (Tree View)
  | .node v children => do
    match v.unit? with
    | some (mark, e) => return .node { v with legends := Legend.ofUnit v mark e } children
    | none => shareLegends Legend.channels (v, ← withLegendsAll children)

def withLegendsAll : List (Tree View) → Logged (List (Tree View))
  | [] => pure []
  | t :: rest => do
    let t ← withLegends t
    return t :: (← withLegendsAll rest)

end

end View

end ChartPlan
