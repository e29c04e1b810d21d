import ChartPlan.Config
import ChartPlan.View.Basic
import ChartPlan.View.Reference
import ChartPlan.View.ScaleType

/-!
# Scales

A unit view has a scale for every channel with a field. Views above take over the scales of a channel
that their views share: the properties merge, and the given-up scales are renamed to the merged one.
Types that cannot share a scale make the channel independent.

* `Scale.ofDef`: the scale of a channel of a unit view.
* `View.withScales`: the scales of all views.
-/

namespace ChartPlan

namespace Scale

def type (s : Scale) : String :=
  ((s.props.get? "type").bind Json.text?).getD "linear"

def domainField? (s : Scale) : Option String :=
  (s.props.get? "domain").bind fun domain => domain.textField? "field"

/-! ### Defaults -/

def timeType (d : ChannelDef) : String :=
  if d.timeUnit.any TimeUnit.utc then "utc" else "time"

def bandMarks : List String :=
  ["bar", "rect", "image", "rule", "tick"]

def isColor (channel : String) : Bool :=
  ["color", "fill", "stroke"].contains channel

def positionType (d : ChannelDef) (mark : String) : String :=
  if d.type.isDiscrete then if bandMarks.contains mark then "band" else "point"
  else if d.type == .temporal then timeType d
  else "linear"

def colorType (d : ChannelDef) : String :=
  match d.type with
  | .nominal | .ordinal => "ordinal"
  | .temporal => timeType d
  | _ => if d.binParams?.isSome then "bin-ordinal" else "linear"

def defaultType (channel : String) (d : ChannelDef) (mark : String) : String :=
  if Channel.isPosition channel then positionType d mark
  else if ["theta", "radius"].contains channel && d.type.isDiscrete then "band"
  else if ["shape", "strokeDash"].contains channel then "ordinal"
  else if isColor channel then colorType d
  else if d.type.isDiscrete then "point"
  else if d.type == .temporal then timeType d
  else "linear"

def signal (expr : String) : Json :=
  .object [("signal", .str expr)]

def colorRange (d : ChannelDef) : String :=
  match d.type with
  | .nominal => "category"
  | .ordinal => "ordinal"
  | _ => "ramp"

def defaultRange? (channel type : String) (d : ChannelDef) (config : Config) : Option Json :=
  if Channel.isPosition channel && ScaleType.hasDiscreteDomain type then
    some (.object [("step", .real config.discreteStep)])
  else if isColor channel then some (.str (colorRange d))
  else if ["opacity", "fillOpacity", "strokeOpacity"].contains channel then
    some (.arr [.real config.minOpacity, .real config.maxOpacity])
  else
    match channel with
    | "x" => some (.arr [.nat 0, signal "width"])
    | "y" => some (.arr [signal "height", .nat 0])
    | "theta" => some (.arr [.nat 0, .real Binary64.tau])
    | "radius" => some (.arr [.nat 0, signal "min(width,height)/2"])
    | "size" => some (.arr [.nat 0, .real config.maxSize])
    | "shape" => some (.str "symbol")
    | _ => none

def dataRef (data field : String) : Json :=
  .object [("data", .str data), ("field", .str field)]

def domainSort? (d : ChannelDef) : Option Json :=
  match d.sort with
  | some .null => none
  | some (.arr _) => some (.object [("op", .str "min"), ("field", .str d.sortIndexName)])
  | some (.str "descending") => some (.object [("order", .str "descending")])
  | _ => some (.bool true)

/-- The fields that make a continuous domain: both ends of a stack or of a ranged mark. -/
def domainFields (v : View) (e : Encoding) (channel : String) (d : ChannelDef) : List String :=
  if v.stack.any fun s => s.channel == channel then
    [d.outputName ++ "_start", d.outputName ++ "_end"]
  else d.outputName :: ((e.get? (channel ++ "2")).map ChannelDef.outputName).toList

def binSignal? (v : View) (d : ChannelDef) : Option String :=
  match d.aggregate, d.binParams?, d.field with
  | none, some params, some field => some (Bin.signal v.name params field)
  | _, _, _ => none

def dataDomain (v : View) (e : Encoding) (channel : String) (d : ChannelDef) : Json :=
  match (domainFields v e channel d).map (dataRef (v.inner "main")) with
  | [only] => only
  | refs => .object [("fields", .arr refs)]

def defaultDomain (v : View) (e : Encoding) (channel : String) (d : ChannelDef) (type : String) :
    Json :=
  match binSignal? v d, ScaleType.hasContinuousDomain type with
  | some bins, true => signal ("[" ++ bins ++ ".start, " ++ bins ++ ".stop]")
  | _, _ =>
    if ScaleType.hasDiscreteDomain type then
      (dataRef (v.inner "main") d.outputName).withField? "sort" (domainSort? d)
    else dataDomain v e channel d

/-! ### Scales of unit views -/

/-- The properties that the user writes; an unaggregated domain is not supported and is left out. -/
def written (d : ChannelDef) : Split Json :=
  match d.scale with
  | some (.obj fields) =>
    Split.writeAll {} (fields.filter fun (key, v) => !(key == "domain" && v == .str "unaggregated"))
  | _ => {}

def zeroChannels : List String :=
  ["x", "y", "size", "theta", "radius"]

def inferWhen (condition : Bool) (key : String) (value : Json) (props : Split Json) : Split Json :=
  if condition then props.infer key value else props

def inferSome (key : String) (value : Option Json) (props : Split Json) : Split Json :=
  match value with
  | some value => props.infer key value
  | none => props

def typed (channel : String) (d : ChannelDef) (mark : String) (props : Split Json) :
    Split Json × String :=
  match (props.get? "type").bind Json.text? with
  | some type => (props, type)
  | none =>
    let type := defaultType channel d mark
    (props.set "type" (.str type) false, type)

def ofDef (config : Config) (v : View) (mark : Mark) (e : Encoding) (d : ChannelDef) : Scale :=
  let channel := d.channel
  let position := Channel.isPosition channel
  let (props, type) := typed channel d mark.type (written d)
  let props := props.infer "domain" (defaultDomain v e channel d type)
  let props := if props.has "scheme" then props
    else inferSome "range" (defaultRange? channel type d config) props
  let binned := d.isBinned && d.aggregate.isNone
  let fromZero := type == "linear" && !binned && !props.explicit.has "domain"
    && zeroChannels.contains channel
  let props := inferWhen fromZero "zero" (.bool true) props
  let props := inferWhen (position && ScaleType.hasContinuousDomain type && !binned)
    "nice" (.bool true) props
  let props := inferSome "bins" (if position then (binSignal? v d).map signal else none) props
  let props := inferWhen (type == "point" && position) "padding" (.real (.nearest 1 2)) props
  let props := inferWhen (type == "band") "paddingInner" (.real (.nearest 1 10)) props
  { name := v.inner channel, channel, props }

/-- The scale of a channel, unless it has no field, a null scale, or shows features. -/
def ofChannel? (config : Config) (v : View) (mark : Mark) (e : Encoding) (channel : String) :
    Option Scale :=
  (e.get? channel).bind fun d =>
    if d.scale == some .null || d.type == .geojson then none
    else some (ofDef config v mark e d)

def ofUnit (config : Config) (v : View) (mark : Mark) (e : Encoding) : Dict Scale :=
  Dict.ofList ((Channel.scaled.filterMap (ofChannel? config v mark e)).map fun s => (s.channel, s))

/-! ### Merging -/

def tieBreaker (property : String) : Option TieBreaker :=
  match property with
  | "domain" => some uniteDomains
  | "range" => some largerStep
  | "type" => some ScaleType.prefer
  | _ => none

def compatible : List Scale → Bool
  | a :: b :: rest => ScaleType.compatible a.type b.type && compatible (b :: rest)
  | _ => true

def mergeProperty (property : String) :
    List Scale → Option (Setting Json) → Logged (Option (Setting Json))
  | [], acc => pure acc
  | s :: rest, acc => do
    mergeProperty property rest
      (← Setting.mergeNoted (tieBreaker property) "scale" property acc (s.props.setting? property))

def mergeProperties (scales : List Scale) : List String → Split Json → Logged (Split Json)
  | [], acc => pure acc
  | property :: rest, acc => do
    match ← mergeProperty property scales none with
    | some setting => mergeProperties scales rest (acc.put property setting)
    | none => mergeProperties scales rest acc

def mergeAll (scales : List Scale) : Logged (Split Json) :=
  mergeProperties scales (NameSet.ofList (scales.flatMap fun s => s.props.keys)) {}

/-! ### Written form -/

def toJson (signals : Renames) (dataset? : String → Option String) (s : Scale) : Json :=
  Reference.resolveData dataset? (Reference.resolveSignals signals
    (.obj (Dict.extend [("name", .str s.name)] s.props.combine)))

end Scale

namespace View

/-- A composed view whose components are being merged. -/
structure Merging where
  view : View
  children : List (Tree View)
  renames : Renames

def mapChildren (change : View → View) (children : List (Tree View)) : List (Tree View) :=
  children.map fun t => t.withValue (change t.value)

def giveUpScale (channel : String) (v : View) : View :=
  match v.scales.get? channel with
  | some s => { v with scales := v.scales.insert channel { s with merged := true } }
  | none => v

def shareScale (m : Merging) (channel : String) : Logged Merging := do
  let scales := m.children.filterMap fun t => t.value.scales.get? channel
  if scales.isEmpty || m.view.sharing "scale" channel == .independent then return m
  if Scale.compatible scales then
    let props ← Scale.mergeAll scales
    let name := m.view.inner channel
    return {
      view := { m.view with scales := m.view.scales.insert channel { name, channel, props } }
      children := mapChildren (giveUpScale channel) m.children
      renames := m.renames.renameAll (scales.map fun s => (s.name, name))
    }
  else
    Logged.warn ("Channel \"" ++ channel ++
      "\" has incompatible scale types across views; using independent scales.")
    return { m with
      view := { m.view with resolve := m.view.resolve.set "scale" channel .independent } }

def shareScales : List String → Merging → Logged Merging
  | [], m => pure m
  | channel :: rest, m => do shareScales rest (← shareScale m channel)

def composeScales (v : View) (children : List (Tree View)) (renames : Renames) :
    Logged (Tree View × Renames) := do
  let merged ← shareScales Channel.scaled ⟨v, children, renames⟩
  return (.node merged.view merged.children, merged.renames)

mutual

def addScales (config : Config) (renames : Renames) : Tree View → Logged (Tree View × Renames)
  | .node v children => do
    match v.unit? with
    | some (mark, e) => return (.node { v with scales := Scale.ofUnit config v mark e } children,
        renames)
    | none =>
      let (children, renames) ← addScalesAll config renames children
      composeScales v children renames

def addScalesAll (config : Config) (renames : Renames) :
    List (Tree View) → Logged (List (Tree View) × Renames)
  | [] => pure ([], renames)
  | t :: rest => do
    let (t, renames) ← addScales config renames t
    let (rest, renames) ← addScalesAll config renames rest
    return (t :: rest, renames)

end

def withScales (config : Config) (t : Tree View) : Logged (Tree View × Renames) :=
  addScales config {} t

end View

end ChartPlan
