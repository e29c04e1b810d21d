import ChartPlan.Chart.Binning
import ChartPlan.Chart.TimeUnit
import ChartPlan.Error

/-!
# Encodings

An encoding maps channels such as `x` or `color` to definitions that refer to fields of the data.
Definitions by a constant refer to no field and are left out.

* `ChannelDef.outputName`: the field that a definition reads in the prepared data.
* `Encoding.read`: the definitions of an `encoding` block.
-/

namespace ChartPlan

/-- What the values of a field measure. -/
inductive FieldType where
  | quantitative
  | temporal
  | ordinal
  | nominal
  | geojson
deriving DecidableEq

namespace FieldType

def name : FieldType → String
  | .quantitative => "quantitative"
  | .temporal => "temporal"
  | .ordinal => "ordinal"
  | .nominal => "nominal"
  | .geojson => "geojson"

def label : FieldType → String
  | .quantitative => "Quantitative"
  | .temporal => "Temporal"
  | .ordinal => "Ordinal"
  | .nominal => "Nominal"
  | .geojson => "Geojson"

def ofName? (name : String) : Option FieldType :=
  match name with
  | "quantitative" | "Q" => some .quantitative
  | "temporal" | "T" => some .temporal
  | "ordinal" | "O" => some .ordinal
  | "nominal" | "N" => some .nominal
  | "geojson" => some .geojson
  | _ => none

def isDiscrete (t : FieldType) : Bool :=
  t == .ordinal || t == .nominal

end FieldType

/-- A channel definition that refers to a field, or to the count of rows. -/
structure ChannelDef where
  channel : String
  field : Option String
  type : FieldType
  bin : Option Bin
  timeUnit : Option TimeUnit
  aggregate : Option String
  /-- Present and null when stacking is refused. -/
  stack : Option Json
  sort : Option Json
  /-- Present and null when there is no scale. -/
  scale : Option Json
  /-- Present and null when there is no axis. -/
  axis : Option Json
  /-- Present and null when there is no legend. -/
  legend : Option Json
  title : Option Json
  impute : Option Json

namespace ChannelDef

def binParams? (d : ChannelDef) : Option (Dict Json) :=
  match d.bin with
  | some (.by params) => some params
  | _ => none

def isBinned (d : ChannelDef) : Bool :=
  d.bin.isSome

def isCount (d : ChannelDef) : Bool :=
  d.aggregate == some "count"

def flatField (d : ChannelDef) : String :=
  (d.field.map Path.flatName).getD ""

def outputName (d : ChannelDef) : String :=
  match d.aggregate, d.binParams?, d.timeUnit with
  | some op, _, _ => if op == "count" then "__count" else op ++ "_" ++ d.flatField
  | none, some params, _ => Bin.text params ++ "_" ++ d.flatField
  | none, none, some unit => unit.fullName ++ "_" ++ d.flatField
  | none, none, none => d.flatField

/-- Whether the definition reads the start of a bin, beside which its end and its label stand. -/
def readsBin (d : ChannelDef) : Bool :=
  d.binParams?.isSome && d.aggregate.isNone

/-- The field with the end of the bin, or the field that is read when nothing is binned. -/
def endName (d : ChannelDef) : String :=
  if d.readsBin then d.outputName ++ "_end" else d.outputName

/-- The field with the label of the bin, or the field that is read when nothing is binned. -/
def rangeName (d : ChannelDef) : String :=
  if d.readsBin then d.outputName ++ "_range" else d.outputName

def sortIndexName (d : ChannelDef) : String :=
  d.channel ++ "_" ++ d.field.getD "" ++ "_sort_index"

def capitalize (word : String) : String :=
  match word.toList with
  | c :: rest => String.ofList (c.toUpper :: rest)
  | [] => ""

def defaultTitle (d : ChannelDef) : String :=
  let field := d.field.getD ""
  match d.aggregate, d.binParams?, d.timeUnit with
  | some op, _, _ => if op == "count" then "Count of Records" else capitalize op ++ " of " ++ field
  | none, some _, _ => field ++ " (binned)"
  | none, none, some unit => field ++ " (" ++ "-".intercalate (unit.parts.map TimePart.name) ++ ")"
  | none, none, none => field

def inferType (channel : String) (aggregate : Option String) (bin : Option Bin)
    (unit : Option TimeUnit) : FieldType :=
  match aggregate, bin, unit with
  | some "count", _, _ => .quantitative
  | _, some (.by _), _ => .quantitative
  | _, _, some _ => .temporal
  | _, _, none =>
    if ["latitude", "longitude", "latitude2", "longitude2"].contains channel then .quantitative
    else .nominal

/-- The type of a definition: the one given, or an inferred one, which is noted unless rows are
counted. -/
def readType (channel : String) (fields : Dict Json) (aggregate : Option String)
    (bin : Option Bin) (unit : Option TimeUnit) : Checked FieldType :=
  match (fields.get? "type").bind Json.text? with
  | some name =>
    match FieldType.ofName? name with
    | some type => pure type
    | none => Checked.fail (.invalidEncoding channel ("unknown type \"" ++ name ++ "\""))
  | none => do
    let type := inferType channel aggregate bin unit
    if aggregate != some "count" then
      Checked.warn ("Missing type for channel \"" ++ channel ++ "\", using \"" ++ type.name ++
        "\" instead.")
    return type

def readField (channel : String) (fields : Dict Json) : Checked (Option String) :=
  match fields.get? "field" with
  | none => pure none
  | some (.str name) => pure (some name)
  | some other =>
    Checked.fail (.invalidEncoding channel ("field must be a string, got " ++ other.toText))

def read (channel : String) (fields : Dict Json) : Checked (Option ChannelDef) := do
  let field ← readField channel fields
  let aggregate := (fields.get? "aggregate").bind Json.text?
  if field.isNone && aggregate != some "count" then return none
  let bin := (fields.get? "bin").bind (Bin.ofJson? channel)
  let timeUnit := (fields.get? "timeUnit").bind TimeUnit.ofJson?
  let type ← readType channel fields aggregate bin timeUnit
  return some {
    channel, field, type, bin, timeUnit, aggregate
    stack := fields.get? "stack"
    sort := fields.get? "sort"
    scale := fields.get? "scale"
    axis := fields.get? "axis"
    legend := fields.get? "legend"
    title := fields.get? "title"
    impute := fields.get? "impute"
  }

/-- Reads an item of a channel; a definition without a field may carry one in its condition. -/
def readItem (channel : String) : Json → Checked (Option ChannelDef)
  | .obj fields => do
    match ← read channel fields with
    | some d => return some d
    | none =>
      match Dict.get? fields "condition" with
      | some (.obj condition) => read channel condition
      | _ => return none
  | _ => pure none

end ChannelDef

/-- The definitions of each channel; `tooltip` and `detail` may have several. -/
structure Encoding where
  channels : Dict (List ChannelDef) := []

namespace Encoding

def readChannel (channel : String) (v : Json) : Checked (List ChannelDef) := do
  let items := match v with
    | .arr items => items
    | other => [other]
  return (← items.mapM (ChannelDef.readItem channel)).filterMap id

def read : Option Json → Checked Encoding
  | none => pure {}
  | some (.obj fields) => do
    let channels ← fields.mapM fun (channel, v) => do return (channel, ← readChannel channel v)
    return ⟨channels.filter fun entry => !entry.2.isEmpty⟩
  | some _ => Checked.fail (.invalidSpec "encoding" "expected an object")

def defsOf (e : Encoding) (channel : String) : List ChannelDef :=
  (e.channels.get? channel).getD []

def get? (e : Encoding) (channel : String) : Option ChannelDef :=
  (e.defsOf channel).head?

def has (e : Encoding) (channel : String) : Bool :=
  (e.get? channel).isSome

def defs (e : Encoding) : List ChannelDef :=
  e.channels.values.flatten

def hasAggregate (e : Encoding) : Bool :=
  e.defs.any fun d => d.aggregate.isSome

end Encoding

namespace Channel

def scaled : List String :=
  ["x", "y", "theta", "radius", "color", "fill", "stroke", "opacity", "fillOpacity",
    "strokeOpacity", "size", "shape", "strokeWidth", "strokeDash"]

def isPosition (channel : String) : Bool :=
  channel == "x" || channel == "y"

/-- The channel whose scale a channel uses: a second position uses the scale of the first. -/
def scaleOf (channel : String) : String :=
  match channel with
  | "x2" => "x"
  | "y2" => "y"
  | "theta2" => "theta"
  | "radius2" => "radius"
  | other => other

end Channel

end ChartPlan
