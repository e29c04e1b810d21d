import ChartPlan.Chart.Encoding

/-!
# Stacking

A unit view stacks its marks along a measure when the mark is a stackable one and the encoding splits
the marks into layers, unless the user tells otherwise.
-/

namespace ChartPlan

/-- How the marks of a unit view are stacked. -/
structure Stacking where
  /-- The channel of the stacked measure. -/
  channel : String
  /-- The other position channel, when it groups the stacks. -/
  groupChannel : Option String
  /-- The definitions that split a stack into layers. -/
  stackby : List ChannelDef
  offset : String

namespace Stacking

def stackableMarks : List String :=
  ["arc", "bar", "area", "rule", "point", "circle", "square", "line", "text", "tick"]

def stackedMarks : List String :=
  ["bar", "area", "arc"]

def layerChannels : List String :=
  ["color", "fill", "stroke", "opacity", "fillOpacity", "strokeOpacity", "strokeWidth",
    "strokeDash", "size", "shape", "detail", "text"]

def offsets : List String :=
  ["zero", "center", "normalize"]

def summative : List String :=
  ["sum", "count", "valid", "missing", "distinct"]

def secondary (channel : String) : String :=
  match channel with
  | "x" => "x2"
  | "y" => "y2"
  | "theta" => "theta2"
  | _ => "radius2"

def across (channel : String) : String :=
  match channel with
  | "x" => "y"
  | "y" => "x"
  | "theta" => "radius"
  | _ => "theta"

/-- The offset that a `stack` property asks for; none when it refuses stacking. -/
def offset? : Json → Option String
  | .bool true => some "zero"
  | .str offset => some offset
  | _ => none

def isMeasure (d : Option ChannelDef) : Bool :=
  d.any fun d => d.type == .quantitative && !d.isBinned

def isRequested (d : Option ChannelDef) : Bool :=
  ((d.bind ChannelDef.stack).bind offset?).isSome

def isAggregated (d : Option ChannelDef) : Bool :=
  d.any fun d => d.aggregate.isSome

/-- The one of two channels whose measure is stacked. Of two measures it is the one that asks for
it, or else the only one that aggregates. -/
def stackedOf (e : Encoding) (a b : String) : Except Error (Option String) :=
  let da := e.get? a
  let db := e.get? b
  if isRequested da && isRequested db then
    .error (.contradictoryStack ("both \"" ++ a ++ "\" and \"" ++ b ++ "\" request stacking"))
  else
    .ok <|
      match isMeasure da, isMeasure db with
      | true, true =>
        if isRequested da then some a
        else if isRequested db then some b
        else
          match isAggregated da, isAggregated db with
          | true, false => some a
          | false, true => some b
          | _, _ => none
      | true, false => some a
      | false, true => some b
      | false, false => none

/-- The definitions that split a stack into layers: those that neither aggregate nor read the field
across the stack. -/
def layersOf (e : Encoding) (acrossField : Option String) : List ChannelDef :=
  (layerChannels.flatMap e.defsOf).filter fun d =>
    d.aggregate.isNone && acrossField != some d.outputName

def offsetOf (mark : String) (d : ChannelDef) : Option String :=
  match d.stack with
  | some stack => offset? stack
  | none => if stackedMarks.contains mark then some "zero" else none

def along (e : Encoding) (channel : String) (d : ChannelDef) (offset : String) :
    Checked (Option Stacking) := do
  let acrossField := (e.get? (across channel)).map ChannelDef.outputName
  let stackby := layersOf e acrossField
  if !offsets.contains offset then
    Checked.warn ("Invalid stack offset \"" ++ offset ++ "\".")
    return none
  if e.hasAggregate && stackby.isEmpty then return none
  if e.has (secondary channel) then
    if d.stack.isSome then
      Checked.warn ("Cannot stack \"" ++ channel ++ "\" of a ranged mark.")
    return none
  match d.aggregate with
  | some op =>
    if !summative.contains op then
      Checked.warn ("Stacking is applied even though the aggregate function is non-summative (\"" ++
        op ++ "\").")
  | none => pure ()
  let groups := acrossField.any fun field => field != d.outputName
  return some {
    channel
    groupChannel := if groups then some (across channel) else none
    stackby
    offset
  }

def ofEncoding (mark : String) (e : Encoding) : Checked (Option Stacking) := do
  let cartesian ← Checked.ofExcept (stackedOf e "x" "y")
  let polar ← Checked.ofExcept (stackedOf e "theta" "radius")
  match cartesian.or polar with
  | none => return none
  | some channel =>
    match e.get? channel with
    | none => return none
    | some d =>
      if !stackableMarks.contains mark then return none
      match offsetOf mark d with
      | none => return none
      | some offset => along e channel d offset

end Stacking

end ChartPlan
