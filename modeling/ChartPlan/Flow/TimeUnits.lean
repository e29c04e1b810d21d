import ChartPlan.Chart.TimeUnit
import ChartPlan.Field.Path

/-!
# Time unit nodes

A time unit node cuts dates to units, each under the name of its result.
-/

namespace ChartPlan.Flow

/-- A date field cut to a unit. -/
structure TimeCut where
  output : String
  field : String
  unit : TimeUnit
deriving DecidableEq

def TimeCut.endName (c : TimeCut) : String :=
  c.output ++ "_end"

def TimeCut.agrees (a b : TimeCut) : Bool :=
  a.field == b.field && a.unit == b.unit

def TimeCut.record (c : TimeCut) : Json :=
  let base := Json.object [
    ("type", .str "timeunit"),
    ("field", .str (Path.flatName c.field)),
    ("as", .texts [c.output, c.endName]),
    ("units", .texts (c.unit.parts.map TimePart.name))]
  if c.unit.utc then base.withField "timezone" (.str "utc") else base

/-- Cuts under the names of their results. -/
structure TimeUnits where
  cuts : Dict TimeCut := []
deriving DecidableEq

namespace TimeUnits

def single (c : TimeCut) : TimeUnits :=
  ⟨[(c.output, c)]⟩

def conflicts (a b : TimeUnits) : Bool :=
  b.cuts.any fun (key, theirs) =>
    match a.cuts.get? key with
    | some ours => !ours.agrees theirs
    | none => false

def merge? (a b : TimeUnits) : Option TimeUnits :=
  if a.conflicts b then none
  else some ⟨b.cuts.foldl (fun acc entry => acc.insertIfNew entry.1 entry.2) a.cuts⟩

def without (node : TimeUnits) (produced : NameSet) : TimeUnits :=
  ⟨node.cuts.filter fun entry => !produced.contains entry.1⟩

def deps (node : TimeUnits) : NameSet :=
  NameSet.ofList (node.cuts.values.map TimeCut.field)

def produced (node : TimeUnits) : NameSet :=
  NameSet.ofList (node.cuts.values.flatMap fun c => [c.output, c.endName])

def identity (node : TimeUnits) : Json :=
  .obj (node.cuts.mapValues fun c =>
    .object [("field", .str c.field), ("unit", .str c.unit.fullName)])

def records (node : TimeUnits) : List Json :=
  node.cuts.values.map TimeCut.record

end TimeUnits

end ChartPlan.Flow
