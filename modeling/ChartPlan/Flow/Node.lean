import ChartPlan.Flow.Bins
import ChartPlan.Flow.Boundary
import ChartPlan.Flow.Coercion
import ChartPlan.Flow.Rows
import ChartPlan.Flow.Source
import ChartPlan.Flow.TimeUnits

/-!
# Nodes of the dataflow

A node is one stage of the dataflow. Its signature tells what it computes, so that two stages with
equal signatures are interchangeable; outputs and facets carry a number of their own and have no
equals.

* `Node.signature`: kind and identity of a node.
* `Node.deps`, `Node.produced?`: the fields that a node reads and writes.
* `Node.records`: the transforms of a node.
-/

namespace ChartPlan.Flow

/-- A stage of the dataflow. -/
inductive Node where
  | source (n : Source)
  | sequence (n : Sequence)
  | graticule (n : Graticule)
  | output (n : Output)
  | facet (n : Facet)
  | parse (n : Coercion)
  | identifier
  | formula (n : Formula)
  | filter (n : Filter)
  | filterInvalid (n : ValidFilter)
  | bin (n : Bins)
  | timeUnit (n : TimeUnits)
  | aggregate (n : Aggregate)
  | joinAggregate (n : JoinAggregate)
  | lookup (n : Lookup)
  | window (n : Window)
  | stack (n : Stack)
  | fold (n : Fold)
  | flatten (n : Flatten)
  | pivot (n : Pivot)
  | sample (n : Sample)
  | impute (n : Impute)
  | estimation (n : Estimation)
  | extent (n : Extent)
  | geoPoint (n : GeoPoint)
  | geoJson (n : GeoJson)
deriving BEq

/-- The field with the stable number of a row, by which point selections know it. -/
def rowIdField : String := "_vgsid_"

namespace Node

def kindName : Node → String
  | .source _ => "Source"
  | .sequence _ => "Sequence"
  | .graticule _ => "Graticule"
  | .output _ => "Output"
  | .facet _ => "Facet"
  | .parse _ => "Parse"
  | .identifier => "Identifier"
  | .formula _ => "Formula"
  | .filter _ => "Filter"
  | .filterInvalid _ => "FilterInvalid"
  | .bin _ => "Bin"
  | .timeUnit _ => "TimeUnit"
  | .aggregate _ => "Aggregate"
  | .joinAggregate _ => "JoinAggregate"
  | .lookup _ => "Lookup"
  | .window _ => "Window"
  | .stack _ => "Stack"
  | .fold _ => "Fold"
  | .flatten _ => "Flatten"
  | .pivot _ => "Pivot"
  | .sample _ => "Sample"
  | .impute _ => "Impute"
  | .estimation _ => "Statistical"
  | .extent _ => "Extent"
  | .geoPoint _ => "GeoPoint"
  | .geoJson _ => "GeoJson"

def label : Node → String
  | .output o => "Output " ++ o.name ++ " (" ++ o.source ++ ")"
  | .facet f => "Facet " ++ f.name
  | .parse c => c.label
  | .bin b => b.label
  | .aggregate a => "Aggregate [" ++ a.groupKey ++ "]"
  | other => other.kindName

def isDataSource : Node → Bool
  | .source _ | .sequence _ | .graticule _ => true
  | _ => false

def isOutput : Node → Bool
  | .output _ => true
  | _ => false

def isFacet : Node → Bool
  | .facet _ => true
  | _ => false

def isBin : Node → Bool
  | .bin _ => true
  | _ => false

def isTimeUnit : Node → Bool
  | .timeUnit _ => true
  | _ => false

def output? : Node → Option Output
  | .output o => some o
  | _ => none

def facet? : Node → Option Facet
  | .facet f => some f
  | _ => none

def parse? : Node → Option Coercion
  | .parse c => some c
  | _ => none

def bin? : Node → Option Bins
  | .bin b => some b
  | _ => none

def timeUnit? : Node → Option TimeUnits
  | .timeUnit t => some t
  | _ => none

def aggregate? : Node → Option Aggregate
  | .aggregate a => some a
  | _ => none

def identity : Node → Json
  | .source s => s.identity
  | .sequence s => s.record
  | .graticule g => g.record
  | .output o => .nat o.id
  | .facet f => .nat f.id
  | .parse c => .textFields c.kinds
  | .identifier => .null
  | .formula f => f.record
  | .filter f => f.record
  | .filterInvalid f => f.identity
  | .bin b => b.identity
  | .timeUnit t => t.identity
  | .aggregate a => a.identity
  | .joinAggregate j => j.identity
  | .lookup l => l.identity
  | .window w => w.identity
  | .stack s => s.identity
  | .fold f => f.record
  | .flatten f => f.record
  | .pivot p => p.identity
  | .sample s => s.record
  | .impute i => i.identity
  | .estimation e => e.identity
  | .extent e => e.record
  | .geoPoint g => g.identity
  | .geoJson g => g.identity

def signature (n : Node) : String :=
  n.kindName ++ " " ++ n.identity.toText

def deps : Node → NameSet
  | .source _ | .sequence _ | .graticule _ | .output _ | .identifier | .sample _ => []
  | .facet f => f.deps
  | .parse c => c.fields
  | .formula f => f.deps
  | .filter f => f.condition.fields
  | .filterInvalid f => f.fields.keys
  | .bin b => b.deps
  | .timeUnit t => t.deps
  | .aggregate a => a.deps
  | .joinAggregate j => j.deps
  | .lookup l => [l.field]
  | .window w => w.deps
  | .stack s => s.deps
  | .fold f => .ofList f.fields
  | .flatten f => .ofList f.fields
  | .pivot p => p.deps
  | .impute i => i.deps
  | .estimation e => e.deps
  | .extent e => [e.field]
  | .geoPoint g => .ofList [g.fields.1, g.fields.2]
  | .geoJson g => g.deps

/-- The fields that the node adds or overwrites; none when they depend on the data. -/
def produced? : Node → Option NameSet
  | .source _ | .graticule _ | .output _ | .facet _ | .filter _ | .filterInvalid _ | .sample _
  | .extent _ | .geoJson _ => some []
  | .pivot _ => none
  | .sequence s => some [s.output]
  | .parse c => some c.fields
  | .identifier => some [rowIdField]
  | .formula f => some [f.output]
  | .bin b => some b.produced
  | .timeUnit t => some t.produced
  | .aggregate a => some a.produced
  | .joinAggregate j => some j.produced
  | .lookup l => some l.produced
  | .window w => some w.produced
  | .stack s => some s.produced
  | .fold f => some (.ofList [f.key, f.value])
  | .flatten f => some (.ofList f.outputs)
  | .impute i => some [i.spec.field]
  | .estimation e => some e.produced
  | .geoPoint g => some (.ofList [g.outputs.1, g.outputs.2])

/-- The transforms of the node, with signals under their final names. Sources, outputs and facets
are written as datasets and have none. -/
def records (signals : Renames) : Node → Logged (List Json)
  | .source _ | .output _ | .facet _ => pure []
  | .sequence s => pure [s.record]
  | .graticule g => pure [g.record]
  | .parse c => c.records
  | .identifier => pure [.object [("type", .str "identifier"), ("as", .str rowIdField)]]
  | .formula f => pure [f.record]
  | .filter f => pure [f.record]
  | .filterInvalid f => pure f.records
  | .bin b => pure (b.records signals)
  | .timeUnit t => pure t.records
  | .aggregate a => pure [a.record]
  | .joinAggregate j => pure [j.record]
  | .lookup l => do return [← l.record]
  | .window w => pure [w.record]
  | .stack s => pure [s.record]
  | .fold f => pure [f.record]
  | .flatten f => pure [f.record]
  | .pivot p => pure [p.record]
  | .sample s => pure [s.record]
  | .impute i => pure i.records
  | .estimation e => pure [e.record]
  | .extent e => pure [e.record]
  | .geoPoint g => pure [g.record]
  | .geoJson g => pure [g.record]

def groups : Node → Bool
  | .aggregate _ | .stack _ | .window _ | .joinAggregate _ => true
  | _ => false

def addDimensions (fields : List String) : Node → Node
  | .aggregate a => .aggregate (a.addDimensions fields)
  | .stack s => .stack (s.addDimensions fields)
  | .window w => .window (w.addDimensions fields)
  | .joinAggregate j => .joinAggregate (j.addDimensions fields)
  | other => other

def refresh (ids : IdSupply) : Node → Node × IdSupply
  | .output o => (.output { o with id := ids.take.1 }, ids.take.2)
  | .facet f => (.facet { f with id := ids.take.1 }, ids.take.2)
  | other => (other, ids)

end Node

end ChartPlan.Flow
