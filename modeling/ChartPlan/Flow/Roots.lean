import ChartPlan.Flow.Forest

/-!
# Nodes of data blocks and transforms

Data blocks become roots of the forest, of which equal ones are shared, and transforms become nodes.
-/

namespace ChartPlan.Flow

def Node.ofBlock (data : DataBlock) : Node :=
  match data.origin with
  | .sequence start stop step result => .sequence ⟨start, stop, step, result⟩
  | .graticule params => .graticule ⟨params⟩
  | _ => .source (.ofBlock data)

def Node.serves (existing other : Node) : Bool :=
  match existing, other with
  | .source a, .source b => a.agrees b
  | .sequence _, _ | .graticule _, _ => existing == other
  | _, _ => false

/-- A root that also serves for another one: a source without a name takes the name of the other. -/
def Node.adoptName (existing other : Node) : Node :=
  match existing, other with
  | .source a, .source b => .source { a with name := a.name.or b.name }
  | _, _ => existing

/-- The root that gives the rows of a node: an existing one, or the node as a new one. -/
def Forest.root (f : Forest) (n : Node) : Forest × NodeId :=
  match f.sources.find? fun i => f.holds i fun existing => existing.serves n with
  | some i => (f.modify i fun existing => existing.adoptName n, i)
  | none => f.add n none

/-- The node of a transform in a view whose signal names begin with `stem`; `secondary` is the output
in which a lookup searches. Binning that does not bin and unknown time units have no node. -/
def Node.ofTransform? (stem secondary : String) : Transform → Option Node
  | .filter condition => some (.filter ⟨condition⟩)
  | .calculate expr result => some (.formula ⟨expr, result⟩)
  | .bin v field start stop =>
    match Bin.ofJson? "" v with
    | some (.by params) => some (.bin (({} : Bins).add (.fresh params field (start, stop) stem)))
    | _ => none
  | .timeUnit unit field result =>
    (TimeUnit.ofJson? unit).map fun unit => .timeUnit (.single ⟨result, field, unit⟩)
  | .aggregate measures groupby => some (.aggregate (.ofMeasures measures groupby))
  | .joinAggregate measures groupby => some (.joinAggregate ⟨measures, groupby⟩)
  | .window spec => some (.window ⟨spec⟩)
  | .lookup field target outputs default =>
    some (.lookup (.ofTransform field target outputs default secondary))
  | .stack field groupby offset sort outputs =>
    some (.stack (.ofTransform field groupby offset sort outputs))
  | .fold fields outputs => some (.fold (.ofTransform fields outputs))
  | .flatten fields outputs => some (.flatten (.ofTransform fields outputs))
  | .pivot spec => some (.pivot ⟨spec⟩)
  | .sample size => some (.sample ⟨size⟩)
  | .impute spec => some (.impute ⟨spec⟩)
  | .extent field param => some (.extent ⟨field, param⟩)
  | .estimate method groupby outputs params =>
    some (.estimation (.ofTransform method groupby outputs params))

end ChartPlan.Flow
