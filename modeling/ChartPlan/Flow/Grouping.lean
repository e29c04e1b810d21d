import ChartPlan.Chart.Transform

/-!
# Grouping nodes

Nodes that compute over groups of rows: aggregates, aggregates joined back to the rows, windows and
stacks. When such a node leaves a facet it also groups by the facet fields.
-/

namespace ChartPlan.Flow

def appendNew (fields more : List String) : List String :=
  more.foldl (fun acc field => if acc.contains field then acc else acc ++ [field]) fields

def nullableTexts (items : List (Option String)) : Json :=
  .arr (items.map Json.ofText?)

def withGroups (record : Json) (groupby : List String) : Json :=
  if groupby.isEmpty then record else record.withField "groupby" (.texts groupby)

/-! ### Aggregates -/

/-- One row for each group. -/
structure Aggregate where
  dimensions : NameSet := []
  /-- Names of results by field and operation. -/
  measures : Dict (Dict NameSet) := []
deriving DecidableEq

namespace Aggregate

def anyField : String := "*"

def addNames (a : Aggregate) (field op : String) (names : List String) : Aggregate :=
  let ops := (a.measures.get? field).getD []
  let known := (ops.get? op).getD []
  { a with measures := a.measures.insert field (ops.insert op (known.extend names)) }

def addMeasure (a : Aggregate) (field : Option String) (op output : String) : Aggregate :=
  a.addNames (if op == "count" then anyField else field.getD anyField) op [output]

def addDimension (a : Aggregate) (field : String) : Aggregate :=
  { a with dimensions := a.dimensions.insert field }

def ofMeasures (measures : List Measure) (groupby : List String) : Aggregate :=
  measures.foldl (fun a m => a.addMeasure m.field m.op m.output) { dimensions := .ofList groupby }

def addDimensions (a : Aggregate) (fields : List String) : Aggregate :=
  { a with dimensions := a.dimensions.extend fields }

def results (a : Aggregate) : List (String × String × NameSet) :=
  a.measures.flatMap fun (field, ops) => ops.map fun (op, names) => (field, op, names)

def merge? (a b : Aggregate) : Option Aggregate :=
  if a.dimensions = b.dimensions then
    some (b.results.foldl (fun acc r => acc.addNames r.1 r.2.1 r.2.2) a)
  else none

def groupKey (a : Aggregate) : String :=
  ",".intercalate a.dimensions

def deps (a : Aggregate) : NameSet :=
  a.dimensions.extend (a.measures.keys.filter fun field => field != anyField)

def produced (a : Aggregate) : NameSet :=
  NameSet.ofList (a.results.flatMap fun r => r.2.2)

def identity (a : Aggregate) : Json :=
  .object [
    ("dimensions", .texts a.dimensions),
    ("measures", .obj (a.measures.mapValues fun ops => .obj (ops.mapValues .texts)))]

def columns (a : Aggregate) : List (Option String × String × String) :=
  a.results.flatMap fun (field, op, names) => names.map fun name =>
    (if field == anyField then none else some (Path.flatName field), op, name)

def record (a : Aggregate) : Json :=
  .object [
    ("type", .str "aggregate"),
    ("groupby", .texts (a.dimensions.map Path.flatName)),
    ("ops", .texts (a.columns.map fun c => c.2.1)),
    ("fields", nullableTexts (a.columns.map fun c => c.1)),
    ("as", .texts (a.columns.map fun c => c.2.2))]

end Aggregate

/-! ### Joined aggregates -/

/-- Aggregates joined back to every row. -/
structure JoinAggregate where
  measures : List Measure
  groupby : List String
deriving BEq

namespace JoinAggregate

def addDimensions (j : JoinAggregate) (fields : List String) : JoinAggregate :=
  { j with groupby := appendNew j.groupby fields }

def deps (j : JoinAggregate) : NameSet :=
  NameSet.ofList (j.groupby ++ j.measures.filterMap Measure.field)

def produced (j : JoinAggregate) : NameSet :=
  NameSet.ofList (j.measures.map Measure.output)

def identity (j : JoinAggregate) : Json :=
  .object [
    ("fields", nullableTexts (j.measures.map Measure.field)),
    ("ops", .texts (j.measures.map Measure.op)),
    ("as", .texts (j.measures.map Measure.output)),
    ("groupby", .texts j.groupby)]

def record (j : JoinAggregate) : Json :=
  withGroups (.object [
    ("type", .str "joinaggregate"),
    ("as", .texts (j.measures.map Measure.output)),
    ("ops", .texts (j.measures.map Measure.op)),
    ("fields", nullableTexts (j.measures.map fun m => m.field.map Path.flatName))]) j.groupby

end JoinAggregate

/-! ### Windows -/

def aggregateOps : List String :=
  ["argmax", "argmin", "average", "count", "distinct", "product", "max", "mean", "median", "min",
    "missing", "q1", "q3", "ci0", "ci1", "stderr", "stdev", "stdevp", "sum", "valid", "values",
    "variance", "variancep", "exponential", "exponentialb"]

def isAggregateOp (op : String) : Bool :=
  aggregateOps.contains op

def frameJson (frame : List (Option Int)) : Json :=
  .arr (frame.map fun offset => .ofOption (offset.map fun i => .num (.int i)))

/-- Operations over windows of sorted rows. -/
structure Window where
  spec : WindowSpec
deriving BEq

namespace Window

def addDimensions (w : Window) (fields : List String) : Window :=
  ⟨{ w.spec with groupby := appendNew w.spec.groupby fields }⟩

def deps (w : Window) : NameSet :=
  NameSet.ofList (w.spec.groupby ++ w.spec.ops.filterMap WindowOp.field
    ++ w.spec.sort.map SortKey.field)

def produced (w : Window) : NameSet :=
  NameSet.ofList (w.spec.ops.map WindowOp.output)

def identity (w : Window) : Json :=
  .object [
    ("window", .arr (w.spec.ops.map fun o =>
      .arr [.str o.op, .ofText? o.field, .ofOption o.param, .str o.output])),
    ("frame", .ofOption (w.spec.frame.map frameJson)),
    ("ignorePeers", .ofOption (w.spec.ignorePeers.map .bool)),
    ("groupby", .texts w.spec.groupby),
    ("sort", .arr (w.spec.sort.map fun s => .arr [.str s.field, .ofText? s.order]))]

def isJoin (w : Window) : Bool :=
  w.spec.frame == some [none, none] && w.spec.ops.all fun o => isAggregateOp o.op

def record (w : Window) : Json :=
  let outputs := Json.texts (w.spec.ops.map WindowOp.output)
  let ops := Json.texts (w.spec.ops.map WindowOp.op)
  let fields := nullableTexts (w.spec.ops.map WindowOp.field)
  if w.isJoin then
    withGroups (.object [("type", .str "joinaggregate"), ("as", outputs), ("ops", ops),
      ("fields", fields)]) w.spec.groupby
  else
    let base := Json.object [
      ("type", .str "window"),
      ("params", .arr (w.spec.ops.map fun o => .ofOption o.param)),
      ("as", outputs),
      ("ops", ops),
      ("fields", fields),
      ("sort", .object [
        ("field", .texts (w.spec.sort.map SortKey.field)),
        ("order", .texts (w.spec.sort.map fun s => s.order.getD "ascending"))])]
    (withGroups (base.withField? "ignorePeers" (w.spec.ignorePeers.map .bool))
      w.spec.groupby).withField? "frame" (w.spec.frame.map frameJson)

end Window

/-! ### Stacks -/

/-- A measure stacked within groups. -/
structure Stack where
  groupby : List String
  /-- The fields of the facet that the node left. -/
  facetby : List String := []
  field : String
  stackby : List String := []
  /-- Fields to sort by, with their orders. -/
  sort : List (String × String)
  offset : String
  start : String
  stop : String
deriving DecidableEq

namespace Stack

/-- The names of the start and the end: a pair, or derived from one name or from the field. -/
def outputsOf (field : String) : Json → String × String
  | .arr [a, b] => (a.text?.getD "", b.text?.getD "")
  | .str s => (s, s ++ "_end")
  | _ => (field ++ "_start", field ++ "_end")

def ofTransform (field : String) (groupby : List String) (offset : Option String)
    (sort : List SortKey) (outputs : Json) : Stack where
  groupby := groupby
  field := field
  sort := sort.map fun s => (s.field, s.order.getD "ascending")
  offset := offset.getD "zero"
  start := (outputsOf field outputs).1
  stop := (outputsOf field outputs).2

def addDimensions (s : Stack) (fields : List String) : Stack :=
  { s with facetby := s.facetby ++ fields }

def deps (s : Stack) : NameSet :=
  NameSet.ofList (s.groupby ++ [s.field] ++ s.facetby ++ s.stackby ++ s.sort.map Prod.fst)

def produced (s : Stack) : NameSet :=
  NameSet.ofList [s.start, s.stop]

def identity (s : Stack) : Json :=
  .object [
    ("groupby", .texts s.groupby),
    ("facetby", .texts s.facetby),
    ("field", .str s.field),
    ("stackby", .texts s.stackby),
    ("sort", .arr [.texts (s.sort.map Prod.fst), .texts (s.sort.map Prod.snd)]),
    ("offset", .str s.offset),
    ("as", .texts [s.start, s.stop])]

def record (s : Stack) : Json :=
  .object [
    ("type", .str "stack"),
    ("groupby", .texts (s.groupby ++ s.facetby)),
    ("field", .str s.field),
    ("sort", .object [
      ("field", .texts (s.sort.map Prod.fst)),
      ("order", .texts (s.sort.map Prod.snd))]),
    ("as", .texts [s.start, s.stop]),
    ("offset", .str s.offset)]

end Stack

end ChartPlan.Flow
