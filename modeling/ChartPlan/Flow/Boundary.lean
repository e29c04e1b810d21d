import ChartPlan.Json.Basic

/-!
# Outputs and facets

An output names a dataset that other parts of the chart read. A facet is the boundary below which
data is evaluated once for every cell; it also defines the datasets of the headers.
-/

namespace ChartPlan.Flow

/-- What an output is for. -/
inductive OutputKind where
  | raw
  | main
  | lookup
  /-- The copy of a faceted computation over the whole data, which shared scales read. -/
  | scale
deriving DecidableEq

def OutputKind.name : OutputKind → String
  | .raw => "Raw"
  | .main => "Main"
  | .lookup => "Lookup"
  | .scale => "Scale"

/-- A named dataset. -/
structure Output where
  /-- The name under which requests are counted. -/
  name : String
  kind : OutputKind
  /-- The dataset that holds the rows: the own name until datasets are written. -/
  source : String
  id : Nat
deriving DecidableEq

def Output.fresh (name : String) (kind : OutputKind) (id : Nat) : Output :=
  { name, kind, source := name, id }

/-- The field by which headers are sorted: operation, field and name of the result. -/
structure HeaderSort where
  op : String
  field : String
  output : String
deriving DecidableEq

/-- One direction of a facet. -/
structure FacetChannel where
  /-- The dataset of the headers. -/
  name : String
  fields : List String
  sort : Option HeaderSort
deriving DecidableEq

/-- The boundary below which data is evaluated cell by cell. -/
structure Facet where
  id : Nat
  /-- The main output of the faceted view. -/
  main : String
  /-- The dataset of one cell. -/
  name : String
  row : Option FacetChannel := none
  column : Option FacetChannel := none
  facet : Option FacetChannel := none
  /-- For `x` and `y`, the field that sizes the cells when they do not share its scale. -/
  independent : Dict String := []
  /-- The dataset that is split into cells, once datasets are written. -/
  data : Option String := none
deriving DecidableEq

namespace Facet

def channels (f : Facet) : List (String × FacetChannel) :=
  [("row", f.row), ("column", f.column), ("facet", f.facet)].filterMap fun (channel, c) =>
    c.map (channel, ·)

def fields (f : Facet) : List String :=
  (f.channels.flatMap fun c => c.2.fields).foldl
    (fun acc field => if acc.contains field then acc else acc ++ [field]) []

def deps (f : Facet) : NameSet :=
  NameSet.ofList (f.fields ++ f.channels.filterMap (fun c => c.2.sort.map HeaderSort.field)
    ++ f.independent.values)

/-- The dataset that counts distinct values for every pair of a row and a column. -/
def crossed? (f : Facet) : Option (String × Json) :=
  match f.column, f.row with
  | some column, some row =>
    if f.independent.isEmpty then none
    else
      let name := "cross_" ++ column.name ++ "_" ++ row.name
      let fields := ["x", "y"].filterMap fun channel => f.independent.get? channel
      some (name, .object [
        ("name", .str name),
        ("source", .str (f.data.getD "")),
        ("transform", .arr [.object [
          ("type", .str "aggregate"),
          ("groupby", .texts f.fields),
          ("fields", .texts fields),
          ("ops", .texts (fields.map fun _ => "distinct"))]])])
  | _, _ => none

/-- The operations of a header dataset: field, operation and name of the result. -/
def headerOps (f : Facet) (crossed : Bool) (channel : FacetChannel) (sized : Option String) :
    List (String × String × String) :=
  let size := (sized.bind fun c => f.independent.get? c).map fun field =>
    let distinct := "distinct_" ++ field
    if crossed then (distinct, "max", distinct) else (field, "distinct", distinct)
  size.toList ++ (channel.sort.map fun s => (s.field, s.op, s.output)).toList

def header (f : Facet) (crossed : Option String) (channel : FacetChannel) (sized : Option String) :
    Json :=
  let ops := f.headerOps crossed.isSome channel sized
  let groups := Json.object [("type", .str "aggregate"), ("groupby", .texts channel.fields)]
  let aggregate :=
    if ops.isEmpty then groups
    else
      ((groups.withField "fields" (.texts (ops.map fun o => o.1))).withField
        "ops" (.texts (ops.map fun o => o.2.1))).withField "as" (.texts (ops.map fun o => o.2.2))
  .object [
    ("name", .str channel.name),
    ("source", .str (crossed.getD (f.data.getD ""))),
    ("transform", .arr [aggregate])]

def datasets (f : Facet) : List Json :=
  let crossed := f.crossed?
  (crossed.map Prod.snd).toList ++
    [(f.column, some "x"), (f.row, some "y"), (f.facet, none)].filterMap fun (channel, sized) =>
      channel.map fun c => f.header (crossed.map Prod.fst) c sized

end Facet

end ChartPlan.Flow
