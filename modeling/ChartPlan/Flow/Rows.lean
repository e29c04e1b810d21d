import ChartPlan.Chart.Encoding
import ChartPlan.Flow.Grouping

/-!
# Row nodes

Nodes that compute, drop, join or reshape rows, estimate curves over them, or project coordinates.
-/

namespace ChartPlan.Flow

/-! ### Formulas and filters -/

/-- An expression evaluated into a field. -/
structure Formula where
  expr : String
  output : String
deriving DecidableEq

namespace Formula

/-- The place of a value in a custom order: a chain of tests, one for each listed value. -/
def sortIndex? (d : ChannelDef) (order : List Json) : Option Formula :=
  d.field.map fun field =>
    let tests := order.zipIdx.map fun (v, i) =>
      (Predicate.field field d.timeUnit (.equal v)).toExpr ++ " ? " ++ toString i ++ " : "
    ⟨String.join tests ++ toString order.length, d.sortIndexName⟩

def deps (f : Formula) : NameSet :=
  NameSet.ofList (fieldsInExpr f.expr)

def record (f : Formula) : Json :=
  .object [("type", .str "formula"), ("expr", .str f.expr), ("as", .str f.output)]

end Formula

/-- Rows that fulfil a condition. -/
structure Filter where
  condition : Predicate

namespace Filter

def expr (f : Filter) : String :=
  f.condition.toExpr

/-- Equal filters have equal conditions that also read alike: the two zeros are one number with two
texts. -/
instance : BEq Filter where
  beq f g := f.condition == g.condition && f.expr == g.expr

def record (f : Filter) : Json :=
  .object [("type", .str "filter"), ("expr", .str f.expr)]

end Filter

/-- Rows whose continuous fields hold numbers or dates. -/
structure ValidFilter where
  /-- The checked fields with their types. -/
  fields : Dict FieldType
deriving DecidableEq

namespace ValidFilter

def identity (f : ValidFilter) : Json :=
  .texts (f.fields.map fun (field, type) => field ++ ":" ++ type.label)

def tests (field : String) (type : FieldType) : List String :=
  let value := datumField field
  match type with
  | .temporal =>
    ["(isDate(" ++ value ++ ") || (isValid(" ++ value ++ ") && isFinite(+" ++ value ++ ")))"]
  | .quantitative => ["isValid(" ++ value ++ ")", "isFinite(+" ++ value ++ ")"]
  | _ => []

def records (f : ValidFilter) : List Json :=
  match f.fields.flatMap fun (field, type) => tests field type with
  | [] => []
  | all => [.object [("type", .str "filter"), ("expr", .str (" && ".intercalate all))]]

end ValidFilter

/-! ### Joins -/

/-- Fields of other rows joined by a key. -/
structure Lookup where
  field : String
  /-- The output that holds the other rows. -/
  secondary : String
  key : String
  fields : Option (List String)
  outputs : Option (List String)
  default : Option Json
deriving BEq

namespace Lookup

/-- The names of the results: one, several, or the selection that is looked up. -/
def outputsOf (target : LookupTarget) : Option Json → Option (List String)
  | some (.str s) => some [s]
  | some (.arr items) => some (Json.arr items).textItems
  | _ => target.param.map fun p => [p]

def ofTransform (field : String) (target : LookupTarget) (outputs default : Option Json)
    (secondary : String) : Lookup where
  field := field
  secondary := secondary
  key := target.key
  fields := target.fields
  outputs := outputsOf target outputs
  default := default

def produced (l : Lookup) : NameSet :=
  NameSet.ofList ((l.outputs.or l.fields).getD [])

def identity (l : Lookup) : Json :=
  .object [
    ("lookup", .str l.field),
    ("secondary", .str l.secondary),
    ("key", .str l.key),
    ("fields", .ofOption (l.fields.map .texts)),
    ("as", .ofOption (l.outputs.map .texts)),
    ("default", .ofOption l.default)]

/-- The transform of the node. Whole rows need a name for the result; a default name is noted. -/
def record (l : Lookup) : Logged Json := do
  let base := Json.object [
    ("type", .str "lookup"),
    ("from", .str l.secondary),
    ("key", .str l.key),
    ("fields", .texts [l.field])]
  let named ← match l.fields, l.outputs with
    | some fields, outputs =>
      pure ((base.withField "values" (.texts fields)).withField? "as" (outputs.map .texts))
    | none, some outputs => pure (base.withField "as" (.texts outputs))
    | none, none => do
      Logged.warn "A lookup without \"fields\" requires \"as\"; using \"_lookup\"."
      pure (base.withField "as" (.texts ["_lookup"]))
  return named.withField? "default" l.default

end Lookup

/-! ### Reshaping -/

/-- Fields folded into pairs of a key and a value. -/
structure Fold where
  fields : List String
  key : String
  value : String
deriving DecidableEq

def Fold.ofTransform (fields : List String) (outputs : Option (String × String)) : Fold :=
  let (key, value) := outputs.getD ("key", "value")
  ⟨fields, key, value⟩

def Fold.record (f : Fold) : Json :=
  .object [("type", .str "fold"), ("fields", .texts f.fields), ("as", .texts [f.key, f.value])]

/-- Rows made of the items of arrays. -/
structure Flatten where
  fields : List String
  outputs : List String
deriving DecidableEq

/-- The flattening of a transform; a field without a name for its result keeps its own. -/
def Flatten.ofTransform (fields : List String) (outputs : Option (List String)) : Flatten :=
  let given := outputs.getD []
  ⟨fields, fields.zipIdx.map fun (field, i) => given.getD i field⟩

def Flatten.record (f : Flatten) : Json :=
  .object [("type", .str "flatten"), ("fields", .texts f.fields), ("as", .texts f.outputs)]

/-- Columns made of the values of a field; which ones is not known before the data is. -/
structure Pivot where
  spec : PivotSpec
deriving BEq

namespace Pivot

def deps (p : Pivot) : NameSet :=
  NameSet.ofList (p.spec.field :: p.spec.value :: p.spec.groupby)

def identity (p : Pivot) : Json :=
  .arr [.str p.spec.field, .str p.spec.value, .texts p.spec.groupby,
    .ofOption (p.spec.limit.map .nat), .ofText? p.spec.op]

def record (p : Pivot) : Json :=
  withGroups (((Json.object [("type", .str "pivot"), ("field", .str p.spec.field),
    ("value", .str p.spec.value)]).withField? "limit" (p.spec.limit.map .nat)).withField?
      "op" (p.spec.op.map .str)) p.spec.groupby

end Pivot

/-- A random sample of rows. -/
structure Sample where
  size : Nat
deriving DecidableEq

def Sample.record (s : Sample) : Json :=
  .object [("type", .str "sample"), ("size", .nat s.size)]

/-! ### Imputation -/

/-- Missing values of a field filled along a key. -/
structure Impute where
  spec : ImputeSpec
deriving BEq

namespace Impute

def deps (i : Impute) : NameSet :=
  NameSet.ofList (i.spec.field :: i.spec.key :: i.spec.groupby)

def identity (i : Impute) : Json :=
  .arr [.str i.spec.field, .str i.spec.key, .ofOption i.spec.keyvals, .texts i.spec.groupby,
    .ofOption (i.spec.frame.map frameJson), .ofText? i.spec.method, .ofOption i.spec.value]

def keyvals (v : Json) : Json :=
  match v.field? "stop" with
  | some stop =>
    let start := (v.field? "start").getD (.nat 0)
    let parts := [start.toText, stop.toText] ++ ((v.field? "step").map Json.toText).toList
    .object [("signal", .str ("sequence(" ++ ",".intercalate parts ++ ")"))]
  | none => v

def byValue (i : Impute) : Bool :=
  i.spec.method.isNone || i.spec.method == some "value"

def fill (i : Impute) : Json :=
  let base := Json.object [
    ("type", .str "impute"),
    ("field", .str i.spec.field),
    ("key", .str i.spec.key),
    ("method", .str "value"),
    ("value", if i.byValue then .ofOption i.spec.value else .null)]
  withGroups (base.withField? "keyvals" (i.spec.keyvals.map keyvals)) i.spec.groupby

/-- The transforms of the node. A statistic is computed over a window and then put in the place of
the missing values. -/
def records (i : Impute) : List Json :=
  if i.byValue then [i.fill]
  else
    let field := i.spec.field
    let derived := "imputed_" ++ field ++ "_value"
    let window := withGroups (.object [
      ("type", .str "window"),
      ("as", .texts [derived]),
      ("ops", .arr [.ofText? i.spec.method]),
      ("fields", .texts [field]),
      ("frame", frameJson (i.spec.frame.getD [none, none])),
      ("ignorePeers", .bool false)]) i.spec.groupby
    let replace := Json.object [
      ("type", .str "formula"),
      ("expr", .str ("datum." ++ field ++ " === null ? datum." ++ derived ++ " : datum." ++ field)),
      ("as", .str field)]
    [i.fill, window, replace]

end Impute

/-! ### Estimates -/

/-- A density, quantiles or a fitted curve over a field. -/
structure Estimation where
  method : Estimate
  field : String
  /-- The field on which a fitted curve depends. -/
  on : Option String
  groupby : List String
  outputs : String × String
  params : Dict Json
deriving BEq

namespace Estimation

def defaultOutputs (method : Estimate) (field : String) (on : Option String) : String × String :=
  match method with
  | .density => ("value", "density")
  | .quantile => ("prob", "value")
  | _ => (on.getD "", field)

/-- The estimation of a transform. A density is shared by groups unless told otherwise. -/
def ofTransform (method : Estimate) (groupby : List String) (outputs : Option (List String))
    (params : Dict Json) : Estimation :=
  let field := ((params.get? method.name).bind Json.text?).getD ""
  let params := params.erase method.name
  let on := (params.get? "on").bind Json.text?
  let params := params.erase "on"
  let (first, second) := defaultOutputs method field on
  let given := outputs.getD []
  { method, field, on, groupby
    outputs := (given.getD 0 first, given.getD 1 second)
    params := if method == .density then params.insertIfNew "resolve" (.str "shared") else params }

def deps (e : Estimation) : NameSet :=
  NameSet.ofList (e.field :: (e.on.toList ++ e.groupby))

def produced (e : Estimation) : NameSet :=
  NameSet.ofList [e.outputs.1, e.outputs.2]

def identity (e : Estimation) : Json :=
  .arr [.str e.method.name, .str e.field, .ofText? e.on, .texts e.groupby,
    .texts [e.outputs.1, e.outputs.2], .obj e.params]

def record (e : Estimation) : Json :=
  let base : Json := match e.method with
    | .density => .object [("type", .str "kde"), ("field", .str e.field)]
    | .quantile => .object [("type", .str "quantile"), ("field", .str e.field)]
    | method => .object [("type", .str method.name), ("x", .ofText? e.on), ("y", .str e.field)]
  let grouped := (withGroups base e.groupby).fields?.getD []
  (Json.obj (grouped.extend e.params)).withField "as" (.texts [e.outputs.1, e.outputs.2])

end Estimation

/-- The least and the greatest value of a field, kept in a signal. -/
structure Extent where
  field : String
  param : String
deriving DecidableEq

def Extent.record (e : Extent) : Json :=
  .object [("type", .str "extent"), ("field", .str e.field), ("signal", .str e.param)]

/-! ### Geography -/

/-- Coordinates projected to positions. -/
structure GeoPoint where
  projection : String
  /-- Longitude and latitude. -/
  fields : String × String
  /-- The two positions. -/
  outputs : String × String
deriving DecidableEq

namespace GeoPoint

def identity (g : GeoPoint) : Json :=
  .arr [.str g.projection, .texts [g.fields.1, g.fields.2], .texts [g.outputs.1, g.outputs.2]]

def record (g : GeoPoint) : Json :=
  .object [
    ("type", .str "geopoint"),
    ("projection", .str g.projection),
    ("fields", .texts [Path.flatName g.fields.1, Path.flatName g.fields.2]),
    ("as", .texts [g.outputs.1, g.outputs.2])]

end GeoPoint

/-- Geographic features, made of coordinates or taken from a field, and kept in a signal to which a
projection is fitted. -/
structure GeoJson where
  fields : Option (String × String)
  geojson : Option String
  signal : String
deriving DecidableEq

namespace GeoJson

def deps (g : GeoJson) : NameSet :=
  NameSet.ofList ((g.fields.map fun f => [f.1, f.2]).getD [] ++ g.geojson.toList)

def identity (g : GeoJson) : Json :=
  .arr [.ofOption (g.fields.map fun f => .texts [f.1, f.2]), .ofText? g.geojson, .str g.signal]

def record (g : GeoJson) : Json :=
  ((Json.object [("type", .str "geojson"), ("signal", .str g.signal)]).withField?
    "fields" (g.fields.map fun f => .texts [Path.flatName f.1, Path.flatName f.2])).withField?
      "geojson" (g.geojson.map fun f => .str (Path.flatName f))

end GeoJson

end ChartPlan.Flow
