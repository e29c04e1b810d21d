import ChartPlan.View.Geography
import ChartPlan.View.Scales

/-!
# Data preparation

The nodes that the encoding of a view implies: coercions, binnings, time units, places in custom
orders, aggregates, imputation, stacks, filters for invalid values, and the facet of a faceted view.
-/

namespace ChartPlan

namespace ChannelDef

/-- Whether bins of the field are labelled: a discrete scale shows them one by one. -/
def labelsBins (d : ChannelDef) : Bool :=
  d.type.isDiscrete && Channel.scaled.contains d.channel

def binning? (view : String) (d : ChannelDef) : Option Flow.Binning :=
  match d.binParams?, d.field with
  | some params, some field =>
    let start := Bin.text params ++ "_" ++ Path.flatName field
    let binning := Flow.Binning.fresh params field (start, start ++ "_end") (Bin.signalStem view)
    some (if d.labelsBins then binning.withRange (start ++ "_range") else binning)
  | _, _ => none

def timeCut? (d : ChannelDef) : Option Flow.TimeCut :=
  match d.timeUnit, d.field with
  | some unit, some field =>
    if d.isBinned then none
    else some ⟨unit.fullName ++ "_" ++ Path.flatName field, field, unit⟩
  | _, _ => none

def sortFormula? (d : ChannelDef) : Option Flow.Formula :=
  match d.sort with
  | some (.arr order) => Flow.Formula.sortIndex? d order
  | _ => none

def neededKind? (d : ChannelDef) : Option String :=
  if d.type == .temporal || d.timeUnit.isSome then some "date"
  else if d.type == .quantitative && (d.aggregate == some "min" || d.aggregate == some "max") then
    some "number"
  else none

def flattenNested (kinds : Dict String) (field : String) : Dict String :=
  if Path.isNested field then kinds.insertIfNew field "flatten" else kinds

def addKinds (kinds : Dict String) (d : ChannelDef) : Dict String :=
  match d.field, d.type with
  | none, _ | _, .geojson => kinds
  | some field, _ =>
    let kinds := match d.neededKind? with
      | some kind => kinds.insert field kind
      | none => flattenNested kinds field
    match (d.sort.bind Json.fields?).bind fun sort => (sort.get? "field").bind Json.text? with
    | some sortField => flattenNested kinds sortField
    | none => kinds

def facetChannel (v : View) (channel : String) (d : ChannelDef) : Flow.FacetChannel where
  name := v.inner (channel ++ "_domain")
  fields := d.outputName :: (if d.binParams?.isSome then [d.endName] else [])
  sort := (d.sort.bind Json.fields?).bind fun sort =>
    ((sort.get? "field").bind Json.text?).map fun field =>
      let op := ((sort.get? "op").bind Json.text?).getD "mean"
      ⟨op, field, op ++ "_" ++ Path.flatName field⟩

end ChannelDef

namespace View

def preparedDefs (v : View) : List ChannelDef :=
  match v.body with
  | .unit _ e => e.defs
  | .facet mapping => mapping.channels.map Prod.snd
  | _ => []

/-! ### Coercions, bins and time units -/

def pathMarks : List String :=
  ["line", "area", "trail"]

/-- The field along which a path connects rows, when it is a number and no other order is given. -/
def pathField? (mark : Mark) (e : Encoding) : Option String :=
  if pathMarks.contains mark.type && !e.has "order" then
    let horizontal := (mark.props.get? "orient").bind Json.text? == some "horizontal"
    (e.get? (if horizontal then "y" else "x")).bind fun d =>
      if d.type == .quantitative && d.aggregate.isNone && !d.isBinned then d.field else none
  else none

def neededKinds (v : View) : Dict String :=
  let kinds := v.preparedDefs.foldl ChannelDef.addKinds []
  match v.unit?.bind fun (mark, e) => pathField? mark e with
  | some field => kinds.insertIfNew field "number"
  | none => kinds

def binNode? (v : View) : Option Flow.Node :=
  let node := (v.preparedDefs.filterMap (ChannelDef.binning? v.name)).foldl Flow.Bins.add {}
  if node.bins.isEmpty then none else some (.bin node)

def timeUnitNode? (v : View) : Option Flow.Node :=
  let cuts := (v.preparedDefs.filterMap ChannelDef.timeCut?).foldl
    (fun (cuts : Dict Flow.TimeCut) c => cuts.insertIfNew c.output c) []
  if cuts.isEmpty then none else some (.timeUnit ⟨cuts⟩)

def sortNodes (v : View) : List Flow.Node :=
  (v.preparedDefs.filterMap ChannelDef.sortFormula?).map .formula

/-! ### Geography -/

def geoNodes (projections : Renames) (v : View) (e : Encoding) : List Flow.Node :=
  let projection := projections.resolve (v.inner "projection")
  (v.features e).map .geoJson ++ coordinateChannels.filterMap fun (channels, positions) =>
    (coordinates? e channels.1 channels.2).map fun fields =>
      .geoPoint ⟨projection, fields, (v.inner positions.1, v.inner positions.2)⟩

/-! ### Aggregates -/

def projectedPosition? (channel : String) : Option String :=
  match channel with
  | "longitude" => some "x"
  | "latitude" => some "y"
  | "longitude2" => some "x2"
  | "latitude2" => some "y2"
  | _ => none

def groupFields (v : View) (d : ChannelDef) : List String :=
  match projectedPosition? d.channel with
  | some position => [v.inner position]
  | none =>
    if d.binParams?.isSome then
      [d.outputName, d.endName] ++ (if d.labelsBins then [d.rangeName] else [])
    else [d.outputName]

def addToAggregate (v : View) (a : Flow.Aggregate) (d : ChannelDef) : Flow.Aggregate :=
  match d.aggregate with
  | some op => a.addMeasure d.field op d.outputName
  | none => a.addDimensions (v.groupFields d)

def aggregate? (v : View) (e : Encoding) : Option Flow.Aggregate :=
  if e.hasAggregate then some (e.defs.foldl v.addToAggregate {}) else none

/-! ### Imputation -/

def seriesChannels : List String :=
  ["color", "fill", "stroke", "opacity", "fillOpacity", "strokeOpacity", "strokeDash",
    "strokeWidth", "shape", "detail"]

def seriesFields (e : Encoding) : List String :=
  Flow.appendNew [] (((seriesChannels.flatMap e.defsOf).filter fun d =>
    d.aggregate.isNone).map ChannelDef.outputName)

def imputeAlong (e : Encoding) (imputed key : ChannelDef) : ImputeSpec :=
  let params : Dict Json := (imputed.impute.bind Json.fields?).getD []
  { field := imputed.outputName
    key := key.outputName
    keyvals := params.get? "keyvals"
    groupby := seriesFields e
    frame := (params.get? "frame").bind Json.frame
    method := (params.get? "method").bind Json.text?
    value := params.get? "value" }

def impute? (e : Encoding) : Option Flow.Impute :=
  match e.get? "x", e.get? "y" with
  | some x, some y =>
    if x.impute.isSome then some ⟨imputeAlong e x y⟩
    else if y.impute.isSome then some ⟨imputeAlong e y x⟩
    else none
  | _, _ => none

/-! ### Stacks -/

def stackGroups (e : Encoding) (s : Stacking) : List String :=
  match s.groupChannel.bind e.get? with
  | some d => d.outputName :: (if d.readsBin then [d.endName] else [])
  | none => []

/-- The sorting of the layers: as the order channel tells, and else by the layers, from the top of a
vertical stack. -/
def stackSort (e : Encoding) (s : Stacking) : List (String × String) :=
  match e.channels.get? "order" with
  | some defs => defs.map fun d =>
    (d.outputName, if d.sort.bind Json.text? == some "descending" then "descending" else "ascending")
  | none => s.stackby.map fun d =>
    (d.outputName, if s.channel == "y" then "descending" else "ascending")

def stackNode? (v : View) (e : Encoding) : Option Flow.Stack := do
  let s ← v.stack
  let d ← e.get? s.channel
  return {
    groupby := stackGroups e s
    field := d.outputName
    stackby := s.stackby.map ChannelDef.outputName
    sort := stackSort e s
    offset := s.offset
    start := d.outputName ++ "_start"
    stop := d.outputName ++ "_end"
  }

/-! ### Invalid values -/

/-- Whether rows with invalid values are dropped: as the mark tells, and else as configured. Paths
show gaps instead. -/
def dropsInvalid (config : Config) (mark : Mark) : Bool :=
  let filters := match mark.props.get? "invalid" with
    | some v => v == .str "filter"
    | none => config.filterInvalid
  filters && !pathMarks.contains mark.type

/-- Whether a definition reads a field through a scale with a continuous domain. -/
def isContinuous (v : View) (d : ChannelDef) : Bool :=
  !d.isCount && d.field.isSome
    && (v.scales.get? (Channel.scaleOf d.channel)).any fun s => ScaleType.hasContinuousDomain s.type

def validFilter? (config : Config) (v : View) (mark : Mark) (e : Encoding) :
    Option Flow.ValidFilter :=
  let fields := Dict.ofList ((e.defs.filter v.isContinuous).map fun d => (d.outputName, d.type))
  if dropsInvalid config mark && !fields.isEmpty then some ⟨fields⟩ else none

/-! ### Facets -/

/-- Whether cells are sized by a scale of their own: a discrete one with a step. -/
def sizesCells (s : Scale) : Bool :=
  !s.merged && ScaleType.hasDiscreteDomain s.type
    && (s.props.get? "range").any fun range => (range.field? "step").isSome

/-- The field that sizes the cells in a direction; a domain of several fields is noted. -/
def cellField? (child : Option View) (channel : String) : Logged (Option (String × String)) :=
  match child.bind fun c => c.scales.get? channel with
  | none => pure none
  | some s =>
    if sizesCells s then
      match s.domainField? with
      | some field => pure (some (channel, field))
      | none => do
        Logged.warn ("Cannot size the independent \"" ++ channel ++
          "\" scale of the facet cells: its domain is not a single field.")
        return none
    else pure none

def facetNode (v : View) (mapping : FacetMapping) (child : Option View) (id : Nat) :
    Logged Flow.Facet := do
  let x ← cellField? child "x"
  let y ← cellField? child "y"
  return {
    id
    main := v.inner "main"
    name := v.inner "facet"
    row := mapping.row.map (ChannelDef.facetChannel v "row")
    column := mapping.column.map (ChannelDef.facetChannel v "column")
    facet := mapping.facet.map (ChannelDef.facetChannel v "facet")
    independent := Dict.ofList (x.toList ++ y.toList)
  }

end View

end ChartPlan
