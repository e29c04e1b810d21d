import ChartPlan.Chart.Predicate
import ChartPlan.Json.Decoder

/-!
# Transforms

A transform of a view is recognised by the field that is named for its kind, and its other fields
must fit that kind.
-/

namespace ChartPlan

/-- An operation on a field and the name of its result. -/
structure Measure where
  op : String
  field : Option String
  output : String
deriving BEq

/-- A field to sort by, and the order. -/
structure SortKey where
  field : String
  order : Option String
deriving BEq

/-- An operation over a window of rows. -/
structure WindowOp where
  op : String
  field : Option String
  param : Option Json
  output : String
deriving BEq

/-- Operations over windows of sorted rows. -/
structure WindowSpec where
  ops : List WindowOp
  frame : Option (List (Option Int))
  ignorePeers : Option Bool
  groupby : List String
  sort : List SortKey
deriving BEq

/-- The rows in which a lookup searches: a data block or a selection. -/
structure LookupTarget where
  data : Option Json
  param : Option String
  key : String
  fields : Option (List String)

/-- Columns made of the values of a field. -/
structure PivotSpec where
  field : String
  value : String
  groupby : List String
  limit : Option Nat
  op : Option String
deriving BEq

/-- Missing values of a field filled along a key. -/
structure ImputeSpec where
  field : String
  key : String
  keyvals : Option Json
  groupby : List String
  frame : Option (List (Option Int))
  method : Option String
  value : Option Json
deriving BEq

/-- The statistical estimates. -/
inductive Estimate where
  | density
  | quantile
  | regression
  | loess
deriving DecidableEq

def Estimate.name : Estimate → String
  | .density => "density"
  | .quantile => "quantile"
  | .regression => "regression"
  | .loess => "loess"

/-- A transform of a view. -/
inductive Transform where
  | filter (condition : Predicate)
  | calculate (expr output : String)
  | bin (bin : Json) (field : String) (start stop : String)
  | timeUnit (unit : Json) (field output : String)
  | aggregate (measures : List Measure) (groupby : List String)
  | joinAggregate (measures : List Measure) (groupby : List String)
  | window (spec : WindowSpec)
  | lookup (field : String) (target : LookupTarget) (outputs : Option Json) (default : Option Json)
  | stack (field : String) (groupby : List String) (offset : Option String) (sort : List SortKey)
      (outputs : Json)
  | fold (fields : List String) (outputs : Option (String × String))
  | flatten (fields : List String) (outputs : Option (List String))
  | pivot (spec : PivotSpec)
  | sample (size : Nat)
  | impute (spec : ImputeSpec)
  | extent (field param : String)
  /-- The field that is estimated stands among the parameters, under the name of the method. -/
  | estimate (method : Estimate) (groupby : List String) (outputs : Option (List String))
      (params : Dict Json)

namespace Transform

open Json (required defaulted optional listOf textList)

/-! ### Parts of transforms -/

def readMeasure? (v : Json) : Option Measure := do
  let f ← Json.recordFields? ["op", "field", "as"] v
  return ⟨← required f "op" Json.text?, ← optional f "field" Json.text?, ← required f "as" Json.text?⟩

def readSortKey? (v : Json) : Option SortKey := do
  let f ← Json.recordFields? ["field", "order"] v
  return ⟨← required f "field" Json.text?, ← optional f "order" Json.text?⟩

def readWindowOp? (v : Json) : Option WindowOp := do
  let f ← Json.recordFields? ["op", "field", "param", "as"] v
  return ⟨← required f "op" Json.text?, ← optional f "field" Json.text?, ← optional f "param" some,
    ← required f "as" Json.text?⟩

def readTarget? (v : Json) : Option LookupTarget := do
  let f ← Json.recordFields? ["data", "param", "key", "fields"] v
  return ⟨← optional f "data" some, ← optional f "param" Json.text?, ← required f "key" Json.text?,
    ← optional f "fields" textList⟩

/-- The outputs of a bin transform: a pair, or a start whose end is named after it. -/
def readBinOutputs? : Json → Option (String × String)
  | .str start => some (start, start ++ "_end")
  | v => Json.textPair v

/-! ### Kinds of transforms -/

def readCalculate? (f : Dict Json) : Option Transform := do
  return .calculate (← required f "calculate" Json.text?) (← required f "as" Json.text?)

def readBin? (f : Dict Json) : Option Transform := do
  let (start, stop) ← required f "as" readBinOutputs?
  return .bin (← required f "bin" some) (← required f "field" Json.text?) start stop

def readTimeUnit? (f : Dict Json) : Option Transform := do
  return .timeUnit (← required f "timeUnit" some) (← required f "field" Json.text?)
    (← required f "as" Json.text?)

def readAggregate? (f : Dict Json) : Option Transform := do
  return .aggregate (← required f "aggregate" (listOf readMeasure?))
    (← defaulted f "groupby" [] textList)

def readJoinAggregate? (f : Dict Json) : Option Transform := do
  return .joinAggregate (← required f "joinaggregate" (listOf readMeasure?))
    (← defaulted f "groupby" [] textList)

def readWindow? (f : Dict Json) : Option Transform := do
  return .window {
    ops := ← required f "window" (listOf readWindowOp?)
    frame := ← optional f "frame" Json.frame
    ignorePeers := ← optional f "ignorePeers" Json.bool?
    groupby := ← defaulted f "groupby" [] textList
    sort := ← defaulted f "sort" [] (listOf readSortKey?)
  }

def readLookup? (f : Dict Json) : Option Transform := do
  return .lookup (← required f "lookup" Json.text?) (← required f "from" readTarget?)
    (← optional f "as" some) (← optional f "default" some)

def readStack? (f : Dict Json) : Option Transform := do
  return .stack (← required f "stack" Json.text?) (← defaulted f "groupby" [] textList)
    (← optional f "offset" Json.text?) (← defaulted f "sort" [] (listOf readSortKey?))
    (← required f "as" some)

def readFold? (f : Dict Json) : Option Transform := do
  return .fold (← required f "fold" textList) (← optional f "as" Json.textPair)

def readFlatten? (f : Dict Json) : Option Transform := do
  return .flatten (← required f "flatten" textList) (← optional f "as" textList)

def readPivot? (f : Dict Json) : Option Transform := do
  return .pivot {
    field := ← required f "pivot" Json.text?
    value := ← required f "value" Json.text?
    groupby := ← defaulted f "groupby" [] textList
    limit := ← optional f "limit" Json.nat?
    op := ← optional f "op" Json.text?
  }

def readSample? (f : Dict Json) : Option Transform := do
  return .sample (← required f "sample" Json.nat?)

def readImpute? (f : Dict Json) : Option Transform := do
  return .impute {
    field := ← required f "impute" Json.text?
    key := ← required f "key" Json.text?
    keyvals := ← optional f "keyvals" some
    groupby := ← defaulted f "groupby" [] textList
    frame := ← optional f "frame" Json.frame
    method := ← optional f "method" Json.text?
    value := ← optional f "value" some
  }

def readExtent? (f : Dict Json) : Option Transform := do
  return .extent (← required f "extent" Json.text?) (← required f "param" Json.text?)

/-- The kinds that are recognised by a field of their name, in the order in which they are tried. -/
def kinds : List (String × (Dict Json → Option Transform)) :=
  [("calculate", readCalculate?), ("bin", readBin?), ("timeUnit", readTimeUnit?),
    ("aggregate", readAggregate?), ("joinaggregate", readJoinAggregate?), ("window", readWindow?),
    ("lookup", readLookup?), ("stack", readStack?), ("fold", readFold?), ("flatten", readFlatten?),
    ("pivot", readPivot?), ("sample", readSample?), ("impute", readImpute?), ("extent", readExtent?)]

/-- The parameters of an estimate: all fields but the grouping and the outputs. -/
def readEstimate? (method : Estimate) (f : Dict Json) : Option Transform := do
  return .estimate method (← defaulted f "groupby" [] textList) (← optional f "as" textList)
    ((f.erase "groupby").erase "as")

def holdsText (f : Dict Json) (key : String) : Bool :=
  ((f.get? key).bind Json.text?).isSome

/-- Reads an estimate, whose method names a field; a fitted curve also needs the field it depends
on. -/
def readEstimate (method : Estimate) (f : Dict Json) : Except Error Transform :=
  match readEstimate? method f with
  | none => .error (.invalidTransform method.name)
  | some t =>
    let params := (f.erase "groupby").erase "as"
    if !holdsText params method.name then
      .error (.invalidSpec "transform" ("\"" ++ method.name ++ "\" must name a field"))
    else if (method == .regression || method == .loess) && !holdsText params "on" then
      .error (.invalidSpec "transform" ("\"" ++ method.name ++ "\" requires an \"on\" field"))
    else .ok t

def read (v : Json) : Except Error Transform :=
  match v with
  | .obj fields =>
    match Dict.get? fields "filter" with
    | some condition => (Predicate.read condition).map .filter
    | none =>
      match kinds.find? fun kind => Dict.has fields kind.1 with
      | some (kind, readKind?) =>
        match readKind? fields with
        | some t => .ok t
        | none => .error (.invalidTransform kind)
      | none =>
        match [Estimate.density, .quantile, .regression, .loess].find? fun method =>
            Dict.has fields method.name with
        | some method => readEstimate method fields
        | none => .error (.invalidSpec "transform" ("unrecognized transform " ++ v.toText))
  | _ => .error (.invalidSpec "transform" "expected an object")

end Transform

end ChartPlan
