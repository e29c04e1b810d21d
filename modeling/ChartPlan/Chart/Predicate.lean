import ChartPlan.Chart.TimeUnit
import ChartPlan.Error
import ChartPlan.Field.Path
import ChartPlan.Json.Printer

/-!
# Predicates

The condition of a filter: an expression, a test of a field, membership in a selection, or a logical
combination. `Predicate.toExpr` is the expression that the filter evaluates, and
`Predicate.implicitParse` tells which coercions the literals imply.
-/

namespace ChartPlan

/-- A test of the value of a field. -/
inductive FieldTest where
  | equal (v : Json)
  | below (v : Json)
  | atMost (v : Json)
  | above (v : Json)
  | atLeast (v : Json)
  /-- Between two bounds, of which a null one is open. -/
  | range (bounds : List Json)
  | oneOf (values : List Json)
  | valid (expected : Bool)
deriving BEq

/-- The condition of a filter. -/
inductive Predicate where
  | expr (text : String)
  | field (name : String) (unit : Option TimeUnit) (test : FieldTest)
  /-- Membership in a selection; `empty` tells whether an empty selection holds every row. -/
  | param (name : String) (empty : Bool)
  | and (operands : List Predicate)
  | or (operands : List Predicate)
  | not (operand : Predicate)
deriving BEq

/-! ### Literals -/

namespace DateTime

def isDateTime (v : Json) : Bool :=
  ["year", "quarter", "month", "date", "day", "hours", "minutes", "seconds", "milliseconds"].any
    fun key => (v.field? key).isSome

def part (v : Json) (key : String) (otherwise : String) : String :=
  match v.field? key with
  | some (.str s) => Text.quote s
  | some other => other.toText
  | none => otherwise

def month (v : Json) : String :=
  match (v.field? "month").bind Json.int? with
  | some m => toString (m - 1)
  | none => part v "month" "0"

def toExpr (v : Json) : String :=
  (if v.field? "utc" == some (.bool true) then "utc" else "datetime") ++ "(" ++ ", ".intercalate [
    part v "year" "2012",
    month v,
    part v "date" "1",
    part v "hours" "0",
    part v "minutes" "0",
    part v "seconds" "0",
    part v "milliseconds" "0"] ++ ")"

end DateTime

/-- A literal to which a field is compared; texts are dates when the field is one. -/
def literal (temporal : Bool) (v : Json) : String :=
  if DateTime.isDateTime v then "time(" ++ DateTime.toExpr v ++ ")"
  else
    match v with
    | .str s => if temporal then "time(datetime(" ++ Text.quote s ++ "))" else v.toText
    | _ => v.toText

namespace FieldTest

def read? (fields : Dict Json) : Option FieldTest :=
  let bounds (v : Json) : List Json := v.items?.getD []
  ((fields.get? "equal").map .equal)
    |>.or ((fields.get? "lt").map .below)
    |>.or ((fields.get? "lte").map .atMost)
    |>.or ((fields.get? "gt").map .above)
    |>.or ((fields.get? "gte").map .atLeast)
    |>.or ((fields.get? "range").map fun v => .range (bounds v))
    |>.or (((fields.get? "oneOf").or (fields.get? "in")).map fun v => .oneOf (bounds v))
    |>.or ((fields.get? "valid").map fun v => .valid (v.bool?.getD true))

def bound? (v : Option Json) : Option Json :=
  v.filter fun v => !v.isNull

def toExpr (temporal : Bool) (accessor : String) : FieldTest → String
  | .equal v => accessor ++ "===" ++ literal temporal v
  | .below v => accessor ++ "<" ++ literal temporal v
  | .atMost v => accessor ++ "<=" ++ literal temporal v
  | .above v => accessor ++ ">" ++ literal temporal v
  | .atLeast v => accessor ++ ">=" ++ literal temporal v
  | .range bounds =>
    match bound? bounds.head?, bound? (bounds.drop 1).head? with
    | some lo, some hi =>
      "inrange(" ++ accessor ++ ", [" ++ literal temporal lo ++ ", " ++ literal temporal hi ++ "])"
    | some lo, none => accessor ++ " >= " ++ literal temporal lo
    | none, some hi => accessor ++ " <= " ++ literal temporal hi
    | none, none => "true"
  | .oneOf values =>
    "indexof([" ++ ",".intercalate (values.map (literal temporal)) ++ "], " ++ accessor ++ ") !== -1"
  | .valid true => accessor ++ "!==null&&!isNaN(" ++ accessor ++ ")"
  | .valid false => accessor ++ "===null||isNaN(" ++ accessor ++ ")"

def sample? : FieldTest → Option Json
  | .equal v => some v
  | .range values | .oneOf values => values.head?
  | _ => none

/-- The coercion that a literal implies: dates, numbers other than zero, and texts that are not
empty. -/
def impliedParse? (v : Json) : Option String :=
  if DateTime.isDateTime v then some "date"
  else
    match v with
    | .num n => if n.toReal.isZero then none else some "number"
    | .str s => if s.isEmpty then none else some "string"
    | _ => none

end FieldTest

namespace Predicate

def readField (fields : Dict Json) : Except Error Predicate :=
  match (fields.get? "field").bind Json.text? with
  | none => .error (.invalidSpec "filter" "field predicate requires \"field\"")
  | some name =>
    match FieldTest.read? fields with
    | some test => .ok (.field name ((fields.get? "timeUnit").bind TimeUnit.ofJson?) test)
    | none =>
      .error (.invalidSpec "filter" ("field predicate on \"" ++ name ++ "\" has no test"))

def readDeep : Nat → Json → Except Error Predicate
  | _, .str text => .ok (.expr text)
  | fuel + 1, .obj fields =>
    let operands (v : Json) : Except Error (List Predicate) :=
      match v with
      | .arr items => items.mapM (readDeep fuel)
      | _ => .error (.invalidSpec "filter" "logical operands must be an array")
    match Dict.get? fields "and", Dict.get? fields "or", Dict.get? fields "not",
        (Dict.get? fields "param").bind Json.text? with
    | some v, _, _, _ => (operands v).map .and
    | none, some v, _, _ => (operands v).map .or
    | none, none, some v, _ => (readDeep fuel v).map .not
    | none, none, none, some name =>
      .ok (.param name (((Dict.get? fields "empty").bind Json.bool?).getD true))
    | none, none, none, none => readField fields
  | _, other => .error (.invalidSpec "filter" ("unsupported predicate " ++ other.toText))

def read (v : Json) : Except Error Predicate :=
  readDeep (v.depth + 1) v

mutual

def fieldList : Predicate → List String
  | .expr text => fieldsInExpr text
  | .field name _ _ => [name]
  | .param _ _ => []
  | .and operands | .or operands => fieldLists operands
  | .not operand => fieldList operand

def fieldLists : List Predicate → List String
  | [] => []
  | p :: rest => fieldList p ++ fieldLists rest

end

def fields (p : Predicate) : NameSet :=
  NameSet.ofList p.fieldList

mutual

def params : Predicate → List String
  | .param name _ => [name]
  | .and operands | .or operands => paramLists operands
  | .not operand => params operand
  | _ => []

def paramLists : List Predicate → List String
  | [] => []
  | p :: rest => params p ++ paramLists rest

end

def impliedBy (name : String) (unit : Option TimeUnit) (test : FieldTest) :
    List (String × String) :=
  ((test.sample?.bind FieldTest.impliedParse?).map (name, ·)).toList
    ++ (unit.map fun _ => (name, "date")).toList

mutual

def impliedList : Predicate → List (String × String)
  | .field name unit test => impliedBy name unit test
  | .and operands | .or operands => impliedLists operands
  | .not operand => impliedList operand
  | _ => []

def impliedLists : List Predicate → List (String × String)
  | [] => []
  | p :: rest => impliedList p ++ impliedLists rest

end

/-- The coercions that the literals of a predicate imply; of two for one field the later wins. -/
def implicitParse (p : Predicate) : Dict String :=
  Dict.ofList p.impliedList

def membership (name : String) (empty : Bool) : String :=
  let store := Text.quote (name ++ "_store")
  let test := "vlSelectionTest(" ++ store ++ ", datum)"
  if empty then "!length(data(" ++ store ++ ")) || " ++ test
  else "length(data(" ++ store ++ ")) && " ++ test

def tested (name : String) : Option TimeUnit → String
  | some unit => "time(" ++ unit.truncation (Path.accessor name) ++ ")"
  | none => Path.accessor name

mutual

def toExpr : Predicate → String
  | .expr text => text
  | .field name unit test => test.toExpr unit.isSome (tested name unit)
  | .param name empty => membership name empty
  | .and operands => " && ".intercalate (operandExprs operands)
  | .or operands => " || ".intercalate (operandExprs operands)
  | .not operand => "!(" ++ toExpr operand ++ ")"

def operandExprs : List Predicate → List String
  | [] => []
  | p :: rest => ("(" ++ toExpr p ++ ")") :: operandExprs rest

end

end Predicate

end ChartPlan
