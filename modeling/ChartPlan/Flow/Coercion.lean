import ChartPlan.Diagnostics
import ChartPlan.Field.Path
import ChartPlan.Json.Printer
import ChartPlan.Text.Visible

/-!
# Coercions

A coercion node turns fields into numbers, texts, dates and so on. A loader coerces top-level fields
by itself; nested fields are coerced by formulas.
-/

namespace ChartPlan.Flow

/-- Fields with the kinds that they are coerced to. -/
structure Coercion where
  kinds : Dict String
deriving DecidableEq

namespace Coercion

def fields (c : Coercion) : NameSet :=
  c.kinds.keys

def conflicts (a b : Coercion) : List String :=
  Dict.keys (a.kinds.filter fun (field, kind) =>
    match b.kinds.get? field with
    | some other => other != kind
    | none => false)

def conflictNote (a b : Coercion) (field : String) : Note :=
  let ours := (a.kinds.get? field).getD ""
  let theirs := (b.kinds.get? field).getD ""
  ⟨.warn, "Field \"" ++ field ++ "\" is parsed as \"" ++ ours ++ "\" and \"" ++ theirs ++
    "\"; using \"" ++ theirs ++ "\".", false⟩

/-- The coercions of both nodes, of which the second wins; conflicts are noted. -/
def merge (a b : Coercion) : Logged Coercion :=
  ⟨⟨a.kinds.extend b.kinds⟩, (a.conflicts b).map (a.conflictNote b)⟩

def guardedAccess (field : String) : String :=
  let parts := Path.segments field
  " && ".intercalate ((List.range parts.length).map fun i =>
    "datum[" ++ "][".intercalate ((parts.take (i + 1)).map Text.quote) ++ "]")

def unquoted (format : List Char) : String :=
  let front := format.dropWhile isQuoteMark
  String.ofList (front.reverse.dropWhile isQuoteMark).reverse

def expr? (field kind : String) : Option String :=
  let value := guardedAccess field
  match kind with
  | "number" => some ("toNumber(" ++ value ++ ")")
  | "boolean" => some ("toBoolean(" ++ value ++ ")")
  | "string" => some ("toString(" ++ value ++ ")")
  | "date" => some ("toDate(" ++ value ++ ")")
  | "flatten" => some value
  | _ =>
    let cs := kind.toList
    if "date:".toList.isPrefixOf cs then
      some ("timeParse(" ++ value ++ ",'" ++ unquoted (cs.drop 5) ++ "')")
    else if "utc:".toList.isPrefixOf cs then
      some ("utcParse(" ++ value ++ ",'" ++ unquoted (cs.drop 4) ++ "')")
    else none

def loaded (c : Coercion) : Dict String :=
  c.kinds.filter fun entry => !Path.isNested entry.1

def nested (c : Coercion) : Coercion :=
  ⟨c.kinds.filter fun entry => Path.isNested entry.1⟩

/-- The formula of one coercion; a kind that is not known is noted and has none. -/
def record? (field kind : String) : Logged (Option Json) :=
  match expr? field kind with
  | some expr =>
    pure (some (.object [("type", .str "formula"), ("expr", .str expr),
      ("as", .str (".".intercalate (Path.segments field)))]))
  | none => do
    Logged.warn ("Unrecognized parse \"" ++ kind ++ "\" for field \"" ++ field ++ "\".")
    return none

def records (c : Coercion) : Logged (List Json) := do
  return (← c.kinds.mapM fun (field, kind) => record? field kind).filterMap id

def label (c : Coercion) : String :=
  "Parse \x7b" ++ ", ".intercalate (c.kinds.map fun (field, kind) =>
    Text.visible field ++ ": " ++ Text.visible kind) ++ "\x7d"

end Coercion

end ChartPlan.Flow
