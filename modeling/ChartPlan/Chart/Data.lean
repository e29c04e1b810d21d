import ChartPlan.Error
import ChartPlan.Json.Basic

/-!
# Data blocks

A view without a `data` block inherits the data of the view around it, and a null block starts from
an empty table. Otherwise the block holds rows, names where they come from, or generates them.
-/

namespace ChartPlan

/-- Where the rows of a data block come from. -/
inductive Origin where
  | values (rows : Json)
  | url (address : String)
  /-- Given at run time under the name of the block. -/
  | named
  | sequence (start stop : Binary64) (step : Option Binary64) (output : String)
  | graticule (params : Json)

/-- How fields are coerced when rows are loaded. -/
inductive ParseRule where
  /-- As the chart needs it. -/
  | inferred
  /-- Not at all. -/
  | off
  /-- As the user tells for each field. -/
  | given (kinds : Dict String)

/-- A data block. -/
structure DataBlock where
  origin : Origin
  name : Option String
  /-- Format properties other than `parse`. -/
  format : Dict Json
  parse : ParseRule

/-- The `data` property of a view. -/
inductive DataSetting where
  | inherit
  | empty
  | block (data : DataBlock)

namespace DataBlock

def isGenerator (d : DataBlock) : Bool :=
  match d.origin with
  | .sequence _ _ _ _ | .graticule _ => true
  | _ => false

def isNamed (d : DataBlock) : Bool :=
  match d.origin with
  | .named => true
  | _ => false

/-- The extension of the path in an address, in lower case: what follows its last dot. -/
def extension? (address : String) : Option String :=
  let path := address.toList.takeWhile fun c => c != '?' && c != '#'
  if path.contains '.' then
    some (String.ofList ((path.reverse.takeWhile fun c => c != '.').reverse.map Char.toLower))
  else none

/-- The format type: the one given, or the one that the extension of the address tells. -/
def formatType? (d : DataBlock) : Option String :=
  match (d.format.get? "type").bind Json.text? with
  | some type => some type
  | none =>
    match d.origin with
    | .url address =>
      (extension? address).map fun ext =>
        if ["json", "csv", "tsv", "dsv", "topojson"].contains ext then ext else "json"
    | .values (.str _) => some "json"
    | _ => none

end DataBlock

namespace Origin

def readSequence (v : Json) : Except Error Origin :=
  let number (key : String) : Option Binary64 := (v.field? key).bind Json.real?
  match number "start", number "stop" with
  | some start, some stop =>
    .ok (.sequence start stop (number "step") ((v.textField? "as").getD "data"))
  | _, _ =>
    .error (.invalidSpec "data.sequence" "sequence requires numeric start and stop")

def read (fields : Dict Json) (name : Option String) : Except Error Origin :=
  match fields.get? "values", fields.get? "url", fields.get? "sequence", fields.get? "graticule",
      name with
  | some rows, _, _, _, _ => .ok (.values rows)
  | none, some (.str address), _, _, _ => .ok (.url address)
  | none, some _, _, _, _ => .error (.invalidSpec "data.url" "expected a string")
  | none, none, some v, _, _ => readSequence v
  | none, none, none, some params, _ => .ok (.graticule params)
  | none, none, none, none, some _ => .ok .named
  | none, none, none, none, none =>
    .error (.invalidSpec "data" "expected one of values, url, name, sequence or graticule")

end Origin

namespace ParseRule

def read : Option Json → Except Error ParseRule
  | none => .ok .inferred
  | some .null => .ok .off
  | some (.obj fields) =>
    .ok (.given (fields.filterMap fun (key, v) => v.text?.map (key, ·)))
  | some _ => .error (.invalidSpec "data.format.parse" "expected an object or null")

end ParseRule

namespace DataSetting

def read : Option Json → Except Error DataSetting
  | none => .ok .inherit
  | some .null => .ok .empty
  | some (.obj fields) => do
    let name := (Dict.get? fields "name").bind Json.text?
    let origin ← Origin.read fields name
    let format := ((Dict.get? fields "format").bind Json.fields?).getD []
    let parse ← ParseRule.read (format.get? "parse")
    return .block { origin, name, format := format.erase "parse", parse }
  | some _ => .error (.invalidSpec "data" "expected an object or null")

end DataSetting

end ChartPlan
