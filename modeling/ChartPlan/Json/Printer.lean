import ChartPlan.Json.Basic
import ChartPlan.Number.Shortest
import ChartPlan.Text.Quote

/-!
# The text of a JSON value

Values are written compactly: no blanks, object fields in the order of their names.
-/

namespace ChartPlan

def Number.toText : Number → String
  | .int i => toString i
  | .real x => x.toText

namespace Json

mutual

def toText : Json → String
  | .null => "null"
  | .bool true => "true"
  | .bool false => "false"
  | .num n => n.toText
  | .str s => Text.quote s
  | .arr items => "[" ++ ",".intercalate (itemTexts items) ++ "]"
  | .obj fields => "\x7b" ++ ",".intercalate (fieldTexts fields) ++ "\x7d"

def itemTexts : List Json → List String
  | [] => []
  | v :: rest => toText v :: itemTexts rest

def fieldTexts : List (String × Json) → List String
  | [] => []
  | (k, v) :: rest => (Text.quote k ++ ":" ++ toText v) :: fieldTexts rest

end

end Json

end ChartPlan
