import ChartPlan.Json.Basic

/-!
# Reading records

A record is written as an object, whose unknown fields are ignored, or as an array of its fields in
order. A field that is absent is an error unless it has a default; a field that is present must fit
its type, where only an optional field takes null.
-/

namespace ChartPlan.Json

/-- The fields of a record by name, when the record has the given field names in order. -/
def recordFields? (names : List String) : Json → Option (Dict Json)
  | .obj fields => some fields
  | .arr items => if items.length ≤ names.length then some (Dict.ofList (names.zip items)) else none
  | _ => none

def required {α : Type} (fields : Dict Json) (key : String) (read : Json → Option α) : Option α :=
  (fields.get? key).bind read

def defaulted {α : Type} (fields : Dict Json) (key : String) (default : α)
    (read : Json → Option α) : Option α :=
  match fields.get? key with
  | some v => read v
  | none => some default

def optional {α : Type} (fields : Dict Json) (key : String) (read : Json → Option α) :
    Option (Option α) :=
  match fields.get? key with
  | some .null => some none
  | some v => (read v).map some
  | none => some none

def listOf {α : Type} (read : Json → Option α) : Json → Option (List α)
  | .arr items => items.mapM read
  | _ => none

def textList : Json → Option (List String) :=
  listOf text?

def textPair : Json → Option (String × String)
  | .arr [.str a, .str b] => some (a, b)
  | _ => none

def frame : Json → Option (List (Option Int)) :=
  listOf fun
    | .null => some none
    | v => v.int?.map some

end ChartPlan.Json
