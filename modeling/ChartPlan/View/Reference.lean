import ChartPlan.Json.Basic
import ChartPlan.Renames
import ChartPlan.Text.Quote

/-!
# References inside written components

Components refer to signals inside `signal` expressions and to datasets under `data`. Before they are
written the references are replaced by the names that were given in the end.
-/

namespace ChartPlan.Reference

/-! ### Signals -/

def insertByLength (name : String) : List String → List String
  | [] => [name]
  | a :: rest =>
    if a.utf8ByteSize < name.utf8ByteSize then name :: a :: rest
    else a :: insertByLength name rest

/-- Names from long to short, so that a name is replaced before any part of it; names of one length
keep their order. -/
def longestFirst (names : List String) : List String :=
  names.foldl (fun acc name => insertByLength name acc) []

/-- Replaces renamed signals in an expression, each on the text that the ones before it left. -/
def renameIn (renames : Renames) (expr : String) : String :=
  String.ofList ((longestFirst renames.entries.keys).foldl (fun text old =>
    Text.replaceAll old.toList (renames.resolve old).toList text) expr.toList)

mutual

def resolveSignals (renames : Renames) : Json → Json
  | .arr items => .arr (resolveSignalItems renames items)
  | .obj fields => .obj (resolveSignalFields renames fields)
  | other => other

def resolveSignalItems (renames : Renames) : List Json → List Json
  | [] => []
  | v :: rest => resolveSignals renames v :: resolveSignalItems renames rest

def resolveSignalFields (renames : Renames) : List (String × Json) → List (String × Json)
  | [] => []
  | (key, .str s) :: rest =>
    (key, .str (if key = "signal" then renameIn renames s else s))
      :: resolveSignalFields renames rest
  | (key, v) :: rest => (key, resolveSignals renames v) :: resolveSignalFields renames rest

end

/-! ### Datasets -/

mutual

def resolveData (dataset? : String → Option String) : Json → Json
  | .arr items => .arr (resolveDataItems dataset? items)
  | .obj fields => .obj (resolveDataFields dataset? fields)
  | other => other

def resolveDataItems (dataset? : String → Option String) : List Json → List Json
  | [] => []
  | v :: rest => resolveData dataset? v :: resolveDataItems dataset? rest

def resolveDataFields (dataset? : String → Option String) :
    List (String × Json) → List (String × Json)
  | [] => []
  | (key, .str s) :: rest =>
    (key, .str (if key = "data" then (dataset? s).getD s else s))
      :: resolveDataFields dataset? rest
  | (key, v) :: rest => (key, resolveData dataset? v) :: resolveDataFields dataset? rest

end

end ChartPlan.Reference
