import ChartPlan.Property.Merge

/-!
# Scale types

A scale type is an open set of names: the user may write any. The names known here have discrete or
continuous domains, and types of a category can share a scale.
-/

namespace ChartPlan.ScaleType

def hasDiscreteDomain (type : String) : Bool :=
  ["ordinal", "band", "point", "bin-ordinal"].contains type

def numeric : List String :=
  ["linear", "log", "pow", "sqrt", "symlog", "time", "utc", "sequential"]

def hasContinuousDomain (type : String) : Bool :=
  (numeric ++ ["quantile", "quantize", "threshold"]).contains type

/-- What types that can share a scale have in common; a type without a category stands for itself. -/
def category (type : String) : String :=
  if numeric.contains type then "numeric"
  else if ["band", "point"].contains type then "ordinal-position"
  else type

def compatible (a b : String) : Bool :=
  category a == category b
    || (category a == "ordinal-position" && b == "time")
    || (category b == "ordinal-position" && a == "time")

def precedence (type : String) : Nat :=
  match type with
  | "band" => 11
  | "point" => 10
  | _ => if ["log", "pow", "sqrt", "symlog", "identity", "sequential"].contains type then 1 else 0

def settingPrecedence (s : Setting Json) : Nat :=
  precedence (s.value.text?.getD "")

def prefer : TieBreaker := fun a b =>
  if settingPrecedence a < settingPrecedence b then b else a

end ChartPlan.ScaleType
