import ChartPlan.Json.Decoder

/-!
# Configuration

The defaults of a chart, which a `config` block changes one by one.
-/

namespace ChartPlan

/-- Defaults that a chart may override. -/
structure Config where
  /-- Whether rows with null or invalid values in continuous fields are dropped. -/
  filterInvalid : Bool := true
  /-- Width of a step of a discrete position scale. -/
  discreteStep : Binary64 := Binary64.nearest 20 1
  minOpacity : Binary64 := Binary64.nearest 3 10
  maxOpacity : Binary64 := Binary64.nearest 8 10
  maxSize : Binary64 := Binary64.nearest 361 1

namespace Config

/-- Whether invalid values are filtered: null keeps them. The one way to treat them is written as a
text, or as an object that holds null under that text. -/
def readInvalid? : Json → Option Bool
  | .null => some false
  | .str "filter" => some true
  | .obj [("filter", .null)] => some true
  | _ => none

def read? (v : Json) : Option Config := do
  let base : Config := {}
  let blocks ← Json.recordFields? ["mark", "view", "scale"] v
  let block (key : String) (names : List String) : Option (Dict Json) :=
    Json.defaulted blocks key [] (Json.recordFields? names)
  let mark ← block "mark" ["invalid"]
  let view ← block "view" ["discreteStep"]
  let scale ← block "scale" ["minOpacity", "maxOpacity", "maxSize"]
  return {
    filterInvalid := ← Json.defaulted mark "invalid" base.filterInvalid readInvalid?
    discreteStep := ← Json.defaulted view "discreteStep" base.discreteStep Json.real?
    minOpacity := ← Json.defaulted scale "minOpacity" base.minOpacity Json.real?
    maxOpacity := ← Json.defaulted scale "maxOpacity" base.maxOpacity Json.real?
    maxSize := ← Json.defaulted scale "maxSize" base.maxSize Json.real?
  }

end Config

end ChartPlan
