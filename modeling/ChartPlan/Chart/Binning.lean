import ChartPlan.Field.Path
import ChartPlan.Json.Printer

/-!
# Binning

A field is binned by parameters such as `maxbins` or `step`. The text of the parameters makes the
names under which bins, their boundaries and their signals are known.
-/

namespace ChartPlan

/-- How a field is binned. -/
inductive Bin where
  /-- By a bin transform with these parameters. -/
  | by (params : Dict Json)
  /-- The data holds bins already. -/
  | done

namespace Bin

/-- The greatest number of bins when a channel does not tell: few where every bin takes a view or a
symbol of its own. -/
def defaultMax (channel : String) : Nat :=
  if ["row", "column", "facet", "shape", "size", "strokeDash"].contains channel then 6 else 10

/-- The parameters with a bound on the number of bins, when nothing else sets it. -/
def bounded (channel : String) (params : Dict Json) : Dict Json :=
  if ["maxbins", "step", "steps"].any params.has then params
  else params.insert "maxbins" (.nat (defaultMax channel))

def ofJson? (channel : String) : Json → Option Bin
  | .bool true => some (.by (bounded channel []))
  | .str s => if s == "binned" then some .done else none
  | .obj fields =>
    if Dict.get? fields "binned" == some (.bool true) then some .done
    else some (.by (bounded channel fields))
  | _ => none

def paramText : Json → String
  | .str s => s
  | .obj fields => "_".intercalate (fields.map fun (k, v) => k ++ "_" ++ v.toText)
  | other => other.toText

def text (params : Dict Json) : String :=
  "bin" ++ String.join (params.map fun (k, v) => nameOf ("_" ++ k ++ "_" ++ paramText v))

def key (params : Dict Json) (field : String) : String :=
  text params ++ "_" ++ field

def signalStem (view : String) : String :=
  if view.isEmpty then "" else view ++ "_"

def signal (view : String) (params : Dict Json) (field : String) : String :=
  signalStem view ++ key params field ++ "_bins"

end Bin

end ChartPlan
