import ChartPlan.Dict

/-!
# Renamed names

When components merge, the names of those given up are recorded with the name that replaced them.
Chains are followed: when `a` became `b` and `b` became `c`, the name `a` resolves to `c`.
-/

namespace ChartPlan

/-- Recorded names with their replacements. -/
structure Renames where
  entries : Dict String := []
deriving DecidableEq

namespace Renames

def follow (r : Renames) : Nat → String → String
  | 0, name => name
  | steps + 1, name =>
    match r.entries.get? name with
    | some next => follow r steps next
    | none => name

/-- The name at the end of the chain that starts at `name`. A chain without repetition is no longer
than the map; one step more ends a chain that runs in a circle. -/
def resolve (r : Renames) (name : String) : String :=
  r.follow (r.entries.length + 1) name

/-- Records that `old` became `new`. The replacement is resolved first, and nothing is recorded when
`old` stays what it is, so no chain comes back to its start. -/
def rename (r : Renames) (old new : String) : Renames :=
  if old = new then r
  else
    let target := r.resolve new
    if target = old then r else ⟨r.entries.insert old target⟩

def renameAll (r : Renames) (pairs : List (String × String)) : Renames :=
  pairs.foldl (fun acc pair => acc.rename pair.1 pair.2) r

def isEmpty (r : Renames) : Bool :=
  r.entries.isEmpty

end Renames

end ChartPlan
