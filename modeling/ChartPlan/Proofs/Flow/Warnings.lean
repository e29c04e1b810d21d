import ChartPlan.Flow.Dataset
import ChartPlan.Proofs.Flow.Pass.Facets

/-!
# Notes on the dataflow

Passes that move or merge coercions warn of contradictory ones, runs that do not settle warn once, and
the written transforms warn of what they had to guess. There are no other notes on the dataflow.
-/

namespace ChartPlan.Flow

open Logged

variable {f : Forest} {p : Progress}

/-! ### Optimization -/

def Attempt.Warns (a : Attempt) : Prop :=
  ∀ q, a = .ok q → Warnings q.notes

namespace Writing

variable {w : Writing}

end Writing

end ChartPlan.Flow
