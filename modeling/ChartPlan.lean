import ChartPlan.Proofs.Compile
import ChartPlan.Proofs.View.Signals
import ChartPlan.Proofs.Flow.Pass.Doubling
import ChartPlan.Proofs.Flow.Convergence
import ChartPlan.Proofs.View.Numbering
import ChartPlan.Proofs.View.Kinds
import ChartPlan.Proofs.View.Labelling
import ChartPlan.Proofs.View.Visibility
import ChartPlan.Proofs.Property.Nesting
import ChartPlan.Proofs.Verbosity
import ChartPlan.Proofs.View.Guides
import ChartPlan.Proofs.Flow.Pass.Pooling
import ChartPlan.Proofs.Flow.Emission
import ChartPlan.Proofs.Flow.Pass.Rivalry
import ChartPlan.Proofs.View.Agreement
import ChartPlan.Proofs.Flow.Faithful
import ChartPlan.Proofs.Chart.Binning
import ChartPlan.Proofs.View.Stacking
import ChartPlan.Proofs.Chart.Flat
import ChartPlan.Proofs.Chart.Scopes
import ChartPlan.Proofs.View.Lookups
import ChartPlan.Proofs.Flow.Pass.Turns
import ChartPlan.Proofs.Chart.Truncation
import ChartPlan.Proofs.Chart.Units
import ChartPlan.Proofs.Flow.Identity
