import ChartPlan.Flow.Pass.Optimize
import ChartPlan.View.Dataflow
import ChartPlan.View.Group
import ChartPlan.View.Selections

/-!
# Compilation

A chart is compiled to named datasets and to the components that read them: its views are read and
named, get their selections, scales and projections, and then their dataflow, axes and legends; the
dataflow is optimized and written as datasets, and the views are written as groups.
-/

namespace ChartPlan

def DataContext.ofViews (config : Config) (projections : Renames) (t : Tree View) : DataContext where
  config := config
  projections := projections
  selections := View.selectionNames t
  rowIds := View.needsRowIds t

def Flow.Attempt.toChecked (a : Flow.Attempt) : Checked Flow.Forest :=
  match a with
  | .ok p => ExceptT.mk ⟨.ok p.forest, p.notes⟩
  | .error failure => ExceptT.mk ⟨.error failure.error, failure.progress.notes⟩

/-- A compiled chart. -/
structure Compiled where
  /-- The datasets, signals, components and marks. -/
  spec : Json
  /-- Signals that were given up when nodes of the dataflow merged. -/
  signals : Renames
  /-- Scales that were given up to those of the views above. -/
  scales : Renames

namespace Compiled

def schema : String :=
  "https://vega.github.io/schema/vega/v5.json"

def write (t : Tree View) (l : Layout) : Json :=
  let signals := View.selectionSignals t
  let base := (Json.object [
    ("$schema", .str schema),
    ("data", .arr (View.storeDatasets t ++ l.datasets.top))]).withField? "title" t.value.title
  let base := if signals.isEmpty then base else base.withField "signals" (.arr signals)
  .obj (Dict.extend (base.fields?.getD []) (l.group true t).sections)

end Compiled

/-- The configuration of a chart: its own, which replaces the given one as a whole. -/
def Config.ofChart (given : Config) (spec : Json) : Except Error Config :=
  match spec.field? "config" with
  | none => .ok given
  | some v =>
    match Config.read? v with
    | some config => .ok config
    | none => .error .invalidConfig

def compile (given : Config) (spec : Json) : Checked Compiled := do
  let config ← Checked.ofExcept (Config.ofChart given spec)
  let views := View.withSelections (← View.build (← Chart.read spec))
  let (views, scales) ← Checked.ofLogged (View.withScales config views)
  let (views, projections) ← Checked.ofLogged (View.withProjections views)
  let context := DataContext.ofViews config projections views
  let (views, forest) ← View.withData context views
  let views ← Checked.ofLogged (View.withAxes views)
  let views ← Checked.ofLogged (View.withLegends views)
  let forest ← Flow.Attempt.toChecked (Flow.optimize context.rowIds forest)
  let (forest, datasets) ← Checked.ofLogged forest.datasets
  return {
    spec := Compiled.write views { forest, datasets, scales }
    signals := forest.signals
    scales
  }

end ChartPlan
