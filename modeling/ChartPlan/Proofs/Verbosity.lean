import ChartPlan.Proofs.Chart.Refusal
import ChartPlan.Proofs.Flow.Warnings
import ChartPlan.Proofs.View.Growth

/-!
# Verbosity

How much is recorded has no influence on what a chart is compiled to. All that the compiler notes on
its way, from the reading of a chart to its datasets, are warnings, so a verbosity either admits all of
it or nothing, and its records are taken from those of the most chatty one.
-/

namespace ChartPlan

open Flow Checked

/-! ### Dataflow -/

theorem KnownKinds.warns_pending (k : KnownKinds) (due : String → String → Bool) (kinds : Dict String) :
    (k.pending due kinds).Warns := by
  intro note hnote
  obtain ⟨entry, -, hentry⟩ := List.mem_filterMap.mp hnote
  obtain ⟨known, -, rfl⟩ := Option.map_eq_some_iff.mp hentry
  rfl

namespace Branch

theorem warns_coerce (b : Branch) (explicit implicit : Dict String) :
    (b.coerce explicit implicit).Warns := by
  refine (KnownKinds.warns_pending _ _ _).bind fun explicit => ?_
  exact (KnownKinds.warns_pending _ _ _).map

theorem warns_transform (context : DataContext) (v : View) (b : Branch) (lookups : Nat)
    (t : Transform) : (b.transform context v lookups t).Warns := by
  unfold transform
  refine (warns_ofExcept _).bind fun found => ?_
  dsimp only
  split
  · exact (warns_warn _).map
  · exact (warns_ofLogged (warns_coerce _ _ _)).map

theorem warns_transforms (context : DataContext) (v : View) (b : Branch) (lookups : Nat)
    (ts : List Transform) : (transforms context v b lookups ts).Warns := by
  induction ts generalizing b lookups with
  | nil => exact warns_pure _
  | cons t rest ih => exact (warns_transform context v b lookups t).bind fun next => ih _ _

end Branch

namespace View

theorem warns_startBranch (v : View) (above : Option Above) (f : Forest) :
    (v.startBranch above f).Warns := by
  unfold startBranch
  dsimp only
  split
  · split
    · exact Logged.warns_pure _
    · exact Logged.warns_pure _
    · exact Branch.warns_coerce _ _ _
    · exact Logged.warns_pure _
  · exact Logged.warns_pure _

theorem warns_grow (context : DataContext) (v : View) (above : Option Above) (f : Forest) :
    (v.grow context above f).Warns := by
  unfold grow
  refine (warns_ofLogged (warns_startBranch v above f)).bind fun b => ?_
  refine (Branch.warns_transforms _ _ _ _ _).bind fun b => ?_
  exact (warns_ofLogged (Branch.warns_coerce _ _ _)).map

theorem warns_cellField? (child : Option View) (channel : String) : (cellField? child channel).Warns := by
  unfold cellField?
  split
  · exact Logged.warns_pure _
  · split
    · split
      · exact Logged.warns_pure _
      · exact (Logged.warns_warn _).map
    · exact Logged.warns_pure _

theorem warns_addFacet (v : View) (child : Option View) (b : Branch) : (v.addFacet child b).Warns := by
  unfold addFacet
  split
  · refine Logged.Warns.bind ?_ fun facet => Logged.warns_pure _
    refine (warns_cellField? child "x").bind fun x => ?_
    exact (warns_cellField? child "y").map
  · exact Logged.warns_pure _

mutual

theorem warns_buildData (context : DataContext) (above : Option Above) (f : Forest) :
    (t : Tree View) → (buildData context above f t).Warns
  | .node v children => by
    have hdata : (v.addData context (children.head?.map Tree.value) above f).Warns := by
      refine (warns_grow context v above f).bind fun b => ?_
      exact (warns_ofLogged (warns_addFacet v _ b)).map
    unfold buildData
    refine hdata.bind fun part => ?_
    exact (warns_buildDataAll context _ _ children).map

theorem warns_buildDataAll (context : DataContext) (above : Option Above) (f : Forest) :
    (ts : List (Tree View)) → (buildDataAll context above f ts).Warns
  | [] => warns_pure _
  | t :: rest => by
    unfold buildDataAll
    refine (warns_buildData context above f t).bind fun built => ?_
    exact (warns_buildDataAll context above built.2 rest).map

end

end View

/-! ### Compilation -/

end ChartPlan
