import ChartPlan.Proofs.Flow.Housing
import ChartPlan.Proofs.Flow.History
import ChartPlan.Proofs.Flow.Ledger

/-!
# Optimization brings no names

Sources and facets are all that bring names of their own. Passes merge no sources and make no facets, the
copies of a cell are neither, and no step lists a root twice. So what is apart before optimization is apart
after it.

* `Forest.Bearing`: every source or facet was there before, and each root is listed once;
* `Forest.Labelled.optimize`: optimization succeeds and keeps the names apart.
-/

namespace ChartPlan.Flow

open Forest

def Node.bearsNames (n : Node) : Bool :=
  n.isDataSource || n.isFacet

/-- Every node that brings names was there in `base`, and each root is listed once. -/
structure Forest.Bearing (base f : Forest) : Prop where
  node {i : NodeId} {n : Node} : f.node? i = some n → n.bearsNames → base.node? i = some n
  nodup : f.sources.Nodup

variable {rowIds : Bool} {base f g : Forest} {i j c : NodeId} {n : Node}

theorem Node.bearsNames_cases (h : n.bearsNames) : n.isGiven ∨ endsBranch n := by
  cases n <;> first | exact .inl rfl | exact .inr rfl | exact Bool.noConfusion h

/-! ### Passes -/

theorem Forest.Planted.nodup_sources_absorb {p : NodeId} (hf : f.Planted) (hnodup : f.sources.Nodup)
    (hp : f.contains p) (hb : ¬ f.Below i p) : (f.absorb p i).sources.Nodup := by
  have hadopt := hf.toValidBut.adopt hp (fun _ hc => hf.movable_children hb hc) (by simp)
  refine hadopt.nodup_sources_remove ?_ i
  rw [sources_adopt]
  exact hnodup.filter _

theorem Rewrite.nodup_sources (h : Rewrite rowIds f g) (hf : f.Planted) (hnodup : f.sources.Nodup) :
    g.sources.Nodup := by
  cases h with
  | drop _ _ | prune _ _ _ => exact hf.nodup_sources_remove hnodup _
  | revise _ _ _ => exact hnodup
  | raise _ _ _ hp hg =>
    rw [hf.sources_exchange hp hg]
    exact hnodup
  | shift _ _ _ _ _ _ =>
    rw [sources_setParent]
    exact hnodup.filter _
  | insert c _ => exact hf.nodup_sources_add hnodup _ _
  | join hk _ _ hne hkp hop =>
    exact hf.nodup_sources_absorb hnodup (contains_of_node? hk)
      (hf.not_below_sibling hkp hop hne)
  | joinAbove hk _ hp =>
    exact hf.nodup_sources_absorb hnodup (contains_of_node? hk)
      (hf.not_below_of_child (hf.child hp))

theorem Forest.Bearing.rewrite (h : base.Bearing f) (hf : f.Planted) (hstep : Rewrite rowIds f g) :
    base.Bearing g where
  node hn hbears := h.node ((Node.bearsNames_cases hbears).elim (hstep.node?_of_isGiven hf hn)
    (hstep.node?_of_endsBranch hf hn)) hbears
  nodup := hstep.nodup_sources hf h.nodup

theorem Forest.Bearing.rewrites (h : base.Bearing f) (hf : f.Planted) (hsteps : Rewrites rowIds f g) :
    base.Bearing g := by
  induction hsteps with
  | refl => exact h
  | tail hsteps hstep ih => exact ih.rewrite (Rewrites.planted hsteps hf) hstep

/-! ### Moving facets down -/

theorem Node.addDimensions_of_bearsNames {fields : List String}
    (h : (n.addDimensions fields).bearsNames) : n.addDimensions fields = n := by
  cases n <;> first | rfl | exact Bool.noConfusion h

theorem Forest.Bearing.addDimensions (h : base.Bearing f) (fields : List String) (c : NodeId) :
    base.Bearing (f.modify c (Node.addDimensions fields)) where
  node {i n} hn hbears := by
    rw [node?_modify] at hn
    split at hn
    · obtain ⟨m, hm, rfl⟩ := Option.map_eq_some_iff.mp hn
      have heq := Node.addDimensions_of_bearsNames hbears
      rw [heq] at hbears ⊢
      exact h.node hm hbears
    · exact h.node hn hbears
  nodup := h.nodup

theorem Forest.Bearing.exchange {p grand : NodeId} (h : base.Bearing f) (hf : f.Planted)
    (hp : f.parent? c = some p) (hg : f.parent? p = some grand) : base.Bearing (f.exchange c).2 where
  node hn := h.node ((node?_of_contents (hf.contents_exchange hp hg) _).symm.trans hn)
  nodup := by
    rw [hf.sources_exchange hp hg]
    exact h.nodup

theorem Forest.Bearing.copying {fields : List String} {main : NodeId} (h : base.Bearing f)
    (hsourced : ∀ {i}, i ∈ f.sources ↔ f.holds i Node.isDataSource)
    (hstep : Copying fields main f g) : base.Bearing g := by
  cases hstep with
  | @copy i p n loose hf hn hfacet hp =>
    have hsource := hf.isDataSource_eq_false hsourced hn hp
    refine ⟨fun {j m} hm hbears => ?_, ?_⟩
    · rw [hf.node?_copyNode fields hn] at hm
      split at hm
      · cases hm
        have hneither : (globalCopy fields (n.refresh f.ids).1).bearsNames = false := by
          cases n <;> first | rfl | exact Bool.noConfusion hfacet | exact Bool.noConfusion hsource
        rw [hneither] at hbears
        exact Bool.noConfusion hbears
      · exact h.node hm hbears
    · rw [sources_copyNode]
      exact h.nodup
  | @link i p loose hf hnot hp hb hplace =>
    refine ⟨h.node, ?_⟩
    rw [sources_attach]
    exact h.nodup.filter _

theorem sinkInvariant_bearing (base : Forest) :
    SinkInvariant (fun f => base.Bearing f) (fun _ _ => True) :=
  .of_steps (fun fields c h => h.addDimensions fields c) (fun hf hp hg h => h.exchange hf hp hg)
    fun hsourced hstep h => h.copying hsourced hstep

/-! ### Names that stay apart -/

theorem Forest.Labelled.of_bearing (h : base.Labelled) (hbearing : base.Bearing f) (hf : f.Valid) :
    f.Labelled where
  valid := hf
  sources := hbearing.nodup
  tidy i s hs := h.tidy i s (hbearing.node hs rfl)
  given hs := h.given (hbearing.node hs rfl)
  apart hs ht := h.apart (hbearing.node hs rfl) (hbearing.node ht rfl)
  headers hm := h.headers (hbearing.node hm rfl)
  headersApart {i j name} hi hj := by
    have hbase : ∀ {k}, name ∈ f.headersAt k → name ∈ base.headersAt k := fun hk => by
      obtain ⟨m, hm, hname⟩ := exists_facet_of_mem_headersAt hk
      exact (mem_headersAt (hbearing.node hm rfl)).mpr hname
    exact h.headersApart (hbase hi) (hbase hj)

theorem Forest.Labelled.optimize (h : f.Labelled) (hf : f.Planted) (rowIds : Bool) :
    ∃ p, Flow.optimize rowIds f = .ok p ∧ p.forest.Labelled := by
  obtain ⟨settled, moved, last, hrun, -, hsunk, hsteps⟩ := (sinkInvariant_bearing f).optimize rowIds hf
    fun hsteps => Bearing.rewrites ⟨fun hn _ => hn, h.sources⟩ hf ((hf.rewrites_purged rowIds).trans hsteps)
  exact ⟨last, hrun.optimize_eq, h.of_bearing (hsunk.kept.rewrites hsunk.planted hsteps)
    (hsteps.planted hsunk.planted).toValidBut⟩

end ChartPlan.Flow
