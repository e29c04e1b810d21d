import ChartPlan.Proofs.Flow.Pass.Descent
import ChartPlan.Proofs.Flow.Pass.Replicas

/-!
# Moving facets down keeps the forest planted

A facet and a main output change places with an only child. That fails only when one of them is a root
(`Forest.Stuck`), and in a planted forest neither is: they are no data sources. Then the cells are copied
below wherever the main output is by then.

* `SettleInvariant`: what has to be shown of each step so that all of them keep it;
  `SettleInvariant.moveFacetsDown`: moving all facets down keeps it.
* `SinkInvariant`: the same for planted forests, where moving facets down succeeds.
* `optimize_planted`: optimization succeeds on every planted forest.
-/

namespace ChartPlan.Flow

open Forest

variable {f g h : Forest} {i c : NodeId} {n : Node}

theorem Node.isDataSource_addDimensions (fields : List String) (n : Node) :
    (n.addDimensions fields).isDataSource = n.isDataSource := by
  cases n <;> rfl

theorem Forest.Planted.grouped (hf : f.Planted) (fields : List String) (c : NodeId) :
    (f.modify c (Node.addDimensions fields)).Planted :=
  hf.modify c fun n _ => n.isDataSource_addDimensions fields

/-! ### Steps that keep an invariant -/

/-- The forest in which a facet has changed places with its child, which groups by the facet fields
as well. -/
def Forest.sunk (fields : List String) (f : Forest) (child : NodeId) : Forest :=
  ((f.modify child (Node.addDimensions fields)).exchange child).2

/-- A facet or a main output is a root, so it cannot move down. -/
def Forest.Stuck (f : Forest) : Prop :=
  ∃ i, f.parent? i = none ∧ (f.holds i Node.isFacet ∨ f.holds i isMainOutput)

section

variable {P : Forest → Prop} {Q : Forest → NodeId → Prop}

/-- `g` came of `f` by steps that keep an invariant. -/
structure Kept (P : Forest → Prop) (Q : Forest → NodeId → Prop) (f g : Forest) : Prop where
  kept : P g
  reached : ∀ j, Q f j → Q g j

theorem Kept.refl (hP : P f) : Kept P Q f f :=
  ⟨hP, fun _ hj => hj⟩

theorem Kept.trans (hfg : Kept P Q f g) (hgh : Kept P Q g h) : Kept P Q f h :=
  ⟨hgh.kept, fun j hj => hgh.reached j (hfg.reached j hj)⟩

/-- Work that keeps an invariant and notes nothing, or comes to a node that cannot move. -/
def Settles (P : Forest → Prop) (Q : Forest → NodeId → Prop) (p : Progress) (a : Attempt) : Prop :=
  (∃ q, a = .ok q ∧ Kept P Q p.forest q.forest ∧ q.notes = p.notes) ∨
    (∃ e, a = .error e) ∧ ∃ g, P g ∧ g.Stuck

/-- What has to be shown of each step so that moving facets down keeps `P`. The walk reaches the
nodes that meet `Q`, which no step may take away. -/
structure SettleInvariant (P : Forest → Prop) (Q : Forest → NodeId → Prop) : Prop where
  sturdy {f : Forest} : P f → ∃ loose, f.ValidBut loose
  root {f : Forest} {i : NodeId} : P f → i ∈ f.sources → Q f i
  child {f : Forest} {i c : NodeId} : P f → Q f i → f.holds i Node.isFacet = false →
    c ∈ f.children i → Q f c
  sink {f : Forest} {i c grand : NodeId} {node : Facet} : P f → Q f i →
    f.node? i = some (.facet node) → f.children i = [c] → f.parent? i = some grand →
    f.holds c Node.isOutput = false → Kept P Q f (f.sunk node.fields c)
  main {f : Forest} {i m c grand : NodeId} {node : Facet} : P f → Q f i →
    f.node? i = some (.facet node) → f.outputs.get? node.main = some m → f.holds m isMainOutput →
    f.children m = [c] → f.parent? m = some grand → f.holds c Node.isFacet = false →
    Kept P Q f (f.exchange c).2
  copies {f : Forest} {i m : NodeId} {node : Facet} : P f → Q f i → f.node? i = some (.facet node) →
    f.outputs.get? node.main = some m → Kept P Q f (copyCells node.fields i m f)

theorem holds_isFacet_of_facet?_eq_none (hnone : (f.node? i).bind Node.facet? = none) :
    f.holds i Node.isFacet = false := by
  unfold holds
  cases hn : f.node? i with
  | none => rfl
  | some n =>
    rw [hn, Option.bind_some] at hnone
    cases n <;> first | rfl | cases hnone

namespace SettleInvariant

theorem sinkFacet (inv : SettleInvariant P Q) (fuel : Nat) {p : Progress} {node : Facet}
    (hP : P p.forest) (hQ : Q p.forest i) (hn : p.forest.node? i = some (.facet node)) :
    (∃ q, Flow.sinkFacet node.fields i fuel p = .ok q ∧ (Kept P Q p.forest q.forest ∧
      q.forest.node? i = some (.facet node)) ∧ q.notes = p.notes) ∨
    (∃ e, Flow.sinkFacet node.fields i fuel p = .error e) ∧ ∃ g, P g ∧ g.Stuck := by
  refine ((descends_sinkFacet node.fields i).run
    (I := fun f => Kept P Q p.forest f ∧ f.node? i = some (.facet node))
    (fun h => inv.sturdy h.1.kept) (fun {f c grand} h hc hgo hg => ?_) fuel ⟨.refl hP, hn⟩).imp_right
    fun ⟨he, f, h, hroot⟩ => ⟨he, f, h.1.kept, i, hroot, .inl (holds_of_node? h.2)⟩
  obtain ⟨hkept, hn⟩ := h
  obtain ⟨loose, hvalid⟩ := inv.sturdy hkept.kept
  have hgrouped := hvalid.modify c (Node.addDimensions node.fields)
  have hmem : c ∈ f.children i := by simp [hc]
  have hne : i ≠ c := fun he => hvalid.not_mem_children_self i (he ▸ hmem)
  refine ⟨hkept.trans (inv.sink hkept.kept (hkept.reached i hQ) hn hc hg hgo), ?_⟩
  rw [node?_of_contents (hgrouped.contents_exchange (hgrouped.parent?_of_mem hmem) hg), node?_modify,
    if_neg hne, hn]

theorem sinkMain (inv : SettleInvariant P Q) (fuel : Nat) {p : Progress} {m : NodeId} {node : Facet}
    (hP : P p.forest) (hQ : Q p.forest i) (hn : p.forest.node? i = some (.facet node))
    (hm : p.forest.outputs.get? node.main = some m) (hmain : p.forest.holds m isMainOutput) :
    (∃ q, Flow.sinkMain m fuel p = .ok q ∧ (Kept P Q p.forest q.forest ∧
      q.forest.contents = p.forest.contents) ∧ q.notes = p.notes) ∨
    (∃ e, Flow.sinkMain m fuel p = .error e) ∧ ∃ g, P g ∧ g.Stuck := by
  refine ((descends_sinkMain m).run
    (I := fun f => Kept P Q p.forest f ∧ f.contents = p.forest.contents)
    (fun h => inv.sturdy h.1.kept) (fun {f c grand} h hc hgo hg => ?_) fuel ⟨.refl hP, rfl⟩).imp_right
    fun ⟨he, f, h, hroot⟩ => ⟨he, f, h.1.kept, m, hroot,
      .inr ((Planted.holds_of_contents h.2 m).trans hmain)⟩
  obtain ⟨hkept, hcontents⟩ := h
  obtain ⟨loose, hvalid⟩ := inv.sturdy hkept.kept
  have hcm : f.parent? c = some m := hvalid.parent?_of_mem (by simp [hc])
  rw [modify_id]
  exact ⟨hkept.trans (inv.main hkept.kept (hkept.reached i hQ)
    ((node?_of_contents hcontents i).trans hn)
    ((congrArg (Dict.get? · node.main) (outputs_of_contents hcontents)).trans hm)
    ((Planted.holds_of_contents hcontents m).trans hmain) hc hg hgo),
    (hvalid.contents_exchange hcm hg).trans hcontents⟩

theorem settleFacet (inv : SettleInvariant P Q) {p : Progress} {node : Facet} (hP : P p.forest)
    (hQ : Q p.forest i) (hn : p.forest.node? i = some (.facet node)) :
    Settles P Q p (Flow.settleFacet i node p) := by
  unfold Flow.settleFacet
  rcases inv.sinkFacet p.forest.slots.length hP hQ hn with
    ⟨q, heq, ⟨hkept, hqn⟩, hnotes⟩ | ⟨⟨e, he⟩, hstuck⟩
  · simp only [heq, bind, Except.bind]
    have hqQ := hkept.reached i hQ
    split
    · exact .inl ⟨q, rfl, hkept, hnotes⟩
    · rename_i m hm
      split
      · rename_i hmain
        rcases inv.sinkMain q.forest.slots.length hkept.kept hqQ hqn hm hmain with
          ⟨r, hreq, ⟨hkept', hcontents⟩, hnotes'⟩ | ⟨⟨e, he⟩, hstuck⟩
        · simp only [hreq]
          exact .inl ⟨_, rfl, (hkept.trans hkept').trans (inv.copies hkept'.kept (hkept'.reached i hqQ)
            ((node?_of_contents hcontents i).trans hqn)
            ((congrArg (Dict.get? · node.main) (outputs_of_contents hcontents)).trans hm)),
            hnotes'.trans hnotes⟩
        · simp only [he]
          exact .inr ⟨⟨e, rfl⟩, hstuck⟩
      · exact .inl ⟨_, rfl, hkept.trans (inv.copies hkept.kept hqQ hqn hm), hnotes⟩
  · simp only [he, bind, Except.bind]
    exact .inr ⟨⟨e, rfl⟩, hstuck⟩

theorem foldlM {step : Progress → NodeId → Attempt}
    (hstep : ∀ p c, P p.forest → Q p.forest c → Settles P Q p (step p c)) (nodes : List NodeId)
    (p : Progress) (hP : P p.forest) (hnodes : ∀ c ∈ nodes, Q p.forest c) :
    Settles P Q p (nodes.foldlM step p) := by
  induction nodes generalizing p with
  | nil => exact .inl ⟨p, rfl, .refl hP, rfl⟩
  | cons c rest ih =>
    rw [List.foldlM_cons]
    rcases hstep p c hP (hnodes c List.mem_cons_self) with ⟨q, heq, hq, hnotes⟩ | ⟨⟨e, he⟩, hstuck⟩
    · rw [heq]
      exact (ih q hq.kept fun d hd => hq.reached d (hnodes d (List.mem_cons_of_mem c hd))).imp_left
        fun ⟨r, hr, hqr, hnotes'⟩ => ⟨r, hr, hq.trans hqr, hnotes'.trans hnotes⟩
    · rw [he]
      exact .inr ⟨⟨e, rfl⟩, hstuck⟩

theorem settleBelow (inv : SettleInvariant P Q) (fuel : Nat) (p : Progress) (i : NodeId)
    (hP : P p.forest) (hQ : Q p.forest i) : Settles P Q p (Flow.settleBelow fuel p i) := by
  induction fuel generalizing p i with
  | zero => exact .inl ⟨p, rfl, .refl hP, rfl⟩
  | succ fuel ih =>
    unfold Flow.settleBelow
    split
    · rename_i node hnode
      obtain ⟨n, hn, hfacet⟩ := Option.bind_eq_some_iff.mp hnode
      cases n with
      | facet m =>
        cases hfacet
        exact inv.settleFacet hP hQ hn
      | _ => cases hfacet
    · rename_i hnone
      exact foldlM ih _ p hP fun c hc => inv.child hP hQ (holds_isFacet_of_facet?_eq_none hnone) hc

theorem moveFacetsDown (inv : SettleInvariant P Q) (hP : P f) :
    Settles P Q { forest := f } (Flow.moveFacetsDown f) :=
  foldlM (fun p root hP hQ => inv.settleBelow _ p root hP hQ) f.sources { forest := f } hP
    fun _ hroot => inv.root hP hroot

end SettleInvariant

/-! ### Planted forests -/

/-- What has to be shown of each step in a planted forest. -/
structure SinkInvariant (P : Forest → Prop) (Q : Forest → NodeId → Prop) : Prop where
  root {f : Forest} {i : NodeId} : f.Planted → P f → i ∈ f.sources → Q f i
  child {f : Forest} {i c : NodeId} : f.Planted → P f → Q f i → f.holds i Node.isFacet = false →
    c ∈ f.children i → Q f c
  sink {f : Forest} {i c grand : NodeId} {node : Facet} : f.Planted → P f → Q f i →
    f.node? i = some (.facet node) → f.children i = [c] → f.parent? c = some i →
    f.parent? i = some grand → f.holds c Node.isOutput = false →
    P (f.sunk node.fields c) ∧ ∀ j, Q f j → Q (f.sunk node.fields c) j
  main {f : Forest} {i m c grand : NodeId} {node : Facet} : f.Planted → P f → Q f i →
    f.node? i = some (.facet node) → f.outputs.get? node.main = some m → f.children m = [c] →
    f.parent? c = some m → f.parent? m = some grand → f.holds c Node.isFacet = false →
    P (f.exchange c).2 ∧ ∀ j, Q f j → Q (f.exchange c).2 j
  copies {f g : Forest} {i m : NodeId} {node : Facet} : f.Planted → P f → Q f i →
    f.node? i = some (.facet node) → f.outputs.get? node.main = some m →
    Copyings node.fields m f g → P g ∧ ∀ j, Q f j → Q g j

theorem Forest.Planted.not_stuck (hf : f.Planted) : ¬ f.Stuck := by
  rintro ⟨i, hroot, hkind⟩
  obtain ⟨n, hn, hsource⟩ : ∃ n, f.node? i = some n ∧ n.isDataSource = false := by
    rcases hkind with hkind | hkind <;> obtain ⟨n, hn, hkind⟩ := holds_iff.mp hkind <;>
      exact ⟨n, hn, by cases n <;> first | rfl | cases hkind⟩
  obtain ⟨grand, hg⟩ := hf.exists_parent hn hsource
  cases hroot.symm.trans hg

/-- `g` is planted and came of `f` by steps that keep an invariant. -/
structure Sunk (P : Forest → Prop) (Q : Forest → NodeId → Prop) (f g : Forest) : Prop where
  planted : g.Planted
  kept : P g
  reached : ∀ j, Q f j → Q g j

namespace SinkInvariant

/-- An invariant that does not ask which nodes the walk reaches. -/
theorem of_steps (hgroup : ∀ {f} fields c, P f → P (f.modify c (Node.addDimensions fields)))
    (hexchange : ∀ {f c q grand}, f.Planted → f.parent? c = some q → f.parent? q = some grand → P f →
      P (f.exchange c).2)
    (hcopying : ∀ {f g fields main}, (∀ {i}, i ∈ f.sources ↔ f.holds i Node.isDataSource) →
      Copying fields main f g → P f → P g) : SinkInvariant P (fun _ _ => True) where
  root _ _ _ := True.intro
  child _ _ _ _ _ := True.intro
  sink hf hP _ _ _ hp hg _ := ⟨hexchange (hf.grouped _ _) hp hg (hgroup _ _ hP), fun _ _ => True.intro⟩
  main hf hP _ _ _ _ hp hg _ := ⟨hexchange hf hp hg hP, fun _ _ => True.intro⟩
  copies hf hP _ _ _ hsteps := by
    refine ⟨?_, fun _ _ => True.intro⟩
    induction hsteps with
    | refl => exact hP
    | tail hsteps hstep ih => exact hcopying (Copyings.sourced hsteps hf.sourced) hstep ih

theorem settles (inv : SinkInvariant P Q) : SettleInvariant (fun f => f.Planted ∧ P f) Q where
  sturdy h := ⟨[], h.1.toValidBut⟩
  root h hi := inv.root h.1 h.2 hi
  child h hQ hfacet hc := inv.child h.1 h.2 hQ hfacet hc
  sink {f i c grand node} h hQ hn hc hg hout := by
    have hci := h.1.parent?_of_mem (show c ∈ f.children i by simp [hc])
    obtain ⟨hkept, hreached⟩ := inv.sink h.1 h.2 hQ hn hc hci hg hout
    exact ⟨⟨(h.1.grouped node.fields c).exchange hci hg, hkept⟩, hreached⟩
  main {f i m c grand node} h hQ hn hm _ hc hg hfacet := by
    have hcm := h.1.parent?_of_mem (show c ∈ f.children m by simp [hc])
    obtain ⟨hkept, hreached⟩ := inv.main h.1 h.2 hQ hn hm hc hcm hg hfacet
    exact ⟨⟨h.1.exchange hcm hg, hkept⟩, hreached⟩
  copies {f i m node} h hQ hn hm := by
    obtain ⟨hplanted, hsteps⟩ := h.1.copyCells node.fields i (h.1.outputs _ (Dict.mem_of_get? hm))
    obtain ⟨hkept, hreached⟩ := inv.copies h.1 h.2 hQ hn hm hsteps
    exact ⟨⟨hplanted, hkept⟩, hreached⟩

theorem not_stuck : ¬ ∃ g : Forest, (g.Planted ∧ P g) ∧ g.Stuck :=
  fun ⟨_, h, hstuck⟩ => h.1.not_stuck hstuck

theorem ok {p : Progress} {a : Attempt} (h : Settles (fun f => f.Planted ∧ P f) Q p a) :
    ∃ q, a = .ok q ∧ Sunk P Q p.forest q.forest := by
  obtain ⟨q, hq, hkept, -⟩ := h.resolve_right fun h => not_stuck h.2
  exact ⟨q, hq, hkept.kept.1, hkept.kept.2, hkept.reached⟩

theorem moveFacetsDown (inv : SinkInvariant P Q) (hf : f.Planted) (hP : P f) :
    ∃ q, Flow.moveFacetsDown f = .ok q ∧ Sunk P Q f q.forest :=
  ok (inv.settles.moveFacetsDown ⟨hf, hP⟩)

end SinkInvariant

end

/-! ### Optimization -/

/-- A run of the optimization in which every stage succeeds. A stage fails when one of its exchanges
or checks does, so all of them succeed as well. -/
structure OptimizationRun (rowIds : Bool) (f : Forest) (settled moved last : Progress) : Prop where
  unoptimized : f.check = .ok ()
  settles : settle rowIds maxRuns { forest := f } = .ok settled
  moves : moveFacetsDown settled.forest = .ok moved
  resettles : settle rowIds maxRuns (settled.follow moved) = .ok last
  optimized : last.forest.check = .ok ()

theorem OptimizationRun.optimize_eq {settled moved last : Progress}
    (h : OptimizationRun rowIds f settled moved last) : optimize rowIds f = .ok last := by
  have hbefore : Progress.checked { forest := f } = .ok { forest := f } := by
    unfold Progress.checked
    rw [h.unoptimized]
  have hafter : last.checked = .ok last := by
    unfold Progress.checked
    rw [h.optimized]
  have hmoves : settled.andThen moveFacetsDown = .ok (settled.follow moved) := by
    unfold Progress.andThen
    rw [h.moves]
  simp only [optimize, hbefore, h.settles, hmoves, h.resettles, hafter, bind, Except.bind]

theorem SinkInvariant.optimize {P : Forest → Prop} {Q : Forest → NodeId → Prop} (inv : SinkInvariant P Q)
    (rowIds : Bool) (hf : f.Planted) (hP : ∀ {g}, Rewrites rowIds f.purged g → P g) :
    ∃ settled moved last, OptimizationRun rowIds f settled moved last ∧
      Rewrites rowIds f.purged settled.forest ∧ Sunk P Q settled.forest moved.forest ∧
      Rewrites rowIds moved.forest last.forest := by
  obtain ⟨settled, hsettles, hsteps⟩ :=
    settle_purged rowIds (show 0 < maxRuns by decide) (p := { forest := f }) hf
  obtain ⟨moved, hmoves, hsunk⟩ := inv.moveFacetsDown (hsteps.planted hf.purged) (hP hsteps)
  obtain ⟨last, hresettles, hsteps'⟩ :=
    settle_rewrites rowIds maxRuns (p := settled.follow moved) hsunk.planted
  exact ⟨settled, moved, last, ⟨Valid.check_eq_ok hf.toValidBut, hsettles, hmoves, hresettles,
    Valid.check_eq_ok (hsteps'.planted hsunk.planted).toValidBut⟩, hsteps, hsunk, hsteps'⟩

theorem sinkInvariant_true : SinkInvariant (fun _ => True) fun _ _ => True :=
  .of_steps (fun _ _ h => h) (fun _ _ _ h => h) fun _ _ h => h

theorem optimize_planted (rowIds : Bool) (hf : f.Planted) : ∃ settled moved last,
    OptimizationRun rowIds f settled moved last ∧ settled.forest.Planted ∧ moved.forest.Planted ∧
      last.forest.Planted := by
  obtain ⟨settled, moved, last, hrun, hsettled, hsunk, hsteps⟩ :=
    sinkInvariant_true.optimize rowIds hf fun _ => True.intro
  exact ⟨settled, moved, last, hrun, hsettled.planted hf.purged, hsunk.planted,
    hsteps.planted hsunk.planted⟩

end ChartPlan.Flow
