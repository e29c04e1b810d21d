import ChartPlan.Proofs.Flow.Pass.Quiet
import ChartPlan.Proofs.Flow.Requested

/-!
# Settled forests

The passes are repeated until they report no change. Then the forest is the one from before, but for
roots that fed nothing, and running the passes again changes nothing. A settled forest is in a normal
form: nothing is left that any of the passes looks for.

* `Forest.Trimmed`: a forest without the roots that feed nothing.
* `QuietRun`: what is known of each pass in a run that reports no change.
* `runPasses_quiet`: a run that reports no change changed nothing.
* `runPasses_normal`: the normal form of a settled forest.
-/

namespace ChartPlan.Flow

open List hiding beq_eq_decide

open Forest

variable {rowIds : Bool} {f g h : Forest} {p q : Progress} {i j : NodeId}

/-! ### Roots that feed nothing -/

namespace Forest

def Idle (f : Forest) (i : NodeId) : Prop :=
  i ∈ f.sources ∧ f.childCount i = 0

instance (f : Forest) (i : NodeId) : Decidable (f.Idle i) :=
  inferInstanceAs (Decidable (_ ∧ _))

/-- `g` is `f` without some of the roots that feed nothing; all else is the same. -/
structure TrimmedOf (gone : NodeId → Prop) [DecidablePred gone] (f g : Forest) : Prop where
  node (i : NodeId) : g.node? i = if gone i then none else f.node? i
  edges : g.edges = f.edges
  sources : g.sources = f.sources.filter fun i => ¬ gone i
  outputs : g.outputs = f.outputs.filter fun entry => ¬ gone entry.2
  requests : g.requests = f.requests
  signals : g.signals = f.signals
  ids : g.ids = f.ids

abbrev Trimmed (f g : Forest) : Prop :=
  TrimmedOf f.Idle f g

theorem signals_remove (f : Forest) (i : NodeId) : (f.remove i).signals = f.signals := by
  have hclear : ∀ g : Forest, (g.clear i).signals = g.signals := fun g => by
    unfold clear
    split <;> rfl
  exact (hclear _).trans (Forest.mk.inj (contents_unwrap f i)).2.2.2.2.2.2.1

theorem childCount_congr (hedges : g.edges = f.edges) (i : NodeId) :
    g.childCount i = f.childCount i := by
  unfold childCount outgoing
  rw [hedges]

theorem Planted.trimmed_remove (hf : f.Planted) {r : NodeId} (hr : f.parent? r = none)
    (hcount : f.childCount r = 0) : TrimmedOf (· = r) f (f.remove r) where
  node i := node?_remove f r i
  edges := by
    have hchildren := children_eq_nil_of_childCount hcount
    have hplace : f.place? r = none := by
      rw [hf.single.place?_eq, hr]
      rfl
    have hunwrap : (f.unwrap r).edges = f.edges := by
      unfold unwrap
      rw [hplace]
    have hclear : ((f.unwrap r).clear r).edges = f.edges := by
      unfold clear
      split
      · refine (congrArg _ hunwrap).trans (filter_eq_self.mpr fun e he => ?_)
        have hparent : e.parent ≠ r := fun h => by
          have hmem := mem_children.mpr ⟨e, he, h, rfl⟩
          rw [hchildren] at hmem
          exact not_mem_nil hmem
        have hchild : e.child ≠ r := fun h => by
          have hmem := hf.parent?_of_mem (mem_children.mpr ⟨e, he, rfl, h⟩)
          exact absurd (hr.symm.trans hmem) (by simp)
        simp [hparent, hchild]
      · exact hunwrap
    exact hclear
  sources := by
    rw [sources_remove, hf.single.sources_unwrap, hr, children_eq_nil_of_childCount hcount]
    simp [splice, bne, beq_eq_decide]
  outputs := by
    rw [outputs_remove]
    simp [bne, beq_eq_decide]
  requests := requests_remove f r
  signals := signals_remove f r
  ids := ids_remove f r

theorem TrimmedOf.refl (f : Forest) : TrimmedOf (fun _ => False) f f where
  node _ := rfl
  edges := rfl
  sources := by simp
  outputs := by simp
  requests := rfl
  signals := rfl
  ids := rfl

theorem TrimmedOf.trans {gone more : NodeId → Prop} [DecidablePred gone] [DecidablePred more]
    (hfg : TrimmedOf gone f g) (hgh : TrimmedOf more g h) :
    TrimmedOf (fun i => gone i ∨ more i) f h where
  node i := by
    rw [hgh.node, hfg.node]
    grind
  edges := hgh.edges.trans hfg.edges
  sources := by
    rw [hgh.sources, hfg.sources, filter_filter]
    simp [Bool.and_comm]
  outputs := by
    rw [hgh.outputs, hfg.outputs, filter_filter]
    simp [Bool.and_comm]
  requests := hgh.requests.trans hfg.requests
  signals := hgh.signals.trans hfg.signals
  ids := hgh.ids.trans hfg.ids

theorem TrimmedOf.congr {gone more : NodeId → Prop} [DecidablePred gone] [DecidablePred more]
    (hfg : TrimmedOf gone f g) (hsame : ∀ i, gone i ↔ more i) : TrimmedOf more f g := by
  obtain rfl : gone = more := funext fun i => propext (hsame i)
  convert hfg

end Forest

theorem pruneRoots_trimmed (hf : f.Planted) : f.Trimmed (pruneRoots f) := by
  suffices h : ∀ (roots : List NodeId) (g : Forest), g.Planted →
      (∀ r ∈ roots, g.parent? r = none) →
      TrimmedOf (fun i => i ∈ roots ∧ g.childCount i = 0) g
        (roots.foldl (fun g r => if g.childCount r = 0 then g.remove r else g) g) from
    h f.sources f hf fun r hr => (hf.roots.mp hr).2.1
  intro roots
  induction roots with
  | nil => exact fun g _ _ => (TrimmedOf.refl g).congr fun i => by simp
  | cons root rest ih =>
    intro g hg hroots
    rw [foldl_cons]
    split
    · rename_i hcount
      have hstep := hg.trimmed_remove (hroots root (by simp)) hcount
      have hplanted : (g.remove root).Planted := by
        cases hn : g.node? root with
        | none => rwa [hg.remove_vacant (by simp [Forest.contains, hn])]
        | some n => exact hg.remove hn (.inr (children_eq_nil_of_childCount hcount))
      refine (hstep.trans (ih _ hplanted fun r hr => ?_)).congr fun i => ?_
      · rw [parent?_congr hstep.edges]
        exact hroots r (by simp [hr])
      · rw [childCount_congr hstep.edges, mem_cons]
        grind
    · rename_i hcount
      refine (ih g hg fun r hr => hroots r (by simp [hr])).congr fun i => ?_
      rw [mem_cons]
      grind

theorem pruneRoots_planted (hf : f.Planted) : (pruneRoots f).Planted :=
  have hsteps : Rewrites false f (pruneRoots f) := pruneRoots_rewrites hf
  hsteps.planted hf

theorem pruneRoots_eq_self (hroots : ∀ r ∈ f.sources, f.childCount r ≠ 0) : pruneRoots f = f := by
  refine List.foldlRecOn f.sources _ (motive := (· = f)) rfl fun g hg r hr => ?_
  rw [hg, if_neg (hroots r hr)]

theorem childCount_of_mem_pruneRoots (hf : f.Planted) {r : NodeId} (hr : r ∈ (pruneRoots f).sources) :
    (pruneRoots f).childCount r ≠ 0 := by
  have htrim := pruneRoots_trimmed hf
  rw [htrim.sources, mem_filter, decide_eq_true_eq] at hr
  rw [childCount_congr htrim.edges]
  exact fun hcount => hr.2 ⟨hr.1, hcount⟩

theorem pruneRoots_pruneRoots (hf : f.Planted) : pruneRoots (pruneRoots f) = pruneRoots f :=
  pruneRoots_eq_self fun _ hr => childCount_of_mem_pruneRoots hf hr

/-! ### Runs that report no change -/

namespace Pass

def Quiet (rowIds : Bool) (f : Forest) (pass : Pass) : Prop :=
  ∃ q, pass.run rowIds f = .ok q ∧ q.changed = false

theorem reported {pass : Pass} (hpass : pass ≠ .removeDuplicateTimeUnits) (hf : f.Planted)
    (h : pass.run rowIds f = .ok q) : Progress.Reported { forest := f } q := by
  have hhonest := (pass.does_of_run hf h).honest
  cases pass with
  | removeDuplicateTimeUnits => exact absurd rfl hpass
  | _ => exact hhonest

end Pass

/-- A run of the passes that reports no change. Roots that feed nothing may go, and time units that cut
nothing. -/
structure QuietRun (rowIds : Bool) (f g : Forest) : Prop where
  first : ∀ pass ∈ firstPasses, Pass.Quiet rowIds f pass
  early : ∀ pass ∈ earlyPasses, Pass.Quiet rowIds (pruneRoots f) pass
  units : ∃ q, removeDuplicateTimeUnits (pruneRoots f) = .ok q ∧ q.changed = false ∧ q.forest = g
  last : ∀ pass ∈ lastPasses, Pass.Quiet rowIds g pass

theorem Progress.andThen_eq_ok {pass : Forest → Attempt} :
    p.andThen pass = .ok q ↔ ∃ r, pass p.forest = .ok r ∧ p.follow r = q := by
  unfold Progress.andThen
  cases pass p.forest with
  | error e => exact ⟨fun h => (nomatch h), fun ⟨_, h, _⟩ => (nomatch h)⟩
  | ok r => exact ⟨fun h => ⟨r, rfl, Except.ok.inj h⟩, fun ⟨_, hr, h⟩ => by cases hr; exact h ▸ rfl⟩

theorem Pass.step_eq {pass : Pass} (h : pruneRoots p.forest = p.forest ∨ pass.prunes = false) :
    pass.step rowIds p = p.andThen (pass.run rowIds) := by
  unfold Pass.step
  split
  · rename_i hprunes
    have hsame : pruned p = p := by
      unfold pruned
      rw [h.resolve_right (by simp [hprunes])]
    rw [hsame]
  · rfl

section

variable {passes : List Pass}

theorem changed_of_foldlM (h : passes.foldlM (Pass.step rowIds) p = .ok q) (hq : q.changed = false) :
    p.changed = false := by
  induction passes generalizing p with
  | nil =>
    cases h
    exact hq
  | cons pass rest ih =>
    rw [foldlM_cons] at h
    obtain ⟨r, hr, h⟩ := bind_eq_ok.mp h
    obtain ⟨s, -, rfl⟩ := Progress.andThen_eq_ok.mp hr
    have hchanged := (Bool.or_eq_false_iff.mp (ih h)).1
    split at hchanged <;> exact hchanged

variable (hpasses : .removeDuplicateTimeUnits ∉ passes) (hp : p.forest.Planted)
  (hpruned : pruneRoots p.forest = p.forest ∨ ∀ pass ∈ passes, pass.prunes = false)

include hpasses hp hpruned

theorem quiet_of_foldlM (h : passes.foldlM (Pass.step rowIds) p = .ok q) (hq : q.changed = false) :
    q.forest = p.forest ∧ ∀ pass ∈ passes, pass.Quiet rowIds p.forest := by
  induction passes generalizing p with
  | nil =>
    cases h
    exact ⟨rfl, nofun⟩
  | cons pass rest ih =>
    obtain ⟨hpass, hrest⟩ := not_or.mp (mt mem_cons.mpr hpasses)
    rw [foldlM_cons, Pass.step_eq (hpruned.imp_right fun h => h pass mem_cons_self)] at h
    obtain ⟨r, hr, h⟩ := bind_eq_ok.mp h
    have hchanged := changed_of_foldlM h hq
    obtain ⟨s, hs, rfl⟩ := Progress.andThen_eq_ok.mp hr
    have hquiet := (Bool.or_eq_false_iff.mp hchanged).2
    have hsame : s.forest = p.forest := (Pass.reported (Ne.symm hpass) hp hs).forest_eq hquiet
    obtain ⟨hlast, hquiets⟩ := ih hrest (p := p.follow s) (hsame ▸ hp)
      (hpruned.imp (hsame ▸ ·) fun h pass hmem => h pass (mem_cons_of_mem _ hmem)) h
    exact ⟨hlast.trans hsame, forall_mem_cons.mpr ⟨⟨s, hs, hquiet⟩, hsame ▸ hquiets⟩⟩

theorem foldlM_of_quiet (h : ∀ pass ∈ passes, pass.Quiet rowIds p.forest) (hc : p.changed = false) :
    ∃ q, passes.foldlM (Pass.step rowIds) p = .ok q ∧ q.forest = p.forest ∧ q.changed = false := by
  induction passes generalizing p with
  | nil => exact ⟨p, rfl, rfl, hc⟩
  | cons pass rest ih =>
    obtain ⟨hpass, hrest⟩ := not_or.mp (mt mem_cons.mpr hpasses)
    obtain ⟨⟨s, hs, hquiet⟩, hquiets⟩ := forall_mem_cons.mp h
    have hsame : s.forest = p.forest := (Pass.reported (Ne.symm hpass) hp hs).forest_eq hquiet
    obtain ⟨q, hq, hqf, hqc⟩ := ih hrest (p := p.follow s) (hsame ▸ hp)
      (hpruned.imp (hsame ▸ ·) fun h pass hmem => h pass (mem_cons_of_mem _ hmem))
      (hsame ▸ hquiets) (Bool.or_eq_false_iff.mpr ⟨hc, hquiet⟩)
    refine ⟨q, ?_, hqf.trans hsame, hqc⟩
    rw [foldlM_cons, Pass.step_eq (hpruned.imp_right fun h => h pass mem_cons_self),
      Progress.andThen_eq_ok.mpr ⟨s, hs, rfl⟩]
    exact hq

end

theorem foldlM_earlyPasses_pruned (hp : p.forest.Planted) :
    earlyPasses.foldlM (Pass.step rowIds) (pruned p) = earlyPasses.foldlM (Pass.step rowIds) p := by
  have hsame : pruned (pruned p) = pruned p :=
    congrArg (fun f => { p with forest := f }) (pruneRoots_pruneRoots hp)
  simp only [earlyPasses, foldlM_cons, Pass.step, Pass.prunes, if_true, hsame]

theorem quietRun_of_runPasses (hf : f.Planted) (h : runPasses rowIds f = .ok q)
    (hq : q.changed = false) : QuietRun rowIds f q.forest := by
  rw [runPasses_eq, foldlM_append] at h
  obtain ⟨p₁, h₁, h⟩ := bind_eq_ok.mp h
  rw [foldlM_append] at h
  obtain ⟨p₂, h₂, h⟩ := bind_eq_ok.mp h
  rw [foldlM_cons] at h
  obtain ⟨p₃, h₃, h₄⟩ := bind_eq_ok.mp h
  obtain ⟨r, hr, rfl⟩ := Progress.andThen_eq_ok.mp h₃
  obtain ⟨c₂, hr'⟩ := Bool.or_eq_false_iff.mp (changed_of_foldlM h₄ hq)
  obtain ⟨f₁, hfirst⟩ := quiet_of_foldlM (p := { forest := f }) (by decide) hf (.inr (by decide)) h₁
    (changed_of_foldlM h₂ c₂)
  have f₁' : (pruned p₁).forest = pruneRoots f := congrArg pruneRoots f₁
  rw [← foldlM_earlyPasses_pruned (f₁ ▸ hf)] at h₂
  obtain ⟨f₂, hearly⟩ := quiet_of_foldlM (by decide) (f₁' ▸ pruneRoots_planted hf)
    (.inl (f₁' ▸ pruneRoots_pruneRoots hf)) h₂ c₂
  have f₂' : p₂.forest = pruneRoots f := f₂.trans f₁'
  have hrun : removeDuplicateTimeUnits (pruneRoots f) = .ok r := f₂' ▸ hr
  have hplanted : r.forest.Planted := (@Pass.does_of_run rowIds _ .removeDuplicateTimeUnits
    (pruneRoots_planted hf) _ hrun).planted (Pass.tame rowIds _) (pruneRoots_planted hf)
  obtain ⟨f₄, hlast⟩ := quiet_of_foldlM (p := p₂.follow r) (by decide) hplanted (.inr (by decide)) h₄ hq
  exact ⟨hfirst, f₁' ▸ hearly, ⟨r, hrun, hr', f₄.symm⟩, f₄.symm ▸ hlast⟩

theorem runPasses_of_quietRun (hf : f.Planted) (h : QuietRun rowIds f g) :
    ∃ q, runPasses rowIds f = .ok q ∧ q.changed = false ∧ q.forest = g := by
  have hpruned := pruneRoots_planted hf
  obtain ⟨p₁, e₁, f₁, c₁⟩ := foldlM_of_quiet (p := { forest := f }) (by decide) hf (.inr (by decide))
    h.first rfl
  have f₁' : (pruned p₁).forest = pruneRoots f := congrArg pruneRoots f₁
  obtain ⟨p₂, e₂, f₂, c₂⟩ := foldlM_of_quiet (p := pruned p₁) (by decide) (f₁' ▸ hpruned)
    (.inl (f₁' ▸ pruneRoots_pruneRoots hf)) (f₁' ▸ h.early) c₁
  rw [foldlM_earlyPasses_pruned (f₁ ▸ hf)] at e₂
  obtain ⟨r, hr, hr', rfl⟩ := h.units
  have e₃ : Pass.step rowIds p₂ .removeDuplicateTimeUnits = .ok (p₂.follow r) :=
    Progress.andThen_eq_ok.mpr ⟨r, (f₂.trans f₁').symm ▸ hr, rfl⟩
  have hplanted : r.forest.Planted := (@Pass.does_of_run rowIds _ .removeDuplicateTimeUnits
    hpruned _ hr).planted (Pass.tame rowIds _) hpruned
  obtain ⟨p₄, e₄, f₄, c₄⟩ := foldlM_of_quiet (p := p₂.follow r) (by decide) hplanted (.inr (by decide))
    h.last (Bool.or_eq_false_iff.mpr ⟨c₂, hr'⟩)
  refine ⟨p₄, ?_, c₄, f₄⟩
  simp only [runPasses_eq, foldlM_append, foldlM_cons, e₁, e₂, e₃, e₄, bind, Except.bind]

/-! ### Running the passes again -/

theorem dropWhere_eq_self {doomed : Forest → NodeId → Bool} (hnone : ∀ i, doomed f i = false) :
    dropWhere doomed f = { forest := f } := by
  refine List.foldlRecOn f.sources _ (motive := fun p : Progress => p = { forest := f }) rfl fun p hp root _ => ?_
  split
  · refine List.foldlRecOn _ _ (motive := fun p : Progress => p = { forest := f }) hp fun p hp i _ => ?_
    unfold dropNode
    rw [hp, if_neg (by rw [hnone i]; decide)]
  · exact hp

theorem quiet_dropWhere_trimmed {doomed : Forest → NodeId → Bool} (hf : f.Planted)
    (hquiet : (dropWhere doomed f).changed = false)
    (hdoomed : ∀ i, doomed g i → f.contains i ∧ doomed f i) :
    (dropWhere doomed g).changed = false := by
  rw [dropWhere_eq_self fun i => Bool.eq_false_iff.mpr fun hi => ?_]
  obtain ⟨hlive, hold⟩ := hdoomed i hi
  rw [eq_false_of_quiet_dropWhere hf hquiet hlive] at hold
  cases hold

theorem Forest.TrimmedOf.node?_eq {gone : NodeId → Prop} [DecidablePred gone] {n : Node}
    (h : TrimmedOf gone f g) (hn : g.node? i = some n) : f.node? i = some n := by
  rw [h.node] at hn
  split at hn
  · cases hn
  · exact hn

theorem Forest.Trimmed.isUnrequested (h : f.Trimmed g) (hi : isUnrequested g i) :
    f.contains i ∧ Flow.isUnrequested f i := by
  obtain ⟨n, hn, hany⟩ := holds_iff.mp hi
  have hn' := h.node?_eq hn
  refine ⟨contains_of_node? hn', holds_iff.mpr ⟨n, hn', ?_⟩⟩
  unfold requestCount at hany ⊢
  rwa [h.requests] at hany

theorem Forest.Trimmed.isNeedlessIdentifier (hf : f.Planted) (h : f.Trimmed g)
    (hi : isNeedlessIdentifier rowIds g i) :
    f.contains i ∧ Flow.isNeedlessIdentifier rowIds f i := by
  obtain ⟨n, hn, hneedless⟩ := holds_iff.mp hi
  have hn' := h.node?_eq hn
  refine ⟨contains_of_node? hn', holds_iff.mpr ⟨n, hn', ?_⟩⟩
  cases n with
  | identifier =>
    -- The parent of a node is no root without children.
    obtain ⟨a, ha⟩ := hf.exists_parent hn' rfl
    have hkept : ¬ f.Idle a := fun hidle => by
      have hmem := hf.child ha
      rw [children_eq_nil_of_childCount hidle.2] at hmem
      exact not_mem_nil hmem
    dsimp only at hneedless ⊢
    rw [parent?_congr h.edges, ha, Option.any_some] at hneedless
    rw [ha, Option.any_some]
    unfold holds at hneedless ⊢
    rwa [h.node, if_neg hkept] at hneedless
  | _ => simp at hneedless

theorem QuietRun.again (hf : f.Planted) (h : QuietRun rowIds f (pruneRoots f)) :
    QuietRun rowIds (pruneRoots f) (pruneRoots f) := by
  have htrim := pruneRoots_trimmed hf
  refine ⟨forall_mem_cons.mpr ⟨⟨_, rfl, ?_⟩, forall_mem_singleton.mpr ⟨_, rfl, ?_⟩⟩, ?_, ?_,
    h.last⟩
  · obtain ⟨q, hq, hquiet⟩ := h.first .removeUnrequestedOutputs (by decide)
    cases hq
    exact quiet_dropWhere_trimmed hf hquiet fun i => htrim.isUnrequested
  · obtain ⟨q, hq, hquiet⟩ := h.first .removeNeedlessIdentifiers (by decide)
    cases hq
    exact quiet_dropWhere_trimmed hf hquiet fun i => htrim.isNeedlessIdentifier hf
  · rw [pruneRoots_pruneRoots hf]
    exact h.early
  · rw [pruneRoots_pruneRoots hf]
    exact h.units

theorem QuietRun.vacates (hf : f.Planted) (h : QuietRun rowIds f g) :
    Relation.ReflTransGen Vacates (pruneRoots f) g := by
  obtain ⟨q, hq, hquiet, rfl⟩ := h.units
  have hdoes := @Pass.does_of_run rowIds _ .removeDuplicateTimeUnits (pruneRoots_planted hf) _ hq
  exact (hdoes.honest hquiet).2

theorem QuietRun.forest_eq (hf : f.Planted) (h : QuietRun rowIds f g)
    (hunits : ∀ i t, f.node? i = some (.timeUnit t) → t.cuts ≠ []) : g = pruneRoots f := by
  rcases (h.vacates hf).cases_head with he | ⟨_, hstep, -⟩
  · exact he.symm
  · cases hstep with
    | remove hn hempty => exact absurd hempty (hunits _ _ ((pruneRoots_trimmed hf).node?_eq hn))

/-- When a run of the passes reports no change on a forest that passes the check, has its data sources as
roots and in which every time unit cuts something, the forest is as before: the same nodes, links,
registered outputs, requests and renamed signals, but for roots that fed nothing. Running the passes
again reports no change and changes nothing. -/
theorem runPasses_quiet {f : Forest} {rowIds : Bool} {q : Progress} (hgraph : f.Graph)
    (hcheck : f.check = .ok ()) (hroots : ∀ i, i ∈ f.sources ↔ f.holds i Node.isDataSource)
    (hunits : ∀ i t, f.node? i = some (.timeUnit t) → t.cuts ≠ [])
    (hrun : runPasses rowIds f = .ok q) (hq : q.changed = false) :
    f.Trimmed q.forest ∧
      ∃ r, runPasses rowIds q.forest = .ok r ∧ r.changed = false ∧ r.forest = q.forest := by
  have hf := hgraph.planted hcheck hroots
  have hquiet := quietRun_of_runPasses hf hrun hq
  have hsame : q.forest = pruneRoots f := hquiet.forest_eq hf hunits
  rw [hsame] at hquiet ⊢
  exact ⟨pruneRoots_trimmed hf, runPasses_of_quietRun (pruneRoots_planted hf) (hquiet.again hf)⟩

/-- Dates that are cut to years for an output, beside a data source that feeds nothing. -/
def idleSource : Forest where
  slots := [some (.source .empty), some (.source .empty),
    some (.timeUnit (.single ⟨"year_day", "day", ⟨"year", false⟩⟩)),
    some (.output (.fresh "main" .main 0))]
  edges := [⟨2, 3, 0⟩, ⟨1, 2, 0⟩]
  sources := [0, 1]
  outputs := [("main", 3)]
  requests := [("main", 1)]

theorem idleSource_cuts : ∀ i t, idleSource.node? i = some (.timeUnit t) → t.cuts ≠ []
  | 0, _, h | 1, _, h | 3, _, h => (nomatch h)
  | 2, _, h => by cases h; decide
  | _ + 4, _, h => by simp [idleSource, Forest.node?] at h

theorem runPasses_idleSource : ∃ q, runPasses true idleSource = .ok q ∧ q.changed = false ∧
    idleSource.Idle 0 ∧ idleSource.Trimmed q.forest ∧
      ∃ r, runPasses true q.forest = .ok r ∧ r.changed = false ∧ r.forest = q.forest := by
  have hrun : (runPasses true idleSource).toOption.map Progress.changed = some false := by rfl
  have hcheck : idleSource.check = .ok () := by rfl
  have hgraph : idleSource.Graph := ⟨⟨by decide, by decide⟩, by decide⟩
  obtain ⟨q, hq, hchanged⟩ := exists_ok_of_map hrun
  exact ⟨q, hq, hchanged, by decide,
    runPasses_quiet hgraph hcheck (roots_of_slots (by decide)) idleSource_cuts hq hchanged⟩

/-! ### Normal forms -/

/-- What the passes see to before time units are dropped. -/
structure Forest.Sifted (f : Forest) : Prop where
  planted : f.Planted
  requested : f.AllRequested
  ends {i : NodeId} {n : Node} : f.node? i = some n → f.children i = [] → endsBranch n
  bins {above a : NodeId} : a ∈ f.children above → f.holds a Node.isBin →
    isPromotable f above a = false ∧ ∀ b ∈ f.children above, f.holds b Node.isBin → b = a
  coercions {above i : NodeId} {c : Coercion} {m : Node} : f.children above = [i] →
    f.node? i = some (.parse c) → f.node? above = some m →
    m.isDataSource ∨ m.parse? = none ∧ mayWrite m c.fields

theorem QuietRun.sifted (hf : f.Planted) (h : QuietRun rowIds f g) : (pruneRoots f).Sifted where
  planted := pruneRoots_planted hf
  requested i o ho := by
    have htrim := pruneRoots_trimmed hf
    have ho' := htrim.node?_eq ho
    obtain ⟨q, hq, hquiet⟩ := h.first .removeUnrequestedOutputs (by decide)
    cases hq
    have hkept := eq_false_of_quiet_dropWhere hf hquiet (contains_of_node? ho')
    unfold isUnrequested at hkept
    rw [holds_of_node? ho'] at hkept
    refine Nat.pos_of_ne_zero fun hcount => ?_
    unfold requestCount at hcount
    rw [htrim.requests] at hcount
    simp [Node.output?, requestCount, hcount] at hkept
  ends {i n} hn hchildren := by
    have hplanted := pruneRoots_planted hf
    obtain ⟨q, hq, hquiet⟩ := h.early .removeUnusedSubtrees (by decide)
    refine endsBranch_of_quiet_prune hplanted hq hquiet hn hchildren (Bool.eq_false_iff.mpr fun hs => ?_)
    have hroot := hplanted.sourced.mpr ((holds_of_node? hn).trans hs)
    refine childCount_of_mem_pruneRoots hf hroot ?_
    rw [← length_children, hchildren]
    rfl
  bins ha hbin := by
    obtain ⟨q, hq, hquiet⟩ := h.early .mergeBins (by decide)
    exact bins_of_quiet_mergeBins (pruneRoots_planted hf) hq hquiet ha hbin
  coercions honly hi hm := by
    obtain ⟨q, hq, hquiet⟩ := h.early .moveParseUp (by decide)
    exact blocked_of_quiet_moveParseUp (pruneRoots_planted hf) hq hquiet hi honly hm

theorem produced?_of_cuts_eq_nil {t : TimeUnits} (h : t.cuts = []) :
    (Node.timeUnit t).produced? = some [] := by
  show some t.produced = some []
  unfold TimeUnits.produced
  rw [h]
  rfl

namespace Forest.Sifted

variable {t : TimeUnits}

theorem holds_isBin_of_vacant (h : f.Sifted) (hi : f.node? i = some (.timeUnit t)) (ht : t.cuts = [])
    {a : NodeId} (ha : a ∈ f.children i) : f.holds a Node.isBin = false := by
  refine Bool.eq_false_iff.mpr fun hbin => ?_
  have hstays := (h.bins ha hbin).1
  unfold isPromotable at hstays
  rw [holds_of_node? hi, produced?_of_cuts_eq_nil ht] at hstays
  cases hstays

theorem children_ne_of_vacant (h : f.Sifted) (hi : f.node? i = some (.timeUnit t)) (ht : t.cuts = [])
    {a : NodeId} {c : Coercion} (ha : f.node? a = some (.parse c)) : f.children i ≠ [a] := fun honly => by
  rcases h.coercions honly ha hi with hsource | ⟨-, hwrite⟩
  · cases hsource
  · unfold mayWrite at hwrite
    rw [produced?_of_cuts_eq_nil ht] at hwrite
    cases hwrite

theorem remove (h : f.Sifted) (hi : f.node? i = some (.timeUnit t)) (ht : t.cuts = []) :
    (f.remove i).Sifted := by
  have hf := h.planted
  have hsome : f.children i ≠ [] := fun hnone => by cases h.ends hi hnone
  -- The children of the node are the only ones with another parent.
  have hchildren : ∀ j, j ≠ i → (f.remove i).children j = f.children j ∨
      f.parent? i = some j ∧ ((f.remove i).children j).Perm (f.children i ++ (f.children j).erase i) := by
    intro j hj
    rw [hf.children_remove, if_neg hj]
    split
    · rename_i hparent
      exact .inr ⟨hparent, perm_splice _ _ _⟩
    · exact .inl rfl
  have hbin : ∀ {j a}, a ∈ (f.remove i).children j → (f.remove i).holds a Node.isBin →
      j ≠ i ∧ a ≠ i ∧ a ∈ f.children j ∧ f.holds a Node.isBin := by
    intro j a ha hbin
    obtain ⟨n, hn, hisbin⟩ := holds_iff.mp hbin
    obtain ⟨hai, hn'⟩ := node?_of_remove hn
    have hbin' : f.holds a Node.isBin := (holds_of_node? hn').trans hisbin
    obtain ⟨hji, -, hmem | ⟨-, hmem⟩⟩ := hf.mem_children_remove.mp ha
    · exact ⟨hji, hai, hmem, hbin'⟩
    · rw [h.holds_isBin_of_vacant hi ht hmem] at hbin'
      cases hbin'
  refine ⟨hf.remove hi (.inl rfl), fun j o ho => ?_, fun {j n} hn hnone => ?_, fun {j a} ha hb => ?_,
    fun {j a c m} honly ha hm => ?_⟩
  · have hkept := h.requested j o (node?_of_remove ho).2
    unfold requestCount at hkept ⊢
    rwa [requests_remove]
  · obtain ⟨hji, hn'⟩ := node?_of_remove hn
    rcases hchildren j hji with hsame | ⟨-, hperm⟩
    · exact h.ends hn' (hsame ▸ hnone)
    · rw [hnone] at hperm
      exact absurd (append_eq_nil_iff.mp hperm.nil_eq.symm).1 hsome
  · obtain ⟨hji, hai, hmem, hb'⟩ := hbin ha hb
    obtain ⟨hstays, hone⟩ := h.bins hmem hb'
    refine ⟨?_, fun b hbmem hbb => ?_⟩
    · unfold isPromotable holds at hstays ⊢
      rwa [node?_remove f i j, node?_remove f i a, if_neg hji, if_neg hai]
    · obtain ⟨-, -, hbmem', hbb'⟩ := hbin hbmem hbb
      exact hone b hbmem' hbb'
  · obtain ⟨hji, hm'⟩ := node?_of_remove hm
    obtain ⟨-, ha'⟩ := node?_of_remove ha
    rcases hchildren j hji with hsame | ⟨-, hperm⟩
    · exact h.coercions (hsame ▸ honly) ha' hm'
    · -- The coercion would have been the only child of the time unit.
      rw [honly] at hperm
      exfalso
      cases hbelow : f.children i with
      | nil => exact hsome hbelow
      | cons b rest =>
        rw [hbelow] at hperm
        have hlist : b :: (rest ++ (f.children j).erase i) = [a] := (singleton_perm.mp hperm).symm
        obtain ⟨rfl, hrest⟩ := List.cons.inj hlist
        refine h.children_ne_of_vacant hi ht ha' ?_
        rw [hbelow, (append_eq_nil_iff.mp hrest).1]

theorem vacates (h : f.Sifted) (hsteps : Relation.ReflTransGen Vacates f g) : g.Sifted := by
  induction hsteps with
  | refl => exact h
  | tail _ hstep ih =>
    cases hstep with
    | remove hi ht => exact ih.remove hi ht

end Forest.Sifted

/-- A forest in which nothing is left to do: every output was requested, branches end with outputs and
facets, the children of a node compute different things, an output is an only child, no node has two
bins below it, and a coercion that is an only child can neither join nor pass its parent. -/
structure Forest.Normal (f : Forest) : Prop where
  requested (i : NodeId) (o : Output) : f.node? i = some (.output o) → 0 < f.requestCount o.name
  ends (i : NodeId) (n : Node) : f.node? i = some n → f.children i = [] → n.isOutput ∨ n.isFacet
  distinct (above a b : NodeId) (m n : Node) : a ∈ f.children above → b ∈ f.children above →
    f.node? a = some m → f.node? b = some n → m.kindName = n.kindName →
    m.identity.toText = n.identity.toText → a = b
  alone (above i : NodeId) (o : Output) : i ∈ f.children above → f.node? i = some (.output o) →
    f.children above = [i]
  bins (above a b : NodeId) (m n : Bins) : a ∈ f.children above → b ∈ f.children above →
    f.node? a = some (.bin m) → f.node? b = some (.bin n) → a = b
  apart (above i : NodeId) (c d : Coercion) : f.children above = [i] →
    f.node? i = some (.parse c) → f.node? above ≠ some (.parse d)
  blocked (above i : NodeId) (c : Coercion) (m : Node) (produced : NameSet) :
    f.children above = [i] → f.node? i = some (.parse c) → f.node? above = some m →
    m.isDataSource = false → m.produced? = some produced → ¬ produced.disjoint c.fields

/-- When a run of the passes reports no change on a forest that passes the check and has its data sources
as roots, the forest is in normal form. -/
theorem runPasses_normal {f : Forest} {rowIds : Bool} {q : Progress} (hgraph : f.Graph)
    (hcheck : f.check = .ok ()) (hroots : ∀ i, i ∈ f.sources ↔ f.holds i Node.isDataSource)
    (hrun : runPasses rowIds f = .ok q) (hq : q.changed = false) : q.forest.Normal := by
  have hf := hgraph.planted hcheck hroots
  have hquiet := quietRun_of_runPasses hf hrun hq
  have hsifted := (hquiet.sifted hf).vacates (hquiet.vacates hf)
  obtain ⟨e, he, hequal⟩ := hquiet.last .mergeIdenticalNodes (by decide)
  obtain ⟨c, hc, hchained⟩ := hquiet.last .mergeOutputs (by decide)
  refine ⟨hsifted.requested, fun i n hn hnone => ?_, fun above a b m n ha hb hm hn hkind htext => ?_,
    fun above i o hi ho => ?_, fun above a b m n ha hb hm hn => ?_, fun above i k d honly hi hd => ?_,
    fun above i k m produced honly hi hm hsource hproduced hdisjoint => ?_⟩
  · have hends := hsifted.ends hn hnone
    cases n with
    | output o => exact .inl rfl
    | facet m => exact .inr rfl
    | _ => cases hends
  · refine signatures_of_quiet_mergeIdenticalNodes hsifted.planted he hequal ha hb ?_
    unfold signatureOf
    rw [hm, hn]
    show m.kindName ++ " " ++ m.identity.toText = n.kindName ++ " " ++ n.identity.toText
    rw [hkind, htext]
  · exact alone_of_quiet_mergeOutputs hsifted.planted hc hchained hi (holds_of_node? ho)
  · exact (hsifted.bins hb (holds_of_node? hn)).2 a ha (holds_of_node? hm)
  · rcases hsifted.coercions honly hi hd with hsource | ⟨hparse, -⟩
    · cases hsource
    · cases hparse
  · rcases hsifted.coercions honly hi hm with hsource' | ⟨-, hwrite⟩
    · rw [hsource] at hsource'
      cases hsource'
    · unfold mayWrite at hwrite
      rw [hproduced] at hwrite
      simp [hdisjoint] at hwrite

/-- A time unit that cuts nothing, below another one. It goes without a report. -/
def idleUnit : Forest where
  slots := [some (.source .empty),
    some (.timeUnit (.single ⟨"year_day", "day", ⟨"year", false⟩⟩)), some (.timeUnit ⟨[]⟩),
    some (.parse ⟨[("day", "date")]⟩), some (.parse ⟨[("day", "string")]⟩),
    some (.output (.fresh "dates" .main 0)), some (.output (.fresh "texts" .main 1))]
  edges := [⟨4, 6, 0⟩, ⟨3, 5, 0⟩, ⟨2, 4, 1⟩, ⟨2, 3, 0⟩, ⟨1, 2, 0⟩, ⟨0, 1, 0⟩]
  sources := [0]
  outputs := [("dates", 5), ("texts", 6)]
  requests := [("dates", 1), ("texts", 1)]

theorem runPasses_idleUnit : ∃ q, runPasses true idleUnit = .ok q ∧ q.changed = false ∧
    q.forest.contains 2 = false ∧ q.forest.Normal := by
  have hrun : (runPasses true idleUnit).toOption.map
      (fun q => (q.changed, q.forest.contains 2)) = some (false, false) := by
    decide +kernel
  have hcheck : idleUnit.check = .ok () := by rfl
  have hgraph : idleUnit.Graph := ⟨⟨by decide, by decide⟩, by decide⟩
  obtain ⟨q, hq, hfacts⟩ := exists_ok_of_map hrun
  obtain ⟨hchanged, hgone⟩ := Prod.mk.inj hfacts
  exact ⟨q, hq, hchanged, hgone, runPasses_normal hgraph hcheck (roots_of_slots (by decide)) hq hchanged⟩

end ChartPlan.Flow
