import ChartPlan.Proofs.Flow.Rewrite
import ChartPlan.Proofs.Warnings

/-!
# Walks over a forest

What a pass does at one node it does all along its walk: what every visit keeps, of the work done so far,
of the memory of the walk and of a failure, the walks up from the leaves keep (`Climb.Guards`). So if
every visit succeeds, the walks do (`Climb.Upholds`), and if every visit is a sequence of steps of some
kind that are reported, the whole pass is one (`Climb.Does`).
-/

namespace ChartPlan.Flow

open Forest List

/-! ### Work and its report -/

section

variable {silent deed : Forest → Forest → Prop} {rowIds : Bool} {f g : Forest} {p q r : Progress}

/-- One step on a forest and on the report of a change. A silent step may go unreported. -/
inductive Makes (silent deed : Forest → Forest → Prop) : Forest × Bool → Forest × Bool → Prop
  | deed {f g : Forest} {changed : Bool} : deed f g → Makes silent deed (f, changed) (g, true)
  | silent {f g : Forest} {changed : Bool} : silent f g → Makes silent deed (f, changed) (g, changed)

/-- What was done is a sequence of steps, all but the silent ones are reported, and there are no notes
but warnings. -/
structure Progress.Does (silent deed : Forest → Forest → Prop) (p q : Progress) : Prop where
  makes : Relation.ReflTransGen (Makes silent deed) (p.forest, p.changed) (q.forest, q.changed)
  warns : Warnings p.notes → Warnings q.notes

def Nothing (_ _ : Forest) : Prop :=
  False

/-- Steps that are sequences of rewrites. -/
structure Tame (rowIds : Bool) (silent deed : Forest → Forest → Prop) : Prop where
  rewrites : ∀ {f g}, deed f g → f.Planted → Rewrites rowIds f g
  loud : ∀ {f g}, silent f g → deed f g

theorem Tame.of_rewrites (h : ∀ {f g}, deed f g → f.Planted → Rewrites rowIds f g) :
    Tame rowIds Nothing deed :=
  ⟨h, False.elim⟩

theorem Makes.deed_of {s t : Forest × Bool} (h : Makes silent deed s t)
    (hloud : ∀ {f g}, silent f g → deed f g) : deed s.1 t.1 := by
  cases h with
  | deed hdeed => exact hdeed
  | silent hsilent => exact hloud hsilent

theorem Tame.steps (h : Tame rowIds silent deed) (hsteps : Relation.ReflTransGen deed f g)
    (hf : f.Planted) : Rewrites rowIds f g := by
  induction hsteps with
  | refl => exact .refl
  | tail _ hstep ih => exact ih.trans (h.rewrites hstep (ih.planted hf))

namespace Progress.Does

theorem refl (p : Progress) : p.Does silent deed p :=
  ⟨.refl, id⟩

theorem trans (h : p.Does silent deed q) (h' : q.Does silent deed r) : p.Does silent deed r :=
  ⟨h.makes.trans h'.makes, h'.warns ∘ h.warns⟩

theorem of_deeds (h : Relation.TransGen deed p.forest q.forest) (hq : q.changed = true)
    (hwarns : Warnings p.notes → Warnings q.notes) : p.Does silent deed q := by
  obtain ⟨g, hsteps, hlast⟩ := Relation.TransGen.tail'_iff.mp h
  have hreach : ∃ changed, Relation.ReflTransGen (Makes silent deed) (p.forest, p.changed)
      (g, changed) := by
    clear h hlast
    induction hsteps with
    | refl => exact ⟨p.changed, .refl⟩
    | tail _ hstep ih => exact ⟨true, ih.choose_spec.tail (.deed hstep)⟩
  refine ⟨?_, hwarns⟩
  rw [hq]
  exact hreach.choose_spec.tail (.deed hlast)

theorem change (h : deed p.forest g) : p.Does silent deed (p.change g) :=
  of_deeds (.single h) rfl id

theorem mono {deed' : Forest → Forest → Prop} (h : p.Does silent deed q)
    (himp : ∀ {f g}, deed f g → deed' f g) : p.Does silent deed' q := by
  refine ⟨Relation.ReflTransGen.mono (fun s t hmakes => ?_) _ _ h.makes, h.warns⟩
  cases hmakes with
  | deed hdeed => exact .deed (himp hdeed)
  | silent hsilent => exact .silent hsilent

theorem deeds (h : p.Does silent deed q) (hloud : ∀ {f g}, silent f g → deed f g) :
    Relation.ReflTransGen deed p.forest q.forest :=
  Relation.ReflTransGen.lift Prod.fst (fun _ _ hmakes => hmakes.deed_of hloud) _ _ h.makes

section

variable (ht : Tame rowIds silent deed) (h : p.Does silent deed q) (hp : p.forest.Planted)

include ht h hp

theorem rewrites : Rewrites rowIds p.forest q.forest :=
  ht.steps (h.deeds ht.loud) hp

theorem planted : q.forest.Planted :=
  (h.rewrites ht hp).planted hp

end

theorem foldl {α β : Type} (progress : β → Progress) {step : β → α → β} {I : β → Prop}
    (items : List α) (hstep : ∀ s, ∀ a ∈ items, I s →
      (progress s).Does silent deed (progress (step s a)) ∧ I (step s a)) {s : β} (hs : I s) :
    (progress s).Does silent deed (progress (items.foldl step s)) ∧ I (items.foldl step s) := by
  refine foldlRecOn items step
    (motive := fun t => (progress s).Does silent deed (progress t) ∧ I t) ⟨refl _, hs⟩ fun t ht a ha => ?_
  obtain ⟨hnext, ht'⟩ := hstep t a ha ht.2
  exact ⟨ht.1.trans hnext, ht'⟩

theorem foldl_planted (ht : Tame rowIds silent deed) {α : Type} {step : Progress → α → Progress}
    (hstep : ∀ (p : Progress) a, p.forest.Planted → p.Does silent deed (step p a)) (items : List α)
    (hp : p.forest.Planted) : p.Does silent deed (items.foldl step p) :=
  (foldl id (I := fun p => p.forest.Planted) items
    (fun p a _ hp => ⟨hstep p a hp, (hstep p a hp).planted ht hp⟩) hp).1

end Progress.Does

/-- Unless a change is reported, none was reported before, and nothing was done but steps that need not
be reported. -/
def Progress.Honest (silent : Forest → Forest → Prop) (p q : Progress) : Prop :=
  q.changed = false → p.changed = false ∧ Relation.ReflTransGen silent p.forest q.forest

namespace Progress.Honest

theorem change (p : Progress) (f : Forest) : Honest silent p (p.change f) :=
  fun h => (nomatch h)

theorem refl (p : Progress) : Honest silent p p :=
  fun hp => ⟨hp, .refl⟩

theorem trans (h : Honest silent p q) (h' : Honest silent q r) : Honest silent p r := fun hr =>
  have hqr := h' hr
  have hpq := h hqr.1
  ⟨hpq.1, hpq.2.trans hqr.2⟩

theorem foldl_of {α β : Type} (progress : β → Progress) {step : β → α → β}
    (hstep : ∀ s a, Honest silent (progress s) (progress (step s a))) (items : List α) (s : β) :
    Honest silent (progress s) (progress (items.foldl step s)) :=
  foldlRecOn items step (motive := fun t => Honest silent (progress s) (progress t)) (refl _)
    fun t ht a _ => ht.trans (hstep t a)

theorem foldl {α : Type} {step : Progress → α → Progress}
    (hstep : ∀ p a, Honest silent p (step p a)) (items : List α) (p : Progress) :
    Honest silent p (items.foldl step p) :=
  foldl_of id hstep items p

end Progress.Honest

abbrev Progress.Reported (p q : Progress) : Prop :=
  Progress.Honest Nothing p q

theorem Progress.Honest.forest_eq (h : p.Reported q) (hq : q.changed = false) :
    q.forest = p.forest := by
  rcases (h hq).2.cases_head with he | ⟨_, hstep, -⟩
  · exact he.symm
  · exact hstep.elim

theorem Progress.quiet_step_of_foldl {α : Type} {step : Progress → α → Progress}
    (hstep : ∀ p a, Progress.Reported p (step p a)) {items : List α}
    (hquiet : (items.foldl step p).changed = false) {a : α} (ha : a ∈ items) :
    ∃ q, q.forest = p.forest ∧ (step q a).changed = false := by
  induction items generalizing p with
  | nil => exact absurd ha not_mem_nil
  | cons b rest ih =>
    have hb := (Progress.Honest.foldl hstep rest (step p b) hquiet).1
    rcases mem_cons.mp ha with rfl | ha
    · exact ⟨p, rfl, hb⟩
    · obtain ⟨q, hq, hquiet⟩ := ih hquiet ha
      exact ⟨q, hq.trans ((hstep p b).forest_eq hb), hquiet⟩

theorem Progress.Does.honest (h : p.Does silent deed q) : p.Honest silent q := by
  suffices hall : ∀ {s t : Forest × Bool}, Relation.ReflTransGen (Makes silent deed) s t →
      t.2 = false → s.2 = false ∧ Relation.ReflTransGen silent s.1 t.1 from hall h.makes
  intro s t hmakes ht
  induction hmakes with
  | refl => exact ⟨ht, .refl⟩
  | tail _ hlast ih =>
    cases hlast with
    | deed _ => cases ht
    | silent hsilent => exact ⟨(ih ht).1, (ih ht).2.tail hsilent⟩

end

variable {σ : Type} {rowIds : Bool} {f g : Forest}

theorem Forest.Linked.swapUp_eq {p : Progress} {i above grand : NodeId} (h : p.forest.Linked)
    (habove : p.forest.parent? i = some above) (hgrand : p.forest.parent? above = some grand) :
    p.swapUp i = .ok (p.change (p.forest.exchange i).2) := by
  unfold Progress.swapUp
  rw [h.exchange_eq habove hgrand]

/-! ### Visits and walks -/

/-- Where a walk goes on after a visit of a node whose parent was `above`. -/
def Step.next? (above : Option NodeId) : Step → Option NodeId
  | .stop => none
  | .visit j => some j
  | .parent => above

/-- What is known of an outcome: of what was done when it is a success, and of the failure otherwise. -/
def Attempt.Meets (a : Attempt) (I : Progress → Prop) (E : Failure → Prop) : Prop :=
  match a with
  | .ok q => I q
  | .error e => E e

theorem Attempt.Meets.exists_ok {a : Attempt} {I : Progress → Prop} (h : a.Meets I fun _ => False) :
    ∃ q, a = .ok q ∧ I q := by
  cases a with
  | ok q => exact ⟨q, rfl, h⟩
  | error e => exact h.elim

namespace Climb

variable {c : Climb σ}

theorem ofVisit_eq_ok {visit : Progress → NodeId → Except Failure (Step × Progress)}
    {p q : Progress} {i : NodeId} {step : Step} (h : visit p i = .ok (step, q)) :
    (Climb.ofVisit visit).visit () p i = .ok (step, (), q) := by
  show (visit p i).map _ = _
  rw [h]
  rfl

/-- What is known of all visits: `I` of what was done, `J` of what is remembered at a node, and `E` of
the failures. -/
structure Guards (c : Climb σ) (I : Progress → Prop) (J : σ → NodeId → Prop) (E : Failure → Prop) :
    Prop where
  ok : ∀ {memory p i step memory' q}, I p → J memory i → p.forest.contains i →
    c.visit memory p i = .ok (step, memory', q) →
    I q ∧ ∀ j, step.next? (p.forest.parent? i) = some j → J memory' j
  error : ∀ {memory p i e}, I p → J memory i → p.forest.contains i →
    c.visit memory p i = .error e → E e

section

variable {I : Progress → Prop} {J : σ → NodeId → Prop} {E : Failure → Prop}

theorem Guards.walk (hc : c.Guards I J E) (fuel : Nat) {memory : σ} {p : Progress} {i : NodeId}
    (hp : I p) (hm : J memory i) : (c.walk fuel memory p i).Meets I E := by
  induction fuel generalizing memory p i with
  | zero => exact hp
  | succ fuel ih =>
    unfold Climb.walk
    split
    · exact hp
    · rename_i hi
      have hlive : p.forest.contains i := by
        cases hcon : p.forest.contains i with
        | true => rfl
        | false => simp [hcon] at hi
      dsimp only
      split
      · rename_i e heq
        exact hc.error hp hm hlive heq
      · rename_i heq
        exact (hc.ok hp hm hlive heq).1
      · rename_i heq
        obtain ⟨hq, hnext⟩ := hc.ok hp hm hlive heq
        exact ih hq (hnext _ rfl)
      · rename_i heq
        obtain ⟨hq, hnext⟩ := hc.ok hp hm hlive heq
        split
        · rename_i ha
          exact ih hq (hnext _ ha)
        · exact hq

theorem Guards.walks (hc : c.Guards I J E) (hstart : ∀ i, J c.start i) (leaves : List NodeId)
    {p : Progress} (hp : I p) : Attempt.Meets
      (leaves.foldlM (fun p leaf => c.walk (bound p.forest) c.start p leaf) p) I E := by
  induction leaves generalizing p with
  | nil => exact hp
  | cons leaf rest ih =>
    have hwalk := hc.walk (bound p.forest) hp (hstart leaf)
    rw [foldlM_cons]
    cases heq : c.walk (bound p.forest) c.start p leaf with
    | error e =>
      rw [heq] at hwalk
      exact hwalk
    | ok q =>
      rw [heq] at hwalk
      exact ih hwalk

theorem Guards.run (hc : c.Guards I J E) (hstart : ∀ i, J c.start i) (hf : I { forest := f }) :
    (c.run f).Meets I E :=
  hc.walks hstart f.leaves hf

end

/-- Every visit of a node succeeds and keeps a property of what was done. -/
def Upholds (c : Climb σ) (I : Progress → Prop) : Prop :=
  ∀ memory p i, I p → p.forest.contains i →
    ∃ step memory' q, c.visit memory p i = .ok (step, memory', q) ∧ I q

theorem upholds_ofVisit {I : Progress → Prop}
    {visit : Progress → NodeId → Except Failure (Step × Progress)}
    (h : ∀ p i, I p → p.forest.contains i → ∃ step q, visit p i = .ok (step, q) ∧ I q) :
    (Climb.ofVisit visit).Upholds I := by
  intro _ p i hp hi
  obtain ⟨step, q, heq, hq⟩ := h p i hp hi
  exact ⟨step, (), q, ofVisit_eq_ok heq, hq⟩

theorem Upholds.guards {I : Progress → Prop} (hc : c.Upholds I) :
    c.Guards I (fun _ _ => True) fun _ => False where
  ok {memory p i step memory' q} hp _ hi heq := by
    obtain ⟨step, memory', q, heq', hq⟩ := hc memory p i hp hi
    cases heq.symm.trans heq'
    exact ⟨hq, fun _ _ => trivial⟩
  error {memory p i e} hp _ hi heq := by
    obtain ⟨step, memory', q, heq', -⟩ := hc memory p i hp hi
    cases heq.symm.trans heq'

theorem Upholds.run {I : Progress → Prop} (hc : c.Upholds I) (hf : I { forest := f }) :
    ∃ q, c.run f = .ok q ∧ I q :=
  (hc.guards.run (fun _ => trivial) hf).exists_ok

/-- Every visit of a node of a planted forest succeeds and is a sequence of steps. -/
def Does (silent deed : Forest → Forest → Prop) (c : Climb σ) : Prop :=
  ∀ memory p i, p.forest.Planted → p.forest.contains i →
    ∃ step memory' q, c.visit memory p i = .ok (step, memory', q) ∧ p.Does silent deed q

section

variable {silent deed : Forest → Forest → Prop}

theorem does_ofVisit {visit : Progress → NodeId → Except Failure (Step × Progress)}
    (h : ∀ p i, p.forest.Planted → p.forest.contains i →
      ∃ step q, visit p i = .ok (step, q) ∧ p.Does silent deed q) :
    (Climb.ofVisit visit).Does silent deed := by
  intro _ p i hp hi
  obtain ⟨step, q, heq, hq⟩ := h p i hp hi
  exact ⟨step, (), q, ofVisit_eq_ok heq, hq⟩

section

variable (hc : c.Does silent deed) (ht : Tame rowIds silent deed)

include hc ht

theorem Does.upholds {p : Progress} (hp : p.forest.Planted) : c.Upholds (p.Does silent deed) := by
  intro memory q i hq hi
  obtain ⟨step, memory', r, heq, hr⟩ := hc memory q i (hq.planted ht hp) hi
  exact ⟨step, memory', r, heq, hq.trans hr⟩

theorem Does.walk {fuel : Nat} {memory : σ} {p : Progress} {i : NodeId} (hp : p.forest.Planted) :
    ∃ q, c.walk fuel memory p i = .ok q ∧ p.Does silent deed q :=
  ((hc.upholds ht hp).guards.walk fuel (.refl p) trivial).exists_ok

theorem Does.walks (leaves : List NodeId) {p : Progress} (hp : p.forest.Planted) :
    ∃ q, leaves.foldlM (fun p leaf => c.walk (bound p.forest) c.start p leaf) p = .ok q ∧
      p.Does silent deed q :=
  ((hc.upholds ht hp).guards.walks (fun _ => trivial) leaves (.refl p)).exists_ok

theorem Does.run (hf : f.Planted) :
    ∃ q, c.run f = .ok q ∧ Progress.Does silent deed { forest := f } q :=
  hc.walks ht f.leaves hf

end

end

end Climb

/-! ### Pruning -/

/-- A node that may be dropped goes, or a branch loses its end. -/
inductive Removal (rowIds : Bool) (f : Forest) : Forest → Prop
  | drop {i : NodeId} {n : Node} : f.node? i = some n → f.Drops rowIds i n →
      Removal rowIds f (f.remove i)
  | prune {i : NodeId} {n : Node} : f.node? i = some n → endsBranch n = false → f.children i = [] →
      Removal rowIds f (f.remove i)

theorem Removal.tame : Tame rowIds Nothing (Removal rowIds) :=
  .of_rewrites fun h _ => by
    cases h with
    | drop hn hdrops => exact .single (.drop hn hdrops)
    | prune hn hends hchildren => exact .single (.prune hn hends hchildren)

theorem dropWhere_does {doomed : Forest → NodeId → Bool}
    (hdoomed : ∀ f i, doomed f i → ∃ n, f.node? i = some n ∧ f.Drops rowIds i n) (hf : f.Planted) :
    Progress.Does Nothing (Removal rowIds) { forest := f } (dropWhere doomed f) := by
  refine .foldl_planted Removal.tame (fun p root hp => ?_) f.sources hf
  split
  · refine .foldl_planted Removal.tame (fun p i _ => ?_) _ hp
    unfold dropNode
    split
    · rename_i hi
      obtain ⟨n, hn, hdrops⟩ := hdoomed p.forest i hi
      exact .change (.drop hn hdrops)
    · exact .refl p
  · exact .refl p

theorem removeUnrequestedOutputs_does (hf : f.Planted) :
    Progress.Does Nothing (Removal rowIds) { forest := f } (dropWhere isUnrequested f) := by
  refine dropWhere_does (fun g i hi => ?_) hf
  obtain ⟨n, hn, hany⟩ := holds_iff.mp hi
  refine ⟨n, hn, ?_⟩
  cases n with
  | output o => exact .output (by simpa [Node.output?] using hany)
  | _ => simp [Node.output?] at hany

theorem removeNeedlessIdentifiers_does (rowIds : Bool) (hf : f.Planted) :
    Progress.Does Nothing (Removal rowIds) { forest := f }
      (dropWhere (isNeedlessIdentifier rowIds) f) := by
  refine dropWhere_does (fun g i hi => ?_) hf
  obtain ⟨n, hn, hneedless⟩ := holds_iff.mp hi
  refine ⟨n, hn, ?_⟩
  cases n with
  | identifier => exact .identifier hi
  | _ => simp at hneedless

theorem children_eq_nil_of_childCount {i : NodeId} (h : f.childCount i = 0) : f.children i = [] :=
  length_eq_zero_iff.mp ((length_children f i).trans h)

theorem pruneLeaf_does : (Climb.ofVisit pruneLeaf).Does Nothing (Removal rowIds) := by
  refine Climb.does_ofVisit fun p i _ hi => ?_
  unfold pruneLeaf
  split
  · exact ⟨.stop, p, rfl, .refl p⟩
  · rename_i hleaf
    obtain ⟨n, hn⟩ := exists_node hi
    simp only [holds, hn, Option.any_some, Bool.or_eq_true, decide_eq_true_eq, not_or,
      Nat.not_lt, Nat.le_zero_eq, Bool.not_eq_true] at hleaf
    exact ⟨.parent, _, rfl, .change (.prune hn hleaf.2 (children_eq_nil_of_childCount hleaf.1))⟩

theorem Forest.Planted.remove_vacant (hf : f.Planted) {i : NodeId} (hi : f.contains i = false) :
    f.remove i = f := by
  have hparent : f.parent? i = none := hf.parent?_eq_none_of_vacant hi
  have hplace : f.place? i = none := by
    unfold place?
    rw [hparent]
    rfl
  have hsources : f.sources.filter (· != i) = f.sources := by
    refine filter_eq_self.mpr fun j hj => bne_iff_ne.mpr fun he => ?_
    have hlive := (hf.roots.mp (he ▸ hj)).1
    rw [hi] at hlive
    exact Bool.noConfusion hlive
  have hunwrap : f.unwrap i = f := by
    unfold unwrap
    rw [hplace, hf.children_eq_nil hi]
    simp [hsources, splice]
  have houtputs : f.outputs.filter (fun entry => entry.2 != i) = f.outputs := by
    refine filter_eq_self.mpr fun entry he => bne_iff_ne.mpr fun hsame => ?_
    have hlive := hf.outputs entry he
    rw [hsame, hi] at hlive
    exact Bool.noConfusion hlive
  unfold Forest.remove clear
  rw [hunwrap, hi]
  simp [houtputs]

theorem endsBranch_eq_false {n : Node} (h : n.isDataSource) : endsBranch n = false := by
  cases n <;> simp_all [Node.isDataSource, endsBranch]

theorem pruneRoots_removes (hf : f.Planted) : Relation.ReflTransGen (Removal rowIds) f (pruneRoots f) := by
  -- A root that is listed twice is gone when its turn comes again.
  refine (foldlRecOn f.sources _ (motive := fun g : Forest => g.Planted ∧
    (∀ r ∈ f.sources, g.contains r → g.holds r Node.isDataSource) ∧
    Relation.ReflTransGen (Removal rowIds) f g) ⟨hf, fun r hr _ => hf.sourced.mp hr, .refl⟩
    fun g hg root hroot => ?_).2.2
  split
  · rename_i hcount
    obtain ⟨hplanted, hroots, hsteps⟩ := hg
    cases hn : g.node? root with
    | none =>
      rw [hplanted.remove_vacant (by simp [Forest.contains, hn])]
      exact ⟨hplanted, hroots, hsteps⟩
    | some n =>
      obtain ⟨m, hm, hsource⟩ := holds_iff.mp (hroots root hroot (contains_of_node? hn))
      cases hn.symm.trans hm
      have hstep : Removal rowIds g (g.remove root) :=
        .prune hn (endsBranch_eq_false hsource) (children_eq_nil_of_childCount hcount)
      refine ⟨(Removal.tame.rewrites hstep hplanted).planted hplanted, fun r hr hlive => ?_, hsteps.tail hstep⟩
      rw [contains_remove, Bool.and_eq_true_iff, decide_eq_true_eq] at hlive
      have hold := hroots r hr hlive.2
      unfold holds at hold ⊢
      rwa [node?_remove, if_neg hlive.1]
  · exact hg

theorem pruneRoots_rewrites (hf : f.Planted) : Rewrites rowIds f (pruneRoots f) :=
  Removal.tame.steps (pruneRoots_removes hf) hf

end ChartPlan.Flow
