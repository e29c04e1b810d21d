import ChartPlan.Proofs.Flow.Pass.Pruning
import ChartPlan.Proofs.Flow.Pass.Regroup

/-!
# Passes that report no change

A pass tells whether it changed anything. Work is honest when a forest that is not reported as changed
is the forest from before. Only the pass over time units does something unreported: it removes time
units that cut nothing. A walk without a reported change visits every node above its leaf, so nothing
that the pass looks for is left in the forest.

* `Progress.Honest`: what may happen unreported.
* `Climb.exists_quiet_visit`: a pass without a reported change visited every node in vain.
* `Pass.reported`: all passes but the one over time units are honest.
-/

namespace ChartPlan.Flow

open Forest List Progress

variable {f g : Forest} {p q r : Progress} {i j : NodeId}

/-! ### Walks -/

namespace Climb

variable {σ : Type} {c : Climb σ} {rowIds : Bool} {deed : Forest → Forest → Prop}
  {visit : Progress → NodeId → Except Failure (Step × Progress)}

theorem Does.quiet_walk (hc : c.Does Nothing deed) (ht : Tame rowIds Nothing deed)
    (hp : p.forest.Planted) {fuel : Nat} {memory : σ} (h : c.walk fuel memory p i = .ok q)
    (hq : q.changed = false) : p.changed = false ∧ q.forest = p.forest := by
  obtain ⟨q', heq, hdoes⟩ := hc.walk ht hp
  cases heq.symm.trans h
  exact ⟨(hdoes.honest hq).1, hdoes.honest.forest_eq hq⟩

theorem Does.exists_quiet_walk (hc : c.Does Nothing deed) (ht : Tame rowIds Nothing deed)
    (hf : f.Planted) (h : c.run f = .ok q) (hq : q.changed = false) (hi : i ∈ f.leaves) :
    ∃ p r, p.forest = f ∧ c.walk (bound f) c.start p i = .ok r ∧ r.changed = false := by
  suffices hall : ∀ (leaves : List NodeId) (p : Progress), p.forest = f → i ∈ leaves →
      leaves.foldlM (fun p leaf => c.walk (bound p.forest) c.start p leaf) p = .ok q →
      ∃ p r, p.forest = f ∧ c.walk (bound f) c.start p i = .ok r ∧ r.changed = false from
    hall f.leaves { forest := f } rfl hi h
  clear h hi
  intro leaves p hp hi h
  induction leaves generalizing p with
  | nil => exact absurd hi not_mem_nil
  | cons leaf rest ih =>
    subst hp
    rw [foldlM_cons] at h
    obtain ⟨p', hp', hrest⟩ := bind_eq_ok.mp h
    obtain ⟨_, heq, hfirst⟩ := hc.walk ht hf
    cases heq.symm.trans hp'
    obtain ⟨_, heq, hdoes⟩ := hc.walks ht rest (hfirst.planted ht hf)
    cases heq.symm.trans hrest
    have hafter := (hdoes.honest hq).1
    rcases mem_cons.mp hi with rfl | hi
    · exact ⟨p, p', rfl, hp', hafter⟩
    · exact ih p' (hfirst.honest.forest_eq hafter) hi hrest

end Climb

namespace Forest

theorem Valid.exists_leaf (hf : f.Valid) (hi : f.contains i) : ∃ leaf ∈ f.leaves, f.Below i leaf := by
  suffices h : ∀ fuel j, f.Fits fuel j → f.Below i j → f.contains j →
      ∃ leaf ∈ f.leaves, f.Below i leaf from h _ i (hf.fits i) (.refl f i) hi
  intro fuel
  induction fuel with
  | zero => exact fun _ h => h.elim
  | succ fuel ih =>
    intro j hfits hij hj
    cases hchildren : f.children j with
    | nil => exact ⟨j, hf.mem_leaves_iff.mpr ⟨hj, hchildren⟩, hij⟩
    | cons c rest =>
      have hc : c ∈ f.children j := hchildren ▸ mem_cons_self
      exact ih c (hfits c hc) (hij.step hc) (hf.live hc).2

theorem Planted.eq_of_below_source (hf : f.Planted) (hi : f.holds i Node.isDataSource)
    (hb : f.Below j i) : j = i :=
  (hf.eq_of_below_root ((hf.parent?_eq_none_iff (contains_of_holds hi)).mpr hi) hb).symm

end Forest

namespace Climb

variable {rowIds : Bool} {deed : Forest → Forest → Prop}
  {visit : Progress → NodeId → Except Failure (Step × Progress)}

theorem Does.quiet_visit (hc : (ofVisit visit).Does Nothing deed) (ht : Tame rowIds Nothing deed)
    (hp : p.forest.Planted) (hi : p.forest.contains i)
    (hsource : p.forest.holds i Node.isDataSource = false) {fuel : Nat}
    (h : (ofVisit visit).walk (fuel + 1) () p i = .ok q) (hq : q.changed = false) :
    ∃ step r, visit p i = .ok (step, r) ∧ r.changed = false ∧ r.forest = p.forest ∧
      (step = .parent → ∀ a, p.forest.parent? i = some a → (ofVisit visit).walk fuel () r a = .ok q) := by
  obtain ⟨step, _, r, hvisit, hdoes⟩ := hc () p i hp hi
  obtain ⟨⟨step', r'⟩, hresult, heq⟩ := map_eq_ok.mp hvisit
  cases heq
  rw [Climb.walk, hi, hsource, if_neg (by decide)] at h
  dsimp only at h
  rw [hvisit] at h
  have hplanted := hdoes.planted ht hp
  -- Whatever comes after the visit, the visit itself reports nothing.
  suffices hr : r.changed = false by
    refine ⟨step, r, hresult, hr, hdoes.honest.forest_eq hr, fun hstep a ha => ?_⟩
    subst hstep
    rwa [ha] at h
  cases step with
  | stop => exact Except.ok.inj h ▸ hq
  | visit k => exact (hc.quiet_walk ht hplanted h hq).1
  | parent =>
    dsimp only at h
    split at h
    · exact (hc.quiet_walk ht hplanted h hq).1
    · exact Except.ok.inj h ▸ hq

/-- A visit that reports nothing goes on, unless only a data source is above. -/
def Persists (f : Forest) (visit : Progress → NodeId → Except Failure (Step × Progress)) : Prop :=
  ∀ p i step q, p.forest = f → visit p i = .ok (step, q) → q.changed = false →
    step = .parent ∨ ∀ a, f.parent? i = some a → f.holds a Node.isDataSource

variable (hf : f.Planted) (hc : (ofVisit visit).Does Nothing deed) (ht : Tame rowIds Nothing deed)
  (hpersists : Persists f visit)

include hf hc ht hpersists

theorem exists_quiet_visit_of_walk {fuel : Nat} (hp : p.forest = f) (hi : f.contains i) (hfuel : (f.above i).length < fuel)
    (h : (ofVisit visit).walk fuel () p i = .ok q) (hq : q.changed = false) (hj : f.Below j i)
    (hsource : f.holds j Node.isDataSource = false) :
    ∃ p step r, p.forest = f ∧ visit p j = .ok (step, r) ∧ r.changed = false := by
  -- Data sources are the only nodes above themselves.
  have hnot : ∀ {a}, f.Below j a → f.holds a Node.isDataSource = false := fun hja => by
    refine Bool.eq_false_iff.mpr fun hs => ?_
    rw [hf.eq_of_below_source hs hja, hs] at hsource
    cases hsource
  induction fuel generalizing p i with
  | zero => exact absurd hfuel (Nat.not_lt_zero _)
  | succ fuel ih =>
    subst hp
    obtain ⟨step, r, hvisit, hr, hsame, hrest⟩ := hc.quiet_visit ht hf hi (hnot hj) h hq
    rcases hj.cases_parent hf.single with rfl | ⟨a, ha, hja⟩
    · exact ⟨p, step, r, rfl, hvisit, hr⟩
    · rcases hpersists p i step r rfl hvisit hr with hstep | hsources
      · rw [hf.above_of_parent? ha, length_cons] at hfuel
        exact ih hsame (hf.live_of_parent? ha).1
          (Nat.lt_of_succ_lt_succ hfuel) (hrest hstep a ha) hja
      · exact absurd (hsources a ha) (by rw [hnot hja]; decide)

theorem exists_quiet_visit (h : (ofVisit visit).run f = .ok q) (hq : q.changed = false)
    (hj : f.contains j) (hsource : f.holds j Node.isDataSource = false) :
    ∃ p step r, p.forest = f ∧ visit p j = .ok (step, r) ∧ r.changed = false := by
  obtain ⟨leaf, hleaf, hb⟩ := Valid.exists_leaf hf.toValidBut hj
  obtain ⟨p, r, hp, hwalk, hr⟩ := hc.exists_quiet_walk ht hf h hq hleaf
  have hlive : f.contains leaf := hf.contains_of_below hj hb
  exact exists_quiet_visit_of_walk hf hc ht hpersists hp hlive (hf.length_above_lt hlive) hwalk
    hr hb hsource

end Climb

/-! ### Pruning -/

theorem dropNode_reported (doomed : Forest → NodeId → Bool) (p : Progress) (i : NodeId) :
    p.Reported (dropNode doomed p i) := by
  unfold dropNode
  split
  · exact .change p _
  · exact .refl p

theorem dropSubtree_reported (doomed : Forest → NodeId → Bool) (p : Progress) (root : NodeId) :
    p.Reported (if p.forest.contains root then (p.forest.subtree root).foldl (dropNode doomed) p
      else p) := by
  split
  · exact .foldl (dropNode_reported doomed) _ p
  · exact .refl p

theorem eq_false_of_quiet_dropWhere {doomed : Forest → NodeId → Bool} (hf : f.Planted)
    (h : (dropWhere doomed f).changed = false) (hi : f.contains i) : doomed f i = false := by
  obtain ⟨root, hroot, hb⟩ := Valid.exists_root hf.toValidBut hi
  obtain ⟨p, hp, hquiet⟩ := quiet_step_of_foldl (dropSubtree_reported doomed) h hroot
  rw [hp, if_pos (hf.roots.mp hroot).1] at hquiet
  obtain ⟨q, hq, hquiet⟩ := quiet_step_of_foldl (dropNode_reported doomed) hquiet
    (hf.mem_subtree.mpr hb)
  refine Bool.eq_false_iff.mpr fun hdoomed => ?_
  unfold dropNode at hquiet
  rw [hq, hp, if_pos hdoomed] at hquiet
  cases hquiet

theorem endsBranch_of_quiet_prune (hf : f.Planted) (h : removeUnusedSubtrees f = .ok q)
    (hq : q.changed = false) {n : Node} (hn : f.node? i = some n) (hchildren : f.children i = [])
    (hsource : n.isDataSource = false) : endsBranch n := by
  obtain ⟨_, heq, hstrips⟩ := removeUnusedSubtrees_strips hf
  cases heq.symm.trans h
  have hkept : q.forest.contains i := Bool.not_eq_false _ ▸ fun hgone => absurd
    (hstrips.changed.mpr ⟨i, contains_of_node? hn, hgone⟩) (Bool.eq_false_iff.mp hq)
  rcases hstrips.waiting hkept (by rw [hstrips.stripped.children hkept, hchildren]; rfl) with
    hroot | hends | hnone
  · rw [hf.sourced, holds_of_node? hn, hsource] at hroot
    cases hroot
  · rwa [hstrips.stripped.holds_eq hkept, holds_of_node? hn] at hends
  · cases hnone

/-! ### Coercions -/

theorem changed_of_swapUp (h : p.swapUp i = .ok q) : q.changed = true := by
  unfold Progress.swapUp at h
  split at h <;> cases h
  rfl

theorem raiseCoercion_persists (f : Forest) : Climb.Persists f raiseCoercion := by
  rintro p i step q rfl h hq
  unfold raiseCoercion at h
  split at h
  · rename_i hparent
    exact .inr fun a ha => (nomatch hparent.symm.trans ha)
  · rename_i above _ habove
    split at h
    · rename_i hsource
      exact .inr fun a ha => Option.some.inj (habove.symm.trans ha) ▸ hsource
    · split at h
      · cases h
        exact .inl rfl
      · split at h
        · cases h
          cases hq
        · split at h
          · cases h
            exact .inl rfl
          · obtain ⟨r, hr, heq⟩ := map_eq_ok.mp h
            cases heq
            rw [changed_of_swapUp hr] at hq
            cases hq
        · cases h
          exact .inl rfl
  · cases h
    exact .inl rfl

/-- When no coercion moves, one that is an only child is below a data source or below a node that may
write its fields. -/
theorem blocked_of_quiet_moveParseUp (hf : f.Planted) (h : moveParseUp f = .ok q)
    (hq : q.changed = false) {c : Coercion} {above : NodeId} {m : Node}
    (hi : f.node? i = some (.parse c)) (honly : f.children above = [i])
    (hm : f.node? above = some m) :
    m.isDataSource ∨ m.parse? = none ∧ mayWrite m c.fields := by
  obtain ⟨p, step, r, rfl, hvisit, hr⟩ := Climb.exists_quiet_visit hf raiseCoercion_does
    (@Lift.tame false) (raiseCoercion_persists f) h hq (contains_of_node? hi)
    (holds_of_node? hi)
  have hparent : p.forest.parent? i = some above :=
    hf.parent?_of_mem (honly ▸ mem_singleton_self i)
  have hcount : p.forest.childCount above = 1 := by
    rw [← length_children, honly]
    rfl
  unfold raiseCoercion at hvisit
  rw [hi, hparent] at hvisit
  dsimp only at hvisit
  rw [holds_of_node? hm, hcount] at hvisit
  by_cases hsource : m.isDataSource
  · exact .inl hsource
  · rw [if_neg hsource, if_neg (by decide), hm] at hvisit
    refine .inr ?_
    split at hvisit
    · cases hvisit
      cases hr
    · rename_i n hparse hn
      cases hn
      refine ⟨?_, ?_⟩
      · cases m with
        | parse target => exact absurd rfl (hparse target)
        | _ => rfl
      · by_contra hwrite
        rw [if_neg hwrite] at hvisit
        obtain ⟨r', hr', heq⟩ := map_eq_ok.mp hvisit
        cases heq
        rw [changed_of_swapUp hr'] at hr
        cases hr
    · rename_i hnone
      cases hnone

/-! ### Siblings -/

theorem promoteBins_reported {above : NodeId} {bins : List NodeId}
    (h : promoteBins above bins p = .ok q) : p.Reported q ∧ (q.changed = false → bins = []) := by
  cases bins with
  | nil =>
    cases h
    exact ⟨.refl p, fun _ => rfl⟩
  | cons keep rest =>
    have hchanged : q.changed = true := by
      unfold promoteBins at h
      dsimp only at h
      split at h
      · cases h
        rfl
      · exact changed_of_swapUp h
    exact ⟨fun hq => (nomatch hchanged.symm.trans hq), fun hq => (nomatch hchanged.symm.trans hq)⟩

theorem joinBins_reported (bins : List NodeId) (p : Progress) : p.Reported (joinBins bins p) := by
  unfold joinBins
  split
  · exact .change p _
  · exact .refl p

theorem gatherBins_persists (f : Forest) : Climb.Persists f gatherBins := by
  rintro p i step q rfl h hq
  unfold gatherBins at h
  split at h
  · rename_i hparent
    exact .inr fun a ha => (nomatch hparent.symm.trans ha)
  · obtain ⟨r, hr, heq⟩ := map_eq_ok.mp h
    cases heq
    exact .inl rfl

theorem bins_of_quiet_mergeBins (hf : f.Planted) (h : mergeBins f = .ok q)
    (hq : q.changed = false) {above : NodeId} (hi : i ∈ f.children above)
    (hbin : f.holds i Node.isBin) : isPromotable f above i = false ∧
      ∀ j ∈ f.children above, f.holds j Node.isBin → j = i := by
  obtain ⟨n, hn, hisbin⟩ := holds_iff.mp hbin
  have hsource : f.holds i Node.isDataSource = false := by
    rw [holds_of_node? hn]
    cases n <;> first | rfl | exact Bool.noConfusion hisbin
  obtain ⟨p, step, r, rfl, hvisit, hr⟩ := Climb.exists_quiet_visit hf gatherBins_does
    (@BinMove.tame false) (gatherBins_persists f) h hq (contains_of_node? hn) hsource
  unfold gatherBins at hvisit
  rw [hf.parent?_of_mem hi] at hvisit
  obtain ⟨r', hpromote, heq⟩ := map_eq_ok.mp hvisit
  cases heq
  obtain ⟨hreported, hnone⟩ := promoteBins_reported hpromote
  have hjoin := joinBins_reported ((List.filter (fun c => p.forest.holds c Node.isBin)
    (p.forest.children above)).filter fun c => !isPromotable p.forest above c) r' hr
  have hstays : ∀ j ∈ p.forest.children above, p.forest.holds j Node.isBin →
      isPromotable p.forest above j = false := fun j hj hb => by
    refine Bool.eq_false_iff.mpr fun hpass => ?_
    have hmem : j ∈ (List.filter (fun c => p.forest.holds c Node.isBin) (p.forest.children above)).filter
        fun c => isPromotable p.forest above c :=
      mem_filter.mpr ⟨mem_filter.mpr ⟨hj, hb⟩, hpass⟩
    rw [hnone hjoin.1] at hmem
    exact not_mem_nil hmem
  refine ⟨hstays i hi hbin, fun j hj hb => ?_⟩
  have hmem : ∀ k ∈ p.forest.children above, p.forest.holds k Node.isBin →
      k ∈ (List.filter (fun c => p.forest.holds c Node.isBin) (p.forest.children above)).filter
        fun c => !isPromotable p.forest above c := fun k hk hkb =>
    mem_filter.mpr ⟨mem_filter.mpr ⟨hk, hkb⟩, by rw [hstays k hk hkb]; rfl⟩
  have hi' := hmem i hi hbin
  have hj' := hmem j hj hb
  revert hr hi' hj'
  generalize (List.filter (fun c => p.forest.holds c Node.isBin) (p.forest.children above)).filter
    (fun c => !isPromotable p.forest above c) = remaining
  intro hr hi' hj'
  match remaining with
  | [] => exact absurd hi' not_mem_nil
  | [k] => exact (mem_singleton.mp hj').trans (mem_singleton.mp hi').symm
  | _ :: _ :: _ => cases hr

/-! ### Equal signatures -/

theorem joinBucket_reported (p : Progress) (bucket : String × List NodeId) :
    p.Reported (joinBucket p bucket) := by
  unfold joinBucket
  split
  · exact .foldl (fun p _ => .change p _) _ p
  · exact .refl p

theorem joinEqual_reported (p : Progress) (i : NodeId) : p.Reported (joinEqual p i) :=
  .foldl joinBucket_reported _ p

theorem joinEqualBelow_reported (fuel : Nat) (p : Progress) (i : NodeId) :
    p.Reported (joinEqualBelow fuel p i) := by
  induction fuel generalizing p i with
  | zero => exact .refl p
  | succ fuel ih => exact (joinEqual_reported p i).trans (.foldl ih _ _)

theorem mergeIdentical_reported (p : Progress) (root : NodeId) :
    p.Reported (if p.forest.contains root
      then joinEqualBelow (p.forest.slots.length + 1) p root else p) := by
  split
  · exact joinEqualBelow_reported _ p root
  · exact .refl p

theorem nodup_addToBucket {signature : String} {found : List (String × List NodeId)}
    (h : (found.map Prod.fst).Nodup) : ((addToBucket signature i found).map Prod.fst).Nodup ∧
      ∀ s ∈ (addToBucket signature i found).map Prod.fst, s = signature ∨ s ∈ found.map Prod.fst := by
  induction found with
  | nil => simp [addToBucket]
  | cons bucket rest ih =>
    obtain ⟨s, members⟩ := bucket
    rw [map_cons, nodup_cons] at h
    obtain ⟨hnodup, hmem⟩ := ih h.2
    unfold addToBucket
    split
    · exact ⟨nodup_cons.mpr h, fun t ht => .inr ht⟩
    · rename_i hne
      have hsig : s ≠ signature := fun he => hne (beq_iff_eq.mpr he)
      refine ⟨nodup_cons.mpr ⟨fun hs => ?_, hnodup⟩, fun t ht => ?_⟩
      · exact (hmem s hs).elim hsig h.1
      · rcases mem_cons.mp ht with rfl | ht
        · exact .inr mem_cons_self
        · exact (hmem t ht).imp_right (mem_cons_of_mem _)

theorem nodup_buckets (f : Forest) (nodes : List NodeId) :
    ((buckets f nodes).map Prod.fst).Nodup := by
  exact foldlRecOn nodes _ (motive := fun found : List (String × List NodeId) =>
    (found.map Prod.fst).Nodup) nodup_nil fun _ h _ _ => (nodup_addToBucket h).1

theorem signatures_of_quiet_joinEqual (h : (joinEqual p i).changed = false) {a b : NodeId}
    (ha : a ∈ p.forest.children i) (hb : b ∈ p.forest.children i)
    (hsame : signatureOf p.forest a = signatureOf p.forest b) : a = b := by
  obtain ⟨hperm, hsignature⟩ := buckets_spec p.forest (p.forest.children i)
  obtain ⟨bucket, hbucket, ha⟩ := mem_flatMap.mp (hperm.mem_iff.mpr ha)
  obtain ⟨bucket', hbucket', hb⟩ := mem_flatMap.mp (hperm.mem_iff.mpr hb)
  have hkey : bucket.1 = bucket'.1 := by
    rw [← hsignature bucket hbucket a ha, hsame, hsignature bucket' hbucket' b hb]
  cases inj_on_of_nodup_map (nodup_buckets _ _) hbucket hbucket' hkey
  obtain ⟨q, -, hquiet⟩ := quiet_step_of_foldl joinBucket_reported h hbucket
  obtain ⟨signature, members⟩ := bucket
  match members with
  | [] => exact absurd ha not_mem_nil
  | [k] => exact (mem_singleton.mp ha).trans (mem_singleton.mp hb).symm
  | keep :: other :: rest =>
    have hfold : Progress.Reported (q.change (q.forest.absorb keep other)) _ :=
      .foldl (fun p other => .change p (p.forest.absorb keep other)) rest _
    cases (hfold hquiet).1

theorem quiet_joinEqual_of_below {fuel : Nat} (hfits : p.forest.Fits fuel i)
    (h : (joinEqualBelow fuel p i).changed = false) (hb : p.forest.Below i j) :
    ∃ q, q.forest = p.forest ∧ (joinEqual q j).changed = false := by
  induction fuel generalizing p i with
  | zero => exact hfits.elim
  | succ fuel ih =>
    have hjoin : (joinEqual p i).changed = false :=
      (Progress.Honest.foldl (joinEqualBelow_reported fuel) _ (joinEqual p i) h).1
    rcases below_iff.mp hb with rfl | ⟨c, hc, hcj⟩
    · exact ⟨p, rfl, hjoin⟩
    · have hsame := (joinEqual_reported p i).forest_eq hjoin
      obtain ⟨q, hq, hquiet⟩ := quiet_step_of_foldl (joinEqualBelow_reported fuel) h
        (hsame.symm ▸ hc)
      rw [hsame] at hq
      obtain ⟨r, hr, hquiet⟩ := ih (p := q) (hq ▸ hfits c hc) hquiet (hq ▸ hcj)
      exact ⟨r, hr.trans hq, hquiet⟩

theorem signatures_of_quiet_mergeIdenticalNodes (hf : f.Planted) (h : mergeIdenticalNodes f = .ok q)
    (hq : q.changed = false) {a b : NodeId} (ha : a ∈ f.children i) (hb : b ∈ f.children i)
    (hsame : signatureOf f a = signatureOf f b) : a = b := by
  cases h
  obtain ⟨root, hroot, hbelow⟩ := Valid.exists_root hf.toValidBut (hf.live ha).1
  obtain ⟨p, hp, hquiet⟩ := quiet_step_of_foldl mergeIdentical_reported hq hroot
  have hp : p.forest = f := hp
  subst hp
  rw [if_pos (hf.roots.mp hroot).1] at hquiet
  obtain ⟨r, hr, hquiet⟩ := quiet_joinEqual_of_below (hf.fits root) hquiet hbelow
  rw [← hr] at ha hb hsame
  exact signatures_of_quiet_joinEqual hquiet ha hb hsame

/-! ### Outputs -/

theorem chainOutputs_persists (f : Forest) : Climb.Persists f chainOutputs := by
  rintro p i step q rfl h -
  unfold chainOutputs at h
  split at h
  · rename_i hparent
    exact .inr fun a ha => (nomatch hparent.symm.trans ha)
  · dsimp only at h
    repeat' split at h
    all_goals exact .inl (Prod.mk.inj (Except.ok.inj h)).1.symm

theorem alone_of_quiet_mergeOutputs (hf : f.Planted) (h : mergeOutputs f = .ok q)
    (hq : q.changed = false) {above : NodeId} (hi : i ∈ f.children above)
    (hout : f.holds i Node.isOutput) : f.children above = [i] := by
  obtain ⟨n, hn, hisout⟩ := holds_iff.mp hout
  have hsource : f.holds i Node.isDataSource = false := by
    rw [holds_of_node? hn]
    cases n <;> first | rfl | exact Bool.noConfusion hisout
  obtain ⟨p, step, r, rfl, hvisit, hr⟩ := Climb.exists_quiet_visit hf chainOutputs_does
    (@Chaining.tame false) (chainOutputs_persists f) h hq (contains_of_node? hn) hsource
  have hlength : (p.forest.children above).length = 1 := by
    refine Nat.le_antisymm (Nat.not_lt.mp fun hmany => ?_) (length_pos_of_mem hi)
    have hany : (p.forest.children above).any fun c => p.forest.holds c Node.isOutput :=
      any_eq_true.mpr ⟨i, hi, hout⟩
    unfold chainOutputs at hvisit
    rw [hf.parent?_of_mem hi] at hvisit
    dsimp only at hvisit
    rw [hany, decide_eq_false (Nat.not_le.mpr hmany)] at hvisit
    simp only [Bool.false_or, Bool.not_true, Bool.false_eq_true, if_false] at hvisit
    split at hvisit
    · -- Another child waits for the end of the chain, so without a report that end is the fork.
      rename_i last hlast
      cases hvisit
      have hquiet := (Progress.Honest.foldl (moveToEnd_reported last) _ _ hr).1
      have hsame := (chain_reported p _).forest_eq hquiet
      obtain ⟨d, hd, hdi⟩ := hf.single.exists_sibling hmany i
      obtain ⟨hwaits, -⟩ := (Chain.waits_of_quiet hquiet hd).resolve_right
        fun ⟨_, honly⟩ => hdi (honly i hi hout).symm
      obtain ⟨s, hs, hmoved⟩ := quiet_step_of_foldl (moveToEnd_reported last) hr hwaits
      unfold moveToEnd at hmoved
      split at hmoved
      · rename_i hplace
        rw [hs, hsame, hf.parent?_of_mem hd, beq_iff_eq] at hplace
        exact ((Chain.sound_children hf above).2.ended last hlast).2 (Option.some.inj hplace)
      · cases hmoved
    · rename_i hnone
      have hnot := (Chain.of_last_eq_none hnone).2.2 i hi
      rw [hout] at hnot
      cases hnot
  obtain ⟨k, hk⟩ := length_eq_one_iff.mp hlength
  rw [hk, mem_singleton] at hi
  rw [hk, hi]

end ChartPlan.Flow
