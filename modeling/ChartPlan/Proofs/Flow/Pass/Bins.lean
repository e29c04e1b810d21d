import ChartPlan.Proofs.Flow.Binnings
import ChartPlan.Proofs.Flow.Pass.Coercions

/-!
# Merging bins rewrites

The pass that merges bins makes two kinds of moves. A bin takes over a sibling or a child that is a bin,
and a bin changes places with a parent that is none. Before the second one the pass looks at what the bin
reads, and not at what it writes.

* `BinMove`: one move, with a condition on the bins that change places with a node.
* `gatherBins_moves`: a visit is a run of moves, also when it fails.
* `BinMove.tame`: moves are rewrites, and on a planted forest no visit fails (`gatherBins_does`).
-/

namespace ChartPlan.Flow

open Forest List

variable {ok : Bins → Node → Prop} {rowIds : Bool} {f g : Forest} {i j keep other above grand : NodeId} {a b : Bins}
  {n : Node}

/-- One move of bins: a bin takes over a bin that is its sibling or its child, or it changes places with
its parent, which is of another kind and meets a condition. -/
inductive BinMove (ok : Bins → Node → Prop) (f : Forest) : Forest → Prop
  | join {keep other : NodeId} {a b : Bins} : f.node? keep = some (.bin a) →
      f.node? other = some (.bin b) → keep ≠ other →
      f.parent? other = some keep ∨ (∃ p, f.parent? keep = some p ∧ f.parent? other = some p) →
      BinMove ok f (mergeBinInto keep f other)
  | lift {i above grand : NodeId} {b : Bins} {n : Node} : f.node? i = some (.bin b) →
      f.parent? i = some above → f.node? above = some n → f.parent? above = some grand →
      n.isBin = false → ok b n → BinMove ok f (f.exchange i).2

abbrev BinMoves (ok : Bins → Node → Prop) : Forest → Forest → Prop :=
  Relation.ReflTransGen (BinMove ok)

theorem Progress.Does.moves {p q : Progress} (h : p.Does Nothing (BinMove ok) q) :
    BinMoves ok p.forest q.forest :=
  h.deeds False.elim

theorem mergeBinInto_eq (hk : f.node? keep = some (.bin a)) (ho : f.node? other = some (.bin b)) :
    mergeBinInto keep f other = Forest.absorb { f.setNode keep (.bin (a.merge b f.signals).1) with
      signals := (a.merge b f.signals).2 } keep other := by
  unfold mergeBinInto
  simp only [hk, ho, Option.bind_some, Node.bin?]

theorem Forest.Linked.joined (hf : f.Linked) (hk : f.node? keep = some (.bin a))
    (ho : f.node? other = some (.bin b)) (hb : ¬ f.Below other keep) :
    Joined f (mergeBinInto keep f other) keep other (.bin (a.merge b f.signals).1) := by
  rw [mergeBinInto_eq hk ho]
  exact hf.joined_absorb (contains_of_node? hk) hb _ _

/-- One node is the parent of the other, or they have one parent. -/
abbrev Forest.Near (f : Forest) (keep other : NodeId) : Prop :=
  f.parent? other = some keep ∨ ∃ p, f.parent? keep = some p ∧ f.parent? other = some p

theorem Forest.Linked.not_below_of_near (hf : f.Linked) (hne : keep ≠ other)
    (hnear : f.Near keep other) : ¬ f.Below other keep := by
  rcases hnear with hp | ⟨p, hk, ho⟩
  · exact hf.not_below_of_child (hf.child hp)
  · exact hf.not_below_sibling hk ho hne

theorem BinMove.linked (h : BinMove ok f g) (hf : f.Linked) : g.Linked := by
  cases h with
  | join hk ho hne hnear => exact (hf.joined hk ho (hf.not_below_of_near hne hnear)).linked
  | lift hi hp hn hg hbin hok => exact (hf.exchange hp hg).1

theorem BinMoves.linked (h : BinMoves ok f g) (hf : f.Linked) : g.Linked := by
  induction h with
  | refl => exact hf
  | tail _ hmove ih => exact hmove.linked ih

/-! ### The pass is a run of moves -/

theorem Forest.exists_bin (h : f.holds i Node.isBin) : ∃ b, f.node? i = some (.bin b) := by
  obtain ⟨n, hn, hbin⟩ := holds_iff.mp h
  cases n with
  | bin b => exact ⟨b, hn⟩
  | _ => cases hbin

/-- A bin takes over siblings one after the other. What else hangs below their parent stays, and what the
bin reads afterwards one of them read before. -/
theorem foldl_mergeBinInto_moves (ok : Bins → Node → Prop) (rest : List NodeId) (hf : f.Linked)
    (hkeep : f.node? keep = some (.bin a)) (hparent : ∀ c ∈ keep :: rest, f.parent? c = some above)
    (hbins : ∀ c ∈ rest, f.holds c Node.isBin) (hnodup : (keep :: rest).Nodup) :
    BinMoves ok f (rest.foldl (mergeBinInto keep) f) ∧
      (rest ≠ [] → Relation.TransGen (BinMove ok) f (rest.foldl (mergeBinInto keep) f)) ∧
      (∀ j, j ∉ keep :: rest → (rest.foldl (mergeBinInto keep) f).node? j = f.node? j) ∧
      (∀ j, j ∉ rest → f.parent? j = some above →
        (rest.foldl (mergeBinInto keep) f).parent? j = some above) ∧
      ∃ b, (rest.foldl (mergeBinInto keep) f).node? keep = some (.bin b) ∧
        ∀ name ∈ b.deps, ∃ c ∈ keep :: rest, ∃ b', f.node? c = some (.bin b') ∧ name ∈ b'.deps := by
  induction rest generalizing f a with
  | nil =>
    exact ⟨.refl, absurd rfl, fun _ _ => rfl, fun _ _ hp => hp, a, hkeep, fun name hname =>
      ⟨keep, mem_cons_self, a, hkeep, hname⟩⟩
  | cons other rest ih =>
    obtain ⟨hk, hnodup'⟩ := nodup_cons.mp hnodup
    obtain ⟨ho, hrest⟩ := nodup_cons.mp hnodup'
    obtain ⟨hne, hkrest⟩ := not_or.mp (mt mem_cons.mpr hk)
    obtain ⟨b, hb⟩ := exists_bin (hbins other mem_cons_self)
    have hka := hparent keep mem_cons_self
    have hoa := hparent other (mem_cons_of_mem _ mem_cons_self)
    have hao : above ≠ other := Ne.symm (hf.ne_parent hoa)
    have hmove : BinMove ok f (mergeBinInto keep f other) :=
      .join hkeep hb hne (.inr ⟨above, hka, hoa⟩)
    have hjoined := hf.joined hkeep hb (hf.not_below_sibling hka hoa hne)
    have hstays : ∀ j, j ≠ other → f.parent? j = some above →
        (mergeBinInto keep f other).parent? j = some above := fun j hj hp => by
      rw [hjoined.parent, if_neg hj, hp, if_neg (by simpa using hao)]
    have hkeep' := hjoined.node_keep hne
    have hapart : ∀ c ∈ rest, c ≠ keep ∧ c ≠ other := fun c hc =>
      ⟨fun he => hkrest (he ▸ hc), fun he => ho (he ▸ hc)⟩
    obtain ⟨hmoves, -, hframe, hplace, m, hm, hdeps⟩ := ih hjoined.linked hkeep'
      (fun c hc => by
        rcases mem_cons.mp hc with rfl | hc
        · exact hstays c hne hka
        · exact hstays c (hapart c hc).2 (hparent c (by simp [hc])))
      (fun c hc => by
        rw [holds, hjoined.node_of_ne (hapart c hc).1 (hapart c hc).2]
        exact hbins c (mem_cons_of_mem _ hc))
      (nodup_cons.mpr ⟨hkrest, hrest⟩)
    refine ⟨.head hmove hmoves, fun _ => .head' hmove hmoves, fun j hj => ?_, fun j hj hp => ?_, m, hm, fun name hname => ?_⟩
    · simp only [mem_cons, not_or] at hj
      exact (hframe j (by simp [hj.1, hj.2.2])).trans (hjoined.node_of_ne hj.1 hj.2.1)
    · obtain ⟨hjo, hjr⟩ := not_or.mp (mt mem_cons.mpr hj)
      exact hplace j hjr (hstays j hjo hp)
    · obtain ⟨c, hc, b', hb', hname⟩ := hdeps name hname
      rcases mem_cons.mp hc with rfl | hc
      · cases hkeep'.symm.trans hb'
        rcases Bins.mem_deps_merge hname with hname | hname
        · exact ⟨c, by simp, a, hkeep, hname⟩
        · exact ⟨other, by simp, b, hb, hname⟩
      · rw [hjoined.node_of_ne (hapart c hc).1 (hapart c hc).2] at hb'
        exact ⟨c, by simp [hc], b', hb', hname⟩

/-- A node that lets bins pass and writes nothing that these ones read. -/
structure Bins.Clears (b : Bins) (n : Node) : Prop where
  lets : letsBinsPass n
  reads : ∀ name ∈ b.deps, mayWrite n [name] = false

theorem clears_of_isPromotable (h : isPromotable f above i) (hn : f.node? above = some n)
    (hb : f.node? i = some (.bin b)) : b.Clears n := by
  unfold isPromotable at h
  rw [holds_of_node? hn, hb, Bool.and_eq_true] at h
  refine ⟨h.1, fun name hname => mayWrite_of_mem ?_ hname⟩
  unfold mayWrite
  cases hproduced : n.produced? with
  | none => simp [hproduced] at h
  | some produced =>
    rw [hproduced] at h
    have hdisjoint : produced.disjoint b.deps = true := h.2
    simpa using hdisjoint

def Forest.Stops (f : Forest) : Prop :=
  ∃ i n, f.node? i = some n ∧ letsBinsPass n ∧ f.parent? i = none

theorem promoteBins_moves {p : Progress} (bins others : List NodeId) (hp : p.forest.Linked)
    (hsiblings : ∀ c ∈ bins ++ others, p.forest.parent? c = some above ∧ p.forest.holds c Node.isBin)
    (hnodup : (bins ++ others).Nodup) (hclear : ∀ c ∈ bins, isPromotable p.forest above c) :
    (promoteBins above bins p).Meets (fun q => p.Does Nothing (BinMove Bins.Clears) q ∧
        ∀ c ∈ others, q.forest.parent? c = some above ∧ q.forest.holds c Node.isBin)
      fun e => BinMoves Bins.Clears p.forest e.progress.forest ∧ e.progress.forest.Stops := by
  cases bins with
  | nil => exact ⟨.refl p, hsiblings⟩
  | cons keep rest =>
    obtain ⟨hdisjoint, hothers⟩ : (keep :: rest).Nodup ∧ ∀ j ∈ others, j ∉ keep :: rest := by
      have happ := nodup_append.mp hnodup
      exact ⟨happ.1, fun j hj hj' => happ.2.2 j hj' j hj rfl⟩
    obtain ⟨a, ha⟩ := exists_bin (hsiblings keep (by simp)).2
    obtain ⟨hmoves, -, hframe, hplace, b, hb, hdeps⟩ := foldl_mergeBinInto_moves Bins.Clears rest
      hp ha (fun c hc => (hsiblings c (mem_append_left _ hc)).1)
      (fun c hc => (hsiblings c (by simp [hc])).2) hdisjoint
    have hnot : above ∉ keep :: rest := fun hmem =>
      hp.ne_parent (hsiblings above (mem_append_left _ hmem)).1 rfl
    have hstay : ∀ c ∈ others, (rest.foldl (mergeBinInto keep) p.forest).parent? c = some above ∧
        (rest.foldl (mergeBinInto keep) p.forest).holds c Node.isBin := fun c hc => by
      obtain ⟨hca, hbin⟩ := hsiblings c (mem_append_right _ hc)
      refine ⟨hplace c (fun hmem => hothers c hc (mem_cons_of_mem _ hmem)) hca, ?_⟩
      rwa [holds, hframe c (hothers c hc)]
    have hka := hplace keep (nodup_cons.mp hdisjoint).1 (hsiblings keep (by simp)).1
    have habove := hframe above hnot
    have hlinked := BinMoves.linked hmoves hp
    unfold promoteBins
    dsimp only
    generalize rest.foldl (mergeBinInto keep) p.forest = g at hmoves hlinked hb hstay hka habove
    have hak : above ≠ keep := fun he => hnot (he ▸ mem_cons_self)
    split
    · rename_i hbin
      obtain ⟨m, hm⟩ := exists_bin hbin
      have hjoined := hlinked.joined hm hb
        (hlinked.not_below_of_child (hlinked.child hka))
      refine ⟨.of_deeds (.tail' hmoves (.join hm hb hak (.inl hka))) rfl id, fun c hc => ?_⟩
      obtain ⟨hca, hcbin⟩ := hstay c hc
      have hck : c ≠ keep := fun he => hothers c hc (he ▸ mem_cons_self)
      refine ⟨?_, ?_⟩
      · show (mergeBinInto above g keep).parent? c = some above
        rw [hjoined.parent, if_neg hck, hca, if_neg (by simpa using hak)]
      · show (mergeBinInto above g keep).holds c Node.isBin
        rwa [holds, hjoined.node_of_ne (hlinked.ne_parent hca) hck]
    · rename_i hbin
      obtain ⟨n, hn⟩ := exists_node
        (hlinked.live_of_parent? hka).1
      rw [holds_of_node? hn, Bool.not_eq_true] at hbin
      have hclears : b.Clears n := by
        refine ⟨(clears_of_isPromotable (hclear keep mem_cons_self) (habove.symm.trans hn) ha).lets,
          fun name hname => ?_⟩
        obtain ⟨c, hc, b', hb', hname⟩ := hdeps name hname
        exact (clears_of_isPromotable (hclear c hc) (habove.symm.trans hn) hb').reads name hname
      cases hgrand : g.parent? above with
      | none =>
        -- Below a root the pass stops, and the bins that became one stay there.
        have hfails : g.exchange keep =
            (.error (.invalidGraph "cannot swap a node below a root"), g) := by
          unfold Forest.exchange
          simp only [hka, hgrand]
        unfold Progress.swapUp
        rw [hfails]
        exact ⟨hmoves, above, n, hn, hclears.lets, hgrand⟩
      | some grand =>
        have hok := Linked.swapUp_eq (p := { p with forest := g }) hlinked hka hgrand
        rw [hok]
        refine ⟨.of_deeds (.tail' hmoves (.lift hb hka hn hgrand hbin hclears)) rfl id, fun c hc => ?_⟩
        obtain ⟨hca, hcbin⟩ := hstay c hc
        have hck : c ≠ keep := fun he => hothers c hc (he ▸ mem_cons_self)
        refine ⟨?_, ?_⟩
        · show (g.exchange keep).2.parent? c = some above
          rw [(hlinked.exchange hka hgrand).2, if_neg (hlinked.ne_parent hca), if_neg hck, hca,
            if_neg (by simpa using hak)]
        · show (g.exchange keep).2.holds c Node.isBin
          rwa [holds, node?_of_contents (hlinked.contents_exchange hka hgrand)]

theorem joinBins_does (ok : Bins → Node → Prop) {p : Progress} {bins : List NodeId}
    (hp : p.forest.Linked)
    (hbins : ∀ c ∈ bins, p.forest.parent? c = some above ∧ p.forest.holds c Node.isBin)
    (hnodup : bins.Nodup) : p.Does Nothing (BinMove ok) (joinBins bins p) := by
  unfold joinBins
  split
  · rename_i keep other rest
    obtain ⟨a, ha⟩ := exists_bin (hbins keep mem_cons_self).2
    exact .of_deeds ((foldl_mergeBinInto_moves ok (other :: rest) hp ha (fun c hc => (hbins c hc).1)
      (fun c hc => (hbins c (mem_cons_of_mem _ hc)).2) hnodup).2.1 (by simp)) rfl id
  · exact .refl p

theorem gatherBins_moves {p : Progress} (hp : p.forest.Linked) (i : NodeId) :
    (∀ step q, gatherBins p i = .ok (step, q) → p.Does Nothing (BinMove Bins.Clears) q) ∧
      ∀ e, gatherBins p i = .error e →
        BinMoves Bins.Clears p.forest e.progress.forest ∧ e.progress.forest.Stops := by
  unfold gatherBins
  split
  · refine ⟨fun step q heq => ?_, nofun⟩
    cases heq
    exact .refl p
  · rename_i above habove
    dsimp only
    have hbins : ∀ c ∈ (p.forest.children above).filter fun c => p.forest.holds c Node.isBin,
        p.forest.parent? c = some above ∧ p.forest.holds c Node.isBin := fun c hc => by
      rw [mem_filter] at hc
      exact ⟨hp.parent?_of_mem hc.1, hc.2⟩
    have hnodup := (hp.single.nodup_children above).filter fun c => p.forest.holds c Node.isBin
    generalize (p.forest.children above).filter _ = bins at hbins hnodup
    have hperm := filter_append_perm (fun c => isPromotable p.forest above c) bins
    have hmeets := promoteBins_moves (bins.filter fun c => isPromotable p.forest above c)
      (bins.filter fun c => !isPromotable p.forest above c) hp
      (fun c hc => hbins c (hperm.mem_iff.mp hc)) (hperm.nodup_iff.mpr hnodup)
      (fun c hc => (mem_filter.mp hc).2)
    cases hpromote : promoteBins above (bins.filter fun c => isPromotable p.forest above c) p with
    | error e =>
      rw [hpromote] at hmeets
      refine ⟨nofun, fun e' heq => ?_⟩
      cases heq
      exact hmeets
    | ok q =>
      rw [hpromote] at hmeets
      obtain ⟨hdoes, hstay⟩ := hmeets
      refine ⟨fun step r heq => ?_, nofun⟩
      cases heq
      exact hdoes.trans (joinBins_does _ (BinMoves.linked hdoes.moves hp) hstay (hnodup.filter _))

theorem isDataSource_of_letsBinsPass (h : letsBinsPass n) : n.isDataSource = false := by
  cases n <;> simp_all [letsBinsPass, Node.isDataSource]

/-! ### Moves are rewrites -/

theorem BinMove.tame : Tame rowIds Nothing (BinMove Bins.Clears) := by
  refine .of_rewrites fun {f g} h hf => ?_
  cases h with
  | @join keep other a b hk ho hne hnear =>
    have hrevise : Rewrite rowIds f { f.setNode keep (.bin (a.merge b f.signals).1) with
        signals := (a.merge b f.signals).2 } := .revise _ hk (.bins _ a)
    have hk' : (f.setNode keep (.bin (a.merge b f.signals).1)).node? keep =
        some (.bin (a.merge b f.signals).1) := by
      rw [node?_setNode, if_pos rfl, hk]
      rfl
    have ho' : (f.setNode keep (.bin (a.merge b f.signals).1)).node? other = some (.bin b) := by
      rw [node?_setNode, if_neg (Ne.symm hne), ho]
    rw [mergeBinInto_eq hk ho]
    rcases hnear with hp | ⟨p, hkp, hop⟩
    · exact (Relation.ReflTransGen.single hrevise).tail (.joinAbove hk' ho' hp)
    · exact (Relation.ReflTransGen.single hrevise).tail (.join hk' ho' (.bins _ b) hne hkp hop)
  | @lift i above grand b n hb hp hn hg _ hclears =>
    exact .single (.raise hb hn (.bins b hclears.lets) hp hg)

theorem gatherBins_does : (Climb.ofVisit gatherBins).Does Nothing (BinMove Bins.Clears) := by
  refine Climb.does_ofVisit fun p i hp _ => ?_
  obtain ⟨hok, herror⟩ := gatherBins_moves hp.toLinked i
  cases hvisit : gatherBins p i with
  | ok r => exact ⟨r.1, r.2, rfl, hok _ _ hvisit⟩
  | error e =>
    -- In a planted forest the node at which a visit would fail is no root.
    obtain ⟨hmoves, j, n, hn, hlets, hroot⟩ := herror e hvisit
    have htame : Tame false Nothing (BinMove Bins.Clears) := BinMove.tame
    obtain ⟨a, ha⟩ := ((htame.steps hmoves hp).planted hp).exists_parent hn
      (isDataSource_of_letsBinsPass hlets)
    cases hroot.symm.trans ha

end ChartPlan.Flow
