import ChartPlan.Proofs.Flow.Pass.Walk

/-!
# Chaining outputs rewrites

Outputs that are put behind a chain and nodes that move to its end have the same rows above them as
before: everything between them and the fork is an output. The invariant of the chain in the making
is `Chained`: the nodes that wait hang below outputs of the chain, and none of them holds its end.
-/

namespace ChartPlan.Flow

open Forest List

variable {rowIds : Bool} {f g : Forest} {a b i j x p c above before last : NodeId}
  {others rest : List NodeId}

/-! ### Ancestors -/

namespace Forest

theorem Veiled.trans (h : f.Veiled a b) (h' : f.Veiled b x) : f.Veiled a x := by
  induction h' with
  | refl => exact h
  | step _ hp hn hveil ih => exact .step ih hp hn hveil

/-- `g` is `f` after a node has moved. -/
structure Moved (f g : Forest) (i before : NodeId) : Prop where
  linked : f.Linked
  linked' : g.Linked
  node : ∀ j, g.node? j = f.node? j
  parent : ∀ j, g.parent? j = if j = i then some before else f.parent? j

namespace Moved

variable (h : Moved f g i before)

include h

theorem parent_of_ne (hj : j ≠ i) : g.parent? j = f.parent? j := by
  rw [h.parent, if_neg hj]

theorem parent_self : g.parent? i = some before := by
  rw [h.parent, if_pos rfl]

theorem below (hx : ¬ f.Below i x ∨ f.Below i a) (hb : f.Below a x) : g.Below a x := by
  induction hb with
  | refl => exact .refl g a
  | @tail p x hap hpx ih =>
    have hne : x ≠ i := by
      rintro rfl
      rcases hx with hx | hia
      · exact hx (.refl f _)
      · exact h.linked.not_below_of_child hpx (hia.trans hap)
    refine (ih (hx.imp_left fun hx hip => hx (hip.step hpx))).step ?_
    rw [← h.linked'.single.parent?_eq_some, h.parent_of_ne hne]
    exact h.linked.parent?_of_mem hpx

theorem veiled (hx : ¬ f.Below i x ∨ i = a) (hv : f.Veiled a x) : g.Veiled a x := by
  induction hv with
  | refl => exact .refl
  | @step p x n hap hpx hn hveil ih =>
    have hchild := h.linked.child hpx
    have hne : x ≠ i := by
      rintro rfl
      rcases hx with hx | rfl
      · exact hx (.refl f _)
      · exact h.linked.not_below_of_child hchild (hap.toBelow h.linked.single)
    exact .step (ih (hx.imp_left fun hx hip => hx (hip.step hchild)))
      ((h.parent_of_ne hne).trans hpx) ((h.node x).trans hn) hveil

theorem of_below (hb : g.Below c x) : f.Below c x ∨ f.Below c before := by
  induction hb with
  | refl => exact .inl (.refl f c)
  | @tail p x _ hpx ih =>
    have hparent := h.linked'.parent?_of_mem hpx
    rw [h.parent] at hparent
    split at hparent
    · cases hparent
      exact .inr (ih.elim id id)
    · exact ih.imp_left fun hcp => hcp.step (h.linked.child hparent)

end Moved

theorem Planted.moved (hf : f.Planted) (hp : f.parent? i = some p) (hb : f.contains before)
    (hnot : ¬ f.Below i before) : Moved f (f.setParent i before) i before where
  linked := hf.toLinked
  linked' := (hf.setParent hp hb hnot).toLinked
  node := node?_of_contents (contents_setParent f i before)
  parent := hf.single.parent?_setParent i before

end Forest

/-! ### The chain -/

theorem chainEnd_veiled (hf : f.Single) (fuel : Nat) (i : NodeId) :
    f.Veiled i (chainEnd f fuel i) := by
  induction fuel generalizing i with
  | zero => exact .refl
  | succ fuel ih =>
    unfold chainEnd
    split
    · rename_i only honly
      split
      · rename_i hout
        obtain ⟨n, hn, hisout⟩ := holds_iff.mp hout
        have hveil : n.Veil := by
          cases n with
          | output o => exact .output o
          | _ => simp [Node.isOutput] at hisout
        have hparent : f.parent? only = some i := hf.parent?_eq_some.mpr (by simp [honly])
        exact (Veiled.step .refl hparent hn hveil).trans (ih only)
      · exact .refl
    · exact .refl

theorem holds_chainEnd (fuel : Nat) (hi : f.holds i Node.isOutput) :
    f.holds (chainEnd f fuel i) Node.isOutput := by
  induction fuel generalizing i with
  | zero => exact hi
  | succ fuel ih =>
    unfold chainEnd
    split
    · split
      · rename_i hout
        exact ih hout
      · exact hi
    · exact hi

/-- A chain from a fork to its last output: `others` wait to be moved to the end, `rest` are the
children of the fork that were not looked at. -/
structure Chained (f : Forest) (above last : NodeId) (others rest : List NodeId) : Prop where
  veiled : f.Veiled above last
  waiting : ∀ o ∈ others, ∃ p, f.parent? o = some p ∧ f.Veiled above p ∧ f.Below p last ∧
    ¬ f.Below o last
  pending : ∀ c ∈ rest, f.parent? c = some above ∧ ¬ f.Below c last
  apart : ∀ c ∈ rest, c ∉ others
  nodup : rest.Nodup

namespace Chained

theorem start (hf : f.Linked) (above : NodeId) : Chained f above above [] (f.children above) where
  veiled := .refl
  waiting := by simp
  pending _ hc := ⟨hf.parent?_of_mem hc, hf.not_below_of_child hc⟩
  apart := by simp
  nodup := hf.single.nodup_children above

theorem wait (hf : f.Single) (h : Chained f above last others (i :: rest)) :
    Chained f above last (others ++ [i]) rest where
  veiled := h.veiled
  waiting o ho := by
    rcases mem_append.mp ho with ho | ho
    · exact h.waiting o ho
    · rw [mem_singleton.mp ho]
      obtain ⟨hi, hnot⟩ := h.pending i (by simp)
      exact ⟨above, hi, .refl, h.veiled.toBelow hf, hnot⟩
  pending c hc := h.pending c (by simp [hc])
  apart c hc hmem := by
    rcases mem_append.mp hmem with hmem | hmem
    · exact h.apart c (by simp [hc]) hmem
    · exact (nodup_cons.mp h.nodup).1 (mem_singleton.mp hmem ▸ hc)
  nodup := (nodup_cons.mp h.nodup).2

theorem extend {o : Output} (hm : Moved f g i before)
    (h : Chained f above before others (i :: rest)) (hi : f.node? i = some (.output o))
    (hlast : f.Veiled i last) : Chained g above last (others ++ f.children last) rest := by
  have hf := hm.linked
  have hsingle := hf.single
  obtain ⟨hia, hibefore⟩ := h.pending i (by simp)
  have hil : f.Below i last := hlast.toBelow hsingle
  have hab : f.Below above before := h.veiled.toBelow hsingle
  have hla : last ≠ above := fun he =>
    hf.not_below_of_child (hsingle.parent?_eq_some.mp hia) (he ▸ hil)
  -- The path from the fork to the new end leads through the old one.
  have hveil : g.Veiled above before := hm.veiled (.inl hibefore) h.veiled
  have hveili : g.Veiled above i :=
    .step hveil hm.parent_self ((hm.node i).trans hi) (.output o)
  have hveill : g.Veiled above last := hveili.trans (hm.veiled (.inr rfl) hlast)
  refine ⟨hveill, fun w hw => ?_, fun c hc => ?_, fun c hc hmem => ?_, (nodup_cons.mp h.nodup).2⟩
  · rcases mem_append.mp hw with hw | hw
    · obtain ⟨p, hp, hvp, hpb, hnot⟩ := h.waiting w hw
      have hwi : w ≠ i := fun he => h.apart i (by simp) (he ▸ hw)
      refine ⟨p, (hm.parent_of_ne hwi).trans hp,
        hm.veiled (.inl fun hip => hibefore (hip.trans hpb)) hvp, ?_, fun hwl => ?_⟩
      · have hpi : g.Below p i := (hm.below (.inl hibefore) hpb).step
          (hm.linked'.child hm.parent_self)
        exact hpi.trans (hm.below (.inr (.refl _ _)) hil)
      · rcases hm.of_below hwl with hwl | hwb
        · rcases hf.below_total hwl hil with hwi' | hiw
          · exact hnot ((hf.below_parent hwi' hwi hia).trans hab)
          · exact hibefore ((hf.below_parent hiw hwi.symm hp).trans hpb)
        · exact hnot hwb
    · have hwl : f.parent? w = some last := hsingle.parent?_eq_some.mpr hw
      have hwi : w ≠ i := fun he => by
        cases hia.symm.trans (he ▸ hwl)
        exact hla rfl
      have hwl' : g.parent? w = some last := (hm.parent_of_ne hwi).trans hwl
      exact ⟨last, hwl', hveill, .refl g last,
        hm.linked'.not_below_of_child (hm.linked'.child hwl')⟩
  · obtain ⟨hca, hcb⟩ := h.pending c (by simp [hc])
    have hci : c ≠ i := fun he => (nodup_cons.mp h.nodup).1 (he ▸ hc)
    refine ⟨(hm.parent_of_ne hci).trans hca, fun hcl => ?_⟩
    rcases hm.of_below hcl with hcl | hcb'
    · rcases hf.below_total hcl hil with hb | hb
      · exact hf.not_below_sibling hia hca (Ne.symm hci) hb
      · exact hf.not_below_sibling hca hia hci hb
    · exact hcb hcb'
  · rcases mem_append.mp hmem with hmem | hmem
    · exact h.apart c (by simp [hc]) hmem
    · have hcl := (h.pending c (by simp [hc])).1.symm.trans (hsingle.parent?_eq_some.mpr hmem)
      exact hla (Option.some.inj hcl).symm

theorem move (hm : Moved f g i last) (h : Chained f above last others []) (hi : i ∈ others) :
    Chained g above last others [] := by
  obtain ⟨-, -, -, -, hil⟩ := h.waiting i hi
  have hveil : g.Veiled above last := hm.veiled (.inl hil) h.veiled
  refine ⟨hveil, fun w hw => ?_, by simp, by simp, by simp⟩
  by_cases hwi : w = i
  · subst hwi
    exact ⟨last, hm.parent_self, hveil, .refl g last,
      hm.linked'.not_below_of_child (hm.linked'.child hm.parent_self)⟩
  · obtain ⟨p, hp, hvp, hpl, hnot⟩ := h.waiting w hw
    exact ⟨p, (hm.parent_of_ne hwi).trans hp, hm.veiled (.inl fun hip => hil (hip.trans hpl)) hvp,
      hm.below (.inl hil) hpl, fun hb => hnot ((hm.of_below hb).elim id id)⟩

end Chained

/-- A node moves from one node of a chain of outputs to a later one. -/
inductive Chaining (f : Forest) : Forest → Prop
  | mk {i p above before : NodeId} : f.parent? i = some p → f.Veiled above p → f.Veiled above before →
      f.Below p before → p ≠ before → ¬ f.Below i before → f.holds before Node.isOutput →
      Chaining f (f.setParent i before)

theorem Chaining.tame : Tame rowIds Nothing Chaining :=
  .of_rewrites fun h _ => by
    obtain ⟨hp, hveil, hbefore, -, -, hnot, hout⟩ := h
    exact .single (.shift hp hveil hbefore (contains_of_holds hout) hnot (.inl hout))

/-- What holds while the children of a fork are put into a chain. -/
structure Chain.Sound (above : NodeId) (chain : Chain) (rest : List NodeId) : Prop where
  planted : chain.progress.forest.Planted
  ended : ∀ last, chain.last = some last →
    chain.progress.forest.holds last Node.isOutput ∧ above ≠ last
  chained : Chained chain.progress.forest above (chain.last.getD above) chain.others rest

theorem Chain.Sound.add {chain : Chain} (h : chain.Sound above (i :: rest)) :
    chain.progress.Does Nothing Chaining (chain.add i).progress ∧ (chain.add i).Sound above rest := by
  have hp := h.planted
  obtain ⟨hia, hnot⟩ := h.chained.pending i (by simp)
  have hend := chainEnd_veiled hp.single chain.progress.forest.slots.length i
  have hproper : above ≠ chainEnd chain.progress.forest chain.progress.forest.slots.length i := fun he =>
    hp.not_below_of_child (hp.child hia) (he ▸ hend.toBelow hp.single)
  unfold Chain.add
  dsimp only
  split
  · rename_i hout
    obtain ⟨n, hn, hisout⟩ := holds_iff.mp hout
    cases n with
    | output o =>
      have hchained := h.chained
      split
      · rename_i before hbefore
        obtain ⟨hholds, hne⟩ := h.ended before hbefore
        rw [hbefore, Option.getD_some] at hchained hnot
        have hlive := contains_of_holds hholds
        refine ⟨.change (.mk hia .refl hchained.veiled (hchained.veiled.toBelow hp.single) hne hnot
          hholds), hp.setParent hia hlive hnot, fun last hlast => ?_,
          hchained.extend (hp.moved hia hlive hnot) hn hend⟩
        cases hlast
        exact ⟨(Planted.holds_of_contents (contents_setParent _ i before) _).trans
          (holds_chainEnd _ hout), hproper⟩
      · rename_i hnone
        rw [hnone] at hchained
        refine ⟨.refl _, hp, fun last hlast => ?_,
          hchained.extend ⟨hp.toLinked, hp.toLinked, fun _ => rfl, fun j => ?_⟩ hn hend⟩
        · cases hlast
          exact ⟨holds_chainEnd _ hout, hproper⟩
        by_cases hj : j = i
        · rw [if_pos hj, hj, hia]
          rfl
        · rw [if_neg hj]
    | _ => simp [Node.isOutput] at hisout
  · exact ⟨.refl _, hp, h.ended, h.chained.wait hp.single⟩

theorem Chain.Sound.foldl {chain : Chain} (h : chain.Sound above rest) :
    chain.progress.Does Nothing Chaining (rest.foldl Chain.add chain).progress ∧
      (rest.foldl Chain.add chain).Sound above [] := by
  induction rest generalizing chain with
  | nil => exact ⟨.refl _, h⟩
  | cons i rest ih =>
    obtain ⟨hdoes, hsound⟩ := h.add
    obtain ⟨hrest, hend⟩ := ih hsound
    exact ⟨hdoes.trans hrest, hend⟩

theorem Chain.sound_children {p : Progress} (hp : p.forest.Planted) (above : NodeId) :
    p.Does Nothing Chaining ((p.forest.children above).foldl Chain.add { progress := p }).progress ∧
      ((p.forest.children above).foldl Chain.add { progress := p }).Sound above [] :=
  have hstart : Chain.Sound above { progress := p } (p.forest.children above) :=
    ⟨hp, fun _ h => (nomatch h), Chained.start hp.toLinked above⟩
  hstart.foldl

theorem foldl_moveToEnd_does (nodes : List NodeId) {p : Progress} (hp : p.forest.Planted)
    (hlast : p.forest.holds last Node.isOutput) (h : Chained p.forest above last others [])
    (hsub : nodes ⊆ others) : p.Does Nothing Chaining (nodes.foldl (moveToEnd last) p) := by
  refine (Progress.Does.foldl id (I := fun q => q.forest.Planted ∧
    q.forest.holds last Node.isOutput ∧ Chained q.forest above last others []) nodes
    (fun q i hi ⟨hq, hlast, h⟩ => ?_) ⟨hp, hlast, h⟩).1
  unfold moveToEnd
  split
  · exact ⟨.refl q, hq, hlast, h⟩
  · rename_i hplace
    have hlive : q.forest.contains last := contains_of_holds hlast
    obtain ⟨k, hk, hveil, hbelow, hnot⟩ := h.waiting i (hsub hi)
    have hne : k ≠ last := fun he => hplace (by simp [hk, he])
    exact ⟨.change (.mk hk hveil h.veiled hbelow hne hnot hlast), hq.setParent hk hlive hnot,
      (Planted.holds_of_contents (contents_setParent _ i last) last).trans hlast,
      h.move (hq.moved hk hlive hnot) (hsub hi)⟩

theorem Chain.add_reported (c : Chain) (i : NodeId) : c.progress.Reported (c.add i).progress := by
  unfold Chain.add
  dsimp only
  split
  · split
    · exact .change _ _
    · exact .refl _
  · exact .refl _

theorem moveToEnd_reported (last : NodeId) (p : Progress) (i : NodeId) :
    p.Reported (moveToEnd last p i) := by
  unfold moveToEnd
  split
  · exact .refl p
  · exact .change p _

theorem chain_reported (p : Progress) (children : List NodeId) :
    p.Reported (children.foldl Chain.add { progress := p }).progress :=
  .foldl_of Chain.progress Chain.add_reported children { progress := p }

theorem Chain.of_last_eq_none {chain : Chain} {nodes : List NodeId}
    (h : (nodes.foldl Chain.add chain).last = none) :
    chain.last = none ∧ (nodes.foldl Chain.add chain).progress = chain.progress ∧
      ∀ i ∈ nodes, chain.progress.forest.holds i Node.isOutput = false := by
  induction nodes generalizing chain with
  | nil => exact ⟨h, rfl, fun _ h => absurd h not_mem_nil⟩
  | cons i rest ih =>
    obtain ⟨hlast, hprogress, hrest⟩ := ih h
    rw [foldl_cons, hprogress]
    unfold Chain.add at hlast hrest ⊢
    dsimp only at hlast hrest ⊢
    split at hlast
    · split at hlast <;> cases hlast
    · rename_i hout
      rw [if_neg hout] at hrest ⊢
      exact ⟨hlast, rfl, forall_mem_cons.mpr ⟨Bool.eq_false_iff.mpr hout, hrest⟩⟩

theorem chainOutputs_does : (Climb.ofVisit chainOutputs).Does Nothing Chaining := by
  refine Climb.does_ofVisit fun p i hp _ => ?_
  unfold chainOutputs
  split
  · exact ⟨.stop, p, rfl, .refl p⟩
  · rename_i above _
    dsimp only
    split
    · exact ⟨.parent, p, rfl, .refl p⟩
    · obtain ⟨hdoes, hsound⟩ := Chain.sound_children hp above
      split
      · rename_i last hlast
        have hchained := hsound.chained
        rw [hlast, Option.getD_some] at hchained
        exact ⟨.parent, _, rfl, hdoes.trans (foldl_moveToEnd_does _ hsound.planted
          (hsound.ended last hlast).1 hchained (List.Subset.refl _))⟩
      · exact ⟨.parent, _, rfl, hdoes⟩

/-! ### Visits without a report -/

theorem Chain.others_subset_foldl (nodes : List NodeId) (chain : Chain) :
    chain.others ⊆ (nodes.foldl Chain.add chain).others := by
  induction nodes generalizing chain with
  | nil => exact List.Subset.refl _
  | cons i rest ih =>
    refine List.Subset.trans (fun c hc => ?_) (ih (chain.add i))
    unfold Chain.add
    dsimp only
    split
    · split <;> exact mem_append_left _ hc
    · exact mem_append_left _ hc

theorem Chain.add_of_quiet {chain : Chain} (h : (chain.add i).progress.changed = false) :
    (chain.add i).progress = chain.progress ∧
      (chain.progress.forest.holds i Node.isOutput = false ∧ i ∈ (chain.add i).others ∧
          (chain.add i).last = chain.last ∨
        chain.last = none ∧ (chain.add i).last ≠ none) := by
  unfold Chain.add at h ⊢
  dsimp only at h ⊢
  split at h
  · rename_i hout
    rw [if_pos hout]
    split at h
    · cases h
    · rename_i hnone
      exact ⟨rfl, .inr ⟨hnone, nofun⟩⟩
  · rename_i hout
    rw [if_neg hout]
    exact ⟨rfl, .inl ⟨by simpa using hout, by simp, rfl⟩⟩

/-- When no change is reported, every child waits, but for one output. -/
theorem Chain.waits_of_quiet {nodes : List NodeId} {chain : Chain}
    (h : (nodes.foldl Chain.add chain).progress.changed = false) (hc : c ∈ nodes) :
    c ∈ (nodes.foldl Chain.add chain).others ∧ chain.progress.forest.holds c Node.isOutput = false ∨
      chain.last = none ∧ ∀ d ∈ nodes, chain.progress.forest.holds d Node.isOutput → d = c := by
  induction nodes generalizing chain c with
  | nil => exact absurd hc not_mem_nil
  | cons i rest ih =>
    have hreported : Progress.Reported (chain.add i).progress _ :=
      .foldl_of Chain.progress Chain.add_reported rest (chain.add i)
    obtain ⟨hsame, hcases⟩ := Chain.add_of_quiet (hreported h).1
    have hothers := Chain.others_subset_foldl rest (chain.add i)
    have ih := fun c (hc : c ∈ rest) => ih h hc
    rw [foldl_cons]
    rw [hsame] at ih
    rcases hcases with ⟨hout, hi, hlast⟩ | ⟨hnone, hlast⟩
    · rcases mem_cons.mp hc with rfl | hc
      · exact .inl ⟨hothers hi, hout⟩
      · refine (ih c hc).imp_right fun ⟨hnone, honly⟩ => ⟨hlast ▸ hnone, fun d hd hdout => ?_⟩
        rcases mem_cons.mp hd with rfl | hd
        · rw [hout] at hdout
          cases hdout
        · exact honly d hd hdout
    · have hrest : ∀ d ∈ rest, _ := fun d hd => (ih d hd).resolve_right fun hr => hlast hr.1
      rcases mem_cons.mp hc with rfl | hc
      · refine .inr ⟨hnone, fun d hd hdout => (mem_cons.mp hd).resolve_right fun hd => ?_⟩
        rw [(hrest d hd).2] at hdout
        cases hdout
      · exact .inl (hrest c hc)

end ChartPlan.Flow
