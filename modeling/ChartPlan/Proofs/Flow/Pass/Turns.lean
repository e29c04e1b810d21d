import ChartPlan.Proofs.Flow.Pass.Lifting

/-!
# Walks that end

A walk goes on with the parent that a node had before the visit. When a visit lifts a bin above that
parent, the parent is deeper than before, so the walk may come to the same nodes again. It ends all the
same: a visit that moves no node leads towards the root, and one that moves nodes leaves fewer nodes or
fewer bins below nodes of another kind.

* `Turn`: a turn of a walk, apart from the bound on the number of turns.
* `BinMove.advances`: a move of bins makes one of two numbers smaller and none larger.
* `mergeBins_walks_end`: the walks of the pass that merges bins end before their bound.
-/

namespace ChartPlan.Flow

open Forest List

/-! ### Turns -/

section

variable {visit : Progress → NodeId → Except Failure (Step × Progress)} {p : Progress} {i : NodeId}
  {s t : Progress × NodeId}

/-- One turn of a walk: a node is visited, and the walk goes on. -/
structure Turn (visit : Progress → NodeId → Except Failure (Step × Progress))
    (s t : Progress × NodeId) : Prop where
  live : s.1.forest.contains s.2
  inner : s.1.forest.holds s.2 Node.isDataSource = false
  visited : ∃ step, visit s.1 s.2 = .ok (step, t.1) ∧
    step.next? (s.1.forest.parent? s.2) = some t.2

/-- A walk is over when the node is gone or is a data source. -/
def IsOver (s : Progress × NodeId) : Prop :=
  s.1.forest.contains s.2 = false ∨ s.1.forest.holds s.2 Node.isDataSource

theorem IsOver.walk (h : IsOver s) (fuel : Nat) :
    (Climb.ofVisit visit).walk fuel () s.1 s.2 = .ok s.1 := by
  cases fuel with
  | zero => rfl
  | succ fuel =>
    unfold Climb.walk
    rw [if_pos]
    rcases h with h | h <;> simp [h]

theorem Turn.walk (h : Turn visit s t) (fuel : Nat) :
    (Climb.ofVisit visit).walk (fuel + 1) () s.1 s.2 =
      (Climb.ofVisit visit).walk fuel () t.1 t.2 := by
  obtain ⟨step, hvisit, hnext⟩ := h.visited
  rw [Climb.walk, if_neg (by simp [h.live, h.inner])]
  simp only [Climb.ofVisit_eq_ok hvisit]
  cases step with
  | stop => cases hnext
  | visit j =>
    cases hnext
    rfl
  | parent =>
    rw [show s.1.forest.parent? s.2 = some t.2 from hnext]

/-- A walk whose turns lower a number is over after as many turns at most. -/
theorem exists_turns {I : Progress × NodeId → Prop} {A : Progress × NodeId → Progress × NodeId → Prop}
    {left : Progress × NodeId → Nat}
    (hstep : ∀ s, I s → IsOver s ∨ ∃ t, Turn visit s t ∧ A s t ∧ I t ∧ left t < left s) (hs : I s) :
    ∃ turns, List.IsChain (fun s t => Turn visit s t ∧ A s t) (s :: turns) ∧
      turns.length ≤ left s ∧ IsOver ((s :: turns).getLast (cons_ne_nil s turns)) ∧
      ∀ fuel, turns.length ≤ fuel → (Climb.ofVisit visit).walk fuel () s.1 s.2 =
        .ok ((s :: turns).getLast (cons_ne_nil s turns)).1 := by
  generalize hn : left s = n
  induction n using Nat.strongRecOn generalizing s with
  | ind n ih =>
    rcases hstep s hs with hover | ⟨t, hturn, hA, ht, hlt⟩
    · exact ⟨[], .singleton s, Nat.zero_le _, hover, fun fuel _ => hover.walk fuel⟩
    · obtain ⟨turns, hchain, hlength, hover, hwalk⟩ := ih (left t) (hn ▸ hlt) ht rfl
      refine ⟨t :: turns, .cons_cons ⟨hturn, hA⟩ hchain, ?_, ?_, fun fuel hfuel => ?_⟩
      · rw [length_cons]
        omega
      · rwa [getLast_cons (cons_ne_nil t turns)]
      · obtain ⟨fuel, rfl⟩ : ∃ k, fuel = k + 1 := ⟨fuel - 1, by rw [length_cons] at hfuel; omega⟩
        rw [hturn.walk, hwalk fuel (by simpa using hfuel), getLast_cons (cons_ne_nil t turns)]

end

/-! ### Nodes and pairs -/

variable {f g : Forest} {i : NodeId}

namespace Forest

/-- The number of pairs of a bin and a node above it that is none. -/
def binPairs (f : Forest) : Nat :=
  f.tally Node.isBin fun n => !n.isBin

theorem size_le_slots (f : Forest) : f.size ≤ f.slots.length :=
  (length_filter_le _ _).trans (Nat.le_of_eq length_range)

theorem Linked.length_above_le (hf : f.Linked) (i : NodeId) : (f.above i).length ≤ f.size := by
  by_cases hi : f.contains i
  · obtain ⟨hnodup, hlive⟩ := hf.nodup_climb f.slots.length hi
    have hle : (f.path i).length ≤ f.size :=
      (hnodup.subperm fun j hj => mem_liveIds.mpr (hlive j hj)).length_le
    unfold above
    rw [length_reverse, length_dropLast]
    exact (Nat.sub_le _ _).trans hle
  · rw [above_of_parent?_eq_none (hf.parent?_eq_none_of_vacant (by simpa using hi))]
    exact Nat.zero_le _

theorem Linked.binPairs_le (hf : f.Linked) : f.binPairs ≤ f.size * f.size := by
  rw [← total_const]
  refine total_le fun i => share_le_of_node? rfl fun n _ => ?_
  split
  · refine (sum_le_card_nsmul _ 1 fun k hk => ?_).trans ?_
    · obtain ⟨j, -, rfl⟩ := mem_map.mp hk
      unfold cost
      split <;> decide
    · simpa using hf.length_above_le i
  · exact Nat.zero_le _

end Forest

/-! ### Moves of bins -/

/-- There are not more nodes than before, and not more bins below nodes of another kind, and there are
fewer of one of them. -/
structure Advances (f g : Forest) : Prop where
  size : g.size ≤ f.size
  pairs : g.binPairs ≤ f.binPairs
  fewer : g.size < f.size ∨ g.binPairs < f.binPairs

theorem BinMove.advances {ok : Bins → Node → Prop} (h : BinMove ok f g) (hf : f.Linked) :
    Advances f g := by
  cases h with
  | lift hi hp hn hg hbin _ =>
    have hfewer : (f.exchange _).2.binPairs < f.binPairs :=
      hf.tally_exchange_lt hp hg hi rfl rfl hn (by simp [hbin])
    exact ⟨size_le_of_node? (node?_of_contents (hf.contents_exchange hp hg)), Nat.le_of_lt hfewer,
      .inr hfewer⟩
  | join hk ho hne hnear =>
    have hjoined := hf.joined hk ho (hf.not_below_of_near hne hnear)
    have hsize := hjoined.size_lt hk hne ho
    exact ⟨Nat.le_of_lt hsize, hjoined.tally_le hk hne hf hnear rfl rfl, .inl hsize⟩

theorem BinMoves.advances {ok : Bins → Node → Prop} (h : BinMoves ok f g) (hf : f.Linked) :
    g = f ∨ Advances f g := by
  induction h with
  | refl => exact .inl rfl
  | @tail g k hmoves hmove ih =>
    have hlast := hmove.advances (BinMoves.linked hmoves hf)
    rcases ih with rfl | hfirst
    · exact .inr hlast
    · refine .inr ⟨hlast.size.trans hfirst.size, hlast.pairs.trans hfirst.pairs, ?_⟩
      exact hlast.fewer.imp (Nat.lt_of_lt_of_le · hfirst.size) (Nat.lt_of_lt_of_le · hfirst.pairs)

/-! ### The walks end -/

/-- A turn leads to the parent in the same forest, or the forest has become simpler. -/
def Proceeds (s t : Progress × NodeId) : Prop :=
  (t.1.forest = s.1.forest ∧ s.1.forest.parent? s.2 = some t.2) ∨ Advances s.1.forest t.1.forest

def turnsLeft (n : Nat) (s : Progress × NodeId) : Nat :=
  (s.1.forest.size + s.1.forest.binPairs) * (n + 1) + (s.1.forest.above s.2).length

theorem Proceeds.turnsLeft_lt {n : Nat} {s t : Progress × NodeId} (h : Proceeds s t)
    (hs : s.1.forest.Linked) (ht : t.1.forest.Linked) (hn : s.1.forest.size ≤ n) :
    turnsLeft n t < turnsLeft n s := by
  unfold turnsLeft
  rcases h with ⟨hforest, hparent⟩ | hadvances
  · rw [hforest, hs.above_of_parent? hparent, length_cons]
    omega
  · have hdepth := ht.length_above_le t.2
    have hless : t.1.forest.size + t.1.forest.binPairs + 1 ≤ s.1.forest.size + s.1.forest.binPairs := by
      have := hadvances.size
      have := hadvances.pairs
      rcases hadvances.fewer with h | h <;> omega
    have hmul := Nat.mul_le_mul_right (n + 1) hless
    rw [Nat.add_mul] at hmul
    have := hadvances.size
    omega

theorem gatherBins_turn {p : Progress} (hp : p.forest.Planted) :
    IsOver (p, i) ∨ ∃ t, Turn gatherBins (p, i) t ∧ Proceeds (p, i) t ∧ t.1.forest.Planted := by
  by_cases hover : IsOver (p, i)
  · exact .inl hover
  · obtain ⟨hlive, hinner⟩ := not_or.mp hover
    have hlive : p.forest.contains i := by simpa using hlive
    have hinner : p.forest.holds i Node.isDataSource = false := by simpa using hinner
    obtain ⟨n, hn⟩ := exists_node hlive
    obtain ⟨above, habove⟩ := hp.exists_parent hn ((holds_of_node? hn).symm.trans hinner)
    obtain ⟨step, _, q, hvisit, hdoes⟩ := gatherBins_does () p i hp hlive
    obtain ⟨⟨step', q'⟩, hresult, heq⟩ := map_eq_ok.mp hvisit
    cases heq
    have hnext : step.next? (p.forest.parent? i) = some above := by
      unfold gatherBins at hresult
      rw [habove] at hresult
      obtain ⟨r, -, hr⟩ := map_eq_ok.mp hresult
      cases hr
      exact habove
    have htame : Tame false Nothing (BinMove Bins.Clears) := BinMove.tame
    refine .inr ⟨(q, above), ⟨hlive, hinner, step, hresult, hnext⟩, ?_, hdoes.planted htame hp⟩
    exact (BinMoves.advances hdoes.moves hp.toLinked).imp_left fun h => ⟨h, habove⟩

theorem turnsLeft_lt_bound {p : Progress} (hp : p.forest.Linked) (i : NodeId) :
    turnsLeft p.forest.size (p, i) < Climb.bound p.forest := by
  have hpairs := hp.binPairs_le
  have hdepth := hp.length_above_le i
  have hslots := p.forest.size_le_slots
  show (p.forest.size + p.forest.binPairs) * (p.forest.size + 1) + (p.forest.above i).length <
    (p.forest.slots.length + 2) ^ 3
  generalize p.forest.size = n at *
  calc (n + p.forest.binPairs) * (n + 1) + (p.forest.above i).length
      ≤ (n + n * n) * (n + 1) + n := by gcongr
    _ < (n + 2) ^ 3 := by ring_nf; omega
    _ ≤ (p.forest.slots.length + 2) ^ 3 := by gcongr

theorem gatherBins_turns {p : Progress} (hp : p.forest.Planted) (i : NodeId) :
    ∃ turns, List.IsChain (fun s t => Turn gatherBins s t ∧ Proceeds s t) ((p, i) :: turns) ∧
      turns.length ≤ turnsLeft p.forest.size (p, i) ∧
      IsOver (((p, i) :: turns).getLast (cons_ne_nil _ _)) ∧
      ∀ fuel, turns.length ≤ fuel → (Climb.ofVisit gatherBins).walk fuel () p i =
        .ok (((p, i) :: turns).getLast (cons_ne_nil _ _)).1 := by
  refine exists_turns (I := fun s => s.1.forest.Planted ∧ s.1.forest.size ≤ p.forest.size)
    (fun s ⟨hs, hsize⟩ => ?_) ⟨hp, Nat.le_refl _⟩
  refine (gatherBins_turn hs).imp_right fun ⟨t, hturn, hproceeds, ht⟩ =>
    ⟨t, hturn, hproceeds, ⟨ht, ?_⟩, hproceeds.turnsLeft_lt hs.toLinked ht.toLinked hsize⟩
  rcases hproceeds with ⟨hforest, -⟩ | hadvances
  · rwa [hforest]
  · exact hadvances.size.trans hsize

/-- From every leaf, and from every other node, the walk of the pass that merges bins is over before its
bound, whatever the walks from earlier leaves have done. -/
theorem mergeBins_walks_end (hgraph : f.Graph) (hcheck : f.check = .ok ())
    (hsources : ∀ i, i ∈ f.sources ↔ f.holds i Node.isDataSource) (before : List NodeId)
    (leaf : NodeId) :
    ∃ p, before.foldlM (fun p leaf => (Climb.ofVisit gatherBins).walk (Climb.bound p.forest) () p leaf)
        { forest := f } = .ok p ∧
      ∃ turns, List.IsChain (fun s t => Turn gatherBins s t ∧ Proceeds s t) ((p, leaf) :: turns) ∧
        turns.length < Climb.bound p.forest ∧
        IsOver (((p, leaf) :: turns).getLast (cons_ne_nil _ _)) ∧
        (Climb.ofVisit gatherBins).walk (Climb.bound p.forest) () p leaf =
          .ok (((p, leaf) :: turns).getLast (cons_ne_nil _ _)).1 := by
  have hf : f.Planted := hgraph.planted hcheck hsources
  have htame : Tame false Nothing (BinMove Bins.Clears) := BinMove.tame
  obtain ⟨p, hwalks, hdoes⟩ := gatherBins_does.walks htame before (p := { forest := f }) hf
  have hp : p.forest.Planted := hdoes.planted htame hf
  obtain ⟨turns, hchain, hlength, hover, hwalk⟩ := gatherBins_turns hp leaf
  have hlt := Nat.lt_of_le_of_lt hlength (turnsLeft_lt_bound hp.toLinked leaf)
  exact ⟨p, hwalks, turns, hchain, hlt, hover, hwalk _ (Nat.le_of_lt hlt)⟩

theorem mergeBins_walks_binnedTwice : binnedTwice.leaves = [4, 5] ∧
    ∃ p, [4].foldlM (fun p leaf => (Climb.ofVisit gatherBins).walk (Climb.bound p.forest) () p leaf)
        { forest := binnedTwice } = .ok p ∧
      ∃ turns, List.IsChain (fun s t => Turn gatherBins s t ∧ Proceeds s t) ((p, 5) :: turns) ∧
        turns.length < Climb.bound p.forest ∧
        IsOver (((p, 5) :: turns).getLast (cons_ne_nil _ _)) ∧
        (Climb.ofVisit gatherBins).walk (Climb.bound p.forest) () p 5 =
          .ok (((p, 5) :: turns).getLast (cons_ne_nil _ _)).1 := by
  exact ⟨by decide, mergeBins_walks_end ⟨⟨by decide, by decide⟩, by decide⟩ rfl (roots_of_slots (by decide)) [4] 5⟩

end ChartPlan.Flow
