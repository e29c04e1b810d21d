import ChartPlan.Proofs.Flow.Pass.Walk
import ChartPlan.Proofs.Flow.Path

/-!
# Branches without an end

Branches that lead to no output and no facet are removed from their leaves on. A node loses its last
child only to the walk that comes from there, and that walk goes on with it, so the nodes that may still
go are found below the leaves that are not yet visited (`Forest.Strips`). In the end exactly the nodes
over outputs and facets are left, and the roots (`removeUnusedSubtrees_exact`).
-/

namespace ChartPlan.Flow

open List Option

namespace Forest

variable {f g : Forest} {i j q : NodeId} {n : Node} {rest : List NodeId} {p : Progress}

theorem Valid.mem_leaves_iff (hf : f.Valid) : i ∈ f.leaves ↔ f.contains i ∧ f.children i = [] := by
  unfold leaves preorder
  simp only [List.mem_filter, List.mem_flatMap, hf.mem_subtree, List.isEmpty_iff]
  refine and_congr_left fun _ => ⟨fun ⟨r, hr, hb⟩ => ?_, hf.exists_root⟩
  exact hf.contains_of_below (hf.mem_sources.mp hr).1 hb

theorem Linked.length_above_lt (hf : f.Linked) (hi : f.contains i) :
    (f.above i).length < Climb.bound f := by
  obtain ⟨hnodup, hlive⟩ := hf.nodup_climb f.slots.length hi
  have hle : (f.path i).length ≤ f.slots.length := length_le_slots hnodup hlive
  have hlt : (f.above i).length < f.slots.length + 2 := by
    unfold above
    rw [length_reverse, length_dropLast]
    omega
  refine Nat.lt_of_lt_of_le hlt ?_
  show f.slots.length + 2 ≤ (f.slots.length + 2) ^ 3
  exact Nat.le_self_pow (by decide) _

/-! ### Removing leaves -/

theorem slots_remove (f : Forest) (i : NodeId) : (f.remove i).slots.length = f.slots.length := by
  have hunwrap : (f.unwrap i).slots = f.slots := by
    show (f.unwrap i).contents.slots = f.contents.slots
    rw [contents_unwrap]
  show ((f.unwrap i).clear i).slots.length = _
  unfold clear
  split
  · rw [length_set, hunwrap]
  · rw [hunwrap]

theorem Linked.children_remove_leaf (h : f.Linked) (hi : f.children i = []) (hq : q ≠ i) :
    (f.remove i).children q = (f.children q).filter (· != i) := by
  rw [h.children_remove, if_neg hq, hi]
  split
  · rw [splice, append_nil, take_append_drop, (h.single.nodup_children q).erase_eq_filter]
  · rename_i hp
    refine (filter_eq_self.mpr fun c hc => bne_iff_ne.mpr fun he => ?_).symm
    exact hp (h.parent?_of_mem (he ▸ hc))

def Live (f : Forest) (i : NodeId) : Prop :=
  ∃ j, f.Below i j ∧ f.holds j endsBranch

theorem live_iff : f.Live i ↔ f.holds i endsBranch ∨ ∃ c ∈ f.children i, f.Live c := by
  unfold Live
  constructor
  · rintro ⟨j, hb, hj⟩
    rcases below_iff.mp hb with rfl | ⟨c, hc, hcj⟩
    · exact .inl hj
    · exact .inr ⟨c, hc, j, hcj, hj⟩
  · rintro (hi | ⟨c, hc, j, hcj, hj⟩)
    · exact ⟨i, .refl f i, hi⟩
    · exact ⟨j, below_iff.mpr (.inr ⟨c, hc, hcj⟩), hj⟩

/-- What is left of a forest when ends of branches were removed that lead nowhere. -/
structure Stripped (f g : Forest) : Prop where
  planted : g.Planted
  width : g.slots.length = f.slots.length
  sources : g.sources = f.sources
  node? : ∀ {i}, g.contains i → g.node? i = f.node? i
  children : ∀ {i}, g.contains i → g.children i = (f.children i).filter g.contains
  dead : ∀ {i}, f.contains i → g.contains i = false → ¬ f.Live i

namespace Stripped

theorem refl (hf : f.Planted) : f.Stripped f where
  planted := hf
  width := rfl
  sources := rfl
  node? _ := rfl
  children _ := (filter_eq_self.mpr fun _ hc => (hf.live hc).2).symm
  dead hi hgone := absurd hi (by simp [hgone])

section

variable (h : f.Stripped g)

include h

theorem holds_eq (hi : g.contains i) (P : Node → Bool) : g.holds i P = f.holds i P := by
  unfold holds
  rw [h.node? hi]

theorem contains (hi : g.contains i) : f.contains i := by
  unfold Forest.contains at hi ⊢
  rwa [← h.node? hi]

theorem mem_children (hj : j ∈ g.children i) : j ∈ f.children i := by
  rw [h.children (h.planted.live hj).1] at hj
  exact mem_of_mem_filter hj

theorem parent?_eq (hf : f.Planted) (hi : g.contains i) : g.parent? i = f.parent? i := by
  cases hp : g.parent? i with
  | none =>
    have hroot := h.sources ▸ Valid.mem_sources h.planted.toValidBut |>.mpr ⟨hi, hp⟩
    exact (Valid.mem_sources hf.toValidBut |>.mp hroot).2.symm
  | some a =>
    exact (hf.parent?_of_mem (h.mem_children (h.planted.child hp))).symm

theorem holds_of_live (hf : f.Planted) (hi : g.contains i) (hchildren : g.children i = [])
    (hlive : f.Live i) : g.holds i endsBranch := by
  rcases live_iff.mp hlive with hown | ⟨c, hc, hlive⟩
  · exact (h.holds_eq hi endsBranch).trans hown
  · refine absurd hlive (h.dead (hf.live hc).2 (Bool.eq_false_iff.mpr fun hcg => ?_))
    rw [h.children hi] at hchildren
    exact filter_eq_nil_iff.mp hchildren c hc hcg

theorem remove (hf : f.Planted) (hn : g.node? i = some n) {a : NodeId} (hp : g.parent? i = some a)
    (hchildren : g.children i = []) (hends : endsBranch n = false) :
    f.Stripped (g.remove i) where
  planted := h.planted.remove hn (.inr hchildren)
  width := (slots_remove g i).trans h.width
  sources := by
    rw [sources_remove, h.planted.single.sources_unwrap, hp]
    exact h.sources
  node? {j} hj := by
    obtain ⟨m, hm⟩ := exists_node hj
    have hold := (node?_of_remove hm).2
    rw [hm, ← h.node? (contains_of_node? hold), hold]
  children {j} hj := by
    obtain ⟨m, hm⟩ := exists_node hj
    obtain ⟨hne, hold⟩ := node?_of_remove hm
    rw [h.planted.children_remove_leaf hchildren hne, h.children (contains_of_node? hold),
      List.filter_filter]
    refine List.filter_congr fun c _ => ?_
    rw [contains_remove]
    by_cases hc : c = i <;> simp [hc]
  dead {j} hj hgone hlive := by
    by_cases hji : j = i
    · subst hji
      have hown := h.holds_of_live hf (contains_of_node? hn) hchildren hlive
      rw [holds_of_node? hn, hends] at hown
      cases hown
    · rw [contains_remove, decide_eq_true hji, Bool.true_and] at hgone
      exact h.dead hj hgone hlive

end

end Stripped

/-! ### Walks -/

/-- Ends of branches were removed, which is told, and the ends of branches that lead nowhere are among
the nodes that wait for a visit. -/
structure Strips (f : Forest) (rest : List NodeId) (p : Progress) : Prop where
  stripped : f.Stripped p.forest
  changed : p.changed = true ↔ ∃ i, f.contains i ∧ p.forest.contains i = false
  waiting : ∀ {i}, p.forest.contains i → p.forest.children i = [] →
    i ∈ f.sources ∨ p.forest.holds i endsBranch ∨ i ∈ rest

theorem Strips.pass (h : f.Strips (i :: rest) p) (hi : p.forest.contains i → p.forest.children i = [] →
    i ∈ f.sources ∨ p.forest.holds i endsBranch) : f.Strips rest p where
  stripped := h.stripped
  changed := h.changed
  waiting {j} hj hchildren := by
    rcases h.waiting hj hchildren with hroot | hends | hwaits
    · exact .inl hroot
    · exact .inr (.inl hends)
    · rcases mem_cons.mp hwaits with rfl | hwaits
      · exact (hi hj hchildren).imp_right .inl
      · exact .inr (.inr hwaits)

theorem Strips.remove (h : f.Strips (i :: rest) p) (hf : f.Planted) (hn : p.forest.node? i = some n)
    {a : NodeId} (hp : p.forest.parent? i = some a) (hchildren : p.forest.children i = [])
    (hends : endsBranch n = false) : f.Strips (a :: rest) (p.change (p.forest.remove i)) where
  stripped := h.stripped.remove hf hn hp hchildren hends
  changed := iff_of_true rfl ⟨i, h.stripped.contains (contains_of_node? hn), by simp [Progress.change, contains_remove]⟩
  waiting {j} hj hempty := by
    obtain ⟨m, hm⟩ := exists_node hj
    obtain ⟨hne, hold⟩ := node?_of_remove hm
    have hlinked := h.stripped.planted.toLinked
    by_cases hja : j = a
    · exact .inr (.inr (hja ▸ mem_cons_self))
    · have hsame : p.forest.children j = [] := by
        rw [← hempty]
        show _ = (p.forest.remove i).children j
        rw [hlinked.children_remove, if_neg hne, if_neg fun hpj => hja (Option.some.inj (hpj.symm.trans hp))]
      rcases h.waiting (contains_of_node? hold) hsame with hroot | hown | hwaits
      · exact .inl hroot
      · refine .inr (.inl ?_)
        rw [holds_of_node? hold] at hown
        exact (holds_of_node? hm).trans hown
      · exact .inr (.inr (mem_cons_of_mem _ ((mem_cons.mp hwaits).resolve_left hne)))

theorem Strips.walk (hf : f.Planted) {fuel : Nat} (h : f.Strips (i :: rest) p)
    (hfuel : (f.above i).length < fuel) :
    ∃ q, (Climb.ofVisit pruneLeaf).walk fuel () p i = .ok q ∧ f.Strips rest q := by
  induction fuel generalizing p i with
  | zero => exact absurd hfuel (Nat.not_lt_zero _)
  | succ fuel ih =>
    unfold Climb.walk
    split
    · rename_i hend
      refine ⟨p, rfl, h.pass fun hi _ => .inl (hf.sourced.mpr ?_)⟩
      rw [← h.stripped.holds_eq hi]
      simpa [hi] using hend
    · rename_i hgo
      have hgo : p.forest.contains i ∧ p.forest.holds i Node.isDataSource = false := by simpa using hgo
      obtain ⟨n, hn⟩ := exists_node hgo.1
      obtain ⟨a, hp⟩ := h.stripped.planted.exists_parent hn ((holds_of_node? hn).symm.trans hgo.2)
      cases hstop : decide (0 < p.forest.childCount i) || p.forest.holds i endsBranch with
      | true =>
        have hvisit : pruneLeaf p i = .ok (.stop, p) := if_pos hstop
        rw [Climb.ofVisit_eq_ok hvisit]
        refine ⟨p, rfl, h.pass fun _ hchildren => .inr ?_⟩
        rw [← length_children, hchildren] at hstop
        simpa using hstop
      | false =>
        have hvisit : pruneLeaf p i = .ok (.parent, p.change (p.forest.remove i)) :=
          if_neg (Bool.eq_false_iff.mp hstop)
        rw [Climb.ofVisit_eq_ok hvisit, hp]
        have hleaf : p.forest.childCount i = 0 ∧ endsBranch n = false := by
          simpa [holds_of_node? hn] using hstop
        have hfp : f.parent? i = some a := (h.stripped.parent?_eq hf hgo.1).symm.trans hp
        rw [hf.above_of_parent? hfp] at hfuel
        exact ih (h.remove hf hn hp (children_eq_nil_of_childCount hleaf.1) hleaf.2)
          (Nat.lt_of_succ_lt_succ hfuel)

theorem Strips.walks (hf : f.Planted) (leaves : List NodeId) (hleaves : ∀ l ∈ leaves, f.contains l)
    (h : f.Strips leaves p) :
    ∃ q, leaves.foldlM (fun p leaf => (Climb.ofVisit pruneLeaf).walk (Climb.bound p.forest) () p leaf) p =
      .ok q ∧ f.Strips [] q := by
  induction leaves generalizing p with
  | nil => exact ⟨p, rfl, h⟩
  | cons leaf rest ih =>
    have hfuel : (f.above leaf).length < Climb.bound p.forest := by
      unfold Climb.bound
      rw [h.stripped.width]
      exact hf.length_above_lt (hleaves leaf mem_cons_self)
    obtain ⟨q, hwalk, hq⟩ := h.walk hf hfuel
    rw [foldlM_cons, hwalk]
    exact ih (fun l hl => hleaves l (mem_cons_of_mem _ hl)) hq

end Forest

open Forest

variable {f g : Forest} {i : NodeId}

theorem removeUnusedSubtrees_strips (hf : f.Planted) :
    ∃ q, removeUnusedSubtrees f = .ok q ∧ f.Strips [] q := by
  have hleaves {l : NodeId} := Valid.mem_leaves_iff hf.toValidBut (i := l)
  exact Strips.walks hf f.leaves (fun l hl => (hleaves.mp hl).1)
    ⟨.refl hf, by simp, fun hi hchildren => .inr (.inr (hleaves.mpr ⟨hi, hchildren⟩))⟩

theorem Forest.Strips.live {q : Progress} (h : f.Strips [] q) (hi : q.forest.contains i)
    (hroot : i ∉ f.sources) : q.forest.Live i := by
  suffices hall : ∀ fuel j, q.forest.Fits fuel j → q.forest.contains j → j ∉ f.sources →
      q.forest.Live j from hall _ i (h.stripped.planted.fits i) hi hroot
  intro fuel
  induction fuel with
  | zero => exact fun _ hfits => hfits.elim
  | succ fuel ih =>
    intro j hfits hj hroot
    refine live_iff.mpr ?_
    cases hchildren : q.forest.children j with
    | nil =>
      rcases h.waiting hj hchildren with hsource | hends | hnone
      · exact absurd hsource hroot
      · exact .inl hends
      · cases hnone
    | cons c rest =>
      have hc : c ∈ q.forest.children j := hchildren ▸ mem_cons_self
      exact .inr ⟨c, mem_cons_self, ih c (hfits c hc) (h.stripped.planted.live hc).2
        (h.stripped.sources ▸ h.stripped.planted.not_mem_sources hc)⟩

theorem Forest.Stripped.live (h : f.Stripped g) (hlive : g.Live i) : f.Live i := by
  obtain ⟨j, hb, hj⟩ := hlive
  exact ⟨j, hb.mono h.mem_children, (h.holds_eq (contains_of_holds hj) endsBranch) ▸ hj⟩

/-- The pass succeeds on every forest that passes the check and has its data sources as roots. It keeps
the roots and the nodes with an output or a facet at or below them, as they are, below their parents and
in their order, removes all others, and tells whether there were any. A second time nothing is removed. -/
theorem removeUnusedSubtrees_exact (hgraph : f.Graph) (hcheck : f.check = .ok ())
    (hroots : ∀ i, i ∈ f.sources ↔ f.holds i Node.isDataSource) :
    ∃ q, removeUnusedSubtrees f = .ok q ∧ q.forest.sources = f.sources ∧
      (∀ i, q.forest.contains i ↔ f.contains i ∧ (i ∈ f.sources ∨ f.Live i)) ∧
      (∀ i, q.forest.contains i → q.forest.node? i = f.node? i ∧ q.forest.parent? i = f.parent? i ∧
        q.forest.children i = (f.children i).filter q.forest.contains) ∧
      (q.changed = true ↔ ∃ i, f.contains i ∧ q.forest.contains i = false) ∧
      ∃ r, removeUnusedSubtrees q.forest = .ok r ∧ r.changed = false ∧ r.forest = q.forest := by
  have hf := hgraph.planted hcheck hroots
  obtain ⟨q, hq, hstrips⟩ := removeUnusedSubtrees_strips hf
  have hstripped := hstrips.stripped
  refine ⟨q, hq, hstripped.sources, fun i => ⟨fun hi => ⟨hstripped.contains hi, ?_⟩, ?_⟩,
    fun i hi => ⟨hstripped.node? hi, hstripped.parent?_eq hf hi, hstripped.children hi⟩, hstrips.changed, ?_⟩
  · exact or_iff_not_imp_left.mpr fun hroot => hstripped.live (hstrips.live hi hroot)
  · rintro ⟨hi, hroot | hlive⟩
    · exact (Valid.mem_sources hstripped.planted.toValidBut |>.mp (hstripped.sources ▸ hroot)).1
    · exact Bool.not_eq_false _ ▸ fun hgone => hstripped.dead hi hgone hlive
  · obtain ⟨r, hr, hagain⟩ := removeUnusedSubtrees_strips hstripped.planted
    have hquiet : r.changed = false := by
      refine Bool.eq_false_iff.mpr fun hchanged => ?_
      obtain ⟨i, hi, hgone⟩ := hagain.changed.mp hchanged
      refine hagain.stripped.dead hi hgone (hstrips.live hi fun hroot => ?_)
      have hkept := (Valid.mem_sources hagain.stripped.planted.toValidBut).mp
        (hagain.stripped.sources ▸ hstripped.sources ▸ hroot)
      exact Bool.eq_false_iff.mp hgone hkept.1
    obtain ⟨_, heq, hdoes⟩ := pruneLeaf_does.run (Removal.tame : Tame false Nothing (Removal false)) hstripped.planted
    cases heq.symm.trans hr
    exact ⟨r, hr, hquiet, hdoes.honest.forest_eq hquiet⟩

def deadFork : Forest where
  slots := [some (.source .empty), some (.sample ⟨10⟩), some .identifier, some (.sample ⟨5⟩),
    some (.output (.fresh "rows" .main 0))]
  edges := [⟨1, 3, 1⟩, ⟨1, 2, 0⟩, ⟨0, 4, 1⟩, ⟨0, 1, 0⟩]
  sources := [0]
  outputs := [("rows", 4)]

theorem removeUnusedSubtrees_deadFork :
    (removeUnusedSubtrees deadFork).toOption.map (fun q => (q.forest.preorder, q.changed)) =
      some ([0, 4], true) ∧
    ∃ q, removeUnusedSubtrees deadFork = .ok q ∧
      ∀ i, q.forest.contains i ↔ deadFork.contains i ∧ (i ∈ deadFork.sources ∨ deadFork.Live i) := by
  have hgraph : deadFork.Graph := ⟨⟨by decide, by decide⟩, by decide⟩
  obtain ⟨q, hq, -, hkept, -⟩ := removeUnusedSubtrees_exact hgraph (by rfl) (roots_of_slots (by decide))
  exact ⟨by decide +kernel, q, hq, hkept⟩

end ChartPlan.Flow
