import ChartPlan.Proofs.Flow.Links
import Mathlib.Logic.Relation

/-!
# Sound forests

A forest is sound when its links hold together: the free slots are vacant, links join nodes that are
there, no node has two parents, links run in no circle, and the roots are the nodes without a parent.
Circles are excluded by a rank that grows along every link, which is a condition on single links and
so is easy to restore after a change.

* `Forest.Linked`: all of this but the condition on roots, which fails while a node is unlinked;
* `Linked.attach`: a node without a parent may be linked below any node that is not below it;
* `Linked.setParent`, `Linked.remove`: the two moves from which the others are made, with what they
  do to the parents of nodes (`Linked.parent?_setParent`, `Linked.parent?_remove`);
* `Forest.Sound`: linked, and the roots are right.
-/

namespace ChartPlan.Flow.Forest

variable {f g : Forest} {i p q c : NodeId}

/-! ### Slots -/

/-- The free slots are vacant and each is listed once. -/
structure Arena (f : Forest) : Prop where
  nodup : f.free.Nodup
  vacant : ∀ i ∈ f.free, i < f.slots.length ∧ f.contains i = false

theorem node?_eq_none_of_le (h : f.slots.length ≤ i) : f.node? i = none := by
  unfold node?
  rw [List.getElem?_eq_none h]
  rfl

theorem lt_of_contains (h : f.contains i) : i < f.slots.length := by
  by_contra hi
  simp [contains, node?_eq_none_of_le (Nat.le_of_not_lt hi)] at h

theorem contains_of_node? {n : Node} (h : f.node? i = some n) : f.contains i := by
  unfold contains
  rw [h]
  rfl

theorem exists_node (h : f.contains i) : ∃ n, f.node? i = some n :=
  Option.isSome_iff_exists.mp h

theorem holds_iff {P : Node → Bool} : f.holds i P ↔ ∃ n, f.node? i = some n ∧ P n := by
  unfold holds
  cases f.node? i <;> simp

theorem holds_of_node? {n : Node} {P : Node → Bool} (h : f.node? i = some n) : f.holds i P = P n := by
  unfold holds
  rw [h]
  rfl

theorem contains_of_holds {P : Node → Bool} (h : f.holds i P) : f.contains i := by
  unfold holds at h
  unfold contains
  cases hn : f.node? i with
  | none => simp [hn] at h
  | some n => rfl

/-- Whether the roots are the data sources can be told from the slots. -/
theorem roots_of_slots (h : (∀ i ∈ f.sources, f.holds i Node.isDataSource) ∧
    ∀ i < f.slots.length, f.holds i Node.isDataSource → i ∈ f.sources) (i : NodeId) :
    i ∈ f.sources ↔ f.holds i Node.isDataSource :=
  ⟨h.1 i, fun hi => h.2 i (lt_of_contains (contains_of_holds hi)) hi⟩

theorem Arena.node?_store (h : f.Arena) (n : Node) (j : NodeId) :
    (f.store n).1.node? j = if j = (f.store n).2 then some n else f.node? j := by
  unfold store
  split
  · rename_i k rest hfree
    have hk : k < f.slots.length := (h.vacant k (by simp [hfree])).1
    simp only [node?, List.getElem?_set]
    by_cases hj : k = j
    · subst hj
      simp [hk]
    · simp [hj, Ne.symm hj]
  · simp only [node?, List.getElem?_append]
    by_cases hj : j < f.slots.length
    · simp [hj, Nat.ne_of_lt hj]
    · by_cases hj' : j = f.slots.length
      · simp [hj']
      · have hle : f.slots.length ≤ j := Nat.le_of_not_lt hj
        have hsub : j - f.slots.length ≠ 0 :=
          Nat.sub_ne_zero_of_lt (Nat.lt_of_le_of_ne hle (Ne.symm hj'))
        rw [if_neg hj, if_neg hj', List.getElem?_eq_none hle]
        simp [hsub]

theorem Arena.contains_store (h : f.Arena) (n : Node) (j : NodeId) :
    (f.store n).1.contains j = (decide (j = (f.store n).2) || f.contains j) := by
  unfold contains
  rw [h.node?_store]
  split <;> simp_all

theorem Arena.fresh_store (h : f.Arena) (n : Node) : f.contains (f.store n).2 = false := by
  unfold store
  split
  · rename_i k rest hfree
    exact (h.vacant k (by simp [hfree])).2
  · simp [contains, node?_eq_none_of_le (f := f) (Nat.le_refl _)]

section

variable (f : Forest) (n : Node)

theorem edges_store : (f.store n).1.edges = f.edges := by
  unfold store
  split <;> rfl

theorem sources_store : (f.store n).1.sources = f.sources := by
  unfold store
  split <;> rfl

theorem outputs_store : (f.store n).1.outputs = f.outputs := by
  unfold store
  split <;> rfl

theorem requests_store : (f.store n).1.requests = f.requests := by
  unfold store
  split <;> rfl

theorem ids_store : (f.store n).1.ids = f.ids := by
  unfold store
  split <;> rfl

end

theorem Arena.store (h : f.Arena) (n : Node) : (f.store n).1.Arena := by
  have hnode := h.contains_store n
  cases hfree : f.free with
  | nil =>
    have hempty : (f.store n).1.free = [] := by
      unfold Forest.store
      rw [hfree]
    exact ⟨by simp [hempty], by simp [hempty]⟩
  | cons k rest =>
    have hstore : f.store n = ({ f with slots := f.slots.set k (some n), free := rest }, k) := by
      unfold Forest.store
      rw [hfree]
    have hnodup := h.nodup
    rw [hfree, List.nodup_cons] at hnodup
    refine ⟨by rw [hstore]; exact hnodup.2, fun j hj => ?_⟩
    rw [hstore] at hj
    have hmem : j ∈ f.free := by
      rw [hfree]
      exact List.mem_cons_of_mem k hj
    have hne : j ≠ k := fun he => hnodup.1 (he ▸ hj)
    refine ⟨?_, ?_⟩
    · rw [hstore]
      simpa using (h.vacant j hmem).1
    · rw [hnode, (h.vacant j hmem).2, hstore]
      simp [hne]

/-! ### Linked nodes -/

def Below (f : Forest) : NodeId → NodeId → Prop :=
  Relation.ReflTransGen fun p c => c ∈ f.children p

theorem Below.refl (f : Forest) (i : NodeId) : f.Below i i :=
  Relation.ReflTransGen.refl

theorem Below.step (h : f.Below i p) (hc : c ∈ f.children p) : f.Below i c :=
  Relation.ReflTransGen.tail h hc

theorem below_iff : f.Below i j ↔ j = i ∨ ∃ c ∈ f.children i, f.Below c j := by
  constructor
  · intro hb
    rcases Relation.ReflTransGen.cases_head hb with he | ⟨c, hc, hb⟩
    · exact .inl he.symm
    · exact .inr ⟨c, hc, hb⟩
  · rintro (rfl | ⟨c, hc, hb⟩)
    · exact .refl f _
    · exact Relation.ReflTransGen.head hc hb

theorem Below.mono (hfg : ∀ {p c}, c ∈ f.children p → c ∈ g.children p) (h : f.Below p q) :
    g.Below p q :=
  Relation.ReflTransGen.mono (fun _ _ hc => hfg hc) p q h

theorem Below.cases_parent (hf : f.Single) (h : f.Below i c) :
    i = c ∨ ∃ p, f.parent? c = some p ∧ f.Below i p := by
  rcases Relation.ReflTransGen.cases_tail h with he | ⟨p, hp, hc⟩
  · exact .inl he.symm
  · exact .inr ⟨p, hf.parent?_eq_some.mpr hc, hp⟩

/-- Links join nodes that are there, no node has two parents, and links run in no circle. -/
structure Linked (f : Forest) : Prop where
  arena : f.Arena
  single : f.Single
  live : ∀ {p c}, c ∈ f.children p → f.contains p ∧ f.contains c
  ranked : ∃ rank : NodeId → Nat, ∀ {p c}, c ∈ f.children p → rank p < rank c

namespace Linked

variable (h : f.Linked)

include h

theorem child (hp : f.parent? c = some p) : c ∈ f.children p :=
  h.single.parent?_eq_some.mp hp

theorem parent?_of_mem (hc : c ∈ f.children p) : f.parent? c = some p :=
  h.single.parent?_eq_some.mpr hc

theorem live_of_parent? (hp : f.parent? c = some p) : f.contains p ∧ f.contains c :=
  h.live (h.child hp)

theorem not_mem_children_self (i : NodeId) : i ∉ f.children i := by
  obtain ⟨rank, hrank⟩ := h.ranked
  exact fun hi => Nat.lt_irrefl _ (hrank hi)

theorem ne_parent (hp : f.parent? c = some p) : c ≠ p := fun he =>
  h.not_mem_children_self p (h.child (he ▸ hp))

theorem not_below_of_child (hc : c ∈ f.children p) : ¬ f.Below c p := by
  obtain ⟨rank, hrank⟩ := h.ranked
  intro hb
  have hle : ∀ j, f.Below c j → rank c ≤ rank j := by
    intro j hj
    induction hj with
    | refl => exact Nat.le_refl _
    | tail _ hstep ih => exact Nat.le_trans ih (Nat.le_of_lt (hrank hstep))
  exact Nat.lt_irrefl _ (Nat.lt_of_lt_of_le (hrank hc) (hle p hb))

theorem ne_grandparent {grand : NodeId} (hp : f.parent? i = some p)
    (hg : f.parent? p = some grand) : grand ≠ i := by
  rintro rfl
  exact h.not_below_of_child (h.child hp)
    ((Below.refl f grand).step (h.child hg))

theorem descend {P : NodeId → Prop}
    (hstep : ∀ i, (∀ p, f.parent? i = some p → P p) → P i) (i : NodeId) : P i := by
  obtain ⟨rank, hrank⟩ := h.ranked
  generalize hn : rank i = n
  induction n using Nat.strongRecOn generalizing i with
  | ind n ih => exact hstep i fun p hp => ih _ (hn ▸ hrank (h.child hp)) p rfl

theorem contains_of_below (hi : f.contains i) (hb : f.Below i c) : f.contains c := by
  rcases hb.cases_parent h.single with rfl | ⟨p, hp, -⟩
  · exact hi
  · exact (h.live_of_parent? hp).2

theorem eq_of_below_root (hc : f.parent? c = none) (hb : f.Below i c) : c = i := by
  rcases hb.cases_parent h.single with he | ⟨p, hp, -⟩
  · exact he.symm
  · cases hc.symm.trans hp

theorem below_up (c : NodeId) : f.Below i c ↔ i = c ∨ ∃ p, f.parent? c = some p ∧ f.Below i p := by
  refine ⟨Below.cases_parent h.single, ?_⟩
  rintro (rfl | ⟨p, hp, hb⟩)
  · exact .refl f i
  · exact hb.step (h.child hp)

theorem below_parent (hb : f.Below i c) (hne : i ≠ c) (hp : f.parent? c = some p) : f.Below i p := by
  obtain ⟨q, hq, hb⟩ := (hb.cases_parent h.single).resolve_left hne
  cases hp.symm.trans hq
  exact hb

theorem not_below_sibling (hi : f.parent? i = some p) (hj : f.parent? j = some p) (hne : i ≠ j) :
    ¬ f.Below j i := by
  intro hb
  exact h.not_below_of_child (h.child hj) (h.below_parent hb hne.symm hi)

theorem below_total (hi : f.Below i c) (hj : f.Below j c) : f.Below i j ∨ f.Below j i := by
  induction hi with
  | refl => exact .inr hj
  | @tail p c hip hc ih =>
    rcases Relation.ReflTransGen.cases_tail hj with rfl | ⟨q, hjq, hcq⟩
    · exact .inl (hip.tail hc)
    · have hq : q = p := Option.some.inj
        ((h.parent?_of_mem hcq).symm.trans (h.parent?_of_mem hc))
      exact ih (hq ▸ hjq)

theorem not_below_both (hi : f.parent? i = some p) (hj : f.parent? j = some p) (hne : i ≠ j)
    (hc : f.Below i c) : ¬ f.Below j c := by
  intro hc'
  rcases h.below_total hc hc' with hb | hb
  · exact h.not_below_sibling hj hi hne.symm hb
  · exact h.not_below_sibling hi hj hne hb

theorem children_eq_nil (hi : f.contains i = false) : f.children i = [] := by
  refine List.eq_nil_iff_forall_not_mem.mpr fun c hc => ?_
  rw [(h.live hc).1] at hi
  exact Bool.noConfusion hi

theorem parent?_eq_none_of_vacant (hi : f.contains i = false) : f.parent? i = none := by
  refine h.single.parent?_eq_none.mpr fun p hp => ?_
  rw [(h.live hp).2] at hi
  exact Bool.noConfusion hi

theorem mono (harena : g.Arena) (hsingle : g.Single)
    (hcontains : ∀ i, f.contains i → g.contains i)
    (hchildren : ∀ {p c}, c ∈ g.children p → c ∈ f.children p) : g.Linked := by
  obtain ⟨rank, hrank⟩ := h.ranked
  refine ⟨harena, hsingle, fun hc => ?_, rank, fun hc => hrank (hchildren hc)⟩
  exact ⟨hcontains _ (h.live (hchildren hc)).1, hcontains _ (h.live (hchildren hc)).2⟩

end Linked

theorem Arena.of_contents (h : f.Arena) (hfg : g.contents = f.contents) : g.Arena := by
  have hfree : g.free = f.free := by
    show g.contents.free = f.contents.free
    rw [hfg]
  have hslots : g.slots = f.slots := by
    show g.contents.slots = f.contents.slots
    rw [hfg]
  refine ⟨hfree ▸ h.nodup, fun i hi => ?_⟩
  rw [hslots, contains_of_contents hfg]
  exact h.vacant i (hfree ▸ hi)

theorem Linked.detach (h : f.Linked) (i : NodeId) : (f.detach i).Linked := by
  refine h.mono (h.arena.of_contents (contents_detach f i)) (h.single.detach i) (fun j hj => ?_) ?_
  · rwa [contains_of_contents (contents_detach f i)]
  · intro p c hc
    rw [h.single.children_detach] at hc
    exact List.mem_of_mem_erase hc

/-- A node without a parent may be linked below any node that is not below it. The nodes below it
are ranked behind its new parent. -/
theorem Linked.attach (h : f.Linked) (hroot : ∀ q, i ∉ f.children q) (hi : f.contains i)
    (hp : f.contains p) (hb : ¬ f.Below i p) (k : Option Nat) : (f.attach i p k).Linked := by
  classical
  refine ⟨h.arena.of_contents rfl, h.single.attach hroot p k, fun hc => ?_, ?_⟩
  · rw [contains_of_contents (contents_attach f i p k), contains_of_contents (contents_attach f i p k)]
    rcases mem_children_attach.mp hc with ⟨rfl, rfl⟩ | hc
    · exact ⟨hp, hi⟩
    · exact h.live hc
  · obtain ⟨rank, hrank⟩ := h.ranked
    refine ⟨fun j => if f.Below i j then rank j + rank p + 1 else rank j, ?_⟩
    intro q c hnew
    beta_reduce
    rcases mem_children_attach.mp hnew with ⟨rfl, rfl⟩ | hc
    · rw [if_neg hb, if_pos (Below.refl f c)]
      omega
    · have hlt := hrank hc
      by_cases hq : f.Below i q
      · rw [if_pos hq, if_pos (hq.step hc)]
        omega
      · have hnot : ¬ f.Below i c := by
          intro hbc
          rcases Relation.ReflTransGen.cases_tail hbc with rfl | ⟨q', hq', hc'⟩
          · exact hroot q hc
          · exact hq (h.single.unique hc' hc ▸ hq')
        rw [if_neg hq, if_neg hnot]
        exact hlt

/-! ### Moving a node -/

theorem contents_setParent (f : Forest) (i p : NodeId) : (f.setParent i p).contents = f.contents :=
  (contents_attach _ i p none).trans (contents_detach f i)

theorem sources_setParent (f : Forest) (i p : NodeId) :
    (f.setParent i p).sources = f.sources.filter (· != i) := by
  unfold setParent
  rw [sources_attach, sources_detach]

theorem Single.not_mem_children_detach (h : f.Single) (i q : NodeId) :
    i ∉ (f.detach i).children q := by
  rw [h.children_detach]
  exact (h.nodup_children q).not_mem_erase

theorem Single.mem_children_setParent (h : f.Single) :
    c ∈ (f.setParent i p).children q ↔ (c = i ∧ q = p) ∨ (c ≠ i ∧ c ∈ f.children q) := by
  unfold setParent
  rw [mem_children_attach, h.children_detach, (h.nodup_children q).mem_erase_iff]

theorem Below.of_detach (h : f.Single) (hb : (f.detach i).Below p q) : f.Below p q := by
  refine Below.mono (fun hc => ?_) hb
  rw [h.children_detach] at hc
  exact List.mem_of_mem_erase hc

theorem Linked.setParent (h : f.Linked) (hi : f.contains i) (hp : f.contains p)
    (hb : ¬ f.Below i p) : (f.setParent i p).Linked := by
  have hcontains := contains_of_contents (contents_detach f i)
  exact (h.detach i).attach (h.single.not_mem_children_detach i) (by rwa [hcontains])
    (by rwa [hcontains]) (fun hb' => hb (Below.of_detach h.single hb')) none

theorem Single.parent?_setParent (h : f.Single) (i p c : NodeId) :
    (f.setParent i p).parent? c = if c = i then some p else f.parent? c := by
  have hs : (f.setParent i p).Single :=
    (h.detach i).attach (h.not_mem_children_detach i) p none
  refine hs.parent?_eq fun q => ?_
  rw [h.mem_children_setParent]
  split
  · rename_i hc
    simp [hc, eq_comm]
  · rename_i hc
    simp [hc, h.parent?_eq_some]

end ChartPlan.Flow.Forest
