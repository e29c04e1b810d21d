import ChartPlan.Proofs.Flow.Check

/-!
# Walks over a linked forest

The walks over a forest stop at a depth that the number of slots gives. In a linked forest no path is
longer, so the bound is never felt.

* `Linked.mem_subtree`: the subtree of a node lists the nodes at and below it.
* `Linked.fits`: the slots bound every way down.
* `Linked.subtree_eq`: the subtree of a node is the node and the subtrees of its children.
-/

namespace ChartPlan.Flow.Forest

open List

variable {f : Forest} {i j r q : NodeId}

theorem mem_below_self (f : Forest) (n : Nat) (i : NodeId) : i ∈ f.below n i := by
  cases n with
  | zero => exact mem_singleton_self i
  | succ n => exact mem_cons_self

theorem mem_below_succ {n : Nat} :
    j ∈ f.below (n + 1) i ↔ j = i ∨ ∃ c ∈ f.children i, j ∈ f.below n c := by
  show j ∈ i :: (f.children i).flatMap (f.below n) ↔ _
  rw [mem_cons, mem_flatMap]

theorem mem_below_mono {n m : Nat} (hnm : n ≤ m) (h : j ∈ f.below n i) : j ∈ f.below m i := by
  induction n generalizing m i with
  | zero => exact mem_singleton.mp h ▸ mem_below_self f m i
  | succ n ih =>
    obtain ⟨m, rfl⟩ : ∃ k, m = k + 1 := ⟨m - 1, by omega⟩
    refine mem_below_succ.mpr ((mem_below_succ.mp h).imp_right ?_)
    rintro ⟨c, hc, hj⟩
    exact ⟨c, hc, ih (by omega) hj⟩

theorem below_of_mem_below {n : Nat} (h : j ∈ f.below n i) : f.Below i j := by
  induction n generalizing i with
  | zero => exact mem_singleton.mp h ▸ Below.refl f j
  | succ n ih =>
    rcases mem_below_succ.mp h with rfl | ⟨c, hc, hj⟩
    · exact Below.refl f j
    · exact Relation.ReflTransGen.head hc (ih hj)

theorem Linked.mem_below_of_below (h : f.Linked) {rank : NodeId → Nat}
    (hrank : ∀ {p c}, c ∈ f.children p → rank p < rank c) (hb : f.Below i j) :
    ∃ l : List NodeId, l.Nodup ∧ (∀ k ∈ l, f.contains k ∧ rank i < rank k) ∧
      j ∈ f.below l.length i := by
  induction hb using Relation.ReflTransGen.head_induction_on with
  | refl => exact ⟨[], nodup_nil, by simp, mem_below_self f 0 j⟩
  | @head i c hc _ ih =>
    obtain ⟨l, hnodup, hl, hj⟩ := ih
    refine ⟨c :: l, nodup_cons.mpr ⟨fun hm => ?_, hnodup⟩, fun k hk => ?_, ?_⟩
    · exact Nat.lt_irrefl _ (hl c hm).2
    · rcases mem_cons.mp hk with rfl | hk
      · exact ⟨(h.live hc).2, hrank hc⟩
      · exact ⟨(hl k hk).1, Nat.lt_trans (hrank hc) (hl k hk).2⟩
    · exact mem_below_succ.mpr (.inr ⟨c, hc, hj⟩)

theorem Linked.mem_subtree (h : f.Linked) : j ∈ f.subtree i ↔ f.Below i j := by
  refine ⟨below_of_mem_below, fun hb => ?_⟩
  obtain ⟨rank, hrank⟩ := h.ranked
  obtain ⟨l, hnodup, hl, hj⟩ := h.mem_below_of_below hrank hb
  exact mem_below_mono (length_le_slots hnodup fun k hk => (hl k hk).1) hj

/-! ### Roots -/

theorem Linked.root_unique (hf : f.Linked) (hr : f.parent? r = none) (hq : f.parent? q = none)
    (hri : f.Below r i) (hqi : f.Below q i) : r = q := by
  rcases hf.below_total hri hqi with hb | hb
  · exact (hf.eq_of_below_root hq hb).symm
  · exact hf.eq_of_below_root hr hb

/-! ### The depth of a walk -/

def Fits (f : Forest) : Nat → NodeId → Prop
  | 0, _ => False
  | fuel + 1, i => ∀ c ∈ f.children i, f.Fits fuel c

theorem Linked.chain_of_not_fits (hf : f.Linked) {rank : NodeId → Nat}
    (hrank : ∀ {p c}, c ∈ f.children p → rank p < rank c) {fuel : Nat} (h : ¬ f.Fits fuel i) :
    ∃ l : List NodeId, l.length = fuel ∧ l.Nodup ∧ ∀ k ∈ l, f.contains k ∧ rank i ≤ rank k := by
  induction fuel generalizing i with
  | zero => exact ⟨[], rfl, nodup_nil, by simp⟩
  | succ fuel ih =>
    obtain ⟨c, hc, hfits⟩ : ∃ c ∈ f.children i, ¬ f.Fits fuel c := by simpa [Fits] using h
    obtain ⟨l, hlength, hnodup, hl⟩ := ih hfits
    have hlt : rank i < rank c := hrank hc
    refine ⟨i :: l, by simp [hlength], nodup_cons.mpr ⟨fun hi => ?_, hnodup⟩, fun k hk => ?_⟩
    · exact absurd (hl i hi).2 (Nat.not_le.mpr hlt)
    · rcases mem_cons.mp hk with rfl | hk
      · exact ⟨(hf.live hc).1, Nat.le_refl _⟩
      · exact ⟨(hl k hk).1, Nat.le_trans (Nat.le_of_lt hlt) (hl k hk).2⟩

theorem Linked.fits (hf : f.Linked) (i : NodeId) : f.Fits (f.slots.length + 1) i := by
  by_contra h
  obtain ⟨rank, hrank⟩ := hf.ranked
  obtain ⟨l, hlength, hnodup, hl⟩ := hf.chain_of_not_fits hrank h
  have hle := length_le_slots hnodup fun k hk => (hl k hk).1
  omega

/-- What passes from the children of a node to the node holds of every node. -/
theorem Linked.up {P : NodeId → Prop} (hf : f.Linked)
    (hstep : ∀ i, (∀ c ∈ f.children i, P c) → P i) (i : NodeId) : P i := by
  suffices h : ∀ fuel i, f.Fits fuel i → P i from h _ i (hf.fits i)
  intro fuel
  induction fuel with
  | zero => exact fun _ hi => hi.elim
  | succ fuel ih => exact fun i hi => hstep i fun c hc => ih c (hi c hc)

theorem below_of_fits {n m : Nat} (hnm : n ≤ m) (h : f.Fits (n + 1) i) : f.below m i = f.below n i := by
  induction n generalizing m i with
  | zero =>
    have hnil : f.children i = [] := eq_nil_iff_forall_not_mem.mpr h
    cases m with
    | zero => rfl
    | succ m => simp [below, hnil]
  | succ n ih =>
    obtain ⟨m, rfl⟩ : ∃ k, m = k + 1 := ⟨m - 1, by omega⟩
    show i :: (f.children i).flatMap (f.below m) = i :: (f.children i).flatMap (f.below n)
    rw [flatMap_congr fun c hc => ih (by omega) (h c hc)]

theorem Linked.subtree_eq (hf : f.Linked) (i : NodeId) :
    f.subtree i = i :: (f.children i).flatMap f.subtree := by
  rw [subtree, ← below_of_fits (Nat.le_succ _) (hf.fits i)]
  rfl


end ChartPlan.Flow.Forest
