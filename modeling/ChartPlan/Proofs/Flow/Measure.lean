import ChartPlan.Proofs.Flow.Listing
import ChartPlan.Proofs.Flow.Pass.Optimize
import Mathlib

/-!
# A measure of what is left to do

Nodes move in both directions when the passes run, and a pass may add nodes. Four numbers tell that
the passes come to an end nevertheless: how much there is in the forest, how much of it is side by side,
how far coercions and bins still can rise, and how far coercions can rise above bins. A pass that changes
the forest makes one of them smaller and none of those before it larger.

* `Forest.total`: the sum of a quantity over the nodes.
* `Forest.sumAbove`: the sum of costs over the nodes above a node.
* `Forest.tally`: how many nodes of one kind are above nodes of another kind.
* `Forest.beside`: the weight of what is neither above nor below a node.
* `Forest.bulk`, `Forest.spread`, `Forest.delay`, `Forest.wait`: the four numbers.
* `Forest.rank`: the numbers in lexicographic order.
-/

namespace ChartPlan.Flow

open List

variable {f g : Forest} {i j p q c : NodeId}

/-! ### Sums over the nodes -/

namespace Forest

variable {value value' : NodeId → Node → Nat}

def share (f : Forest) (value : NodeId → Node → Nat) (i : NodeId) : Nat :=
  (f.node? i).elim 0 (value i)

theorem share_of_node? {n : Node} (h : f.node? i = some n) : f.share value i = value i n := by
  unfold share
  rw [h]
  rfl

theorem share_of_vacant (h : f.node? i = none) : f.share value i = 0 := by
  unfold share
  rw [h]
  rfl

theorem share_le_of_node? (hnode : g.node? i = f.node? i)
    (h : ∀ n, f.node? i = some n → value i n ≤ value' i n) :
    g.share value i ≤ f.share value' i := by
  cases hn : f.node? i with
  | none => exact Nat.le_of_eq ((share_of_vacant (hnode.trans hn)).trans (share_of_vacant hn).symm)
  | some n =>
    rw [share_of_node? (hnode.trans hn), share_of_node? hn]
    exact h n hn

def total (f : Forest) (value : NodeId → Node → Nat) : Nat :=
  ∑ i ∈ Finset.range f.slots.length, f.share value i

theorem total_eq_sum {slots : Finset NodeId} (h : Finset.range f.slots.length ⊆ slots) :
    f.total value = ∑ i ∈ slots, f.share value i := by
  refine Finset.sum_subset h fun i _ hi => share_of_vacant (node?_eq_none_of_le ?_)
  simpa using hi

theorem total_add_le {k : Nat} (nodes : List NodeId) (hnodup : nodes.Nodup)
    (hnodes : (nodes.map (g.share value)).sum + k ≤ (nodes.map (f.share value')).sum)
    (hothers : ∀ i, i ∉ nodes → g.share value i ≤ f.share value' i) :
    g.total value + k ≤ f.total value' := by
  let slots := Finset.range f.slots.length ∪ Finset.range g.slots.length ∪ nodes.toFinset
  have hsub : nodes.toFinset ⊆ slots := Finset.subset_union_right
  have hf : f.total value' = ∑ i ∈ slots, f.share value' i :=
    total_eq_sum (Finset.subset_union_left.trans Finset.subset_union_left)
  have hg : g.total value = ∑ i ∈ slots, g.share value i :=
    total_eq_sum (Finset.subset_union_right.trans Finset.subset_union_left)
  rw [hf, hg, ← Finset.sum_sdiff hsub, ← Finset.sum_sdiff hsub,
    sum_toFinset _ hnodup, sum_toFinset _ hnodup, Nat.add_assoc]
  refine Nat.add_le_add (Finset.sum_le_sum fun i hi => hothers i ?_) hnodes
  simpa using (Finset.mem_sdiff.mp hi).2

theorem total_le (h : ∀ i, g.share value i ≤ f.share value' i) : g.total value ≤ f.total value' :=
  total_add_le (k := 0) [] nodup_nil (Nat.le_refl 0) fun i _ => h i

theorem total_lt (hi : g.share value i < f.share value' i)
    (hothers : ∀ j, j ≠ i → g.share value j ≤ f.share value' j) : g.total value < f.total value' :=
  total_add_le (k := 1) [i] (nodup_singleton i) (by simpa [Nat.succ_le_iff] using hi)
    fun j hj => hothers j (by simpa using hj)

/-! ### Sums over the nodes above -/

def sumAbove (f : Forest) (cost : NodeId → Nat) (i : NodeId) : Nat :=
  ((f.above i).map cost).sum

theorem Linked.sumAbove_of_parent? (hf : f.Linked) (cost : NodeId → Nat) (hp : f.parent? i = some p) :
    f.sumAbove cost i = f.sumAbove cost p + cost p := by
  unfold sumAbove
  rw [hf.above_of_parent? hp, map_cons, sum_cons, Nat.add_comm]

theorem Linked.sumAbove_le (hg : g.Linked) (cost bound : NodeId → Nat)
    (hedge : ∀ p j, g.parent? j = some p → bound p + cost p ≤ bound j) (j : NodeId) :
    g.sumAbove cost j ≤ bound j := by
  refine hg.down (P := fun j => g.sumAbove cost j ≤ bound j) (fun i hroot => ?_) (fun i p hp ih => ?_) j
  · unfold sumAbove
    rw [above_of_parent?_eq_none hroot]
    exact Nat.zero_le _
  · rw [hg.sumAbove_of_parent? cost hp]
    exact (Nat.add_le_add_right ih _).trans (hedge p i hp)

def cost (f : Forest) (kind : Node → Bool) (i : NodeId) : Nat :=
  if f.holds i kind then 1 else 0

/-- How many pairs there are of a node that could rise and a node of some kind above it. -/
def tally (f : Forest) (rises kind : Node → Bool) : Nat :=
  f.total fun i n => if rises n then f.sumAbove (f.cost kind) i else 0

theorem total_const (f : Forest) (k : Nat) : (f.total fun _ _ => k) = f.size * k := by
  have hshare : ∀ i, f.share (fun _ _ => k) i = if f.contains i then k else 0 := fun i => by
    unfold share contains
    cases f.node? i <;> rfl
  have hlive : f.liveIds.toFinset = (Finset.range f.slots.length).filter fun i => f.contains i := by
    ext i
    simp [liveIds]
  have hnodup : f.liveIds.Nodup := nodup_range.filter _
  unfold total size
  rw [Finset.sum_congr rfl fun i _ => hshare i, Finset.sum_ite, Finset.sum_const_zero, Nat.add_zero,
    Finset.sum_const, ← hlive, toFinset_card_of_nodup hnodup, smul_eq_mul]

theorem size_eq_total (f : Forest) : f.size = f.total fun _ _ => 1 := by
  rw [total_const, Nat.mul_one]

theorem size_le_of_node? (h : ∀ i, g.node? i = f.node? i) : g.size ≤ f.size := by
  rw [size_eq_total, size_eq_total]
  exact total_le fun i => share_le_of_node? (h i) fun _ _ => Nat.le_refl 1

/-! ### The four numbers -/

end Forest

/-- How much a node weighs: the coercions that it does, its cuts and itself, or just itself. -/
def Node.weight : Node → Nat
  | .parse c => max 1 c.kinds.length
  | .timeUnit t => t.cuts.length + 1
  | _ => 1

theorem Node.weight_pos (n : Node) : 0 < n.weight := by
  cases n <;> simp [weight]

def Node.isFixed : Node → Bool
  | .parse _ | .bin _ => false
  | _ => true

namespace Forest

variable {n : Node}

def mass (f : Forest) (i : NodeId) : Nat :=
  f.share (fun _ n => n.weight) i

def bulk (f : Forest) : Nat :=
  f.total fun _ n => n.weight

/-- Whether two nodes are on one way down from a root. -/
def Aligned (f : Forest) (a b : NodeId) : Prop :=
  f.Below a b ∨ f.Below b a

theorem Aligned.symm {a b : NodeId} (h : f.Aligned a b) : f.Aligned b a :=
  Or.symm h

open Classical in
/-- How much a node weighs when it is not on a way down through another one. -/
noncomputable def apart (f : Forest) (i j : NodeId) : Nat :=
  if f.Aligned i j then 0 else f.mass j

noncomputable def beside (f : Forest) (i : NodeId) : Nat :=
  f.total fun j _ => f.apart i j

noncomputable def spread (f : Forest) : Nat :=
  f.total fun i _ => f.mass i * f.beside i

/-- How many nodes there are, and how much coercions and bins have above them that they could pass. -/
def delay (f : Forest) : Nat :=
  f.size + f.tally (fun n => !n.isFixed) Node.isFixed

/-- How many bins coercions have above them. -/
def wait (f : Forest) : Nat :=
  f.tally (fun n => n.parse?.isSome) Node.isBin

/-- What is left to do: how much there is, how much of it is side by side, and how far it can rise. -/
noncomputable def rank (f : Forest) : ℕ ×ₗ ℕ ×ₗ ℕ ×ₗ ℕ :=
  toLex (f.bulk, toLex (f.spread, toLex (f.delay, f.wait)))

theorem rank_lt_of_bulk (h : g.bulk < f.bulk) : g.rank < f.rank :=
  Prod.Lex.toLex_lt_toLex.mpr (.inl h)

theorem rank_lt_of_spread (hbulk : g.bulk ≤ f.bulk) (h : g.spread < f.spread) : g.rank < f.rank :=
  Prod.Lex.toLex_lt_toLex'.mpr ⟨hbulk, fun _ => Prod.Lex.toLex_lt_toLex.mpr (.inl h)⟩

theorem rank_lt_of_delay (hbulk : g.bulk ≤ f.bulk) (hspread : g.spread ≤ f.spread)
    (h : g.delay < f.delay ∨ g.delay ≤ f.delay ∧ g.wait < f.wait) : g.rank < f.rank := by
  refine Prod.Lex.toLex_lt_toLex'.mpr ⟨hbulk, fun _ => Prod.Lex.toLex_lt_toLex'.mpr ⟨hspread, fun _ => ?_⟩⟩
  rcases h with h | ⟨hle, h⟩
  · exact Prod.Lex.toLex_lt_toLex.mpr (.inl h)
  · exact Prod.Lex.toLex_lt_toLex'.mpr ⟨hle, fun _ => h⟩

/-! ### Lighter forests -/

theorem bulk_le_of_node? (h : ∀ i, g.node? i = f.node? i) : g.bulk ≤ f.bulk :=
  total_le fun i => share_le_of_node? (h i) fun _ _ => Nat.le_refl _

theorem bulk_lt_of_vacant (hn : f.node? i = some n) (hg : g.node? i = none)
    (hothers : ∀ j, j ≠ i → g.node? j = f.node? j) : g.bulk < f.bulk := by
  have hi : g.share (fun _ n => n.weight) i < f.share (fun _ n => n.weight) i := by
    rw [share_of_vacant hg, share_of_node? hn]
    exact n.weight_pos
  exact total_lt hi fun j hj => share_le_of_node? (hothers j hj) fun _ _ => Nat.le_refl _

theorem bulk_remove_lt (hn : f.node? i = some n) : (f.remove i).bulk < f.bulk :=
  bulk_lt_of_vacant hn (by rw [node?_remove, if_pos rfl]) fun j hj => by rw [node?_remove, if_neg hj]

theorem bulk_absorb_lt {keep : NodeId} (hn : f.node? i = some n) :
    (f.absorb keep i).bulk < f.bulk :=
  bulk_lt_of_vacant hn (by rw [node?_absorb, if_pos rfl]) fun j hj => by rw [node?_absorb, if_neg hj]

section

variable {keep : NodeId} {m r : Node} (hm : f.node? keep = some m) (hn : f.node? i = some n)
  (hr : r.weight < m.weight + n.weight)

include hm hn hr

theorem bulk_lt_of_join (hgi : g.node? i = none) (hkeep : keep ≠ i → g.node? keep = some r)
    (hothers : ∀ j, j ≠ i → j ≠ keep → g.node? j = f.node? j) : g.bulk < f.bulk := by
  by_cases hne : keep = i
  · exact bulk_lt_of_vacant hn hgi fun j hj => hothers j hj (hne ▸ hj)
  · refine total_add_le (k := 1) [keep, i] (by simpa using hne) ?_ fun j hj => ?_
    · simp only [map_cons, map_nil, sum_cons, sum_nil, share_of_node? hm,
        share_of_node? hn, share_of_node? (hkeep hne), share_of_vacant hgi]
      omega
    · rw [mem_pair, not_or] at hj
      exact share_le_of_node? (hothers j hj.2 hj.1) fun _ _ => Nat.le_refl _

theorem bulk_setNode_absorb_lt : ((f.setNode keep r).absorb keep i).bulk < f.bulk := by
  refine bulk_lt_of_join hm hn hr ?_ (fun hne => ?_) fun j hj hk => ?_
  · rw [node?_absorb, if_pos rfl]
  · rw [node?_absorb, if_neg hne, node?_setNode, if_pos rfl, hm]
    rfl
  · rw [node?_absorb, if_neg hj, node?_setNode, if_neg hk]

end

theorem bulk_setNode_lt {m r : Node} (hm : f.node? i = some m) (hr : r.weight < m.weight) :
    (f.setNode i r).bulk < f.bulk := by
  refine total_lt (i := i) ?_ fun j hj => share_le_of_node? ?_ fun _ _ => Nat.le_refl _
  · have hi : (f.setNode i r).node? i = some r := by
      rw [node?_setNode, if_pos rfl, hm]
      rfl
    rw [share_of_node? hi, share_of_node? hm]
    exact hr
  · rw [node?_setNode, if_neg hj]

/-! ### Moves -/

theorem cost_of_node? {kind : Node → Bool} (h : f.node? i = some n) :
    f.cost kind i = if kind n then 1 else 0 := by
  unfold cost
  rw [holds_of_node? h]

theorem cost_eq_of_node? (kind : Node → Bool) (h : ∀ i, g.node? i = f.node? i) :
    g.cost kind = f.cost kind := by
  funext i
  unfold cost holds
  rw [h]

section

variable {grand : NodeId} {m : Node} {rises kind : Node → Bool} (hf : f.Linked)
  (hp : f.parent? i = some p) (hgrand : f.parent? p = some grand)

include hf hp hgrand

/-- A node that costs nothing changes places with its parent: it loses what its parent costs. -/
theorem Linked.sumAbove_exchange_le {cost : NodeId → Nat} (hfree : cost i = 0) (j : NodeId) :
    (f.exchange i).2.sumAbove cost j ≤ if j = i then f.sumAbove cost p else f.sumAbove cost j := by
  obtain ⟨hlinked, hparent⟩ := hf.exchange hp hgrand
  have hpi : p ≠ i := Ne.symm (hf.ne_parent hp)
  have hgi : grand ≠ i := hf.ne_grandparent hp hgrand
  refine hlinked.sumAbove_le cost (fun j => if j = i then f.sumAbove cost p else f.sumAbove cost j)
    (fun q j hq => ?_) j
  rw [hparent] at hq
  split at hq
  · rename_i hj
    cases hq
    rw [if_pos rfl, hj, if_neg hpi, hfree, Nat.add_zero]
  · split at hq
    · rename_i hj
      cases hq
      rw [if_neg hgi, if_pos hj, hf.sumAbove_of_parent? cost hgrand]
    · rename_i hji
      rw [if_neg (c := j = i) hji]
      split at hq
      · rename_i hj
        cases hq
        rw [if_neg hpi, hf.sumAbove_of_parent? cost hj, hf.sumAbove_of_parent? cost hp]
        exact Nat.le_add_right _ _
      · rename_i hj
        rw [if_neg fun he : q = i => hj (he ▸ hq), hf.sumAbove_of_parent? cost hq]

variable (hn : f.node? i = some n) (hkind : kind n = false)

include hn hkind

theorem Linked.sumAbove_exchange_free (j : NodeId) :
    (f.exchange i).2.sumAbove ((f.exchange i).2.cost kind) j ≤
      if j = i then f.sumAbove (f.cost kind) p else f.sumAbove (f.cost kind) j := by
  rw [cost_eq_of_node? kind (node?_of_contents (hf.contents_exchange hp hgrand))]
  refine hf.sumAbove_exchange_le hp hgrand ?_ j
  rw [cost_of_node? hn, hkind]
  rfl

theorem Linked.share_exchange_le (j : NodeId) :
    (f.exchange i).2.share (fun k n => if rises n then
        (f.exchange i).2.sumAbove ((f.exchange i).2.cost kind) k else 0) j ≤
      f.share (fun k n => if rises n then f.sumAbove (f.cost kind) k else 0) j := by
  refine share_le_of_node? (node?_of_contents (hf.contents_exchange hp hgrand) j) fun _ _ => ?_
  have hle := hf.sumAbove_exchange_free hp hgrand hn hkind j
  split
  · split at hle
    · rename_i hj
      subst hj
      rw [hf.sumAbove_of_parent? _ hp]
      exact hle.trans (Nat.le_add_right _ _)
    · exact hle
  · exact Nat.le_refl 0

theorem Linked.tally_exchange_lt (hrises : rises n) (hm : f.node? p = some m) (hover : kind m) :
    (f.exchange i).2.tally rises kind < f.tally rises kind := by
  refine total_lt (i := i) ?_ fun j _ => hf.share_exchange_le hp hgrand hn hkind j
  have hself := hf.sumAbove_exchange_free hp hgrand hn hkind i
  rw [if_pos rfl] at hself
  rw [share_of_node? ((node?_of_contents (hf.contents_exchange hp hgrand) i).trans hn), share_of_node? hn,
    if_pos hrises, if_pos hrises, hf.sumAbove_of_parent? _ hp, cost_of_node? hm, if_pos hover]
  exact Nat.lt_succ_of_le hself

theorem Linked.tally_exchange_le : (f.exchange i).2.tally rises kind ≤ f.tally rises kind :=
  total_le fun j => hf.share_exchange_le hp hgrand hn hkind j

end

end Forest

/-! ### Nodes that become one -/

namespace Joined

open Forest

variable {keep other : NodeId} {a b merged : Node} {rises kind : Node → Bool}
  (h : Joined f g keep other merged) (hk : f.node? keep = some a) (hne : keep ≠ other)

include h hk hne

theorem size_lt (ho : f.node? other = some b) : g.size < f.size := by
  rw [size_eq_total, size_eq_total]
  refine total_lt (i := other) ?_ fun j hj => ?_
  · rw [share_of_vacant (by rw [h.node, if_pos rfl]), share_of_node? ho]
    exact Nat.one_pos
  · by_cases hjk : j = keep
    · rw [hjk, share_of_node? (h.node_keep hne), share_of_node? hk]
    · exact share_le_of_node? (h.node_of_ne hjk hj) fun _ _ => Nat.le_refl 1

/-- What was below the node that goes is now below the one that takes it over, which costs nothing. -/
theorem tally_le (hf : f.Linked) (hnear : f.Near keep other)
    (hrises : rises merged = rises a) (hkind : kind merged = false) :
    g.tally rises kind ≤ f.tally rises kind := by
  have hfree : g.cost kind keep = 0 := by
    rw [cost_of_node? (h.node_keep hne), hkind]
    rfl
  have hcost : ∀ j, g.cost kind j ≤ f.cost kind j := fun j => by
    by_cases hjk : j = keep
    · exact hjk ▸ hfree ▸ Nat.zero_le _
    · by_cases hjo : j = other
      · simp [cost, holds, h.node, hjo]
      · unfold cost holds
        rw [h.node_of_ne hjk hjo]
  have hkeep : f.sumAbove (f.cost kind) keep ≤ f.sumAbove (f.cost kind) other := by
    rcases hnear with hp | ⟨p, hkp, hop⟩
    · rw [hf.sumAbove_of_parent? _ hp]
      exact Nat.le_add_right _ _
    · rw [hf.sumAbove_of_parent? _ hkp, hf.sumAbove_of_parent? _ hop]
  have hle := h.linked.sumAbove_le (g.cost kind) (f.sumAbove (f.cost kind)) fun p j hp => by
    rw [h.parent] at hp
    split at hp
    · cases hp
    · split at hp
      · rename_i hjo
        cases hp
        rw [hfree, hf.sumAbove_of_parent? _ hjo]
        exact hkeep.trans (Nat.le_add_right _ _)
      · rw [hf.sumAbove_of_parent? _ hp]
        exact Nat.add_le_add_left (hcost p) _
  refine total_le fun j => ?_
  by_cases hjo : j = other
  · rw [share_of_vacant (by rw [h.node, if_pos hjo])]
    exact Nat.zero_le _
  · by_cases hjk : j = keep
    · rw [hjk, share_of_node? (h.node_keep hne), share_of_node? hk, hrises]
      split
      · exact hle keep
      · exact Nat.le_refl 0
    · refine share_le_of_node? (h.node_of_ne hjk hjo) fun n _ => ?_
      split
      · exact hle j
      · exact Nat.le_refl 0

end Joined

namespace Forest

variable {n : Node}

/-! ### Ways down -/

theorem mass_eq_zero (h : ¬ f.contains i) : f.mass i = 0 :=
  share_of_vacant (by simpa [contains] using h)

theorem mass_of_node? (h : f.node? i = some n) : f.mass i = n.weight :=
  share_of_node? h

theorem mass_pos (h : f.contains i) : 0 < f.mass i := by
  obtain ⟨n, hn⟩ := exists_node h
  exact mass_of_node? hn ▸ n.weight_pos

theorem mass_congr (h : g.node? i = f.node? i) : g.mass i = f.mass i := by
  unfold mass share
  rw [h]

theorem apart_eq_zero {i' : NodeId} (h : f.Aligned i i') : f.apart i i' = 0 :=
  if_pos h

theorem apart_eq_mass {i' : NodeId} (h : ¬ f.Aligned i i') : f.apart i i' = f.mass i' :=
  if_neg h

theorem apart_le_mass (f : Forest) (i j : NodeId) : f.apart i j ≤ f.mass j := by
  unfold apart
  split
  · exact Nat.zero_le _
  · exact Nat.le_refl _

theorem apart_le {i' : NodeId} (h : g.contains j → f.Aligned i' j → g.Aligned i j)
    (hmass : g.mass j ≤ f.mass j) : g.apart i j ≤ f.apart i' j := by
  by_cases hj : g.contains j ∧ ¬ g.Aligned i j
  · rw [apart_eq_mass hj.2, apart_eq_mass fun hf => hj.2 (h hj.1 hf)]
    exact hmass
  · have hzero : g.apart i j = 0 := by
      rcases not_and_or.mp hj with hdead | haligned
      · exact Nat.le_zero.mp (mass_eq_zero hdead ▸ g.apart_le_mass i j)
      · exact apart_eq_zero (not_not.mp haligned)
    exact hzero ▸ Nat.zero_le _

theorem share_apart (f : Forest) (i : NodeId) : f.share (fun j _ => f.apart i j) = f.apart i := by
  funext j
  unfold share
  cases hn : f.node? j with
  | none =>
    have hzero : f.mass j = 0 := share_of_vacant hn
    exact (Nat.le_zero.mp (hzero ▸ f.apart_le_mass i j)).symm
  | some n => rfl

theorem share_beside (f : Forest) :
    f.share (fun i _ => f.mass i * f.beside i) = fun i => f.mass i * f.beside i := by
  funext i
  unfold share
  cases hn : f.node? i with
  | none =>
    have hzero : f.mass i = 0 := share_of_vacant hn
    simp [hzero]
  | some n => rfl

theorem beside_le {i' : NodeId} (h : ∀ j, g.apart i j ≤ f.apart i' j) : g.beside i ≤ f.beside i' :=
  total_le fun j => by rw [share_apart, share_apart]; exact h j

section

variable {a b : NodeId} (hnode : ∀ i, g.node? i = f.node? i)
  (haligned : ∀ a b, f.Below a b → g.Aligned a b)

include hnode haligned

theorem apart_le_of_below (i j : NodeId) : g.apart i j ≤ f.apart i j :=
  apart_le (fun _ h => h.elim (haligned i j) fun h => (haligned j i h).symm)
    (Nat.le_of_eq (mass_congr (hnode j)))

theorem spread_le_of_below : g.spread ≤ f.spread :=
  total_le fun i => by
    simp only [share_beside, mass_congr (hnode i)]
    exact Nat.mul_le_mul_left _ (beside_le (apart_le_of_below hnode haligned i))

/-- Two nodes that were side by side come into line. -/
theorem spread_lt_of_below (ha : f.contains a) (hb : f.contains b) (hnot : ¬ f.Aligned a b)
    (hab : g.Aligned a b) : g.spread < f.spread := by
  have hlt : g.beside a < f.beside a := by
    refine total_lt (i := b) ?_ fun j _ => ?_
    · rw [share_apart, share_apart, apart_eq_zero hab, apart_eq_mass hnot]
      exact mass_pos hb
    · rw [share_apart, share_apart]
      exact apart_le_of_below hnode haligned a j
  refine total_lt (i := a) ?_ fun j _ => ?_
  · simp only [share_beside, mass_congr (hnode a)]
    exact Nat.mul_lt_mul_of_pos_left hlt (mass_pos ha)
  · simp only [share_beside, mass_congr (hnode j)]
    exact Nat.mul_le_mul_left _ (beside_le (apart_le_of_below hnode haligned j))

end

/-- Nodes give some of their weight to a node that is in line with all that is in line with one of
them. -/
structure Drains (f g : Forest) (target : NodeId) (nodes : List NodeId) : Prop where
  nodup : (target :: nodes).Nodup
  node : ∀ {j}, j ∉ target :: nodes → g.node? j = f.node? j
  less : ∀ {c}, c ∈ nodes → g.mass c ≤ f.mass c
  kept : g.mass target + (nodes.map g.mass).sum ≤ f.mass target + (nodes.map f.mass).sum
  live : g.contains target
  aligned : ∀ {x y}, g.contains x → g.contains y → f.Aligned x y → g.Aligned x y
  gathers : ∀ {x c}, c ∈ nodes → g.contains x → f.Aligned x c → g.Aligned x target

namespace Drains

variable {target : NodeId} {nodes : List NodeId} (h : Drains f g target nodes)

include h

theorem bulk_le : g.bulk ≤ f.bulk :=
  total_add_le (k := 0) (target :: nodes) h.nodup h.kept fun _ hj =>
    Nat.le_of_eq (mass_congr (h.node hj))

theorem beside_le (hi : g.contains i) : g.beside i ≤ f.beside i := by
  refine total_add_le (k := 0) (target :: nodes) h.nodup ?_ fun j hj => ?_
  · simp only [share_apart, map_cons, sum_cons, Nat.add_zero]
    by_cases htarget : g.Aligned i target
    · rw [apart_eq_zero htarget, Nat.zero_add]
      exact (sum_le_sum fun c hc => apart_le (h.aligned hi) (h.less hc)).trans
        (Nat.le_add_left _ _)
    · have hnot : ∀ c ∈ nodes, f.apart i c = f.mass c := fun c hc =>
        apart_eq_mass fun hf => htarget (h.gathers hc hi hf)
      rw [apart_eq_mass htarget, apart_eq_mass fun hf => htarget (h.aligned hi h.live hf),
        map_congr_left hnot]
      exact (Nat.add_le_add_left (sum_le_sum fun c _ => g.apart_le_mass i c) _).trans h.kept
  · rw [share_apart, share_apart]
    exact apart_le (h.aligned hi) (Nat.le_of_eq (mass_congr (h.node hj)))

theorem mul_beside_le (i : NodeId) : g.mass i * g.beside i ≤ g.mass i * f.beside i := by
  by_cases hlive : g.contains i
  · exact Nat.mul_le_mul_left _ (h.beside_le hlive)
  · rw [mass_eq_zero hlive, Nat.zero_mul, Nat.zero_mul]

theorem apart_target_le (hi : i = target ∨ i ∈ nodes) (j : NodeId) :
    g.apart target j ≤ f.apart i j := by
  by_cases hj : j = target
  · rw [hj, apart_eq_zero (.inl (.refl g target))]
    exact Nat.zero_le _
  · refine apart_le (fun hlive hf => ?_) ?_
    · rcases hi with rfl | hi
      · exact h.aligned h.live hlive hf
      · exact (h.gathers hi hlive hf.symm).symm
    · by_cases hmem : j ∈ nodes
      · exact h.less hmem
      · exact Nat.le_of_eq (mass_congr (h.node (by simp [hj, hmem])))

/-- What a node gives away is afterwards in line with more. -/
theorem spread_add_le {k : Nat} (hk : k = 0 ∨ f.mass target < g.mass target)
    (hbeside : ∀ c ∈ nodes, g.beside target + k ≤ f.beside c) : g.spread + k ≤ f.spread := by
  refine total_add_le (target :: nodes) h.nodup ?_ fun j hj => ?_
  · simp only [share_beside, map_cons, sum_cons]
    have hsum : (nodes.map fun c => g.mass c * g.beside c).sum +
        (nodes.map f.mass).sum * (g.beside target + k) ≤
          (nodes.map fun c => f.mass c * f.beside c).sum +
            (nodes.map g.mass).sum * (g.beside target + k) := by
      rw [← sum_map_mul_right, ← sum_map_mul_right, ← sum_map_add, ← sum_map_add]
      refine sum_le_sum fun c hc => ?_
      obtain ⟨d, hd⟩ := Nat.exists_eq_add_of_le (h.less hc)
      have hle := h.mul_beside_le c
      have hdrained := Nat.mul_le_mul_left d (hbeside c hc)
      rw [hd, Nat.add_mul, Nat.add_mul]
      omega
    have htarget := Nat.mul_le_mul_left (f.mass target) (Forest.beside_le (h.apart_target_le (.inl rfl)))
    have hkept := h.kept
    obtain ⟨d, hd⟩ := Nat.exists_eq_add_of_le
      (sum_le_sum fun c hc => h.less hc : (nodes.map g.mass).sum ≤ (nodes.map f.mass).sum)
    rw [hd] at hsum hkept
    have hgained : g.mass target * g.beside target ≤ (f.mass target + d) * g.beside target :=
      Nat.mul_le_mul_right _ (by omega)
    have hdrained : k ≤ d * k := by
      rcases hk with rfl | hlt
      · exact Nat.zero_le _
      · exact Nat.le_mul_of_pos_left k (by omega)
    simp only [Nat.add_mul, Nat.mul_add] at hsum hgained
    omega
  · simp only [share_beside, ← mass_congr (h.node hj)]
    exact h.mul_beside_le j

end Drains

theorem Linked.aligned_exchange (hf : f.Linked) (hp : f.parent? i = some p) {grand : NodeId}
    (hgrand : f.parent? p = some grand) (a b : NodeId) (h : f.Below a b) :
    (f.exchange i).2.Aligned a b := by
  rcases hf.below_exchange hp hgrand h with hb | ⟨rfl, rfl⟩
  · exact .inl hb
  · obtain ⟨hlinked, hparent⟩ := hf.exchange hp hgrand
    exact .inr ((Below.refl _ b).step (hlinked.child (by rw [hparent, if_pos rfl])))

section

variable (hf : f.Planted) (hp : f.parent? i = some p)

include hf hp

/-- A coercion or a bin rises above a node that is neither, or a coercion above a bin. -/
theorem Planted.rank_exchange_lt {grand : NodeId} {m : Node} (hgrand : f.parent? p = some grand)
    (hn : f.node? i = some n) (hm : f.node? p = some m) (hloose : n.isFixed = false)
    (h : m.isFixed ∨ n.parse?.isSome ∧ m.isBin) : (f.exchange i).2.rank < f.rank := by
  have hnode := node?_of_contents (hf.contents_exchange hp hgrand)
  have hsize := size_le_of_node? hnode
  refine rank_lt_of_delay (bulk_le_of_node? hnode)
    (spread_le_of_below hnode (hf.aligned_exchange hp hgrand))
    (h.imp (fun hfixed => ?_) fun ⟨hparse, hbin⟩ => ⟨?_, ?_⟩)
  · exact Nat.add_lt_add_of_le_of_lt hsize
      (hf.tally_exchange_lt hp hgrand hn hloose (by simp [hloose]) hm hfixed)
  · exact Nat.add_le_add hsize (hf.tally_exchange_le hp hgrand hn hloose)
  · exact hf.tally_exchange_lt hp hgrand hn
      (by cases n <;> first | rfl | cases hparse) hparse hm hbin

theorem Planted.rank_merge_lt {c t m : Coercion}
    (hn : f.node? i = some (.parse c)) (ht : f.node? p = some (.parse t))
    (hm : m.kinds.length ≤ t.kinds.length + c.kinds.length) :
    ((f.setNode p (.parse m)).remove i).rank < f.rank := by
  have hip : i ≠ p := hf.ne_parent hp
  have hset : (f.setNode p (.parse m)).Linked := hf.toLinked.modify p _
  have hjoined := hf.joined_merge hp ht (.parse m)
  have hbelow : ∀ {x y}, x ≠ i → y ≠ i → f.Below x y →
      ((f.setNode p (.parse m)).remove i).Below x y := fun hx hy hxy =>
    (hset.below_remove_iff hx hy).mpr hxy
  generalize (f.setNode p (.parse m)).remove i = g at hjoined hbelow
  have hgi : g.node? i = none := by rw [hjoined.node, if_pos rfl]
  have hgp := hjoined.node_keep (Ne.symm hip)
  have hnodup : [p, i].Nodup := by simpa using Ne.symm hip
  have hweight : (Node.parse m).weight ≤ (Node.parse t).weight + (Node.parse c).weight := by
    simp only [Node.weight]
    omega
  have hne : ∀ {x}, g.contains x → x ≠ i := by
    rintro x hx rfl
    simp [contains, hgi] at hx
  have hdrains : Drains f g p [i] := by
    refine ⟨hnodup, fun hj => ?_, fun hc => ?_, ?_, contains_of_node? hgp, ?_, ?_⟩
    · obtain ⟨hjp, hji⟩ := not_or.mp (mt mem_pair.mpr hj)
      exact hjoined.node_of_ne hjp hji
    · rw [mem_singleton.mp hc, mass_eq_zero (by simp [contains, hgi])]
      exact Nat.zero_le _
    · simpa [mass, share_of_node? hgp, share_of_vacant hgi, share_of_node? ht, share_of_node? hn]
        using hweight
    · exact fun hx hy hxy => hxy.imp (hbelow (hne hx) (hne hy)) (hbelow (hne hy) (hne hx))
    · intro x c hc hx hxc
      rw [mem_singleton.mp hc] at hxc
      refine hxc.imp (fun hxi => ?_) fun hix => ?_
      · exact hbelow (hne hx) (Ne.symm hip) (hf.below_parent hxi (hne hx) hp)
      · exact hbelow (Ne.symm hip) (hne hx) (((Below.refl f p).step (hf.child hp)).trans hix)
  refine rank_lt_of_delay hdrains.bulk_le (hdrains.spread_add_le (k := 0) (.inl rfl) fun c hc =>
    beside_le (hdrains.apart_target_le (.inr hc))) (.inl ?_)
  exact Nat.add_lt_add_of_lt_of_le (hjoined.size_lt ht (Ne.symm hip) hn)
    (hjoined.tally_le ht (Ne.symm hip) hf.toLinked (.inl hp) rfl rfl)

end

end Forest

end ChartPlan.Flow
