import ChartPlan.Proofs.Flow.History
import ChartPlan.Proofs.Flow.Path

/-!
# The nodes in order

The nodes of a forest are listed root by root, a node before what is below it and children in order.

* `preorder_of_check`: a forest that passes the check lists each of its nodes once, parents before
  children and children by their places.
* `splicing_laws`: a removed node goes out of the list and nothing else moves, and what is inserted or
  unlinked can be undone exactly.
-/

namespace ChartPlan.Flow.Forest

open List

variable {f : Forest} {i p c x : NodeId} {l r xs ys : List NodeId}

/-! ### Every node once -/

/-- Two roots, and below the first a node with two children and a node without. -/
def twoTrees : Forest where
  slots := List.replicate 2 (some (.source .empty)) ++ List.replicate 5 (some .identifier)
  edges := [⟨1, 6, 0⟩, ⟨0, 5, 1⟩, ⟨2, 4, 1⟩, ⟨2, 3, 0⟩, ⟨0, 2, 0⟩]
  sources := [0, 1]

theorem idxOf_split (h : x ∉ l) : (l ++ x :: r).idxOf x = l.length := by
  rw [idxOf_append_of_notMem h, idxOf_cons_self, Nat.add_zero]

theorem splice_erase_idxOf (h : x ∉ l) (ys : List NodeId) :
    splice ((l ++ x :: r).erase x) ((l ++ x :: r).idxOf x) ys = l ++ (ys ++ r) := by
  rw [idxOf_split h, erase_append_right _ h, erase_cons_head, splice, take_left, drop_left,
    append_assoc]

theorem exists_split (hx : x ∈ xs) (hnodup : xs.Nodup) :
    ∃ l r, xs = l ++ x :: r ∧ x ∉ l ∧ x ∉ r := by
  obtain ⟨l, r, rfl⟩ := append_of_mem hx
  rw [nodup_middle, nodup_cons, mem_append, not_or] at hnodup
  exact ⟨l, r, rfl, hnodup.1⟩

/-- In lists that are laid out one behind the other, a node that goes is replaced by the nodes that
follow it in its own list. -/
theorem flatMap_splice {F G : NodeId → List NodeId} (hx : x ∈ xs) (hnodup : xs.Nodup)
    (hF : F x = x :: ys.flatMap F)
    (hG : ∀ i, (i ∈ xs ∧ i ≠ x) ∨ i ∈ ys → G i = (F i).filter (· != x)) :
    (splice (xs.erase x) (xs.idxOf x) ys).flatMap G = (xs.flatMap F).filter (· != x) := by
  obtain ⟨l, r, rfl, hl, hr⟩ := exists_split hx hnodup
  rw [splice_erase_idxOf hl]
  calc (l ++ (ys ++ r)).flatMap G
      = (l ++ (ys ++ r)).flatMap fun i => (F i).filter (· != x) := by
        refine flatMap_congr fun i hi => hG i ?_
        rcases mem_append.mp hi with hi | hi
        · exact .inl ⟨mem_append_left _ hi, fun he => hl (he ▸ hi)⟩
        · rcases mem_append.mp hi with hi | hi
          · exact .inr hi
          · exact .inl ⟨mem_append_right _ (mem_cons_of_mem x hi), fun he => hr (he ▸ hi)⟩
    _ = ((l ++ x :: r).flatMap F).filter (· != x) := by
        simp [hF, filter_flatMap]

theorem Linked.subtree_remove (hf : f.Linked) (hi : i ≠ x) :
    (f.remove x).subtree i = (f.subtree i).filter (· != x) := by
  refine hf.up (P := fun i => ∀ j, f.Below i j → j ≠ x →
    (f.remove x).subtree j = (f.subtree j).filter (· != x)) (fun i ih j hb hj => ?_) i i (.refl f i) hi
  rcases below_iff.mp hb with rfl | ⟨c, hc, hb⟩
  · rw [(hf.remove x).subtree_eq, hf.subtree_eq j, filter_cons_of_pos (by simpa using hj),
      hf.children_remove, if_neg hj]
    congr 1
    split
    · rename_i hp
      have hx : x ∈ f.children j := hf.child hp
      refine flatMap_splice hx (hf.single.nodup_children j) (hf.subtree_eq x) fun c hc => ?_
      rcases hc with ⟨hc, hne⟩ | hc
      · exact ih c hc c (.refl f c) hne
      · exact ih x hx c ((Below.refl f x).step hc) fun he => hf.not_mem_children_self x (he ▸ hc)
    · rename_i hp
      rw [filter_flatMap]
      refine flatMap_congr fun c hc => ih c hc c (.refl f c) fun he => ?_
      exact hp (hf.parent?_of_mem (he ▸ hc))
  · exact ih c hc j hb hj

theorem Linked.below_remove_iff (hf : f.Linked) {a b : NodeId} (ha : a ≠ x) (hb : b ≠ x) :
    (f.remove x).Below a b ↔ f.Below a b := by
  rw [← (hf.remove x).mem_subtree, hf.subtree_remove ha, mem_filter, hf.mem_subtree]
  simp [hb]

theorem sources_remove_root (hs : f.Single) (hp : f.parent? x = none) (hx : x ∈ f.sources)
    (hnodup : f.sources.Nodup) :
    (f.remove x).sources = splice (f.sources.erase x) (f.sources.idxOf x) (f.children x) := by
  rw [sources_remove, hs.sources_unwrap, hp, hnodup.erase_eq_filter, idxOf?_of_mem hx]
  rfl

theorem Valid.preorder_remove (hf : f.Valid) (hnodup : f.sources.Nodup) (hx : f.contains x) :
    (f.remove x).preorder = f.preorder.filter (· != x) := by
  unfold preorder
  cases hp : f.parent? x with
  | none =>
    have hroot : x ∈ f.sources := hf.mem_sources.mpr ⟨hx, hp⟩
    rw [sources_remove_root hf.single hp hroot hnodup]
    refine flatMap_splice hroot hnodup (hf.subtree_eq x) fun i hi => hf.subtree_remove ?_
    rcases hi with ⟨-, hne⟩ | hi
    · exact hne
    · exact fun he => hf.not_mem_children_self x (he ▸ hi)
  | some p =>
    rw [sources_remove, hf.single.sources_unwrap, hp, filter_flatMap]
    refine flatMap_congr fun i hi => hf.subtree_remove fun he => ?_
    exact hf.not_mem_sources (hf.child hp) (he ▸ hi)

/-! ### Insertion and unlinking undone -/

/-- A node that is linked where another one was unlinked stands between the same neighbours. -/
theorem Single.exists_place (h : f.Single) (hp : f.parent? i = some p) :
    ∃ l r, f.children p = l ++ i :: r ∧ ∀ c q,
      ((f.detach i).attach c p (some ((f.children p).idxOf i))).children q =
        if q = p then l ++ c :: r else f.children q := by
  have hmem : i ∈ f.children p := h.parent?_eq_some.mp hp
  obtain ⟨l, r, hl, hil, -⟩ := exists_split hmem (h.nodup_children p)
  refine ⟨l, r, hl, fun c q => ?_⟩
  rw [children_attach, h.children_detach, h.children_detach]
  split
  · have hle : (f.children p).idxOf i ≤ ((f.children p).erase i).length := by
      rw [length_erase_of_mem hmem]
      exact Nat.le_sub_one_of_lt (idxOf_lt_length_of_mem hmem)
    rw [Option.getD_some, Nat.min_eq_left hle, hl, splice_erase_idxOf hil]
    rfl
  · rename_i hq
    exact erase_of_not_mem fun hi => hq (h.unique hi hmem)

theorem Single.children_attach_detach (h : f.Single) {k : Nat} (hi : f.place? i = some (p, k))
    (q : NodeId) : ((f.detach i).attach i p (some k)).children q = f.children q := by
  rw [h.place?_eq] at hi
  obtain ⟨p', hp, heq⟩ := Option.map_eq_some_iff.mp hi
  cases heq
  obtain ⟨l, r, hl, hchildren⟩ := h.exists_place hp
  rw [hchildren]
  split
  · rename_i hq
    rw [hq, hl]
  · rfl

theorem Linked.insertAbove_root (hf : f.Linked) (hp : f.parent? i = none) :
    f.insertAbove c i = (f.replaceRoot i c).attach i c none := by
  unfold Forest.insertAbove
  rw [hf.single.place?_eq, hp]
  rfl

theorem Linked.children_insertAbove_self (hf : f.Linked) (hc : f.Loose c) (hi : f.contains i)
    (hne : c ≠ i) : (f.insertAbove c i).children c = [i] := by
  obtain ⟨hlinked, hparent⟩ := hf.insertAbove hc hi hne
  have hno : ∀ j, f.parent? j ≠ some c := fun j hj => by simpa [hc.childless] using hf.child hj
  have hperm : ((f.insertAbove c i).children c).Perm [i] := by
    refine (perm_ext_iff_of_nodup (hlinked.single.nodup_children c) (by simp)).mpr fun j => ?_
    rw [← hlinked.single.parent?_eq_some, hparent, mem_singleton]
    by_cases hj : j = i
    · simp [hj]
    · by_cases hjc : j = c <;> simp [hj, hjc, hno]
  exact perm_singleton.mp hperm

theorem Linked.children_remove_insertAbove (hf : f.Linked) (hc : f.Loose c) (hi : f.contains i)
    (hne : c ≠ i) (q : NodeId) : ((f.insertAbove c i).remove c).children q = f.children q := by
  obtain ⟨hlinked, hparent⟩ := hf.insertAbove hc hi hne
  rw [hlinked.children_remove, hparent, if_neg hne, if_pos rfl]
  split
  · rename_i hq
    rw [hq, hc.childless]
  · rename_i hq
    cases hp : f.parent? i with
    | none =>
      rw [if_neg (by simp), hf.insertAbove_root hp, children_attach, if_neg hq,
        children_congr (edges_replaceRoot f i c)]
    | some p =>
      obtain ⟨l, r, hl, hchildren⟩ := hf.single.exists_place hp
      have hsame : (f.insertAbove c i).children q = if q = p then l ++ c :: r else f.children q := by
        rw [hf.insertAbove_eq hp, children_attach, if_neg hq, hchildren]
      have hcl : c ∉ l := fun h => hf.single.parent?_eq_none.mp hc.parentless p
        (hl ▸ mem_append_left _ h)
      rw [hf.children_insertAbove_self hc hi hne, hsame]
      by_cases hqp : q = p
      · subst hqp
        rw [if_pos rfl, if_pos rfl, splice_erase_idxOf hcl, hl]
        rfl
      · rw [if_neg fun he => hqp (Option.some.inj he).symm, if_neg hqp]

theorem ValidBut.sources_remove_insertAbove (hf : f.ValidBut [c]) (hc : f.Loose c)
    (hi : f.contains i) (hne : c ≠ i) (hnodup : f.sources.Nodup) :
    ((f.insertAbove c i).remove c).sources = f.sources := by
  have hcs : c ∉ f.sources := fun h => (hf.roots.mp h).2.2 mem_cons_self
  obtain ⟨hlinked, hparent⟩ := hf.toLinked.insertAbove hc hi hne
  cases hp : f.parent? i with
  | some p =>
    rw [sources_remove, hlinked.single.sources_unwrap, hparent, if_neg hne, if_pos rfl, hp,
      hf.insertAbove_eq hp, sources_attach, sources_attach, sources_detach, filter_filter]
    refine filter_eq_self.mpr fun j hj => ?_
    have hji : j ≠ i := fun he => hf.not_mem_sources (hf.child hp) (he ▸ hj)
    have hjc : j ≠ c := fun he => hcs (he ▸ hj)
    simp [hji, hjc]
  | none =>
    have hroot : i ∈ f.sources := hf.roots.mpr ⟨hi, hp, by simpa using hne.symm⟩
    obtain ⟨l, r, hl, hil, hir⟩ := exists_split hroot hnodup
    have hcl : c ∉ l := fun h => hcs (hl ▸ mem_append_left _ h)
    have hsources : (f.insertAbove c i).sources = l ++ c :: r := by
      rw [hf.insertAbove_root hp, sources_attach, replaceRoot, idxOf?_of_mem hroot]
      show (f.sources.set (f.sources.idxOf i) c).filter (· != i) = l ++ c :: r
      rw [hl, idxOf_split hil, set_append_right _ _ (Nat.le_refl _), Nat.sub_self, set_cons_zero]
      refine filter_eq_self.mpr fun j hj => bne_iff_ne.mpr fun he => ?_
      simp [he, hil, hir, hne.symm] at hj
    have hcp : (f.insertAbove c i).parent? c = none := by rw [hparent, if_neg hne, if_pos rfl, hp]
    rw [sources_remove_root hlinked.single hcp (by simp [hsources])
      (nodup_sources_insertAbove hnodup hcs i), hf.children_insertAbove_self hc hi hne, hsources,
      splice_erase_idxOf hcl, hl]
    rfl

/-- What the moves do to the order of nodes, in every valid forest. -/
theorem splicing_laws (hf : f.Valid) (hnodup : f.sources.Nodup) :
    (∀ x, f.contains x → (f.remove x).preorder = f.preorder.filter (· != x) ∧
      ∀ a b, a ≠ x → b ≠ x → ((f.remove x).Below a b ↔ f.Below a b)) ∧
    (∀ n child, f.contains child →
      (∀ q, (((f.store n).1.insertAbove (f.store n).2 child).remove (f.store n).2).children q =
        f.children q) ∧
      (((f.store n).1.insertAbove (f.store n).2 child).remove (f.store n).2).sources = f.sources) ∧
    ∀ i p k, f.place? i = some (p, k) →
      ∀ q, ((f.detach i).attach i p (some k)).children q = f.children q := by
  refine ⟨fun x hx => ⟨hf.preorder_remove hnodup hx, fun a b ha hb => hf.below_remove_iff ha hb⟩,
    fun n child hchild => ?_, fun i p k hi => hf.single.children_attach_detach hi⟩
  have hstored := hf.store n
  have hloose := hf.loose_store n
  have hlive : (f.store n).1.contains child := by
    rw [hf.arena.contains_store, hchild, Bool.or_true]
  have hne : (f.store n).2 ≠ child := fun he => by
    simpa [he, hchild] using hf.arena.fresh_store n
  refine ⟨fun q => ?_, ?_⟩
  · rw [hstored.children_remove_insertAbove hloose hlive hne,
      children_congr (edges_store f n)]
  · rw [hstored.sources_remove_insertAbove hloose hlive hne (by rwa [sources_store]), sources_store]

theorem splicing_twoTrees : twoTrees.preorder = [0, 2, 3, 4, 5, 1, 6] ∧
    (twoTrees.remove 0).preorder = [2, 3, 4, 5, 1, 6] ∧
    (twoTrees.remove 2).preorder = [0, 3, 4, 5, 1, 6] ∧
    (∀ q, (((twoTrees.store .identifier).1.insertAbove 7 1).remove 7).children q =
      twoTrees.children q) ∧
    ∀ q, ((twoTrees.detach 3).attach 3 2 (some 0)).children q = twoTrees.children q := by
  have hvalid : twoTrees.Valid := (Graph.check_eq_ok_iff (f := twoTrees)
    ⟨⟨by decide, by decide⟩, by decide⟩ (by decide)).mp rfl
  obtain ⟨hremove, hinsert, hdetach⟩ := splicing_laws hvalid (by decide)
  exact ⟨by decide, (hremove 0 (by decide)).1.trans (by decide),
    (hremove 2 (by decide)).1.trans (by decide), (hinsert .identifier 1 (by decide)).1,
    hdetach 3 2 0 (by decide)⟩

end ChartPlan.Flow.Forest
