import ChartPlan.Proofs.Flow.Sound

/-!
# Moves that reshape a forest

The moves of a forest are removal, taking over the children of a node, exchange with the parent, and
insertion above a node. For each of them this file says which node is whose parent afterwards, and
that links stay sound:

* `Linked.remove`, `Linked.parent?_remove`: the children of a removed node go to its parent;
* `Linked.absorb`, `Linked.parent?_absorb`: the children of one node go to another;
* `Linked.swapWithParent`: when there is a grandparent, the exchange succeeds;
* `Linked.insertAbove`: a node that is not linked may stand above any other.
-/

namespace ChartPlan.Flow.Forest

open List

variable {f g : Forest} {i j p q c : NodeId}

/-! ### Emptying a slot -/

theorem node?_clear (f : Forest) (i j : NodeId) :
    (f.clear i).node? j = if j = i then none else f.node? j := by
  unfold clear
  split
  · rename_i hi
    simp only [node?, List.getElem?_set]
    by_cases hj : j = i
    · subst hj
      simp [lt_of_contains hi]
    · simp [hj, Ne.symm hj]
  · rename_i hi
    split
    · rename_i hj
      subst hj
      simpa [contains] using hi
    · rfl

theorem Arena.clear (h : f.Arena) (i : NodeId) : (f.clear i).Arena := by
  unfold Forest.clear
  split
  · rename_i hi
    have hnot : i ∉ f.free := fun hmem => by simp [(h.vacant i hmem).2] at hi
    refine ⟨nodup_cons.mpr ⟨hnot, h.nodup⟩, fun j hj => ?_⟩
    have hnode := node?_clear f i j
    unfold Forest.clear at hnode
    rw [if_pos hi] at hnode
    rcases mem_cons.mp hj with rfl | hj
    · refine ⟨by simpa using lt_of_contains hi, ?_⟩
      unfold contains
      rw [hnode]
      simp
    · refine ⟨by simpa using (h.vacant j hj).1, ?_⟩
      have hvacant := (h.vacant j hj).2
      unfold contains at hvacant ⊢
      rw [hnode]
      split <;> simp_all
  · exact h

theorem outgoing_clear (hi : ∀ q, i ∉ f.children q)
    (hvacant : f.contains i = false → f.children i = []) (q : NodeId) :
    (f.clear i).outgoing q = if q = i then [] else f.outgoing q := by
  have hchild : ∀ e ∈ f.edges, e.child ≠ i := fun e he hc =>
    hi e.parent (mem_children.mpr ⟨e, he, rfl, hc⟩)
  unfold clear
  split
  · unfold outgoing
    simp only [filter_filter]
    split
    · rename_i hq
      subst hq
      refine filter_eq_nil_iff.mpr fun e _ => ?_
      by_cases hp : e.parent = q <;> simp [hp]
    · rename_i hq
      refine filter_congr fun e he => ?_
      by_cases hp : e.parent = q
      · simp [hp, hq, hchild e he]
      · simp [hp]
  · rename_i hc
    split
    · rename_i hq
      subst hq
      have hnil : (f.children q).length = 0 := by
        rw [hvacant (by simpa using hc)]
        rfl
      rw [length_children] at hnil
      exact length_eq_zero_iff.mp hnil
    · rfl

theorem contents_unwrap (f : Forest) (i : NodeId) : (f.unwrap i).contents = f.contents := by
  unfold unwrap
  cases f.place? i with
  | none => rfl
  | some at_ => exact contents_detach f i

/-! ### Removal -/

theorem Single.children_unwrap (h : f.Single) (i q : NodeId) :
    (f.unwrap i).children q = if f.parent? i = some q then
      splice ((f.children q).erase i) ((f.children q).idxOf i) (f.children i)
      else f.children q := by
  unfold unwrap
  rw [h.place?_eq]
  cases hp : f.parent? i with
  | none => rfl
  | some p =>
    have hmem : i ∈ f.children p := h.parent?_eq_some.mp hp
    show ((f.detach i).setChildren p _).children q = _
    rw [children_setChildren, h.children_detach, h.children_detach]
    by_cases hq : q = p
    · subst hq
      simp
    · rw [if_neg hq, if_neg fun he => hq (Option.some.inj he).symm]
      exact erase_of_not_mem fun hi => hq (h.unique hi hmem)

theorem Linked.not_mem_children_unwrap (h : f.Linked) (i q : NodeId) :
    i ∉ (f.unwrap i).children q := by
  rw [h.single.children_unwrap]
  split
  · rw [mem_splice]
    rintro (hi | hi)
    · exact (h.single.nodup_children q).not_mem_erase hi
    · exact h.not_mem_children_self i hi
  · rename_i hp
    exact fun hi => hp (h.parent?_of_mem hi)

theorem Linked.outgoing_remove (h : f.Linked) (i q : NodeId) :
    (f.remove i).outgoing q = if q = i then [] else (f.unwrap i).outgoing q := by
  refine outgoing_clear (h.not_mem_children_unwrap i) (fun hc => ?_) q
  rw [contains_of_contents (contents_unwrap f i)] at hc
  rw [h.single.children_unwrap, h.parent?_eq_none_of_vacant hc, if_neg (by simp)]
  exact h.children_eq_nil hc

theorem Linked.children_remove (h : f.Linked) (i q : NodeId) :
    (f.remove i).children q = if q = i then []
      else if f.parent? i = some q then
        splice ((f.children q).erase i) ((f.children q).idxOf i) (f.children i)
      else f.children q := by
  rw [← h.single.children_unwrap]
  unfold children
  rw [h.outgoing_remove]
  split <;> rfl

theorem Linked.mem_children_remove (h : f.Linked) : c ∈ (f.remove i).children q ↔
    q ≠ i ∧ c ≠ i ∧ (c ∈ f.children q ∨ i ∈ f.children q ∧ c ∈ f.children i) := by
  rw [h.children_remove, ← h.single.parent?_eq_some (c := i)]
  by_cases hq : q = i
  · simp [hq]
  · rw [if_neg hq]
    have hself : c ∈ f.children i → c ≠ i := fun hc he => h.not_mem_children_self i (he ▸ hc)
    split
    · rename_i hp
      rw [mem_splice, (h.single.nodup_children q).mem_erase_iff]
      tauto
    · rename_i hp
      have hne : c ∈ f.children q → c ≠ i := fun hc he =>
        hp (h.parent?_of_mem (he ▸ hc))
      tauto

theorem node?_remove (f : Forest) (i j : NodeId) :
    (f.remove i).node? j = if j = i then none else f.node? j := by
  show ((f.unwrap i).clear i).node? j = _
  rw [node?_clear, node?_of_contents (contents_unwrap f i)]

theorem node?_of_remove {n : Node} (h : (f.remove i).node? j = some n) : j ≠ i ∧ f.node? j = some n := by
  rw [node?_remove] at h
  split at h
  · cases h
  · rename_i hne
    exact ⟨hne, h⟩

theorem contains_remove (f : Forest) (i j : NodeId) :
    (f.remove i).contains j = (decide (j ≠ i) && f.contains j) := by
  unfold contains
  rw [node?_remove]
  split <;> simp_all

theorem Single.remove (h : f.Linked) (i : NodeId) : (f.remove i).Single := by
  refine single_of_children (fun q => ?_) (fun a b c ha hb => ?_)
  · rw [h.children_remove]
    split
    · exact nodup_nil
    · split
      · rename_i hq hp
        have hmem : i ∈ f.children q := h.child hp
        rw [(perm_splice _ _ _).nodup_iff]
        refine List.Nodup.append (h.single.nodup_children i) ((h.single.nodup_children q).erase i) ?_
        intro c hc hc'
        exact hq (h.single.unique (mem_of_mem_erase hc') hc)
      · exact h.single.nodup_children q
  · rw [h.mem_children_remove] at ha hb
    obtain ⟨hna, -, ha | ⟨hia, ha⟩⟩ := ha
    · obtain ⟨-, -, hb | ⟨-, hb⟩⟩ := hb
      · exact h.single.unique ha hb
      · exact absurd (h.single.unique ha hb) hna
    · obtain ⟨hne, -, hb | ⟨hib, -⟩⟩ := hb
      · exact absurd (h.single.unique hb ha) hne
      · exact h.single.unique hia hib

theorem Linked.remove (h : f.Linked) (i : NodeId) : (f.remove i).Linked := by
  obtain ⟨rank, hrank⟩ := h.ranked
  refine ⟨?_, Single.remove h i, fun hc => ?_, rank, fun hc => ?_⟩
  · have harena := (h.arena.of_contents (contents_unwrap f i)).clear i
    exact ⟨harena.nodup, harena.vacant⟩
  · obtain ⟨hq, hne, hc⟩ := h.mem_children_remove.mp hc
    rw [contains_remove, contains_remove]
    rcases hc with hc | ⟨hi, hc⟩
    · simp [hq, hne, h.live hc]
    · simp [hq, hne, h.live hi, h.live hc]
  · obtain ⟨-, -, hc | ⟨hi, hc⟩⟩ := h.mem_children_remove.mp hc
    · exact hrank hc
    · exact Nat.lt_trans (hrank hi) (hrank hc)

theorem Linked.parent?_remove (h : f.Linked) (i c : NodeId) : (f.remove i).parent? c =
    if c = i then none else if f.parent? c = some i then f.parent? i else f.parent? c := by
  refine (h.remove i).single.parent?_eq fun q => ?_
  rw [h.mem_children_remove]
  by_cases hc : c = i
  · simp [hc]
  · rw [if_neg hc]
    split
    · rename_i hp
      have hci : c ∈ f.children i := h.child hp
      rw [h.single.parent?_eq_some]
      constructor
      · rintro ⟨hq, -, hcq | ⟨hiq, -⟩⟩
        · exact absurd (h.single.unique hcq hci) hq
        · exact hiq
      · exact fun hiq => ⟨fun he => h.not_mem_children_self i (he ▸ hiq), hc, .inr ⟨hiq, hci⟩⟩
    · rename_i hp
      rw [h.single.parent?_eq_some]
      rw [h.single.parent?_eq_some] at hp
      constructor
      · rintro ⟨-, -, hcq | ⟨-, hci⟩⟩
        · exact hcq
        · exact absurd hci hp
      · exact fun hcq => ⟨fun he => hp (he ▸ hcq), hc, .inl hcq⟩

/-! ### Moving several nodes -/

theorem Below.of_attach {k : Option Nat} (hb : (f.attach i p k).Below j c) (hc : ¬ f.Below i c) :
    f.Below j c := by
  induction hb with
  | refl => exact Below.refl f j
  | tail _ hstep ih =>
    rcases mem_children_attach.mp hstep with ⟨rfl, -⟩ | hold
    · exact absurd (Below.refl f _) hc
    · exact (ih fun hq => hc (hq.step hold)).step hold

theorem Below.of_setParent (h : f.Single) (hb : (f.setParent i p).Below j c)
    (hc : ¬ f.Below i c) : f.Below j c :=
  Below.of_detach h (Below.of_attach hb fun hd => hc (Below.of_detach h hd))

def Movable (f : Forest) (p c : NodeId) : Prop :=
  f.contains c ∧ ¬ f.Below c p

theorem contents_adopt (f : Forest) (p : NodeId) (cs : List NodeId) :
    (f.adopt p cs).contents = f.contents := by
  induction cs generalizing f with
  | nil => rfl
  | cons c rest ih => exact (ih (f.setParent c p)).trans (contents_setParent f c p)

theorem sources_adopt (f : Forest) (p : NodeId) (cs : List NodeId) :
    (f.adopt p cs).sources = f.sources.filter fun i => !cs.contains i := by
  induction cs generalizing f with
  | nil => simp [adopt]
  | cons c rest ih =>
    show ((f.setParent c p).adopt p rest).sources = _
    rw [ih, sources_setParent, filter_filter]
    refine filter_congr fun i _ => ?_
    by_cases hc : i = c <;> simp [hc]

theorem Movable.setParent (h : f.Single) (hi : ¬ f.Below i p) (hc : f.Movable p c) :
    (f.setParent i p).Movable p c := by
  refine ⟨?_, fun hb => hc.2 (Below.of_setParent h hb hi)⟩
  rw [contains_of_contents (contents_setParent f i p)]
  exact hc.1

theorem Linked.adopt (h : f.Linked) (hp : f.contains p) {cs : List NodeId}
    (hcs : ∀ c ∈ cs, f.Movable p c) : (f.adopt p cs).Linked := by
  induction cs generalizing f with
  | nil => exact h
  | cons c rest ih =>
    have hc : f.Movable p c := hcs c (by simp)
    refine ih (h.setParent hc.1 hp hc.2) ?_ fun b hb => ?_
    · rwa [contains_of_contents (contents_setParent f c p)]
    · exact (hcs b (by simp [hb])).setParent h.single hc.2

theorem Single.setParent (h : f.Single) (i p : NodeId) : (f.setParent i p).Single :=
  (h.detach i).attach (h.not_mem_children_detach i) p none

theorem Single.parent?_adopt (h : f.Single) (p : NodeId) (cs : List NodeId) (c : NodeId) :
    (f.adopt p cs).parent? c = if c ∈ cs then some p else f.parent? c := by
  induction cs generalizing f with
  | nil => simp [Forest.adopt]
  | cons b rest ih =>
    show ((f.setParent b p).adopt p rest).parent? c = _
    rw [ih (h.setParent b p), h.parent?_setParent]
    by_cases hc : c = b <;> simp [hc]

/-! ### Taking over children -/

theorem Linked.movable_children (h : f.Linked) (hb : ¬ f.Below i p) (hc : c ∈ f.children i) :
    f.Movable p c :=
  ⟨(h.live hc).2, fun hcp => hb (Relation.ReflTransGen.head hc hcp)⟩

theorem Linked.absorb (h : f.Linked) (hp : f.contains p) (hb : ¬ f.Below i p) :
    (f.absorb p i).Linked :=
  (h.adopt hp fun _ hc => h.movable_children hb hc).remove i

theorem node?_absorb (f : Forest) (p i j : NodeId) :
    (f.absorb p i).node? j = if j = i then none else f.node? j := by
  unfold Forest.absorb
  rw [node?_remove, node?_of_contents (contents_adopt f p _)]

theorem node?_of_absorb {n : Node} (h : (f.absorb p i).node? j = some n) :
    j ≠ i ∧ f.node? j = some n := by
  rw [node?_absorb] at h
  split at h
  · cases h
  · rename_i hne
    exact ⟨hne, h⟩

theorem Linked.parent?_absorb (h : f.Linked) (hp : f.contains p) (hb : ¬ f.Below i p)
    (c : NodeId) : (f.absorb p i).parent? c =
      if c = i then none else if f.parent? c = some i then some p else f.parent? c := by
  have hlinked := h.adopt hp fun _ hc => h.movable_children hb hc
  have hne : p ≠ i := fun he => hb (he ▸ Below.refl f p)
  unfold Forest.absorb
  rw [hlinked.parent?_remove, h.single.parent?_adopt, h.single.parent?_adopt]
  by_cases hc : c = i
  · simp [hc]
  · rw [if_neg hc, if_neg hc]
    by_cases hci : c ∈ f.children i
    · simp [hci, hne, h.parent?_of_mem hci]
    · simp [hci, mt h.child hci]

/-! ### Insertion above a node -/

theorem Single.parent?_detach (h : f.Single) (i c : NodeId) :
    (f.detach i).parent? c = if c = i then none else f.parent? c := by
  refine (h.detach i).parent?_eq fun q => ?_
  rw [h.children_detach, (h.nodup_children q).mem_erase_iff]
  by_cases hc : c = i
  · simp [hc]
  · simp [hc, h.parent?_eq_some]

theorem Single.parent?_attach (h : f.Single) (hi : f.parent? i = none) (p : NodeId)
    (k : Option Nat) (c : NodeId) :
    (f.attach i p k).parent? c = if c = i then some p else f.parent? c := by
  have hnot := h.parent?_eq_none.mp hi
  refine (h.attach hnot p k).parent?_eq fun q => ?_
  rw [mem_children_attach]
  by_cases hc : c = i
  · subst hc
    simp [hnot q, eq_comm]
  · simp [hc, h.parent?_eq_some]

theorem contiguous_detach (h : ∀ q, f.contiguous q) (i q : NodeId) : (f.detach i).contiguous q := by
  unfold Forest.detach
  cases f.place? i with
  | none => exact h q
  | some at_ => exact contiguous_setChildren f _ _ q fun _ => h q

theorem contiguous_attach (h : ∀ q, f.contiguous q) (i p : NodeId) (k : Option Nat) (q : NodeId) :
    (f.attach i p k).contiguous q :=
  contiguous_setChildren { f with sources := f.sources.filter (· != i) } p _ q fun _ => h q

theorem contiguous_adopt (h : ∀ q, f.contiguous q) (p : NodeId) (cs : List NodeId) (q : NodeId) :
    (f.adopt p cs).contiguous q := by
  induction cs generalizing f with
  | nil => exact h q
  | cons c rest ih => exact ih fun b => contiguous_attach (contiguous_detach h c) c p none b

/-- What it takes to insert a node above another one: it is there, and not linked yet. -/
structure Loose (f : Forest) (i : NodeId) : Prop where
  live : f.contains i
  parentless : f.parent? i = none
  childless : f.children i = []

theorem Loose.not_below (h : f.Loose i) (hne : p ≠ i) : ¬ f.Below i p := by
  intro hb
  rcases Relation.ReflTransGen.cases_head hb with he | ⟨c, hc, -⟩
  · exact hne he.symm
  · rw [h.childless] at hc
    exact not_mem_nil hc

theorem edges_replaceRoot (f : Forest) (c i : NodeId) : (f.replaceRoot c i).edges = f.edges := by
  unfold replaceRoot
  split <;> rfl

theorem contents_replaceRoot (f : Forest) (c i : NodeId) :
    (f.replaceRoot c i).contents = f.contents := by
  unfold replaceRoot
  split <;> rfl

section

variable (h : g.edges = f.edges) (q : NodeId)

include h

theorem children_congr : g.children q = f.children q := by
  unfold children outgoing
  rw [h]

theorem parent?_congr : g.parent? q = f.parent? q := by
  unfold parent? incoming
  rw [h]

theorem contiguous_congr : g.contiguous q = f.contiguous q := by
  unfold contiguous childCount outgoing
  rw [h]

end

theorem Linked.congr (h : f.Linked) (hedges : g.edges = f.edges) (harena : g.Arena)
    (hcontains : ∀ i, f.contains i → g.contains i) : g.Linked := by
  refine h.mono harena (fun i => ?_) hcontains fun hc => ?_
  · unfold incoming
    rw [hedges]
    exact h.single i
  · rwa [children_congr hedges] at hc

theorem Linked.replaceRoot (h : f.Linked) (c i : NodeId) : (f.replaceRoot c i).Linked := by
  refine h.congr (edges_replaceRoot f c i) (h.arena.of_contents (contents_replaceRoot f c i)) ?_
  intro j hj
  rwa [contains_of_contents (contents_replaceRoot f c i)]

theorem contents_insertAbove (f : Forest) (i c : NodeId) :
    (f.insertAbove i c).contents = f.contents := by
  unfold insertAbove
  cases f.place? c with
  | none => exact (contents_attach _ c i none).trans (contents_replaceRoot f c i)
  | some at_ =>
    exact (contents_attach _ c i none).trans ((contents_attach _ i _ _).trans (contents_detach f c))

theorem contiguous_insertAbove (h : ∀ q, f.contiguous q) (i c q : NodeId) :
    (f.insertAbove i c).contiguous q := by
  unfold insertAbove
  cases f.place? c with
  | none =>
    refine contiguous_attach (fun b => ?_) c i none q
    rw [contiguous_congr (edges_replaceRoot f c i)]
    exact h b
  | some at_ => exact contiguous_attach (contiguous_attach (contiguous_detach h c) i _ _) c i none q

/-- The parent of `c` is unlinked from it, the loose node goes into the place of `c`, and `c` below
it: nothing below `c` leads to its parent. -/
theorem Linked.insertAbove_of_parent (h : f.Linked) (hi : f.Loose i) (hp : f.parent? c = some p)
    (k : Option Nat) : (((f.detach c).attach i p k).attach c i none).Linked ∧
      ∀ b, (((f.detach c).attach i p k).attach c i none).parent? b =
        if b = c then some i else if b = i then some p else f.parent? b := by
  have hcp : c ∈ f.children p := h.child hp
  have hic : i ≠ c := fun he => by simp [← he, hi.parentless] at hp
  have hpi : p ≠ i := fun he => by simp [he, hi.childless] at hcp
  have hcontents := contains_of_contents (contents_detach f c)
  have hd : (f.detach c).Linked := h.detach c
  have hdi : (f.detach c).parent? i = none := by
    rw [h.single.parent?_detach, hi.parentless, ite_self]
  have hdb : ¬ (f.detach c).Below i p := fun hb => hi.not_below hpi (Below.of_detach h.single hb)
  have ha : ((f.detach c).attach i p k).Linked :=
    hd.attach (hd.single.parent?_eq_none.mp hdi) (by rw [hcontents]; exact hi.live)
      (by rw [hcontents]; exact (h.live hcp).1) hdb k
  have haparent := hd.single.parent?_attach hdi p k
  have hac : ((f.detach c).attach i p k).parent? c = none := by
    rw [haparent, if_neg (Ne.symm hic), h.single.parent?_detach, if_pos rfl]
  have hab : ¬ ((f.detach c).attach i p k).Below c i := by
    intro hb
    have hq := ha.below_parent hb hic.symm ((haparent i).trans (if_pos rfl))
    have hcb : (f.detach c).Below c p := Below.of_attach hq hdb
    exact h.not_below_of_child hcp (Below.of_detach h.single hcb)
  refine ⟨ha.attach (ha.single.parent?_eq_none.mp hac) ?_ ?_ hab none, fun b => ?_⟩
  · rw [contains_of_contents (contents_attach _ i p k), hcontents]
    exact (h.live hcp).2
  · rw [contains_of_contents (contents_attach _ i p k), hcontents]
    exact hi.live
  · rw [ha.single.parent?_attach hac, haparent, h.single.parent?_detach]
    by_cases hb : b = c <;> simp [hb]

theorem Linked.insertAbove_eq (h : f.Linked) (hp : f.parent? c = some p) :
    f.insertAbove i c =
      ((f.detach c).attach i p (some ((f.children p).idxOf c))).attach c i none := by
  unfold Forest.insertAbove
  rw [h.single.place?_eq, hp]
  rfl

theorem Single.insertAbove_root (h : f.Single) (hc : f.parent? c = none) (i : NodeId) :
    f.insertAbove i c = (f.replaceRoot c i).attach c i none := by
  unfold Forest.insertAbove
  rw [h.place?_eq, hc]
  rfl

theorem Linked.insertAbove (h : f.Linked) (hi : f.Loose i) (hc : f.contains c) (hne : i ≠ c) :
    (f.insertAbove i c).Linked ∧ ∀ b, (f.insertAbove i c).parent? b =
      if b = c then some i else if b = i then f.parent? c else f.parent? b := by
  cases hp : f.parent? c with
  | some p =>
    rw [h.insertAbove_eq hp]
    exact h.insertAbove_of_parent hi hp _
  | none =>
    have hedges := edges_replaceRoot f c i
    have hcontains := contains_of_contents (contents_replaceRoot f c i)
    have hcp : (f.replaceRoot c i).parent? c = none := by rw [parent?_congr hedges, hp]
    have hr : (f.replaceRoot c i).Linked := h.replaceRoot c i
    rw [h.single.insertAbove_root hp]
    refine ⟨hr.attach (hr.single.parent?_eq_none.mp hcp) ?_ ?_ ?_ none, fun b => ?_⟩
    · rwa [hcontains]
    · rw [hcontains]
      exact hi.live
    · refine fun hb => hne (hr.eq_of_below_root ?_ hb)
      rw [parent?_congr hedges, hi.parentless]
    · rw [hr.single.parent?_attach hcp, parent?_congr hedges]
      by_cases hb : b = i
      · subst hb
        simp [hne, hi.parentless]
      · simp [hb]

/-! ### Exchange with the parent -/

theorem contents_release (f : Forest) (i p : NodeId) : (f.release i p).contents = f.contents :=
  (contents_adopt _ _ _).trans (contents_detach f i)

theorem sources_release (f : Forest) (i p : NodeId) :
    (f.release i p).sources = f.sources.filter fun j => !(f.children i).contains j := by
  unfold release
  rw [sources_adopt, sources_detach]

theorem Linked.release (h : f.Linked) (hp : i ∈ f.children p) : (f.release i p).Linked := by
  refine (h.detach i).adopt ?_ fun c hc => ⟨?_, fun hb => ?_⟩
  · rw [contains_of_contents (contents_detach f i)]
    exact (h.live hp).1
  · rw [contains_of_contents (contents_detach f i)]
    exact (h.live hc).2
  · exact h.not_below_of_child hp (Relation.ReflTransGen.head hc (Below.of_detach h.single hb))

theorem Single.parent?_release (h : f.Single) (i p c : NodeId) : (f.release i p).parent? c =
    if f.parent? c = some i then some p else if c = i then none else f.parent? c := by
  unfold Forest.release
  rw [(h.detach i).parent?_adopt, h.parent?_detach]
  by_cases hc : c ∈ f.children i
  · rw [if_pos hc, if_pos (h.parent?_eq_some.mpr hc)]
  · rw [if_neg hc, if_neg (mt h.parent?_eq_some.mp hc)]

theorem Linked.loose_release (h : f.Linked) (hp : i ∈ f.children p) : (f.release i p).Loose i := by
  have hne : p ≠ i := fun he => h.not_mem_children_self i (he ▸ hp)
  refine ⟨?_, ?_, eq_nil_iff_forall_not_mem.mpr fun c hc => ?_⟩
  · rw [contains_of_contents (contents_release f i p)]
    exact (h.live hp).2
  · rw [h.single.parent?_release, h.parent?_of_mem hp, if_neg (by simpa using hne),
      if_pos rfl]
  · have hci := (h.release hp).single.parent?_eq_some.mpr hc
    rw [h.single.parent?_release] at hci
    split at hci
    · exact hne (Option.some.inj hci)
    · rename_i hno
      split at hci
      · simp at hci
      · exact hno hci

theorem Linked.parent?_release_parent (h : f.Linked) (hp : f.parent? i = some p) {grand : NodeId}
    (hg : f.parent? p = some grand) : (f.release i p).parent? p = some grand := by
  rw [h.single.parent?_release, hg, if_neg (by simpa using h.ne_grandparent hp hg),
    if_neg (h.ne_parent hp).symm]

theorem Linked.exchange_eq (h : f.Linked) (hp : f.parent? i = some p) {grand : NodeId}
    (hg : f.parent? p = some grand) :
    f.exchange i = (.ok (), (f.release i p).insertAbove i p) := by
  have hip : i ∈ f.children p := h.child hp
  have hr := h.parent?_release_parent hp hg
  rw [(h.release hip).insertAbove_eq hr]
  unfold Forest.exchange
  simp only [hp, hg]
  rw [(h.release hip).single.place?_eq, hr]
  rfl

theorem Linked.exchange (h : f.Linked) (hp : f.parent? i = some p) {grand : NodeId}
    (hg : f.parent? p = some grand) : (f.exchange i).2.Linked ∧
      ∀ c, (f.exchange i).2.parent? c = if c = p then some i else if c = i then some grand
        else if f.parent? c = some i then some p else f.parent? c := by
  have hip : i ∈ f.children p := h.child hp
  have hne : p ≠ i := (h.ne_parent hp).symm
  have hgi : grand ≠ i := h.ne_grandparent hp hg
  have hlive : (f.release i p).contains p := by
    rw [contains_of_contents (contents_release f i p)]
    exact (h.live hip).1
  rw [h.exchange_eq hp hg]
  obtain ⟨hlinked, hparent⟩ :=
    (h.release hip).insertAbove (h.loose_release hip) hlive (Ne.symm hne)
  refine ⟨hlinked, fun c => ?_⟩
  rw [hparent, h.single.parent?_release, h.single.parent?_release, hg]
  by_cases hc : c = i
  · simp [hc, hgi, hne]
  · simp [hc]

theorem Linked.contents_exchange (h : f.Linked) (hp : f.parent? i = some p) {grand : NodeId}
    (hg : f.parent? p = some grand) : (f.exchange i).2.contents = f.contents := by
  rw [h.exchange_eq hp hg]
  exact (contents_insertAbove _ i p).trans (contents_release f i p)

/-- When a node changes places with its parent, all that was below the parent is below the node, and only
the node is not below the parent any more. -/
theorem Linked.below_exchange_iff (hf : f.Linked) {a grand : NodeId} (hq : f.parent? c = some q)
    (hg : f.parent? q = some grand) (b : NodeId) : (f.exchange c).2.Below a b ↔
      if a = c then f.Below q b else f.Below a b ∧ (a = q → b ≠ c) := by
  obtain ⟨hlinked, hparent⟩ := hf.exchange hq hg
  have hne : c ≠ q := hf.ne_parent hq
  have hgc : grand ≠ c := hf.ne_grandparent hq hg
  have hqg : ¬ f.Below q grand := hf.not_below_of_child (hf.child hg)
  have hqq : f.Below q q := .refl f q
  have hqc : f.Below q c := hqq.step (hf.child hq)
  have hac := hf.below_up c (i := a)
  have haq := hf.below_up q (i := a)
  -- Both sides follow the parents up in the forest after the exchange.
  refine hlinked.descend (P := fun b => (f.exchange c).2.Below a b ↔
    if a = c then f.Below q b else f.Below a b ∧ (a = q → b ≠ c)) (fun b ih => ?_) b
  rw [hlinked.below_up, hf.below_up b, hf.below_up b]
  by_cases hb : b = q ∨ b = c ∨ f.parent? b = some c
  · rcases hb with hb | hb | hb <;> grind
  · grind

theorem Linked.below_exchange (hf : f.Linked) {grand a b : NodeId} (hq : f.parent? c = some q)
    (hg : f.parent? q = some grand) (hb : f.Below a b) :
    (f.exchange c).2.Below a b ∨ a = q ∧ b = c := by
  rw [hf.below_exchange_iff hq hg]
  split
  · rename_i hac
    exact .inl (Relation.ReflTransGen.head (hf.child hq) (hac ▸ hb))
  · exact (em (a = q ∧ b = c)).symm.imp_left fun he => ⟨hb, not_and.mp he⟩

theorem Linked.exchange_error (h : f.Linked) {e : Error} (he : (f.exchange i).1 = .error e) :
    (f.exchange i).2 = f := by
  cases hp : f.parent? i with
  | none =>
    unfold Forest.exchange
    rw [hp]
  | some p =>
    cases hg : f.parent? p with
    | none =>
      unfold Forest.exchange
      simp only [hp, hg]
    | some grand =>
      rw [h.exchange_eq hp hg] at he
      simp at he

end ChartPlan.Flow.Forest
