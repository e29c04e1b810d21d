import ChartPlan.Flow.Traversal
import Mathlib.Data.List.Induction
import Mathlib.Data.List.Nodup
import Mathlib.Data.List.Perm.Basic

/-!
# The links of a forest

The edges of a forest are a list that every operation rewrites. What matters of it is the list of
children of each node. This file says what the primitive operations do to these lists:

* `Forest.children_setChildren`: replacing the children of a node changes no other list;
* `Forest.Single`: no node has two incoming links; then the parent of a node is the one node that
  lists it (`Single.parent?_eq_some`), and links can be judged by the lists of children alone
  (`single_of_children`);
* `Forest.children_detach`, `Forest.children_attach`: unlinking erases a node from all lists, and
  linking inserts it into one.
-/

namespace ChartPlan.Flow

open List

namespace Edge

/-! ### Edges in order of their places -/

theorem perm_insertSorted (e : Edge) (es : List Edge) : (insertSorted e es).Perm (e :: es) := by
  induction es with
  | nil => exact List.Perm.refl _
  | cons a rest ih =>
    unfold insertSorted
    split
    · exact List.Perm.refl _
    · exact (ih.cons a).trans (List.Perm.swap e a rest)

theorem perm_sort (es : List Edge) : (sort es).Perm es := by
  induction es with
  | nil => exact List.Perm.refl _
  | cons e rest ih => exact (perm_insertSorted e (sort rest)).trans (ih.cons e)

theorem insertSorted_last (e : Edge) (es : List Edge) (h : ∀ a ∈ es, a.ordinal < e.ordinal) :
    insertSorted e es = es ++ [e] := by
  induction es with
  | nil => rfl
  | cons a rest ih =>
    have ha : a.ordinal < e.ordinal := h a (by simp)
    have hno : e.precedes a = false := by
      unfold precedes
      rw [decide_eq_false (by omega), beq_eq_false_iff_ne.mpr (by omega)]
      rfl
    rw [insertSorted, hno, ih (fun b hb => h b (by simp [hb]))]
    rfl

theorem sort_reverse (es : List Edge) (h : es.Pairwise fun a b => a.ordinal < b.ordinal) :
    sort es.reverse = es := by
  induction es using reverseRecOn with
  | nil => rfl
  | append_singleton front e ih =>
    obtain ⟨hfront, -, hlast⟩ := pairwise_append.mp h
    have hstep : sort (front ++ [e]).reverse = insertSorted e (sort front.reverse) := by
      rw [reverse_append]
      rfl
    rw [hstep, ih hfront]
    exact insertSorted_last e front fun a ha => hlast a ha e (by simp)

theorem map_child_link (p : NodeId) (cs : List NodeId) :
    ∀ start, (link p start cs).map Edge.child = cs := by
  induction cs with
  | nil => intro start; rfl
  | cons c rest ih => intro start; simp [link, ih]

theorem map_ordinal_link (p : NodeId) (cs : List NodeId) :
    ∀ start, (link p start cs).map Edge.ordinal = List.range' start cs.length := by
  induction cs with
  | nil => intro start; rfl
  | cons c rest ih => intro start; simp [link, ih, List.range'_succ]

theorem parent_of_mem_link {p : NodeId} {cs : List NodeId} {e : Edge} :
    ∀ {start}, e ∈ link p start cs → e.parent = p := by
  induction cs with
  | nil => intro start h; simp [link] at h
  | cons c rest ih =>
    intro start h
    rcases mem_cons.mp h with rfl | h
    · rfl
    · exact ih h

theorem pairwise_link (p start : NodeId) (cs : List NodeId) :
    (link p start cs).Pairwise fun a b => a.ordinal < b.ordinal := by
  rw [← pairwise_map (f := Edge.ordinal), map_ordinal_link]
  exact pairwise_lt_range'

end Edge

namespace Forest

variable {f : Forest} {i p q c : NodeId}

/-! ### Lists of children -/

theorem mem_children : c ∈ f.children p ↔ ∃ e ∈ f.edges, e.parent = p ∧ e.child = c := by
  unfold children outgoing
  rw [((Edge.perm_sort _).map Edge.child).mem_iff]
  simp [and_assoc]

section

variable (f : Forest) (p : NodeId)

theorem length_children : (f.children p).length = f.childCount p := by
  unfold children childCount
  rw [((Edge.perm_sort _).map Edge.child).length_eq, length_map]

theorem outgoing_setChildren (cs : List NodeId) (q : NodeId) :
    (f.setChildren p cs).outgoing q =
      if q = p then (Edge.link p 0 cs).reverse else f.outgoing q := by
  unfold outgoing setChildren
  rw [filter_append, filter_filter]
  split
  · rename_i hq
    subst hq
    rw [filter_eq_self.mpr, filter_eq_nil_iff.mpr, append_nil]
    · intro e _
      simp
    · intro e he
      simpa using Edge.parent_of_mem_link (mem_reverse.mp he)
  · rename_i hq
    rw [filter_eq_nil_iff.mpr, nil_append]
    · refine filter_congr fun e _ => ?_
      by_cases he : e.parent = q <;> simp [he, hq]
    · intro e he
      rw [Edge.parent_of_mem_link (mem_reverse.mp he)]
      simpa using Ne.symm hq

theorem children_setChildren (cs : List NodeId) (q : NodeId) :
    (f.setChildren p cs).children q = if q = p then cs else f.children q := by
  unfold children
  rw [outgoing_setChildren]
  split
  · rw [Edge.sort_reverse _ (Edge.pairwise_link p 0 cs), Edge.map_child_link]
  · rfl

theorem contiguous_setChildren (cs : List NodeId) (q : NodeId) (h : q ≠ p → f.contiguous q) :
    (f.setChildren p cs).contiguous q := by
  unfold contiguous childCount
  rw [outgoing_setChildren]
  split
  · rw [Edge.sort_reverse _ (Edge.pairwise_link p 0 cs), Edge.map_ordinal_link, length_reverse,
      ← length_map (f := Edge.child), Edge.map_child_link, ← range_eq_range']
    simp
  · rename_i hq
    exact h hq

end

/-! ### One parent -/

def Single (f : Forest) : Prop :=
  ∀ i, (f.incoming i).length ≤ 1

theorem mem_incoming {e : Edge} : e ∈ f.incoming c ↔ e ∈ f.edges ∧ e.child = c := by
  simp [incoming]

namespace Single

theorem eq_of_mem (h : f.Single) {a b : Edge} (ha : a ∈ f.edges) (hb : b ∈ f.edges)
    (hab : a.child = b.child) : a = b := by
  have hain : a ∈ f.incoming b.child := mem_incoming.mpr ⟨ha, hab⟩
  have hbin : b ∈ f.incoming b.child := mem_incoming.mpr ⟨hb, rfl⟩
  obtain ⟨e, he⟩ : ∃ e, f.incoming b.child = [e] :=
    length_eq_one_iff.mp (Nat.le_antisymm (h _) (length_pos_of_mem hbin))
  rw [he, mem_singleton] at hain hbin
  rw [hain, hbin]

theorem parent?_eq_some (h : f.Single) : f.parent? c = some p ↔ c ∈ f.children p := by
  rw [mem_children]
  unfold parent?
  constructor
  · intro hp
    obtain ⟨e, he, rfl⟩ := Option.map_eq_some_iff.mp hp
    obtain ⟨hmem, hc⟩ := mem_incoming.mp (mem_of_head? he)
    exact ⟨e, hmem, rfl, hc⟩
  · rintro ⟨e, he, rfl, rfl⟩
    have hin : e ∈ f.incoming e.child := mem_incoming.mpr ⟨he, rfl⟩
    cases hl : f.incoming e.child with
    | nil => simp [hl] at hin
    | cons a rest =>
      obtain ⟨ha, hac⟩ := mem_incoming.mp (hl ▸ mem_cons_self : a ∈ f.incoming e.child)
      rw [h.eq_of_mem ha he hac]
      rfl

theorem parent?_eq_none (h : f.Single) : f.parent? c = none ↔ ∀ p, c ∉ f.children p := by
  rw [Option.eq_none_iff_forall_ne_some]
  exact forall_congr' fun p => not_congr h.parent?_eq_some

theorem unique (h : f.Single) (hp : c ∈ f.children p) (hq : c ∈ f.children q) : p = q :=
  Option.some.inj ((h.parent?_eq_some.mpr hp).symm.trans (h.parent?_eq_some.mpr hq))

theorem nodup_children (h : f.Single) (p : NodeId) : (f.children p).Nodup := by
  unfold children
  rw [((Edge.perm_sort _).map Edge.child).nodup_iff]
  refine nodup_iff_count_le_one.mpr fun c => ?_
  have hsub : ((f.outgoing p).filter fun e => e.child == c).length ≤ (f.incoming c).length := by
    unfold outgoing incoming
    rw [filter_filter]
    exact (monotone_filter_right f.edges fun e he => by simp_all).length_le
  calc ((f.outgoing p).map Edge.child).count c
      = ((f.outgoing p).filter fun e => e.child == c).length := by
        rw [List.count, countP_map, countP_eq_length_filter]
        rfl
    _ ≤ 1 := Nat.le_trans hsub (h c)

end Single

theorem single_of_children (hnodup : ∀ p, (f.children p).Nodup)
    (hunique : ∀ p q c, c ∈ f.children p → c ∈ f.children q → p = q) : f.Single := by
  intro c
  cases hl : f.incoming c with
  | nil => simp
  | cons e rest =>
    obtain ⟨he, hec⟩ := mem_incoming.mp (hl ▸ mem_cons_self : e ∈ f.incoming c)
    have hsame : f.incoming c = (f.outgoing e.parent).filter fun a => a.child == c := by
      unfold outgoing incoming
      rw [filter_filter]
      refine filter_congr fun a ha => ?_
      by_cases hac : a.child = c
      · have hp : a.parent = e.parent :=
          hunique _ _ c (mem_children.mpr ⟨a, ha, rfl, hac⟩) (mem_children.mpr ⟨e, he, rfl, hec⟩)
        simp [hac, hp]
      · simp [hac]
    have hcount : ((f.outgoing e.parent).filter fun a => a.child == c).length
        = (f.children e.parent).count c := by
      unfold children
      rw [((Edge.perm_sort _).map Edge.child).count_eq, List.count, countP_map,
        countP_eq_length_filter]
      rfl
    rw [← hl, hsame, hcount]
    exact nodup_iff_count_le_one.mp (hnodup e.parent) c

theorem Single.parent?_eq (h : f.Single) {v : Option NodeId}
    (hv : ∀ q, c ∈ f.children q ↔ v = some q) : f.parent? c = v :=
  Option.ext fun q => by rw [h.parent?_eq_some, hv q]

/-! ### Contents -/

def contents (f : Forest) : Forest :=
  { f with edges := [], sources := [] }

theorem node?_of_contents {g : Forest} (h : g.contents = f.contents) (i : NodeId) :
    g.node? i = f.node? i := by
  show g.contents.node? i = f.contents.node? i
  rw [h]

theorem contains_of_contents {g : Forest} (h : g.contents = f.contents) (i : NodeId) :
    g.contains i = f.contains i := by
  show g.contents.contains i = f.contents.contains i
  rw [h]

theorem outputs_of_contents {g : Forest} (h : g.contents = f.contents) : g.outputs = f.outputs := by
  show g.contents.outputs = f.contents.outputs
  rw [h]

/-! ### Unlinking and linking -/

theorem mem_splice {α : Type} {items more : List α} {k : Nat} {x : α} :
    x ∈ splice items k more ↔ x ∈ items ∨ x ∈ more := by
  unfold splice
  rw [mem_append, mem_append, or_right_comm, ← mem_append, take_append_drop]

theorem perm_splice {α : Type} (items : List α) (k : Nat) (more : List α) :
    (splice items k more).Perm (more ++ items) := by
  unfold splice
  have hfront : (items.take k ++ more ++ items.drop k).Perm (more ++ items.take k ++ items.drop k) :=
    perm_append_comm.append_right _
  rwa [append_assoc more, take_append_drop] at hfront

theorem idxOf?_of_mem {items : List NodeId} (h : i ∈ items) : items.idxOf? i = some (items.idxOf i) :=
  List.idxOf?_eq_some_iff.mpr ⟨idxOf_lt_length_of_mem h, by simp, fun j hj => by
    simpa using not_of_lt_findIdx hj⟩

theorem Single.place?_eq (h : f.Single) (i : NodeId) :
    f.place? i = (f.parent? i).map fun p => (p, (f.children p).idxOf i) := by
  unfold place?
  cases hp : f.parent? i with
  | none => rfl
  | some p =>
    rw [Option.bind_some, idxOf?_of_mem (h.parent?_eq_some.mp hp)]
    rfl

theorem Single.detach_eq (h : f.Single) (i : NodeId) :
    f.detach i = match f.parent? i with
      | some p => f.setChildren p ((f.children p).erase i)
      | none => f := by
  unfold detach
  rw [h.place?_eq]
  cases hp : f.parent? i with
  | none => rfl
  | some p => exact congrArg (f.setChildren p) (by rw [← erase_eq_eraseIdx_of_idxOf rfl])

theorem Single.children_detach (h : f.Single) (i q : NodeId) :
    (f.detach i).children q = (f.children q).erase i := by
  rw [h.detach_eq]
  cases hp : f.parent? i with
  | none => exact (erase_of_not_mem (h.parent?_eq_none.mp hp q)).symm
  | some p =>
    have hmem : i ∈ f.children p := h.parent?_eq_some.mp hp
    show (f.setChildren p ((f.children p).erase i)).children q = _
    rw [children_setChildren]
    split
    · rename_i hq
      rw [hq]
    · rename_i hq
      exact (erase_of_not_mem fun hi => hq (h.unique hi hmem)).symm

theorem Single.detach (h : f.Single) (i : NodeId) : (f.detach i).Single := by
  refine single_of_children (fun p => ?_) (fun p q c hp hq => ?_)
  · rw [h.children_detach]
    exact (h.nodup_children p).erase i
  · rw [h.children_detach] at hp hq
    exact h.unique (mem_of_mem_erase hp) (mem_of_mem_erase hq)

section

variable (f : Forest)

theorem contents_detach (i : NodeId) : (f.detach i).contents = f.contents := by
  unfold Forest.detach
  cases f.place? i <;> rfl

theorem sources_detach (i : NodeId) : (f.detach i).sources = f.sources := by
  unfold Forest.detach
  cases f.place? i <;> rfl

theorem contents_attach (i p : NodeId) (k : Option Nat) :
    (f.attach i p k).contents = f.contents := rfl

theorem sources_attach (i p : NodeId) (k : Option Nat) :
    (f.attach i p k).sources = f.sources.filter (· != i) := rfl

theorem children_attach (i p : NodeId) (k : Option Nat) (q : NodeId) :
    (f.attach i p k).children q = if q = p then
      splice (f.children p) (min (k.getD (f.children p).length) (f.children p).length) [i]
      else f.children q :=
  children_setChildren { f with sources := f.sources.filter (· != i) } p _ q

end

theorem mem_children_attach {k : Option Nat} :
    c ∈ (f.attach i p k).children q ↔ (c = i ∧ q = p) ∨ c ∈ f.children q := by
  rw [children_attach]
  split
  · rename_i hq
    rw [mem_splice, mem_singleton, hq]
    simp [or_comm]
  · rename_i hq
    simp [hq]

theorem Single.attach (h : f.Single) (hi : ∀ q, i ∉ f.children q) (p : NodeId) (k : Option Nat) :
    (f.attach i p k).Single := by
  refine single_of_children (fun q => ?_) (fun a b c ha hb => ?_)
  · rw [children_attach]
    split
    · rw [(perm_splice _ _ _).nodup_iff]
      exact nodup_cons.mpr ⟨hi p, h.nodup_children p⟩
    · exact h.nodup_children q
  · rw [mem_children_attach] at ha hb
    rcases ha with ⟨rfl, rfl⟩ | ha
    · rcases hb with ⟨-, rfl⟩ | hb
      · rfl
      · exact absurd hb (hi b)
    · rcases hb with ⟨rfl, rfl⟩ | hb
      · exact absurd ha (hi a)
      · exact h.unique ha hb

end Forest

end ChartPlan.Flow
