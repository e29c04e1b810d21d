import ChartPlan.Proofs.Flow.Valid
import Mathlib.Data.Nat.Find

/-!
# The check of a forest

`Forest.check` accepts exactly the valid forests. The test for circles drops the links of the
uppermost parents again and again; a link survives `n` rounds when `n` links lead to it one after the
other. The number of rounds that a node survives is a rank, and a rank bounds the number of rounds by
the number of slots.

* `core_of_above`, `above_of_core`: which links survive a round;
* `Forest.Graph`: what holds of every graph that is kept in slots, valid or not;
* `Graph.check_eq_ok_iff`: the check accepts exactly the valid forests.
-/

namespace ChartPlan.Flow.Forest

open List

variable {f : Forest} {i p c : NodeId}

/-! ### Circles -/

theorem mem_inner {es : List Edge} {e : Edge} :
    e ∈ inner es ↔ e ∈ es ∧ ∃ above ∈ es, above.child = e.parent := by
  simp [inner]

theorem mem_of_mem_core {e : Edge} : ∀ {n : Nat} {es : List Edge}, e ∈ core n es → e ∈ es
  | 0, _, h => h
  | _ + 1, _, h => (mem_inner.mp (mem_of_mem_core h)).1

theorem core_of_above {a e : Edge} {n : Nat} {es : List Edge} (he : e ∈ es) (ha : a ∈ core n es)
    (hae : a.child = e.parent) : e ∈ core (n + 1) es := by
  induction n generalizing es with
  | zero => exact mem_inner.mpr ⟨he, a, ha, hae⟩
  | succ n ih => exact ih (mem_inner.mpr ⟨he, a, mem_of_mem_core ha, hae⟩) ha

theorem above_of_core {e : Edge} {n : Nat} {es : List Edge} (he : e ∈ core (n + 1) es) :
    ∃ a ∈ core n es, a.child = e.parent := by
  induction n generalizing es with
  | zero => exact (mem_inner.mp he).2
  | succ n ih => exact @ih (inner es) he

theorem ranked_of_core {n : Nat} (h : core n f.edges = []) :
    ∃ rank : NodeId → Nat, ∀ {p c}, c ∈ f.children p → rank p < rank c := by
  classical
  have hex : ∀ c : NodeId, ∃ k, ∀ e ∈ core k f.edges, e.child ≠ c := fun c =>
    ⟨n, by simp [h]⟩
  refine ⟨fun c => Nat.find (hex c), fun {p c} hc => ?_⟩
  obtain ⟨e, he, hep, hec⟩ := mem_children.mp hc
  have hspec := Nat.find_spec (hex c)
  cases hk : Nat.find (hex c) with
  | zero =>
    rw [hk] at hspec
    exact absurd hec (hspec e he)
  | succ k =>
    rw [hk] at hspec
    have hp : ∀ a ∈ core k f.edges, a.child ≠ p := fun a ha hap =>
      hspec e (core_of_above he ha (hap.trans hep.symm)) hec
    show Nat.find (hex p) < Nat.find (hex c)
    rw [hk]
    exact Nat.lt_succ_of_le (Nat.find_min' (hex p) hp)

/-- Above a link that survives `n` rounds there are `n + 1` nodes, each ranked below the one before
it. -/
theorem Linked.chain_of_core (h : f.Linked) {rank : NodeId → Nat}
    (hrank : ∀ {p c}, c ∈ f.children p → rank p < rank c) {n : Nat} :
    ∀ {e : Edge}, e ∈ core n f.edges → ∃ l : List NodeId, l.length = n + 1 ∧ l.Nodup ∧
      ∀ j ∈ l, f.contains j ∧ rank j < rank e.child := by
  induction n with
  | zero =>
    intro e he
    have hc : e.child ∈ f.children e.parent := mem_children.mpr ⟨e, he, rfl, rfl⟩
    refine ⟨[e.parent], rfl, by simp, fun j hj => ?_⟩
    rw [mem_singleton.mp hj]
    exact ⟨(h.live hc).1, hrank hc⟩
  | succ n ih =>
    intro e he
    have hc : e.child ∈ f.children e.parent :=
      mem_children.mpr ⟨e, mem_of_mem_core he, rfl, rfl⟩
    obtain ⟨a, ha, hae⟩ := above_of_core he
    obtain ⟨l, hlen, hnodup, hl⟩ := ih ha
    rw [hae] at hl
    refine ⟨e.parent :: l, by simp [hlen], nodup_cons.mpr ⟨fun hm => ?_, hnodup⟩, ?_⟩
    · exact Nat.lt_irrefl _ (hl _ hm).2
    · intro j hj
      rcases mem_cons.mp hj with rfl | hj
      · exact ⟨(h.live hc).1, hrank hc⟩
      · exact ⟨(hl j hj).1, Nat.lt_trans (hl j hj).2 (hrank hc)⟩

theorem length_le_slots {l : List NodeId} (hnodup : l.Nodup) (hl : ∀ j ∈ l, f.contains j) :
    l.length ≤ f.slots.length := by
  have hsub : l ⊆ List.range f.slots.length := fun j hj =>
    mem_range.mpr (lt_of_contains (hl j hj))
  simpa using (subperm_of_subset hnodup hsub).length_le

theorem Linked.hasCycle_eq_false (h : f.Linked) : f.hasCycle = false := by
  obtain ⟨rank, hrank⟩ := h.ranked
  unfold hasCycle
  cases hcore : core f.slots.length f.edges with
  | nil => rfl
  | cons e rest =>
    obtain ⟨l, hlen, hnodup, hl⟩ :=
      h.chain_of_core hrank (hcore ▸ mem_cons_self : e ∈ core f.slots.length f.edges)
    have hle := length_le_slots hnodup fun j hj => (hl j hj).1
    omega

/-! ### The parts of the check -/

theorem mem_liveIds : i ∈ f.liveIds ↔ f.contains i := by
  unfold liveIds
  rw [mem_filter, mem_range]
  exact ⟨fun h => h.2, fun h => ⟨lt_of_contains h, h⟩⟩

theorem forM_eq_ok_iff {α : Type} {check : α → Except Error Unit} {l : List α} :
    l.forM check = .ok () ↔ ∀ a ∈ l, check a = .ok () := by
  induction l with
  | nil => simp [pure, Except.pure]
  | cons a rest ih =>
    show (check a >>= fun _ => rest.forM check) = .ok () ↔ _
    cases ha : check a with
    | error e => simp [bind, Except.bind, ha]
    | ok u =>
      have hstep : (Except.ok u >>= fun _ => rest.forM check) = rest.forM check := rfl
      rw [hstep, ih]
      simp [ha]

theorem checkNode_eq_ok_iff : f.checkNode i = .ok () ↔
    (f.incoming i).length ≤ 1 ∧ (f.incoming i = [] → i ∈ f.sources) ∧ f.contiguous i := by
  unfold checkNode
  by_cases hmany : 1 < (f.incoming i).length
  · simp [hmany, Nat.not_le_of_gt hmany]
  · rw [if_neg hmany]
    by_cases hnone : f.incoming i = []
    · by_cases hs : i ∈ f.sources <;> by_cases hc : f.contiguous i <;> simp [hnone, hs, hc]
    · by_cases hc : f.contiguous i <;> simp [hnone, hc, Nat.le_of_not_lt hmany]

theorem check_eq_ok_iff_parts : f.check = .ok () ↔ f.hasCycle = false ∧
    (∀ i, f.contains i → f.checkNode i = .ok ()) ∧ (∀ i ∈ f.sources, f.parent? i = none) ∧
    ∀ entry ∈ f.outputs, f.contains entry.2 := by
  have hnodes : (∀ i, f.contains i → f.checkNode i = .ok ()) ↔ f.liveIds.forM f.checkNode = .ok () := by
    rw [forM_eq_ok_iff]
    exact forall_congr' fun i => by rw [mem_liveIds]
  rw [hnodes]
  unfold check
  simp only [bind, Except.bind]
  by_cases hcycle : f.hasCycle
  · simp [hcycle]
  · rw [if_neg hcycle]
    cases hforM : f.liveIds.forM f.checkNode with
    | error e => simp
    | ok u =>
      by_cases hsources : f.sources.any fun i => (f.parent? i).isSome
      · have hnot : ¬ ∀ i ∈ f.sources, f.parent? i = none := fun hall => by
          obtain ⟨i, hi, hsome⟩ := any_eq_true.mp hsources
          simp [hall i hi] at hsome
        simp [hsources, hnot]
      · have hall : ∀ i ∈ f.sources, f.parent? i = none := by simpa using hsources
        rw [if_neg hsources]
        cases hfind : f.outputs.find? fun entry => !f.contains entry.2 with
        | none =>
          have hlive : ∀ entry ∈ f.outputs, f.contains entry.2 := by simpa using hfind
          exact ⟨fun _ => ⟨by simpa using hcycle, rfl, hall, hlive⟩, fun _ => rfl⟩
        | some entry =>
          have hmem := mem_of_find?_eq_some hfind
          have hbad := List.find?_some hfind
          refine ⟨fun h => by simp at h, fun h => ?_⟩
          simp [h.2.2.2 entry hmem] at hbad

/-! ### What the check accepts -/

/-- What holds of every graph that is kept in slots: free slots are vacant, and links join nodes that
are there. -/
structure Graph (f : Forest) : Prop where
  arena : f.Arena
  ends : ∀ e ∈ f.edges, f.contains e.parent ∧ f.contains e.child

theorem Linked.graph (h : f.Linked) : f.Graph :=
  ⟨h.arena, fun e he => h.live (mem_children.mpr ⟨e, he, rfl, rfl⟩)⟩

namespace Graph

theorem incoming_eq_nil (h : f.Graph) (hi : f.contains i = false) : f.incoming i = [] := by
  refine eq_nil_iff_forall_not_mem.mpr fun e he => ?_
  obtain ⟨hmem, rfl⟩ := mem_incoming.mp he
  have hlive := (h.ends e hmem).2
  rw [hi] at hlive
  exact Bool.noConfusion hlive

theorem contiguous_of_vacant (h : f.Graph) (hi : f.contains i = false) : f.contiguous i := by
  have hnil : f.outgoing i = [] := by
    refine eq_nil_iff_forall_not_mem.mpr fun e he => ?_
    obtain ⟨hmem, hp⟩ := mem_filter.mp he
    have hpi : e.parent = i := by simpa using hp
    have hlive := (h.ends e hmem).1
    rw [hpi, hi] at hlive
    exact Bool.noConfusion hlive
  unfold contiguous childCount
  rw [hnil]
  rfl

theorem check_eq_ok_iff (h : f.Graph) (hs : ∀ i ∈ f.sources, f.contains i) :
    f.check = .ok () ↔ f.Valid := by
  rw [check_eq_ok_iff_parts]
  constructor
  · rintro ⟨hcycle, hnodes, hparents, houtputs⟩
    have hsingle : f.Single := fun i => by
      cases hi : f.contains i with
      | false => simp [h.incoming_eq_nil hi]
      | true => exact (checkNode_eq_ok_iff.mp (hnodes i hi)).1
    refine ⟨⟨h.arena, hsingle, fun hc => ?_, ?_⟩, ?_, by simp, fun i => ?_, houtputs⟩
    · obtain ⟨e, he, rfl, rfl⟩ := mem_children.mp hc
      exact h.ends e he
    · exact ranked_of_core (by simpa [hasCycle] using hcycle)
    · intro i
      refine ⟨fun hi => ⟨hs i hi, hparents i hi, by simp⟩, fun ⟨hi, hp, _⟩ => ?_⟩
      refine (checkNode_eq_ok_iff.mp (hnodes i hi)).2.1 ?_
      simpa [parent?] using hp
    · cases hi : f.contains i with
      | false => exact h.contiguous_of_vacant hi
      | true => exact (checkNode_eq_ok_iff.mp (hnodes i hi)).2.2
  · intro hv
    refine ⟨hv.hasCycle_eq_false, fun i hi => ?_, fun i hi => (hv.roots.mp hi).2.1,
      hv.outputs⟩
    refine checkNode_eq_ok_iff.mpr ⟨hv.single i, fun hnil => ?_, hv.contiguous i⟩
    exact hv.roots.mpr ⟨hi, by simp [parent?, hnil], by simp⟩

end Graph

theorem Valid.check_eq_ok (h : f.Valid) : f.check = .ok () :=
  (h.graph.check_eq_ok_iff fun _ hi => (h.roots.mp hi).1).mpr h

end ChartPlan.Flow.Forest
