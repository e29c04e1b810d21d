import ChartPlan.Proofs.Flow.Traversal

/-!
# Histories of a forest

A forest is made from the empty one by moves, each of which is allowed in the forest that it meets.
Whatever the moves and their order, the forest stays well formed: links run in no circle, no node has
two parents, the places of children are `0, 1, 2, …`, the roots are the nodes without a parent, each
listed once, and named outputs are there.

* `Move`: a move, with the forest that it gives (`Move.apply`) and when it is allowed
  (`Move.Allowed`);
* `Move.Admitted`: a history in which every move is allowed when its turn comes;
* `wellFormed_of_admitted`: the forest of such a history is well formed and passes the check, and an
  exchange that fails in it changes nothing.
-/

namespace ChartPlan.Flow

/-- A move that reshapes a forest. -/
inductive Move where
  /-- Adds a node as a root or behind the children of a node. -/
  | add (n : Node) (parent : Option NodeId)
  | remove (i : NodeId)
  | setParent (i parent : NodeId)
  | absorb (keep other : NodeId)
  | swap (i : NodeId)
  /-- Puts a copy of a node above another one. -/
  | copyAbove (i child : NodeId)
  /-- Puts a copy of a node among the children of another one, at a place or behind all. -/
  | copyBelow (i parent : NodeId) (at_ : Option Nat)
  /-- Names a node as an output. -/
  | register (name : String) (i : NodeId)

namespace Move

def apply (f : Forest) : Move → Forest
  | .add n parent => (f.add n parent).1
  | .remove i => f.remove i
  | .setParent i parent => f.setParent i parent
  | .absorb keep other => f.absorb keep other
  | .swap i => (f.exchange i).2
  | .copyAbove i child => (f.duplicate i).1.insertAbove (f.duplicate i).2 child
  | .copyBelow i parent at_ => (f.duplicate i).1.attach (f.duplicate i).2 parent at_
  | .register name i => f.register name i

/-- Whether a move is allowed: its nodes are there, and no node goes below itself. Removal and
exchange are always allowed. -/
def Allowed (f : Forest) : Move → Prop
  | .add _ none => True
  | .add _ (some p) => f.contains p
  | .remove _ => True
  | .setParent i parent => f.contains i ∧ f.contains parent ∧ parent ∉ f.subtree i
  | .absorb keep other => f.contains keep ∧ f.contains other ∧ keep ∉ f.subtree other
  | .swap _ => True
  | .copyAbove i child => f.contains i ∧ f.contains child
  | .copyBelow i parent _ => f.contains i ∧ f.contains parent
  | .register _ i => f.contains i

instance (f : Forest) : (m : Move) → Decidable (m.Allowed f)
  | .add _ none => inferInstanceAs (Decidable True)
  | .add _ (some p) => inferInstanceAs (Decidable (f.contains p = true))
  | .remove _ => inferInstanceAs (Decidable True)
  | .setParent i p =>
    inferInstanceAs (Decidable (f.contains i = true ∧ f.contains p = true ∧ p ∉ f.subtree i))
  | .absorb keep other =>
    inferInstanceAs
      (Decidable (f.contains keep = true ∧ f.contains other = true ∧ keep ∉ f.subtree other))
  | .swap _ => inferInstanceAs (Decidable True)
  | .copyAbove i child => inferInstanceAs (Decidable (f.contains i = true ∧ f.contains child = true))
  | .copyBelow i p _ => inferInstanceAs (Decidable (f.contains i = true ∧ f.contains p = true))
  | .register _ i => inferInstanceAs (Decidable (f.contains i = true))

def run (f : Forest) (moves : List Move) : Forest :=
  moves.foldl apply f

/-- Whether every move of a history is allowed in the forest that it meets. -/
def Admitted : Forest → List Move → Prop
  | _, [] => True
  | f, m :: rest => m.Allowed f ∧ Admitted (m.apply f) rest

instance : (f : Forest) → (moves : List Move) → Decidable (Admitted f moves)
  | _, [] => inferInstanceAs (Decidable True)
  | f, m :: rest =>
    have : Decidable (Admitted (m.apply f) rest) := instDecidableAdmitted (m.apply f) rest
    inferInstanceAs (Decidable (m.Allowed f ∧ Admitted (m.apply f) rest))

end Move

namespace Forest

variable {f : Forest} {i p c : NodeId} {loose : List NodeId}

/-- What a forest should be, said of its links, roots and outputs. -/
structure WellFormed (f : Forest) : Prop where
  /-- Links run in no circle. -/
  acyclic : ∀ i, ¬ Relation.TransGen (fun p c => ∃ e ∈ f.edges, e.parent = p ∧ e.child = c) i i
  /-- Links join nodes that are there. -/
  ends : ∀ e ∈ f.edges, f.contains e.parent ∧ f.contains e.child
  oneParent : ∀ i, (f.incoming i).length ≤ 1
  /-- The places of the children of a node are `0, 1, 2, …`. -/
  places : ∀ i, (Edge.sort (f.outgoing i)).map Edge.ordinal = List.range (f.outgoing i).length
  /-- The roots are the nodes without a parent, each once. -/
  roots : f.sources.Nodup ∧ ∀ i, i ∈ f.sources ↔ f.contains i ∧ f.incoming i = []
  outputs : ∀ entry ∈ f.outputs, f.contains entry.2

theorem Valid.wellFormed (h : f.Valid) (hnodup : f.sources.Nodup) : f.WellFormed := by
  obtain ⟨rank, hrank⟩ := h.ranked
  refine ⟨fun i hi => ?_, h.graph.ends, h.single, fun i => ?_, ⟨hnodup, fun i => ?_⟩, h.outputs⟩
  · have hlt : ∀ {a b}, Relation.TransGen
        (fun p c => ∃ e ∈ f.edges, e.parent = p ∧ e.child = c) a b → rank a < rank b := by
      intro a b hab
      induction hab with
      | single hstep => exact hrank (mem_children.mpr hstep)
      | tail _ hstep ih => exact Nat.lt_trans ih (hrank (mem_children.mpr hstep))
    exact Nat.lt_irrefl _ (hlt hi)
  · simpa [Forest.contiguous, childCount] using h.contiguous i
  · rw [h.mem_sources]
    simp [parent?]

/-! ### Each root once -/

theorem ValidBut.nodup_sources_remove (h : f.ValidBut loose) (hnodup : f.sources.Nodup)
    (i : NodeId) : (f.remove i).sources.Nodup := by
  rw [sources_remove, h.single.sources_unwrap]
  cases f.parent? i with
  | some p => exact hnodup
  | none =>
    refine (perm_splice _ _ _).nodup_iff.mpr
      (List.Nodup.append (h.single.nodup_children i) (hnodup.filter _) fun c hc hs => ?_)
    exact h.not_mem_sources hc (List.mem_of_mem_filter hs)

theorem nodup_sources_insertAbove (hnodup : f.sources.Nodup) (hi : i ∉ f.sources) (c : NodeId) :
    (f.insertAbove i c).sources.Nodup := by
  unfold insertAbove
  split
  · rw [sources_attach, sources_attach, sources_detach]
    exact (hnodup.filter _).filter _
  · refine List.Nodup.filter _ ?_
    unfold replaceRoot
    split
    · exact hnodup.set hi
    · exact hnodup

theorem ValidBut.nodup_sources_add (h : f.ValidBut loose) (hnodup : f.sources.Nodup) (n : Node)
    (parent : Option NodeId) : (f.add n parent).1.sources.Nodup := by
  have hsources : (f.store n).1.sources.Nodup := by rwa [sources_store]
  cases parent with
  | some p => exact hsources.filter _
  | none =>
    have hnot : (f.store n).2 ∉ (f.store n).1.sources := fun hj => by
      rw [sources_store, h.roots, h.arena.fresh_store n] at hj
      exact Bool.noConfusion hj.1
    exact List.Nodup.append hsources (List.nodup_singleton _) fun j hj hjn =>
      hnot (List.mem_singleton.mp hjn ▸ hj)

end Forest

/-! ### All histories -/

theorem Move.Allowed.apply {f : Forest} (h : f.Valid) (hnodup : f.sources.Nodup) :
    ∀ {m : Move}, m.Allowed f → (m.apply f).Valid ∧ (m.apply f).sources.Nodup := by
  intro m hm
  cases m with
  | add n parent =>
    refine ⟨h.add n fun p hp => ?_, h.nodup_sources_add hnodup n parent⟩
    subst hp
    exact hm
  | remove i => exact ⟨h.remove i (by simp), h.nodup_sources_remove hnodup i⟩
  | setParent i p =>
    obtain ⟨hi, hp, hb⟩ := hm
    rw [h.mem_subtree] at hb
    refine ⟨h.setParent hi hp hb (by simp), ?_⟩
    show (f.setParent i p).sources.Nodup
    rw [Forest.sources_setParent]
    exact hnodup.filter _
  | absorb keep other =>
    obtain ⟨hk, -, hb⟩ := hm
    rw [h.mem_subtree] at hb
    refine ⟨h.absorb hk hb (by simp), ?_⟩
    have hadopt := h.adopt hk (fun _ hc => h.movable_children hb hc) (by simp)
    refine hadopt.nodup_sources_remove ?_ other
    rw [Forest.sources_adopt]
    exact hnodup.filter _
  | swap i =>
    show (f.exchange i).2.Valid ∧ (f.exchange i).2.sources.Nodup
    cases hr : (f.exchange i).1 with
    | error e =>
      rw [h.exchange_error hr]
      exact ⟨h, hnodup⟩
    | ok u =>
      obtain ⟨p, grand, hp, hg⟩ : ∃ p grand, f.parent? i = some p ∧ f.parent? p = some grand := by
        unfold Forest.exchange at hr
        cases hp : f.parent? i with
        | none => simp [hp] at hr
        | some p =>
          cases hg : f.parent? p with
          | none => simp [hp, hg] at hr
          | some grand => exact ⟨p, grand, rfl, hg⟩
      refine ⟨h.exchange hp hg, ?_⟩
      rw [h.sources_exchange hp hg]
      exact hnodup
  | copyAbove i child =>
    obtain ⟨hi, hc⟩ := hm
    obtain ⟨hcopy, hloose⟩ := h.duplicate hi
    obtain ⟨hcc, hne⟩ := h.contains_duplicate hi hc
    refine ⟨hcopy.insertAbove hloose (by simp) hcc (by simpa using hne), ?_⟩
    refine Forest.nodup_sources_insertAbove ?_ (fun hs => ?_) child
    · rwa [Forest.ValidBut.sources_duplicate]
    · exact (hcopy.roots.mp hs).2.2 List.mem_cons_self
  | copyBelow i p at_ =>
    obtain ⟨hi, hp⟩ := hm
    obtain ⟨hcopy, hloose⟩ := h.duplicate hi
    obtain ⟨hpc, hne⟩ := h.contains_duplicate hi hp
    refine ⟨hcopy.attach hloose.parentless hloose.live hpc (hloose.not_below hne) at_ ?_, ?_⟩
    · simp
    · show ((f.duplicate i).1.sources.filter _).Nodup
      rw [Forest.ValidBut.sources_duplicate]
      exact hnodup.filter _
  | register name i => exact ⟨h.register name hm, hnodup⟩

theorem Move.Admitted.run {f : Forest} (h : f.Valid) (hnodup : f.sources.Nodup) {moves : List Move}
    (hm : Move.Admitted f moves) : (Move.run f moves).Valid ∧ (Move.run f moves).sources.Nodup := by
  induction moves generalizing f with
  | nil => exact ⟨h, hnodup⟩
  | cons m rest ih =>
    obtain ⟨hvalid, hsources⟩ := hm.1.apply h hnodup
    exact ih hvalid hsources hm.2

theorem Forest.valid_empty (ids : IdSupply) : Forest.Valid { ids := ids } := by
  refine ⟨⟨⟨List.nodup_nil, by simp⟩, fun i => Nat.zero_le 1, ?_, fun _ => 0, ?_⟩, ?_, by simp,
    fun i => rfl, by simp⟩
  · intro p c hc
    exact absurd hc List.not_mem_nil
  · intro p c hc
    exact absurd hc List.not_mem_nil
  · simp [contains, node?]

/-- Whatever the history, the forest that it makes of the empty one is well formed and passes the
check, and an exchange that fails in it leaves it as it was. -/
theorem wellFormed_of_admitted (ids : IdSupply) (moves : List Move)
    (h : Move.Admitted { ids := ids } moves) :
    (Move.run { ids := ids } moves).WellFormed ∧ (Move.run { ids := ids } moves).check = .ok () ∧
      ∀ i e, ((Move.run { ids := ids } moves).exchange i).1 = .error e →
        ((Move.run { ids := ids } moves).exchange i).2 = Move.run { ids := ids } moves := by
  obtain ⟨hvalid, hnodup⟩ := h.run (Forest.valid_empty ids) List.nodup_nil
  exact ⟨hvalid.wellFormed hnodup, hvalid.check_eq_ok, fun _ _ he =>
    hvalid.exchange_error he⟩

/-- A history with every kind of move, after which node 3 hangs below a root. -/
def mixedHistory : List Move :=
  [.add (.source .empty) none, .add .identifier (some 0), .add (.output (.fresh "main" .main 0)) (some 1),
    .register "main" 2, .swap 2, .copyBelow 1 0 (some 0), .copyAbove 3 2, .setParent 1 3, .absorb 3 4,
    .remove 2]

theorem wellFormed_mixedHistory : Move.Admitted {} mixedHistory ∧
    (Move.run {} mixedHistory).WellFormed ∧ (Move.run {} mixedHistory).check = .ok () ∧
      ((Move.run {} mixedHistory).exchange 3).1 =
        .error (.invalidGraph "cannot swap a node below a root") ∧
      ((Move.run {} mixedHistory).exchange 3).2 = Move.run {} mixedHistory := by
  have hadmitted : Move.Admitted {} mixedHistory := by decide
  have hfails : ((Move.run {} mixedHistory).exchange 3).1 =
      .error (.invalidGraph "cannot swap a node below a root") := by rfl
  obtain ⟨hwell, hcheck, hkeep⟩ := wellFormed_of_admitted {} mixedHistory hadmitted
  exact ⟨hadmitted, hwell, hcheck, hfails, hkeep 3 _ hfails⟩

end ChartPlan.Flow
