import ChartPlan.Proofs.Flow.Moves

/-!
# Valid forests

A valid forest is linked, its roots are the nodes without a parent, the places of children have no
gaps, and named outputs point to nodes that are there. Every move keeps a forest valid. While a
subtree is copied, some nodes wait to be linked; they are neither linked nor roots, so validity is
stated up to a list of waiting nodes.

* `Forest.ValidBut`: valid up to the waiting nodes; `Forest.Valid`: no node waits;
* `ValidBut.setParent`, `ValidBut.remove`, `ValidBut.absorb`, `ValidBut.exchange`, …: one statement
  for every move;
* `ValidBut.duplicate`: a copy waits until it is linked by `ValidBut.attach` or
  `ValidBut.insertAbove`.
-/

namespace ChartPlan.Flow.Forest

open List Option

variable {f g : Forest} {i j p q c : NodeId} {loose : List NodeId}

/-- Links, roots, places and outputs are right, but for the nodes that wait to be linked. -/
structure ValidBut (f : Forest) (loose : List NodeId) : Prop extends Linked f where
  roots : ∀ {i}, i ∈ f.sources ↔ f.contains i ∧ f.parent? i = none ∧ i ∉ loose
  waiting : ∀ {i}, i ∈ loose → f.contains i ∧ f.parent? i = none
  contiguous : ∀ i, f.contiguous i
  outputs : ∀ entry ∈ f.outputs, f.contains entry.2

abbrev Valid (f : Forest) : Prop :=
  f.ValidBut []

theorem Valid.mem_sources (h : f.Valid) : i ∈ f.sources ↔ f.contains i ∧ f.parent? i = none := by
  rw [h.roots]
  simp

namespace ValidBut

theorem not_mem_sources (h : f.ValidBut loose) (hc : c ∈ f.children p) : c ∉ f.sources := by
  intro hs
  have hp := (h.roots.mp hs).2.1
  rw [h.parent?_of_mem hc] at hp
  exact some_ne_none p hp

theorem congr (h : f.ValidBut loose) (hedges : g.edges = f.edges) (hsources : g.sources = f.sources)
    (harena : g.Arena) (hcontains : ∀ i, g.contains i = f.contains i)
    (houtputs : ∀ entry ∈ g.outputs, f.contains entry.2) : g.ValidBut loose := by
  refine ⟨h.toLinked.congr hedges harena fun i hi => by rwa [hcontains], ?_, ?_, ?_, ?_⟩
  · intro i
    rw [hsources, hcontains, parent?_congr hedges]
    exact h.roots
  · intro i hi
    rw [hcontains, parent?_congr hedges]
    exact h.waiting hi
  · intro i
    rw [contiguous_congr hedges]
    exact h.contiguous i
  · intro entry he
    rw [hcontains]
    exact houtputs entry he

/-! ### Changing nodes and entries -/

end ValidBut

section

variable (f : Forest) (i : NodeId)

theorem node?_modify (change : Node → Node) (j : NodeId) :
    (f.modify i change).node? j = if j = i then (f.node? j).map change else f.node? j := by
  unfold modify node?
  rw [List.getElem?_modify]
  by_cases hj : i = j
  · subst hj
    cases f.slots[i]? with
    | none => simp
    | some n => simp
  · cases f.slots[j]? with
    | none => simp
    | some n => simp [hj, Ne.symm hj]

theorem node?_setNode (n : Node) (j : NodeId) :
    (f.setNode i n).node? j = if j = i then (f.node? j).map fun _ => n else f.node? j :=
  node?_modify f i _ j

theorem contains_modify (change : Node → Node) (j : NodeId) :
    (f.modify i change).contains j = f.contains j := by
  unfold contains
  rw [node?_modify]
  split <;> simp

end

theorem Arena.modify (h : f.Arena) (i : NodeId) (change : Node → Node) :
    (f.modify i change).Arena := by
  refine ⟨h.nodup, fun j hj => ⟨?_, ?_⟩⟩
  · simpa [Forest.modify] using (h.vacant j hj).1
  · rw [contains_modify]
    exact (h.vacant j hj).2

theorem Linked.modify (h : f.Linked) (i : NodeId) (change : Node → Node) : (f.modify i change).Linked :=
  h.congr rfl (h.arena.modify i change) fun j hj => (contains_modify f i change j).trans hj

namespace ValidBut

variable (h : f.ValidBut loose)

include h

theorem modify (i : NodeId) (change : Node → Node) :
    (f.modify i change).ValidBut loose :=
  h.congr rfl rfl (h.arena.modify i change) (contains_modify f i change) h.outputs

theorem register (name : String) (hi : f.contains i) :
    (f.register name i).ValidBut loose := by
  refine h.congr rfl rfl ⟨h.arena.nodup, h.arena.vacant⟩ (fun _ => rfl) fun entry he => ?_
  rcases Dict.mem_of_mem_insert he with rfl | he
  · exact hi
  · exact h.outputs entry he

/-! ### Links -/

theorem attach (hroot : f.parent? i = none) (hi : f.contains i)
    (hp : f.contains p) (hb : ¬ f.Below i p) (k : Option Nat) {rest : List NodeId}
    (hrest : ∀ j, j ∈ rest ↔ j ≠ i ∧ j ∈ loose) : (f.attach i p k).ValidBut rest := by
  have hcontains := contains_of_contents (contents_attach f i p k)
  refine ⟨h.toLinked.attach (h.single.parent?_eq_none.mp hroot) hi hp hb k, ?_, ?_, ?_, ?_⟩
  · intro j
    rw [sources_attach, mem_filter, h.roots, hcontains, h.single.parent?_attach hroot]
    by_cases hj : j = i
    · simp [hj]
    · simp [hj, hrest]
  · intro j hj
    obtain ⟨hne, hj⟩ := (hrest j).mp hj
    rw [hcontains, h.single.parent?_attach hroot, if_neg hne]
    exact h.waiting hj
  · exact contiguous_attach h.contiguous i p k
  · intro entry he
    rw [hcontains]
    exact h.outputs entry he

theorem setParent (hi : f.contains i) (hp : f.contains p)
    (hb : ¬ f.Below i p) (hloose : i ∉ loose) : (f.setParent i p).ValidBut loose := by
  have hcontains := contains_of_contents (contents_setParent f i p)
  refine ⟨h.toLinked.setParent hi hp hb, ?_, ?_, ?_, ?_⟩
  · intro j
    rw [sources_setParent, mem_filter, h.roots, hcontains, h.single.parent?_setParent]
    by_cases hj : j = i <;> simp [hj]
  · intro j hj
    have hne : j ≠ i := fun he => hloose (he ▸ hj)
    rw [hcontains, h.single.parent?_setParent, if_neg hne]
    exact h.waiting hj
  · exact contiguous_attach (contiguous_detach h.contiguous i) i p none
  · intro entry he
    rw [outputs_of_contents (contents_setParent f i p)] at he
    rw [hcontains]
    exact h.outputs entry he

theorem adopt (hp : f.contains p) {cs : List NodeId}
    (hcs : ∀ c ∈ cs, f.Movable p c) (hloose : ∀ c ∈ cs, c ∉ loose) :
    (f.adopt p cs).ValidBut loose := by
  have hcontains := contains_of_contents (contents_adopt f p cs)
  refine ⟨h.toLinked.adopt hp hcs, ?_, ?_, contiguous_adopt h.contiguous p cs, ?_⟩
  · intro j
    rw [sources_adopt, mem_filter, h.roots, hcontains, h.single.parent?_adopt]
    by_cases hj : j ∈ cs <;> simp [hj]
  · intro j hj
    rw [hcontains, h.single.parent?_adopt, if_neg fun hc => hloose j hc hj]
    exact h.waiting hj
  · intro entry he
    rw [outputs_of_contents (contents_adopt f p cs)] at he
    rw [hcontains]
    exact h.outputs entry he

/-! ### Removal -/

end ValidBut

theorem Single.sources_unwrap (h : f.Single) (i : NodeId) :
    (f.unwrap i).sources = match f.parent? i with
      | some _ => f.sources
      | none => splice (f.sources.filter (· != i))
          ((f.sources.idxOf? i).getD (f.sources.filter (· != i)).length) (f.children i) := by
  unfold unwrap
  rw [h.place?_eq]
  cases f.parent? i with
  | none => rfl
  | some p => exact sources_detach f i

theorem sources_remove (f : Forest) (i : NodeId) : (f.remove i).sources = (f.unwrap i).sources := by
  show ((f.unwrap i).clear i).sources = _
  unfold clear
  split <;> rfl

theorem outputs_remove (f : Forest) (i : NodeId) :
    (f.remove i).outputs = f.outputs.filter fun entry => entry.2 != i := by
  show (((f.unwrap i).clear i).outputs.filter fun entry => entry.2 != i) = _
  have hclear : ((f.unwrap i).clear i).outputs = (f.unwrap i).outputs := by
    unfold clear
    split <;> rfl
  rw [hclear, outputs_of_contents (contents_unwrap f i)]

theorem contiguous_unwrap (h : ∀ q, f.contiguous q) (i q : NodeId) : (f.unwrap i).contiguous q := by
  unfold unwrap
  cases f.place? i with
  | none => exact h q
  | some at_ => exact contiguous_setChildren _ _ _ q fun _ => contiguous_detach h i q

theorem Linked.contiguous_remove (h : f.Linked) (hcont : ∀ q, f.contiguous q) (i q : NodeId) :
    (f.remove i).contiguous q := by
  have hu := contiguous_unwrap hcont i q
  unfold Forest.contiguous childCount at hu ⊢
  rw [h.outgoing_remove]
  split
  · rfl
  · exact hu

namespace ValidBut

section

variable (h : f.ValidBut loose)

include h

theorem not_loose (hp : f.parent? c = some p) : c ∉ loose := fun hc =>
  some_ne_none p (hp.symm.trans (h.waiting hc).2)

theorem remove (i : NodeId) (hloose : i ∉ loose) :
    (f.remove i).ValidBut loose := by
  refine ⟨h.toLinked.remove i, ?_, ?_, h.contiguous_remove h.contiguous i, ?_⟩
  · intro j
    rw [sources_remove, h.single.sources_unwrap, contains_remove, h.parent?_remove]
    cases hp : f.parent? i with
    | some p =>
      show j ∈ f.sources ↔ _
      rw [h.roots]
      by_cases hj : j = i
      · simp [hj, hp]
      · by_cases hji : f.parent? j = some i <;> simp [hj, hji]
    | none =>
      rw [mem_splice, mem_filter, h.roots, ← h.single.parent?_eq_some]
      by_cases hj : j = i
      · simp [hj, hp]
      · by_cases hji : f.parent? j = some i
        · simp [hj, hji, h.not_loose hji, (h.live_of_parent? hji).2]
        · simp [hj, hji]
  · intro j hj
    have hne : j ≠ i := fun he => hloose (he ▸ hj)
    rw [contains_remove, h.parent?_remove, if_neg hne, (h.waiting hj).2]
    simp [hne, (h.waiting hj).1]
  · intro entry he
    rw [outputs_remove, mem_filter] at he
    rw [contains_remove, h.outputs entry he.1]
    simpa using he.2

theorem absorb (hp : f.contains p) (hb : ¬ f.Below i p) (hloose : i ∉ loose) :
    (f.absorb p i).ValidBut loose :=
  (h.adopt hp (fun _ hc => h.movable_children hb hc)
    fun _ hc => h.not_loose (h.parent?_of_mem hc)).remove i hloose

/-! ### Exchange -/

theorem sources_exchange {grand : NodeId} (hp : f.parent? i = some p)
    (hg : f.parent? p = some grand) : (f.exchange i).2.sources = f.sources := by
  have hip : i ∈ f.children p := h.child hp
  have hpg : p ∈ f.children grand := h.child hg
  have hr := h.release hip
  rw [h.exchange_eq hp hg, hr.insertAbove_eq (h.parent?_release_parent hp hg), sources_attach, sources_attach,
    sources_detach, sources_release, List.filter_filter, List.filter_filter]
  refine List.filter_eq_self.mpr fun j hj => ?_
  have hji : j ≠ i := fun he => h.not_mem_sources hip (he ▸ hj)
  have hjp : j ≠ p := fun he => h.not_mem_sources hpg (he ▸ hj)
  have hjc : j ∉ f.children i := fun hc => h.not_mem_sources hc hj
  simp [hji, hjp, hjc]

theorem exchange {grand : NodeId} (hp : f.parent? i = some p)
    (hg : f.parent? p = some grand) : (f.exchange i).2.ValidBut loose := by
  obtain ⟨hlinked, hparent⟩ := h.toLinked.exchange hp hg
  have hcontents := h.contents_exchange hp hg
  have hcontains := contains_of_contents hcontents
  -- A node has a parent afterwards exactly when it had one.
  have hnone : ∀ j, (f.exchange i).2.parent? j = none ↔ f.parent? j = none := fun j => by
    rw [hparent]
    by_cases hjp : j = p
    · simp [hjp, hg]
    · rw [if_neg hjp]
      by_cases hji : j = i
      · simp [hji, hp]
      · by_cases hj : f.parent? j = some i <;> simp [hji, hj]
  refine ⟨hlinked, ?_, ?_, ?_, ?_⟩
  · intro j
    rw [h.sources_exchange hp hg, hcontains, hnone]
    exact h.roots
  · intro j hj
    rw [hcontains, hnone]
    exact h.waiting hj
  · rw [h.exchange_eq hp hg]
    exact contiguous_insertAbove (contiguous_adopt (contiguous_detach h.contiguous i) p _) i p
  · intro entry he
    rw [outputs_of_contents hcontents] at he
    rw [hcontains]
    exact h.outputs entry he

end

/-! ### New nodes -/

section

variable (h : f.ValidBut loose) (n : Node)

include h

theorem store : (f.store n).1.ValidBut ((f.store n).2 :: loose) := by
  have hedges := edges_store f n
  have hfresh := h.arena.fresh_store n
  have hcontains := h.arena.contains_store n
  have hparent := h.parent?_eq_none_of_vacant hfresh
  refine ⟨h.toLinked.congr hedges (h.arena.store n) ?_, ?_, ?_, ?_, ?_⟩
  · intro j hj
    rw [hcontains, hj, Bool.or_true]
  · intro j
    rw [sources_store, h.roots, hcontains, parent?_congr hedges, mem_cons, not_or]
    by_cases hj : j = (f.store n).2
    · simp [hj, hfresh]
    · simp [hj]
  · intro j hj
    rw [hcontains, parent?_congr hedges]
    rcases mem_cons.mp hj with rfl | hj
    · simp [hparent]
    · simp [h.waiting hj]
  · intro j
    rw [contiguous_congr hedges]
    exact h.contiguous j
  · intro entry he
    rw [outputs_store] at he
    rw [hcontains, h.outputs entry he, Bool.or_true]

theorem loose_store : (f.store n).1.Loose (f.store n).2 := by
  have hfresh := h.arena.fresh_store n
  have hw := (h.store n).waiting mem_cons_self
  refine ⟨hw.1, hw.2, ?_⟩
  rw [children_congr (edges_store f n)]
  exact h.children_eq_nil hfresh

theorem add {parent : Option NodeId} (hp : ∀ p, parent = some p → f.contains p) :
    (f.add n parent).1.ValidBut loose := by
  have hs := h.store n
  have hl := h.loose_store n
  have hfresh := h.arena.fresh_store n
  have hnot : (f.store n).2 ∉ loose := fun hm => by simp [(h.waiting hm).1] at hfresh
  cases parent with
  | some p =>
    have hpc : f.contains p := hp p rfl
    have hne : p ≠ (f.store n).2 := fun he => by simp [← he, hpc] at hfresh
    refine hs.attach hl.parentless hl.live ?_ (hl.not_below hne) none fun j => ?_
    · rw [h.arena.contains_store, hpc, Bool.or_true]
    · rw [mem_cons]
      exact ⟨fun hj => ⟨fun he => hnot (he ▸ hj), .inr hj⟩, fun hj => hj.2.resolve_left hj.1⟩
  | none =>
    refine ⟨⟨⟨hs.arena.nodup, hs.arena.vacant⟩, hs.single, hs.live, hs.ranked⟩, ?_, ?_,
      hs.contiguous, hs.outputs⟩
    · intro j
      show j ∈ (f.store n).1.sources ++ [(f.store n).2] ↔
        (f.store n).1.contains j ∧ (f.store n).1.parent? j = none ∧ j ∉ loose
      rw [mem_append, mem_singleton, hs.roots, mem_cons, not_or]
      by_cases hj : j = (f.store n).2
      · simp [hj, hl.live, hl.parentless, hnot]
      · simp [hj]
    · exact fun hj => hs.waiting (mem_cons_of_mem _ hj)

end

theorem duplicate_eq {n : Node} (hn : f.node? i = some n) :
    f.duplicate i = { f with ids := (n.refresh f.ids).2 }.store (n.refresh f.ids).1 := by
  unfold Forest.duplicate
  rw [hn]

theorem node?_duplicate (h : f.ValidBut loose) {n : Node} (hn : f.node? i = some n) (j : NodeId) :
    f.contains (f.duplicate i).2 = false ∧ (f.duplicate i).1.node? j =
      if j = (f.duplicate i).2 then some (n.refresh f.ids).1 else f.node? j := by
  have harena : { f with ids := (n.refresh f.ids).2 }.Arena := ⟨h.arena.nodup, h.arena.vacant⟩
  rw [duplicate_eq hn]
  exact ⟨harena.fresh_store _, harena.node?_store _ j⟩

theorem edges_duplicate (f : Forest) (i : NodeId) : (f.duplicate i).1.edges = f.edges := by
  unfold Forest.duplicate
  cases f.node? i with
  | none => rfl
  | some n => exact edges_store _ _

theorem sources_duplicate (f : Forest) (i : NodeId) : (f.duplicate i).1.sources = f.sources := by
  unfold Forest.duplicate
  cases f.node? i with
  | none => rfl
  | some n => exact sources_store _ _

theorem duplicate (h : f.ValidBut loose) (hi : f.contains i) :
    (f.duplicate i).1.ValidBut ((f.duplicate i).2 :: loose) ∧
      (f.duplicate i).1.Loose (f.duplicate i).2 := by
  obtain ⟨n, hn⟩ := exists_node hi
  have hids : { f with ids := (n.refresh f.ids).2 }.ValidBut loose :=
    h.congr rfl rfl ⟨h.arena.nodup, h.arena.vacant⟩ (fun _ => rfl) h.outputs
  rw [duplicate_eq hn]
  exact ⟨hids.store _, hids.loose_store _⟩

theorem contains_duplicate (h : f.ValidBut loose) (hi : f.contains i) (hc : f.contains c) :
    (f.duplicate i).1.contains c ∧ c ≠ (f.duplicate i).2 := by
  obtain ⟨n, hn⟩ := exists_node hi
  obtain ⟨hfresh, hnode⟩ := h.node?_duplicate hn c
  have hne : c ≠ (f.duplicate i).2 := fun he => by simp [← he, hc] at hfresh
  refine ⟨?_, hne⟩
  unfold contains
  rw [hnode, if_neg hne]
  exact hc

end ValidBut

theorem mem_sources_replaceRoot (hne : i ≠ c) (hc : c ∈ f.sources) :
    j ∈ (f.replaceRoot c i).sources.filter (· != c) ↔ j = i ∨ (j ∈ f.sources ∧ j ≠ c) := by
  obtain ⟨k, hk⟩ : ∃ k, f.sources.idxOf? c = some k :=
    isSome_iff_exists.mp (isSome_idxOf?.mpr hc)
  obtain ⟨hlt, hget, -⟩ := List.idxOf?_eq_some_iff.mp hk
  have hr : (f.replaceRoot c i).sources = f.sources.set k i := by
    unfold replaceRoot
    rw [hk]
  rw [hr, mem_filter]
  constructor
  · rintro ⟨hj, hjc⟩
    rcases mem_or_eq_of_mem_set hj with hj | hj
    · exact .inr ⟨hj, by simpa using hjc⟩
    · exact .inl hj
  · rintro (rfl | ⟨hj, hjc⟩)
    · exact ⟨mem_set hlt _, by simpa using hne⟩
    · obtain ⟨m, hm, rfl⟩ := mem_iff_getElem.mp hj
      refine ⟨?_, by simpa using hjc⟩
      have hkm : k ≠ m := fun he => hjc (by subst he; simpa using hget)
      have hget' : (f.sources.set k i)[m]? = some f.sources[m] := by
        rw [List.getElem?_set_ne hkm, List.getElem?_eq_getElem hm]
      exact mem_of_getElem? hget'

theorem ValidBut.insertAbove (h : f.ValidBut (i :: loose)) (hi : f.Loose i) (hnot : i ∉ loose)
    (hc : f.contains c) (hwait : c ∉ i :: loose) : (f.insertAbove i c).ValidBut loose := by
  have hne : i ≠ c := fun he => hwait (he ▸ mem_cons_self)
  have hcontents := contents_insertAbove f i c
  have hcontains := contains_of_contents hcontents
  obtain ⟨hlinked, hparent⟩ := h.toLinked.insertAbove hi hc hne
  have hloose : ∀ j ∈ loose, (f.insertAbove i c).contains j ∧
      (f.insertAbove i c).parent? j = none := fun j hj => by
    have hji : j ≠ i := fun he => hnot (he ▸ hj)
    have hjc : j ≠ c := fun he => hwait (he ▸ mem_cons_of_mem i hj)
    rw [hcontains, hparent, if_neg hjc, if_neg hji]
    exact h.waiting (mem_cons_of_mem i hj)
  refine ⟨hlinked, ?_, fun {j} hj => hloose j hj, contiguous_insertAbove h.contiguous i c, ?_⟩
  · intro j
    rw [hcontains, hparent]
    cases hp : f.parent? c with
    | some p =>
      rw [h.insertAbove_eq hp, sources_attach, sources_attach, sources_detach,
        List.filter_filter, List.mem_filter, h.roots, List.mem_cons, not_or]
      by_cases hjc : j = c
      · simp [hjc]
      · by_cases hji : j = i
        · simp [hji, hne]
        · simp [hjc, hji]
    | none =>
      have hcs : c ∈ f.sources := h.roots.mpr ⟨hc, hp, hwait⟩
      rw [h.single.insertAbove_root hp, sources_attach, mem_sources_replaceRoot hne hcs, h.roots, mem_cons, not_or]
      by_cases hjc : j = c
      · simp [hjc, Ne.symm hne]
      · by_cases hji : j = i
        · simp [hji, hne, hi.live, hnot]
        · simp [hjc, hji]
  · intro entry he
    rw [outputs_of_contents hcontents] at he
    rw [hcontains]
    exact h.outputs entry he

end ChartPlan.Flow.Forest

/-! ### Nodes that become one -/

namespace ChartPlan.Flow

open Forest

variable {f g : Forest} {i j p keep other : NodeId} {n : Node}

/-- A node was revised and has taken over another one. -/
structure Joined (f g : Forest) (keep other : NodeId) (merged : Node) : Prop where
  linked : g.Linked
  node : ∀ j, g.node? j = if j = other then none else if j = keep then some merged else f.node? j
  parent : ∀ j, g.parent? j =
    if j = other then none else if f.parent? j = some other then some keep else f.parent? j

namespace Joined

variable {merged : Node}

section

variable (h : Joined f g keep other merged)

include h

theorem node_keep (hne : keep ≠ other) : g.node? keep = some merged := by
  rw [h.node, if_neg hne, if_pos rfl]

theorem node_of_ne (hk : j ≠ keep) (ho : j ≠ other) : g.node? j = f.node? j := by
  rw [h.node, if_neg ho, if_neg hk]

theorem contains_of_contains (hk : f.contains keep) (hlive : g.contains j) :
    j ≠ other ∧ f.contains j := by
  have hjo : j ≠ other := fun he => by
    rw [contains, h.node, if_pos he] at hlive
    cases hlive
  refine ⟨hjo, ?_⟩
  by_cases hjk : j = keep
  · rwa [hjk]
  · rwa [contains, h.node_of_ne hjk hjo] at hlive

end

end Joined

theorem Forest.Linked.joined_absorb (hf : f.Linked) (hk : f.contains keep) (hb : ¬ f.Below other keep)
    (merged : Node) (signals : Renames) :
    Joined f (Forest.absorb { f.setNode keep merged with signals } keep other) keep other merged := by
  have hcontains : ∀ j, (f.setNode keep merged).contains j = f.contains j := contains_modify f keep _
  have hset := hf.modify keep fun _ => merged
  have hrevised : Forest.Linked { f.setNode keep merged with signals } :=
    hset.congr rfl ⟨hset.arena.nodup, hset.arena.vacant⟩ fun _ hj => hj
  have hlive : (f.setNode keep merged).contains keep := (hcontains keep).trans hk
  refine ⟨hrevised.absorb hlive hb, fun j => ?_, fun j => ?_⟩
  · rw [node?_absorb]
    show (if j = other then none else (f.setNode keep _).node? j) = _
    rw [node?_setNode]
    by_cases hj : j = keep
    · obtain ⟨n, hn⟩ := exists_node hk
      simp [hj, hn]
    · simp [hj]
  · exact hrevised.parent?_absorb hlive hb j

theorem Forest.Linked.joined_merge (hf : f.Linked) (hp : f.parent? i = some p)
    (hn : f.node? p = some n) (merged : Node) :
    Joined f ((f.setNode p merged).remove i) p i merged := by
  have hset : (f.setNode p merged).Linked := hf.modify p _
  have hedges : ∀ j, (f.setNode p merged).parent? j = f.parent? j := parent?_congr rfl
  refine ⟨hset.remove i, fun j => ?_, fun j => ?_⟩
  · rw [node?_remove, node?_setNode]
    by_cases hj : j = p
    · simp [hj, hn]
    · simp [hj]
  · rw [hset.parent?_remove, hedges, hedges, hp]

end ChartPlan.Flow
