import ChartPlan.Flow.Pass.Optimize
import ChartPlan.Proofs.Flow.Traversal

/-!
# What a pass can do to a forest

Every pass is a sequence of small rewrites: nodes are dropped, revised, exchanged with their parent,
shifted among nodes with the same rows, inserted or merged. `Rewrite` lists them, each with what the
pass knows when it makes the step. What all passes keep is then proved once for each rewrite.

* `Forest.Planted`: a valid forest whose roots are exactly its data sources;
* `Rewrite`, `Rewrites`: one rewrite, and any number of them;
* `Rewrite.planted`: every rewrite keeps a forest planted.
-/

namespace ChartPlan.Flow

/-! ### Merged nodes -/

namespace Aggregate

def names (a : Aggregate) (field op : String) : NameSet :=
  (((a.measures.get? field).getD []).get? op).getD []

/-- Whether an aggregate groups as another one does and gives all its results. -/
structure Extends (a b : Aggregate) : Prop where
  dimensions : a.dimensions = b.dimensions
  names : ∀ {field op name}, name ∈ b.names field op → name ∈ a.names field op

end Aggregate

namespace Node

/-- Whether a node may replace another one of its kind. -/
inductive Revises : Node → Node → Prop
  | coercion (c d : Coercion) : Revises (.parse c) (.parse d)
  | bins (a b : Bins) : Revises (.bin a) (.bin b)
  | timeUnits (a b : TimeUnits) : Revises (.timeUnit a) (.timeUnit b)
  | aggregate {a b : Aggregate} : a.Extends b → Revises (.aggregate a) (.aggregate b)

/-- Whether a node does the work of another one, so that it may take over its children. -/
inductive Subsumes : Node → Node → Prop
  | bins (a b : Bins) : Subsumes (.bin a) (.bin b)
  | timeUnits (a b : TimeUnits) : Subsumes (.timeUnit a) (.timeUnit b)
  | aggregate {a b : Aggregate} : a.Extends b → Subsumes (.aggregate a) (.aggregate b)
  | equal {m n : Node} : m.signature = n.signature → Subsumes m n

/-- Whether a node may be exchanged with its parent. -/
inductive Rises : Node → Node → Prop
  | coercion (c : Coercion) (m : Node) : Rises (.parse c) m
  | bins (b : Bins) {m : Node} : letsBinsPass m → Rises (.bin b) m

/-- Whether the rows below a node are those above it: outputs name rows, and coercions change values
only. -/
inductive Veil : Node → Prop
  | output (o : Output) : Veil (.output o)
  | coercion (c : Coercion) : Veil (.parse c)

end Node

namespace Forest

/-- Whether the node in a slot may be dropped, its children taking its place. -/
inductive Drops (f : Forest) (rowIds : Bool) (i : NodeId) : Node → Prop
  | output {o : Output} : f.requestCount o.name = 0 → Drops f rowIds i (.output o)
  | identifier : isNeedlessIdentifier rowIds f i → Drops f rowIds i .identifier
  | coercion (c : Coercion) : Drops f rowIds i (.parse c)
  | timeUnits (t : TimeUnits) : Drops f rowIds i (.timeUnit t)

/-- Whether a node is reached from another one through outputs and coercions only. -/
inductive Veiled (f : Forest) (a : NodeId) : NodeId → Prop
  | refl : Veiled f a a
  | step {p c : NodeId} {n : Node} : Veiled f a p → f.parent? c = some p → f.node? c = some n →
      n.Veil → Veiled f a c

theorem Veiled.toBelow {f : Forest} {a i : NodeId} (hf : f.Single) (h : f.Veiled a i) : f.Below a i := by
  induction h with
  | refl => exact .refl f a
  | step _ hp _ _ ih => exact ih.step (hf.parent?_eq_some.mp hp)

end Forest

open Forest in
/-- One step of a pass; `rowIds` tells whether a selection needs numbered rows. -/
inductive Rewrite (rowIds : Bool) : Forest → Forest → Prop
  | drop {f : Forest} {i : NodeId} {n : Node} :
      f.node? i = some n → Drops f rowIds i n → Rewrite rowIds f (f.remove i)
  | prune {f : Forest} {i : NodeId} {n : Node} :
      f.node? i = some n → endsBranch n = false → f.children i = [] → Rewrite rowIds f (f.remove i)
  | revise {f : Forest} {i : NodeId} {m n : Node} (signals : Renames) :
      f.node? i = some m → n.Revises m → Rewrite rowIds f { f.setNode i n with signals := signals }
  | raise {f : Forest} {i p grand : NodeId} {n m : Node} :
      f.node? i = some n → f.node? p = some m → n.Rises m → f.parent? i = some p →
      f.parent? p = some grand → Rewrite rowIds f (f.exchange i).2
  /-- A node moves below an output, or below a sibling. -/
  | shift {f : Forest} {c p q a : NodeId} :
      f.parent? c = some p → f.Veiled a p → f.Veiled a q → f.contains q → ¬ f.Below c q →
      f.holds q Node.isOutput ∨ f.parent? q = some p → Rewrite rowIds f (f.setParent c q)
  | insert {f : Forest} {p : NodeId} (c : Coercion) :
      f.contains p → Rewrite rowIds f (f.add (.parse c) (some p)).1
  /-- Siblings become one. -/
  | join {f : Forest} {keep other p : NodeId} {m n : Node} :
      f.node? keep = some m → f.node? other = some n → m.Subsumes n → keep ≠ other →
      f.parent? keep = some p → f.parent? other = some p → Rewrite rowIds f (f.absorb keep other)
  /-- A bin becomes part of the bin above it. -/
  | joinAbove {f : Forest} {keep other : NodeId} {a b : Bins} :
      f.node? keep = some (.bin a) → f.node? other = some (.bin b) → f.parent? other = some keep →
      Rewrite rowIds f (f.absorb keep other)

abbrev Rewrites (rowIds : Bool) : Forest → Forest → Prop :=
  Relation.ReflTransGen (Rewrite rowIds)

namespace Forest

variable {f g : Forest} {i j p q c : NodeId}

/-! ### Planted forests -/

/-- A valid forest, but for nodes that wait to be linked, whose roots are exactly its data sources. -/
structure PlantedBut (f : Forest) (loose : List NodeId) : Prop extends f.ValidBut loose where
  sourced : ∀ {i}, i ∈ f.sources ↔ f.holds i Node.isDataSource

/-- A valid forest whose roots are exactly its data sources. -/
abbrev Planted (f : Forest) : Prop :=
  f.PlantedBut []

theorem Graph.planted (hgraph : f.Graph) (hcheck : f.check = .ok ())
    (hroots : ∀ i, i ∈ f.sources ↔ f.holds i Node.isDataSource) : f.Planted where
  toValidBut := (hgraph.check_eq_ok_iff fun i hi => contains_of_holds ((hroots i).mp hi)).mp hcheck
  sourced := hroots _

theorem PlantedBut.register {loose : List NodeId} (h : f.PlantedBut loose) (name : String)
    (hi : f.contains i) : (f.register name i).PlantedBut loose :=
  ⟨h.toValidBut.register name hi, h.sourced⟩

theorem PlantedBut.modify {loose : List NodeId} (h : f.PlantedBut loose) (i : NodeId)
    {change : Node → Node}
    (hchange : ∀ n, f.node? i = some n → (change n).isDataSource = n.isDataSource) :
    (f.modify i change).PlantedBut loose := by
  refine ⟨h.toValidBut.modify i change, fun {j} => ?_⟩
  show j ∈ f.sources ↔ _
  rw [h.sourced]
  unfold holds
  rw [node?_modify]
  by_cases hj : j = i
  · subst hj
    cases hn : f.node? j with
    | none => simp
    | some n => simp [hchange n hn]
  · rw [if_neg hj]

namespace Planted

theorem parent?_eq_none_iff (h : f.Planted) (hi : f.contains i) :
    f.parent? i = none ↔ f.holds i Node.isDataSource := by
  rw [← h.sourced, h.roots]
  simp [hi]

theorem exists_parent (h : f.Planted) {n : Node} (hn : f.node? i = some n)
    (hsource : n.isDataSource = false) : ∃ p, f.parent? i = some p := by
  refine Option.ne_none_iff_exists'.mp fun hp => ?_
  obtain ⟨m, hm, hms⟩ := holds_iff.mp ((h.parent?_eq_none_iff (contains_of_node? hn)).mp hp)
  rw [hn] at hm
  cases hm
  rw [hsource] at hms
  exact Bool.noConfusion hms

theorem isDataSource_eq_false (h : f.Planted) {n : Node} (hn : f.node? i = some n)
    (hp : f.parent? i = some p) : n.isDataSource = false := by
  cases hs : n.isDataSource with
  | false => rfl
  | true =>
    have hnone := (h.parent?_eq_none_iff (contains_of_node? hn)).mpr (holds_iff.mpr ⟨n, hn, hs⟩)
    rw [hp] at hnone
    exact absurd hnone (Option.some_ne_none p)

theorem of_valid (h : f.Planted) (hvalid : g.Valid) (hsources : ∀ j, j ∈ g.sources ↔ j ∈ f.sources)
    (hholds : ∀ j, g.holds j Node.isDataSource = f.holds j Node.isDataSource) : g.Planted := by
  refine ⟨hvalid, fun {j} => ?_⟩
  rw [hsources, hholds]
  exact h.sourced

theorem holds_of_contents {P : Node → Bool} (h : g.contents = f.contents) (j : NodeId) :
    g.holds j P = f.holds j P := by
  unfold holds
  rw [node?_of_contents h]

theorem remove (h : f.Planted) {n : Node} (hn : f.node? i = some n)
    (hi : n.isDataSource = false ∨ f.children i = []) : (f.remove i).Planted := by
  refine ⟨h.toValidBut.remove i (by simp), fun {j} => ?_⟩
  have hholds : (f.remove i).holds j Node.isDataSource =
      (decide (j ≠ i) && f.holds j Node.isDataSource) := by
    unfold holds
    rw [node?_remove]
    by_cases hj : j = i <;> simp [hj]
  rw [hholds, sources_remove, h.single.sources_unwrap]
  cases hp : f.parent? i with
  | some p =>
    have hne : f.holds i Node.isDataSource = false := by
      rw [holds_of_node? hn]
      exact h.isDataSource_eq_false hn hp
    rw [h.sourced]
    by_cases hj : j = i
    · simp [hj, hne]
    · simp [hj]
  | none =>
    have hchildren : f.children i = [] := by
      refine hi.resolve_left fun hs => ?_
      obtain ⟨p, hp'⟩ := h.exists_parent hn hs
      exact absurd (hp.symm.trans hp') (Option.some_ne_none p).symm
    rw [mem_splice, hchildren, List.mem_filter, h.sourced]
    simp [and_comm]

theorem exchange (h : f.Planted) {grand : NodeId} (hp : f.parent? i = some p)
    (hg : f.parent? p = some grand) : (f.exchange i).2.Planted := by
  refine h.of_valid (h.toValidBut.exchange hp hg) (fun j => ?_)
    (holds_of_contents (h.contents_exchange hp hg))
  rw [h.sources_exchange hp hg]

theorem setParent (h : f.Planted) (hp : f.parent? c = some p) (hq : f.contains q)
    (hb : ¬ f.Below c q) : (f.setParent c q).Planted := by
  have hcp : c ∈ f.children p := h.child hp
  refine h.of_valid (h.toValidBut.setParent (h.live hcp).2 hq hb (by simp)) (fun j => ?_)
    (holds_of_contents (contents_setParent f c q))
  have hc : c ∉ f.sources := h.not_mem_sources hcp
  rw [sources_setParent, List.mem_filter]
  exact ⟨fun hj => hj.1, fun hj => ⟨hj, by simpa using fun he : j = c => hc (he ▸ hj)⟩⟩

theorem absorb (h : f.Planted) (hp : f.contains p) (hb : ¬ f.Below i p) {n : Node}
    (hn : f.node? i = some n) (hsource : n.isDataSource = false) : (f.absorb p i).Planted := by
  have hadopt : (f.adopt p (f.children i)).Planted := by
    refine h.of_valid (h.toValidBut.adopt hp (fun _ hc => h.movable_children hb hc)
      (by simp)) (fun j => ?_) (holds_of_contents (contents_adopt f p _))
    rw [sources_adopt, List.mem_filter]
    refine ⟨fun hj => hj.1, fun hj => ⟨hj, ?_⟩⟩
    simpa using fun hc : j ∈ f.children i => h.not_mem_sources hc hj
  refine hadopt.remove (n := n) ?_ (.inl hsource)
  rw [node?_of_contents (contents_adopt f p _)]
  exact hn

end Planted

theorem snd_add (f : Forest) (n : Node) (parent : Option NodeId) :
    (f.add n parent).2 = (f.store n).2 := by
  cases parent <;> rfl

theorem Arena.node?_add (h : f.Arena) (n : Node) (parent : Option NodeId) (j : NodeId) :
    (f.add n parent).1.node? j = if j = (f.add n parent).2 then some n else f.node? j := by
  rw [snd_add, ← h.node?_store]
  cases parent <;> rfl

section

variable (h : f.Arena) (n : Node) (parent : Option NodeId)

include h

theorem Arena.node?_add_self : (f.add n parent).1.node? (f.add n parent).2 = some n := by
  rw [h.node?_add, if_pos rfl]

theorem Arena.ne_add (hj : f.contains j) : j ≠ (f.add n parent).2 := by
  rintro rfl
  rw [snd_add, h.fresh_store n] at hj
  cases hj

theorem Arena.node?_add_of_contains (hj : f.contains j) : (f.add n parent).1.node? j = f.node? j := by
  rw [h.node?_add, if_neg (h.ne_add n parent hj)]

variable {n parent}

theorem Arena.node?_of_add {m : Node} (hm : (f.add n parent).1.node? j = some m) :
    j = (f.add n parent).2 ∧ m = n ∨ f.node? j = some m := by
  rw [h.node?_add] at hm
  split at hm
  · cases hm
    exact .inl ⟨‹_›, rfl⟩
  · exact .inr hm

end

theorem Planted.add (h : f.Planted) {n : Node} (hn : n.isDataSource = false) (hp : f.contains p) :
    (f.add n (some p)).1.Planted := by
  have hvalid : (f.add n (some p)).1.Valid := h.toValidBut.add n (by simpa using hp)
  refine h.of_valid hvalid (fun j => ?_) fun j => ?_
  · show j ∈ (f.store n).1.sources.filter _ ↔ _
    rw [sources_store, List.mem_filter]
    exact ⟨fun hj => hj.1, fun hj =>
      ⟨hj, bne_iff_ne.mpr (h.arena.ne_add n (some p) (h.roots.mp hj).1)⟩⟩
  · unfold holds
    rw [h.arena.node?_add]
    split
    · rename_i hj
      have hnone : f.node? j = none := by
        rw [hj, snd_add]
        simpa [contains] using h.arena.fresh_store n
      rw [hnone]
      exact hn
    · rfl

end Forest

/-! ### Rewrites keep a forest planted -/

theorem Node.Revises.isDataSource {m n : Node} (h : m.Revises n) :
    m.isDataSource = n.isDataSource := by
  cases h <;> rfl

theorem Forest.Drops.isDataSource {rowIds : Bool} {f : Forest} {i : NodeId} {n : Node}
    (h : f.Drops rowIds i n) :
    n.isDataSource = false := by
  cases h <;> rfl

theorem Rewrite.planted {rowIds : Bool} {f g : Forest} (h : Rewrite rowIds f g) (hf : f.Planted) :
    g.Planted := by
  cases h with
  | drop hn hd => exact hf.remove hn (.inl hd.isDataSource)
  | prune hn _ hc => exact hf.remove hn (.inr hc)
  | @revise i m n signals hm hr =>
    have hset : (f.setNode i n).Planted := hf.modify i fun k hk => by
      rw [hm] at hk
      cases hk
      exact hr.isDataSource
    exact hset.of_valid (hset.toValidBut.congr rfl rfl ⟨hset.arena.nodup, hset.arena.vacant⟩
      (fun _ => rfl) hset.outputs) (fun _ => Iff.rfl) fun _ => rfl
  | raise _ _ _ hp hg => exact hf.exchange hp hg
  | shift hp _ _ hq hb _ => exact hf.setParent hp hq hb
  | insert c hp => exact hf.add rfl hp
  | join hk ho _ hne hkp hop =>
    exact hf.absorb (Forest.contains_of_node? hk) (hf.not_below_sibling hkp hop hne) ho
      (hf.isDataSource_eq_false ho hop)
  | joinAbove hk ho hp =>
    refine hf.absorb (Forest.contains_of_node? hk) ?_ ho rfl
    exact hf.not_below_of_child (hf.child hp)

theorem Rewrites.planted {rowIds : Bool} {f g : Forest} (h : Rewrites rowIds f g)
    (hf : f.Planted) : g.Planted := by
  induction h with
  | refl => exact hf
  | tail _ hstep ih => exact hstep.planted ih

end ChartPlan.Flow
