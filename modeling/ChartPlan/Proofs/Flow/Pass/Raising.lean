import ChartPlan.Proofs.Flow.Pass.Pruning
import ChartPlan.Proofs.Flow.Trace
import ChartPlan.Proofs.Json.Fields

/-!
# Rising coercions keep the kinds of fields

The kind of a field at the end of a path is the one of the last coercion on the path that mentions the
field, unless a later node may write the field. A coercion that rises changes places with an only
parent that does not write its fields, or it becomes part of the coercion above it. Neither is seen at
the leaves, nor does any node but a coercion change its place.

* `Forest.kindAt?`, `Forest.stages`: the kinds of fields at a node, and the nodes on its path.
* `Lift`: one step of a rising coercion; `Lift.passage_eq` and `Lift.isLeaf_iff` say what it keeps.
* `moveParseUp_keeps_kinds`: what the whole pass keeps.
-/

namespace ChartPlan.Flow

open Forest List Option

/-! ### Kinds along a path -/

/-- The kind of a field behind a node: a coercion gives it, and a node that may write the field makes
it unknown. -/
def Node.kindAfter? (field : String) (before : Option String) : Node → Option String
  | .parse c => (c.kinds.get? field).or before
  | n => if mayWrite n [field] then none else before

/-- A node in its place; none when the node is a coercion. -/
def Node.stage? (i : NodeId) : Node → Option (NodeId × Node)
  | .parse _ => none
  | n => some (i, n)

/-- The kind of a field at the end of a path, whose nodes are listed from its end. -/
def kindAlong? (field : String) : List Node → Option String
  | [] => none
  | n :: above => n.kindAfter? field (kindAlong? field above)

namespace Forest

/-- The kind of a field at a node: the one of the last coercion on the path that mentions the field,
unless a later node may write the field. -/
def kindAt? (f : Forest) (i : NodeId) (field : String) : Option String :=
  kindAlong? field ((f.path i).reverse.filterMap f.node?)

/-- The nodes on the path to a node that are no coercions, the one nearest to the root first. -/
def stages (f : Forest) (i : NodeId) : List (NodeId × Node) :=
  (f.path i).filterMap fun j => (f.node? j).bind (Node.stage? j)

end Forest

section

variable {n : Node} {c d : Coercion} {field : String} {fields : NameSet}

theorem Node.kindAfter?_of_parse? (h : n.parse? = none) (before : Option String) :
    n.kindAfter? field before = if mayWrite n [field] then none else before := by
  cases n with
  | parse c => cases h
  | _ => rfl

theorem Node.kindAfter?_comm (hn : n.parse? = none) (hfree : mayWrite n c.fields = false)
    (before : Option String) : (Node.parse c).kindAfter? field (n.kindAfter? field before) =
      n.kindAfter? field ((Node.parse c).kindAfter? field before) := by
  rw [kindAfter?_of_parse? hn, kindAfter?_of_parse? hn]
  show (c.kinds.get? field).or _ = if mayWrite n [field] then none else (c.kinds.get? field).or before
  cases hkind : c.kinds.get? field with
  | none => rfl
  | some kind =>
    have hmem : field ∈ c.fields := mem_map_of_mem (Dict.mem_of_get? hkind)
    rw [mayWrite_of_mem hfree hmem]
    rfl

theorem Node.kindAfter?_merge (hc : c.kinds.Sorted) (before : Option String) :
    (Node.parse (d.merge c).value).kindAfter? field before =
      (Node.parse c).kindAfter? field ((Node.parse d).kindAfter? field before) := by
  show (Dict.get? (d.kinds.extend c.kinds) field).or before = _
  rw [Dict.get?_extend hc, Option.or_assoc]
  rfl

end

/-! ### Passages -/

/-- What is told of a path: the kinds of fields at its end, and its nodes but for coercions. -/
structure Passage where
  kind? : String → Option String
  stages : List (NodeId × Node)

namespace Passage

def start : Passage :=
  ⟨fun _ => none, []⟩

def add (w : Passage) (i : NodeId) (n : Node) : Passage where
  kind? field := n.kindAfter? field (w.kind? field)
  stages := w.stages ++ (n.stage? i).toList

variable {n : Node} {c d : Coercion}

theorem add_comm (w : Passage) (hn : n.parse? = none) (hfree : mayWrite n c.fields = false)
    (i p : NodeId) : (w.add p n).add i (.parse c) = (w.add i (.parse c)).add p n := by
  unfold add
  simp only [Node.kindAfter?_comm hn hfree, Node.stage?, toList_none, append_nil]

theorem add_merge (w : Passage) (hc : c.kinds.Sorted) (i p : NodeId) :
    w.add p (.parse (d.merge c).value) = (w.add p (.parse d)).add i (.parse c) := by
  unfold add
  simp only [Node.kindAfter?_merge hc, Node.stage?, toList_none, append_nil]

end Passage

namespace Forest

variable {f g : Forest} {i j p above grand : NodeId} {n : Node} {c target : Coercion}

def passage (f : Forest) (i : NodeId) : Passage :=
  ⟨f.kindAt? i, f.stages i⟩

theorem Linked.inherits_passage (hf : f.Linked) :
    f.Inherits (fun _ => .start) (fun i w n => w.add i n) f.passage := by
  refine ⟨fun {i n} hn => ?_⟩
  unfold passage kindAt? stages Passage.add received
  cases hp : f.parent? i with
  | none =>
    rw [path_of_parent?_eq_none hp]
    cases hstage : n.stage? i <;> simp [hn, hstage, kindAlong?, Passage.start]
  | some p =>
    rw [hf.path_of_parent? hp]
    cases hstage : n.stage? i <;> simp [hn, hstage, kindAlong?]

/-! ### Leaves -/

/-- A node without children. -/
structure IsLeaf (f : Forest) (i : NodeId) : Prop where
  live : f.contains i
  childless : ¬ ∃ j, f.parent? j = some i

theorem Single.children_eq_nil_iff (h : f.Single) :
    f.children i = [] ↔ ¬ ∃ j, f.parent? j = some i := by
  simp only [eq_nil_iff_forall_not_mem, not_exists, h.parent?_eq_some]

theorem Valid.mem_leaves (hf : f.Valid) : i ∈ f.leaves ↔ f.IsLeaf i := by
  rw [hf.mem_leaves_iff, hf.single.children_eq_nil_iff]
  exact ⟨fun ⟨hlive, hchildless⟩ => ⟨hlive, hchildless⟩, fun h => ⟨h.live, h.childless⟩⟩

end Forest

/-! ### Steps -/

/-- A forest in which coercions are dictionaries and every branch ends in an output or a facet. -/
structure Forest.Pruned (f : Forest) : Prop where
  planted : f.Planted
  sorted : ∀ {i c}, f.node? i = some (.parse c) → c.kinds.Sorted
  ends : ∀ {i}, f.IsLeaf i → f.holds i endsBranch

section

variable {f g : Forest} {i j l above grand : NodeId} {n : Node} {c target : Coercion}

theorem Forest.Pruned.exists_child (hf : f.Pruned) (hn : f.node? i = some (.parse c)) :
    ∃ j, f.parent? j = some i := by
  by_contra hnone
  have hends := hf.ends ⟨contains_of_node? hn, hnone⟩
  rw [holds_of_node? hn] at hends
  cases hends

theorem Forest.Planted.ne_of_only (hf : f.Planted) (honly : f.children above = [i])
    (hk : f.parent? j = some l) (hji : j ≠ i) : l ≠ above := by
  rintro rfl
  rw [hf.single.parent?_eq_some, honly, mem_singleton] at hk
  exact hji hk

/-! ### Coercions that become one -/

theorem Joined.passage_eq (hjoined : Joined f g above i (.parse (target.merge c).value))
    (hf : f.Planted) (hn : f.node? i = some (.parse c)) (honly : f.children above = [i])
    (htarget : f.node? above = some (.parse target)) (hc : c.kinds.Sorted) (hl : f.contains l)
    (hli : l ≠ i) (hla : l ≠ above) : g.passage l = f.passage l := by
  have hparent := hf.single.parent?_of_only honly
  have hinherits := hf.inherits_passage
  have hlive : g.contains l := by
    rw [Forest.contains, hjoined.node_of_ne hla hli]
    exact hl
  -- The coercion that stays tells what the one below it told.
  have htold := hjoined.linked.inherits_passage.bounded (.eq _) hjoined.linked
    (fun k => if k = above then f.passage i else f.passage k) (fun {k m} hk => ?_) l hlive
  · rw [if_neg hla] at htold
    exact htold.symm
  · have hki : k ≠ i := fun he => by rw [hjoined.node, if_pos he] at hk; cases hk
    rw [hjoined.node, if_neg hki] at hk
    have hreceived : g.received (fun _ => .start) (fun k => if k = above then f.passage i
        else f.passage k) k = f.received (fun _ => .start) f.passage k := by
      rw [received, received, hjoined.parent, if_neg hki]
      split
      · rename_i hchild
        rw [hchild, elim_some, if_pos rfl, elim_some]
      · cases hq : f.parent? k with
        | none => rfl
        | some q => rw [elim_some, if_neg (hf.ne_of_only honly hq hki), elim_some]
    rw [hreceived]
    by_cases hka : k = above
    · subst hka
      rw [if_pos rfl] at hk ⊢
      cases hk
      rw [hinherits.eq hn, received_of_parent? hparent, hinherits.eq htarget,
        Passage.add_merge _ hc i k]
    · rw [if_neg hka] at hk ⊢
      exact hinherits.eq hk

theorem Joined.exists_child_iff {m : Node} (h : Joined f g above i m) (hp : f.parent? i = some above)
    (hj : f.parent? j = some i) (hji : j ≠ i) (hl : l ≠ i) :
    (∃ k, g.parent? k = some l) ↔ ∃ k, f.parent? k = some l := by
  constructor
  · rintro ⟨k, hk⟩
    rw [h.parent] at hk
    split at hk
    · cases hk
    · split at hk
      · exact ⟨i, hp.trans hk⟩
      · exact ⟨k, hk⟩
  · rintro ⟨k, hk⟩
    by_cases hki : k = i
    · -- The node that stays has the children of the one that went.
      exact ⟨j, by rw [h.parent, if_neg hji, if_pos hj, ← hp, ← hki, hk]⟩
    · have hki' : f.parent? k ≠ some i := fun he => hl (Option.some.inj (hk.symm.trans he))
      exact ⟨k, by rw [h.parent, if_neg hki, if_neg hki', hk]⟩

/-! ### Coercions that pass -/

theorem Forest.Planted.passage_exchange (hf : f.Planted) (hn : f.node? i = some (.parse c))
    (honly : f.children above = [i]) (hm : f.node? above = some n) (hnone : n.parse? = none)
    (hfree : mayWrite n c.fields = false) (hgrand : f.parent? above = some grand)
    (hl : f.contains l) (hli : l ≠ i) (hla : l ≠ above) :
    (f.exchange i).2.passage l = f.passage l := by
  have hparent := hf.single.parent?_of_only honly
  obtain ⟨hlinked, hparent?⟩ := hf.toLinked.exchange hparent hgrand
  have hnode? := node?_of_contents (hf.contents_exchange hparent hgrand)
  have hia : i ≠ above := hf.ne_parent hparent
  have hga : grand ≠ above := Ne.symm (hf.ne_parent hgrand)
  have hgi : grand ≠ i := hf.ne_grandparent hparent hgrand
  have hinherits := hf.inherits_passage
  have hlive : (f.exchange i).2.contains l := by
    rw [Forest.contains, hnode?]
    exact hl
  -- The passed node tells what the coercion told, which in turn starts from the grandparent.
  have htold := hlinked.inherits_passage.bounded (.eq _) hlinked
    (fun k => if k = i then (f.passage grand).add i (.parse c) else if k = above then f.passage i
      else f.passage k) (fun {k m} hk => ?_) l hlive
  · rw [if_neg hli, if_neg hla] at htold
    exact htold.symm
  · rw [hnode?] at hk
    rw [received, hparent?]
    by_cases hka : k = above
    · subst hka
      cases hm.symm.trans hk
      rw [if_neg hia.symm, if_pos rfl, if_pos rfl, elim_some, if_pos rfl,
        ← Passage.add_comm _ hnone hfree, hinherits.eq hn, received_of_parent? hparent,
        hinherits.eq hm, received_of_parent? hgrand]
    · rw [if_neg hka, if_neg hka]
      by_cases hki : k = i
      · subst hki
        cases hn.symm.trans hk
        rw [if_pos rfl, if_pos rfl, elim_some, if_neg hgi, if_neg hga]
      · rw [if_neg hki, if_neg hki, hinherits.eq hk, received]
        split
        · rename_i hchild
          rw [hchild, elim_some, elim_some, if_neg hia.symm, if_pos rfl]
        · rename_i hchild
          cases hq : f.parent? k with
          | none => rfl
          | some q =>
            have hqi : q ≠ i := fun he => hchild (he ▸ hq)
            rw [elim_some, elim_some, if_neg hqi, if_neg (hf.ne_of_only honly hq hki)]

theorem Forest.Linked.exists_child_exchange_iff (hf : f.Linked) (hp : f.parent? i = some above)
    (hg : f.parent? above = some grand) (hj : f.parent? j = some i) :
    (∃ k, (f.exchange i).2.parent? k = some l) ↔ ∃ k, f.parent? k = some l := by
  obtain ⟨-, hparent⟩ := hf.exchange hp hg
  have hja : j ≠ above := fun he => hf.ne_grandparent hp (he ▸ hj) rfl
  constructor
  · rintro ⟨k, hk⟩
    rw [hparent] at hk
    split at hk
    · exact ⟨j, hj.trans hk⟩
    · split at hk
      · exact ⟨above, hg.trans hk⟩
      · split at hk
        · exact ⟨i, hp.trans hk⟩
        · exact ⟨k, hk⟩
  · rintro ⟨k, hk⟩
    by_cases hka : k = above
    · exact ⟨i, by rw [hparent, if_neg (hf.ne_parent hp), if_pos rfl, ← hg, ← hka, hk]⟩
    by_cases hki : k = i
    · exact ⟨j, by rw [hparent, if_neg hja, if_neg (hf.ne_parent hj), if_pos hj, ← hp, ← hki, hk]⟩
    by_cases hchild : f.parent? k = some i
    · exact ⟨above, by rw [hparent, if_pos rfl, ← hchild, hk]⟩
    · exact ⟨k, by rw [hparent, if_neg hka, if_neg hki, if_neg hchild, hk]⟩

/-! ### What a step keeps -/

theorem Forest.isLeaf_congr (hlive : g.contains l = f.contains l)
    (hchild : (∃ k, g.parent? k = some l) ↔ ∃ k, f.parent? k = some l) : g.IsLeaf l ↔ f.IsLeaf l :=
  ⟨fun h => ⟨hlive ▸ h.live, mt hchild.mpr h.childless⟩,
    fun h => ⟨hlive ▸ h.live, mt hchild.mp h.childless⟩⟩

theorem Lift.isLeaf_iff (h : Lift f g) (hf : f.Pruned) : g.IsLeaf l ↔ f.IsLeaf l := by
  cases h with
  | @merge i above c target hn honly htarget =>
    have hp := hf.planted.single.parent?_of_only honly
    have hjoined := hf.planted.joined_merge hp htarget (.parse (target.merge c).value)
    obtain ⟨j, hj⟩ := hf.exists_child hn
    by_cases hl : l = i
    · subst hl
      refine ⟨fun h => ?_, fun h => absurd ⟨j, hj⟩ h.childless⟩
      exact absurd rfl (hjoined.contains_of_contains (contains_of_node? htarget) h.live).1
    · refine isLeaf_congr ?_ (hjoined.exists_child_iff hp hj (hf.planted.ne_parent hj) hl)
      rw [contains_remove, setNode, contains_modify]
      simp [hl]
  | pass hn honly hm _ hsource _ =>
    have hp := hf.planted.single.parent?_of_only honly
    obtain ⟨grand, hgrand⟩ := hf.planted.exists_parent hm hsource
    obtain ⟨j, hj⟩ := hf.exists_child hn
    exact isLeaf_congr (contains_of_contents (hf.planted.contents_exchange hp hgrand) l)
      (hf.planted.exists_child_exchange_iff hp hgrand hj)

theorem Forest.Pruned.ne_of_isLeaf (hf : f.Pruned) (hn : f.node? i = some (.parse c))
    (honly : f.children above = [i]) (hl : f.IsLeaf l) : l ≠ i ∧ l ≠ above := by
  obtain ⟨j, hj⟩ := hf.exists_child hn
  exact ⟨fun he => hl.childless ⟨j, he ▸ hj⟩,
    fun he => hl.childless ⟨i, he ▸ hf.planted.single.parent?_of_only honly⟩⟩

theorem Lift.passage_eq (h : Lift f g) (hf : f.Pruned) (hl : f.IsLeaf l) :
    g.passage l = f.passage l := by
  cases h with
  | merge hn honly htarget =>
    obtain ⟨hli, hla⟩ := hf.ne_of_isLeaf hn honly hl
    have hp := hf.planted.single.parent?_of_only honly
    exact (hf.planted.joined_merge hp htarget _).passage_eq hf.planted hn honly htarget
      (hf.sorted hn) hl.live hli hla
  | pass hn honly hm hnone hsource hfree =>
    obtain ⟨hli, hla⟩ := hf.ne_of_isLeaf hn honly hl
    obtain ⟨grand, hgrand⟩ := hf.planted.exists_parent hm hsource
    exact hf.planted.passage_exchange hn honly hm hnone hfree hgrand hl.live hli hla

theorem Lift.node?_eq (h : Lift f g) (hf : f.Pruned) (hl : f.IsLeaf l) : g.node? l = f.node? l := by
  cases h with
  | merge hn honly htarget =>
    obtain ⟨hli, hla⟩ := hf.ne_of_isLeaf hn honly hl
    have hp := hf.planted.single.parent?_of_only honly
    exact (hf.planted.joined_merge hp htarget _).node_of_ne hla hli
  | pass hn honly hm _ hsource _ =>
    obtain ⟨grand, hgrand⟩ := hf.planted.exists_parent hm hsource
    exact node?_of_contents
      (hf.planted.contents_exchange (hf.planted.single.parent?_of_only honly) hgrand) l

theorem Lift.pruned (h : Lift f g) (hf : f.Pruned) : g.Pruned := by
  have hrewrites : Rewrites false f g := Lift.tame.rewrites h hf.planted
  refine ⟨hrewrites.planted hf.planted, fun {k d} hk => ?_, fun {k} hleaf => ?_⟩
  · cases h with
    | merge hn honly htarget =>
      rw [(hf.planted.joined_merge (hf.planted.single.parent?_of_only honly) htarget _).node] at hk
      split at hk
      · cases hk
      · split at hk
        · cases hk
          exact Dict.Sorted.extend (hf.sorted htarget) _
        · exact hf.sorted hk
    | pass hn honly hm hnone hsource hfree =>
      obtain ⟨grand, hgrand⟩ := hf.planted.exists_parent hm hsource
      rw [node?_of_contents
        (hf.planted.contents_exchange (hf.planted.single.parent?_of_only honly) hgrand)] at hk
      exact hf.sorted hk
  · have hold := (h.isLeaf_iff hf).mp hleaf
    have hends := hf.ends hold
    rwa [holds, h.node?_eq hf hold]

end

/-! ### The pass -/

/-- What rising coercions make of a forest. -/
structure Forest.Raised (f g : Forest) : Prop extends g.Pruned where
  isLeaf_iff : ∀ {l}, g.IsLeaf l ↔ f.IsLeaf l
  passage : ∀ {l}, f.IsLeaf l → g.passage l = f.passage l

theorem Forest.Raised.step {f g h : Forest} (hfg : f.Raised g) (hstep : Lift g h) : f.Raised h where
  toPruned := hstep.pruned hfg.toPruned
  isLeaf_iff := (hstep.isLeaf_iff hfg.toPruned).trans hfg.isLeaf_iff
  passage hl := (hstep.passage_eq hfg.toPruned (hfg.isLeaf_iff.mpr hl)).trans (hfg.passage hl)

theorem Forest.Raised.steps {f g h : Forest} (hfg : f.Raised g)
    (hsteps : Relation.ReflTransGen Lift g h) : f.Raised h := by
  induction hsteps with
  | refl => exact hfg
  | tail _ hstep ih => exact ih.step hstep

/-- The pass succeeds on every forest that passes the check, has its data sources as roots and ends
its branches in outputs and facets; `hsorted` says that the kinds of a coercion are a dictionary. The
leaves stay, every field has the kind at each leaf that it had, and the nodes that are no coercions
stand in their order on the path to each leaf. -/
theorem moveParseUp_keeps_kinds {f : Forest} (hgraph : f.Graph) (hcheck : f.check = .ok ())
    (hroots : ∀ i, i ∈ f.sources ↔ f.holds i Node.isDataSource)
    (hsorted : ∀ i c, f.node? i = some (.parse c) → c.kinds.Sorted)
    (hends : ∀ l ∈ f.leaves, f.holds l endsBranch) :
    ∃ q, moveParseUp f = .ok q ∧ (∀ l, l ∈ q.forest.leaves ↔ l ∈ f.leaves) ∧
      ∀ l ∈ f.leaves, (∀ field, q.forest.kindAt? l field = f.kindAt? l field) ∧
        q.forest.stages l = f.stages l := by
  have hplanted := hgraph.planted hcheck hroots
  have hvalid : f.Valid := hplanted.toValidBut
  have hpruned : f.Pruned :=
    ⟨hplanted, fun hn => hsorted _ _ hn, fun hl => hends _ (hvalid.mem_leaves.mpr hl)⟩
  have htame : Tame false Nothing Lift := Lift.tame
  obtain ⟨q, heq, hdoes⟩ := raiseCoercion_does.run htame hplanted
  have hraised : f.Raised q.forest :=
    Raised.steps ⟨hpruned, Iff.rfl, fun _ => rfl⟩ (hdoes.deeds htame.loud)
  have hvalid' : q.forest.Valid := hraised.planted.toValidBut
  refine ⟨q, heq, fun l => ?_, fun l hl => ?_⟩
  · rw [hvalid.mem_leaves, hvalid'.mem_leaves, hraised.isLeaf_iff]
  · have hpassage := hraised.passage (hvalid.mem_leaves.mp hl)
    exact ⟨fun field => congrFun (congrArg Passage.kind? hpassage) field,
      congrArg Passage.stages hpassage⟩

/-- Coercions below a sample and a formula. The formula writes a field that is coerced below it, and
another field is coerced twice. -/
def coercedTwice : Forest where
  slots := [some (.source .empty), some (.parse ⟨[("count", "number"), ("day", "string")]⟩),
    some (.formula ⟨"datum.count + 1", "next"⟩), some (.sample ⟨10⟩),
    some (.parse ⟨[("day", "date")]⟩), some (.parse ⟨[("next", "number")]⟩),
    some (.output (.fresh "rows" .main 0))]
  edges := [⟨5, 6, 0⟩, ⟨4, 5, 0⟩, ⟨3, 4, 0⟩, ⟨2, 3, 0⟩, ⟨1, 2, 0⟩, ⟨0, 1, 0⟩]
  sources := [0]
  outputs := [("rows", 6)]
  requests := [("rows", 1)]

theorem moveParseUp_coercedTwice : coercedTwice.leaves = [6] ∧
    ["count", "day", "next"].map (coercedTwice.kindAt? 6) = [some "number", some "date", some "number"] ∧
    (moveParseUp coercedTwice).toOption.map (fun q => q.forest.path 6) = some [0, 1, 2, 4, 3, 6] ∧
    ∃ q, moveParseUp coercedTwice = .ok q ∧ (∀ l, l ∈ q.forest.leaves ↔ l ∈ coercedTwice.leaves) ∧
      ∀ l ∈ coercedTwice.leaves,
        (∀ field, q.forest.kindAt? l field = coercedTwice.kindAt? l field) ∧
          q.forest.stages l = coercedTwice.stages l := by
  have hcheck : coercedTwice.check = .ok () := by rfl
  have hgraph : coercedTwice.Graph := ⟨⟨by decide, by decide⟩, by decide⟩
  have hsorted : ∀ i c, coercedTwice.node? i = some (.parse c) → c.kinds.Sorted := by
    intro i c hc
    have hmem : some (Node.parse c) ∈ coercedTwice.slots :=
      mem_of_getElem? (join_eq_some_iff.mp hc)
    simp only [coercedTwice, mem_cons, Option.some.injEq, reduceCtorEq, Node.parse.injEq,
      not_mem_nil, or_false, false_or] at hmem
    rcases hmem with rfl | rfl | rfl
    · exact pairwise_pair.mpr (by decide)
    · exact pairwise_singleton _ _
    · exact pairwise_singleton _ _
  have hleaves : coercedTwice.leaves = [6] := by decide
  refine ⟨hleaves, by decide +kernel, by decide +kernel,
    moveParseUp_keeps_kinds hgraph hcheck (roots_of_slots (by decide)) hsorted fun l hl => ?_⟩
  rw [hleaves, mem_singleton] at hl
  rw [hl]
  decide

end ChartPlan.Flow
