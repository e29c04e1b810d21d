import ChartPlan.Proofs.Flow.Pass.Coercions
import ChartPlan.Proofs.Flow.Path
import ChartPlan.Proofs.Flow.Rewrite

/-!
# What nodes inherit

Much of what is said of a node depends on the way from its root: every node adds to what it receives from
its parent. A change of links loses nothing of this if every node receives at least as much in its new
place.

* `Forest.Inherits`: what nodes receive and add to;
* `Inherits.relinked`, `Inherits.exchanged`, `Inherits.grown`: changes of links that lose nothing;
* `Rewrite.carried`: what a rewrite has to respect to lose nothing.
-/

namespace ChartPlan.Flow

open Option

namespace Forest

variable {β : Type} {start A A' : NodeId → β} {add : NodeId → β → Node → β} {le : β → β → Prop}
variable {f g : Forest} {i j p grand : NodeId} {m n : Node}

/-- What a node receives: what its parent has, or what it starts with as a root. -/
def received (f : Forest) (start A : NodeId → β) (i : NodeId) : β :=
  (f.parent? i).elim (start i) A

/-- Every node has what it receives and what it adds to that. -/
structure Inherits (f : Forest) (start : NodeId → β) (add : NodeId → β → Node → β) (A : NodeId → β) :
    Prop where
  eq {i : NodeId} {n : Node} : f.node? i = some n → A i = add i (f.received start A i) n

/-- An order, from less to more, that nodes respect. -/
structure Lossless (le : β → β → Prop) (add : NodeId → β → Node → β) : Prop where
  refl (b : β) : le b b
  trans {a b c : β} : le a b → le b c → le a c
  add (i : NodeId) {b c : β} {n : Node} : le b c → le (add i b n) (add i c n)

theorem Lossless.eq (add : NodeId → β → Node → β) : Lossless Eq add :=
  ⟨fun _ => rfl, Eq.trans, fun i _ _ _ => congrArg (add i · _)⟩

/-- Nothing is lost of what a node has, nor of what it receives. -/
structure Inherited (le : β → β → Prop) (start : NodeId → β) (f g : Forest) (A A' : NodeId → β)
    (i : NodeId) : Prop where
  own : le (A i) (A' i)
  received : le (f.received start A i) (g.received start A' i)

theorem received_of_parent? (hp : f.parent? i = some p) : f.received start A i = A p := by
  rw [received, hp, elim_some]

theorem Lossless.received (hle : Lossless le add) (h : ∀ p, f.parent? i = some p → le (A p) (A' p)) :
    le (f.received start A i) (f.received start A' i) := by
  unfold Forest.received
  cases hp : f.parent? i with
  | none => exact hle.refl _
  | some p => exact h p hp

namespace Inherits

theorem bounded (hA : g.Inherits start add A) (hle : Lossless le add) (hg : g.Linked)
    (bound : NodeId → β)
    (hbound : ∀ {j n}, g.node? j = some n → le (bound j) (add j (g.received start bound j) n)) :
    ∀ j, g.contains j → le (bound j) (A j) := by
  refine hg.descend fun j hup hj => ?_
  obtain ⟨n, hn⟩ := exists_node hj
  rw [hA.eq hn]
  exact hle.trans (hbound hn)
    (hle.add j (hle.received fun p hp => hup p hp (hg.live_of_parent? hp).1))

section

variable (hA : f.Inherits start add A)

include hA

/-- Every node hangs in a place where it receives no less. -/
theorem relinked (hA' : g.Inherits start add A') (hle : Lossless le add) (hg : g.Linked)
    (hnode : ∀ {j n}, g.node? j = some n → ∃ m, f.node? j = some m ∧ ∀ b, le (add j b m) (add j b n))
    (hlink : ∀ {j}, g.contains j → le (f.received start A j) (g.received start A j))
    (hj : g.contains j) : Inherited le start f g A A' j := by
  have hown := hA'.bounded hle hg A fun {j n} hn => by
    obtain ⟨m, hm, hmn⟩ := hnode hn
    rw [hA.eq hm]
    exact hle.trans (hle.add j (hlink (contains_of_node? hn))) (hmn _)
  exact ⟨hown j hj, hle.trans (hlink hj) (hle.received fun p hp => hown p (hg.live_of_parent? hp).1)⟩

theorem removed (hA' : (f.remove i).Inherits start add A') (hle : Lossless le add) (hf : f.Linked)
    (hup : ∀ c, f.parent? c = some i → le (A i) ((f.parent? i).elim (start c) A))
    (hj : (f.remove i).contains j) : Inherited le start f (f.remove i) A A' j := by
  refine hA.relinked hA' hle (hf.remove i)
    (fun hn => ⟨_, (node?_of_remove hn).2, fun _ => hle.refl _⟩) (fun {j} hj => ?_) hj
  obtain ⟨n, hn⟩ := exists_node hj
  rw [received, received, hf.parent?_remove, if_neg (node?_of_remove hn).1]
  split
  · rename_i hji
    rw [hji]
    exact hup j hji
  · exact hle.refl _

theorem absorbed {keep other : NodeId} (hA' : (f.absorb keep other).Inherits start add A')
    (hle : Lossless le add) (hf : f.Linked) (hk : f.contains keep) (hb : ¬ f.Below other keep)
    (hkeep : le (A other) (A keep)) (hj : (f.absorb keep other).contains j) :
    Inherited le start f (f.absorb keep other) A A' j := by
  refine hA.relinked hA' hle (hf.absorb hk hb)
    (fun hn => ⟨_, (node?_of_absorb hn).2, fun _ => hle.refl _⟩) (fun {j} hj => ?_) hj
  obtain ⟨n, hn⟩ := exists_node hj
  rw [received, received, hf.parent?_absorb hk hb, if_neg (node?_of_absorb hn).1]
  split
  · rename_i hjo
    rwa [hjo]
  · exact hle.refl _

theorem attached (hA' : (f.attach i p none).Inherits start add A') (hle : Lossless le add)
    (hf : f.Linked) (hg : (f.attach i p none).Linked) (hi : f.parent? i = none)
    (hp : le (start i) (A p)) (hj : f.contains j) :
    Inherited le start f (f.attach i p none) A A' j := by
  refine hA.relinked hA' hle hg (fun hn => ⟨_, hn, fun _ => hle.refl _⟩) (fun {k} _ => ?_) hj
  rw [received, received, hf.single.parent?_attach hi]
  split
  · rename_i hki
    rwa [hki, hi]
  · exact hle.refl _

/-- A node changes places with its parent: its children come below that, and the parent receives what the
node makes of what its grandparent has. -/
theorem exchanged (hA' : (f.exchange i).2.Inherits start add A') (hle : Lossless le add)
    (hf : f.Linked) (hp : f.parent? i = some p) (hg : f.parent? p = some grand)
    (hcontents : (f.exchange i).2.contents = f.contents) (hn : f.node? i = some n)
    (hm : f.node? p = some m) (hup : le (A i) (A p))
    (hover : le (A p) (add p (add i (A grand) n) m)) :
    (∀ j, f.contains j → le (if j = i then add i (A grand) n else A j) (A' j)) ∧
      ∀ j, (j = p → le (A grand) (add i (A grand) n)) →
        le (if j = i then A grand else f.received start A j) ((f.exchange i).2.received start A' j) := by
  obtain ⟨hlinked, hparent⟩ := hf.exchange hp hg
  have hpi : p ≠ i := Ne.symm (hf.ne_parent hp)
  have hgi : grand ≠ i := hf.ne_grandparent hp hg
  have hlive := contains_of_contents hcontents
  -- The node itself now makes of what its grandparent has what it made of what its parent had.
  have hplace : ∀ j, j ≠ p → le (if j = i then A grand else f.received start A j)
      ((f.exchange i).2.received start (fun k => if k = i then add i (A grand) n else A k) j) := by
    intro j hjp
    rw [received, received, hparent, if_neg hjp]
    by_cases hji : j = i
    · rw [if_pos hji, if_pos hji, elim_some, if_neg hgi]
      exact hle.refl _
    · rw [if_neg hji, if_neg hji]
      split
      · rename_i hchild
        rwa [hchild, elim_some, elim_some, if_neg hpi]
      · rename_i hchild
        cases hq : f.parent? j with
        | none => exact hle.refl _
        | some q =>
          have hqi : q ≠ i := fun he => hchild (he ▸ hq)
          rw [elim_some, elim_some, if_neg hqi]
          exact hle.refl _
  have hown := hA'.bounded hle hlinked (fun k => if k = i then add i (A grand) n else A k)
    fun {j o} ho => by
      rw [node?_of_contents hcontents] at ho
      by_cases hjp : j = p
      · subst hjp
        cases hm.symm.trans ho
        rw [received, hparent, if_pos rfl, if_neg hpi, elim_some, if_pos rfl]
        exact hover
      · have hnew := hle.add j (n := o) (hplace j hjp)
        by_cases hji : j = i
        · subst hji
          cases hn.symm.trans ho
          rwa [if_pos rfl] at hnew ⊢
        · rw [if_neg hji] at hnew ⊢
          rwa [hA.eq ho]
  refine ⟨fun j hj => hown j ((hlive j).trans hj), fun j hgrand => ?_⟩
  by_cases hjp : j = p
  · subst hjp
    rw [if_neg hpi, received_of_parent? hg, received, hparent, if_pos rfl]
    have hi := hown i ((hlive i).trans (contains_of_node? hn))
    rw [if_pos rfl] at hi
    exact hle.trans (hgrand rfl) hi
  · exact hle.trans (hplace j hjp) (hle.received fun q hq => hown q (hlinked.live_of_parent? hq).1)

/-- All nodes stay where they are; new ones may be there. -/
theorem grown (hA' : g.Inherits start add A') (hle : Lossless le add) (hf : f.Linked)
    (hparent : ∀ {j}, f.contains j → g.parent? j = f.parent? j)
    (hnode : ∀ {j m}, f.node? j = some m → ∃ n, g.node? j = some n ∧ ∀ b, le (add j b m) (add j b n))
    (hj : f.contains j) : Inherited le start f g A A' j := by
  have hplace : ∀ {j}, (∀ p, f.parent? j = some p → le (A p) (A' p)) → f.contains j →
      le (f.received start A j) (g.received start A' j) := fun hup hj => by
    rw [received, received, hparent hj]
    exact hle.received hup
  have hown : ∀ j, f.contains j → le (A j) (A' j) := by
    refine hf.descend fun j hup hj => ?_
    obtain ⟨m, hm⟩ := exists_node hj
    obtain ⟨n, hn, hmn⟩ := hnode hm
    rw [hA.eq hm, hA'.eq hn]
    exact hle.trans (hle.add j (hplace (fun p hp => hup p hp (hf.live_of_parent? hp).1) hj)) (hmn _)
  exact ⟨hown j hj, hplace (fun p hp => hown p (hf.live_of_parent? hp).1) hj⟩

end

end Inherits

theorem node?_of_setNode {r : Node} (hm : f.node? i = some m) (h : (f.setNode i r).node? j = some n) :
    (j = i ∧ n = r) ∨ (j ≠ i ∧ f.node? j = some n) := by
  rw [node?_setNode] at h
  split at h
  · rename_i hji
    rw [hji, hm] at h
    exact .inl ⟨hji, (Option.some.inj h).symm⟩
  · rename_i hji
    exact .inr ⟨hji, h⟩

end Forest

/-! ### Rewrites -/

open Forest

variable {β : Type} {start A A' : NodeId → β} {add : β → Node → β} {le : β → β → Prop}
variable {rowIds : Bool} {f g : Forest} {j : NodeId} {n : Node}

/-- A rewrite loses nothing of what nodes have that do not rise, if what it does to single nodes loses
nothing. What is asked of nodes that rise is weaker if nothing is asked of what the nodes of some kinds
receive. -/
theorem Rewrite.carried (Firm : Node → Prop) (h : Rewrite rowIds f g) (hf : f.Planted)
    (hle : Lossless le fun _ => add) (hA : f.Inherits start (fun _ => add) A)
    (hA' : g.Inherits start (fun _ => add) A')
    (hdrop : ∀ {i p n}, f.node? i = some n → f.Drops rowIds i n → f.parent? i = some p → le (A i) (A p))
    (hrevise : ∀ {m n}, n.Revises m → ∀ b, le (add b m) (add b n))
    (hrise : ∀ {m n}, n.Rises m → ∀ i, le (add (A i) n) (A i) ∧
      le (add (A i) m) (add (add (A i) n) m) ∧ (Firm m → le (A i) (add (A i) n)))
    (hshift : ∀ {p q a}, f.Veiled a p → f.Veiled a q → f.holds q Node.isOutput ∨ f.parent? q = some p →
      le (A p) (A q))
    (hjoin : ∀ {keep other m n}, f.node? keep = some m → f.node? other = some n → m.Subsumes n →
      keep ≠ other → ∀ b, le (add b n) (add b m))
    (hn : g.node? j = some n) (hstays : ∀ m, ¬ n.Rises m) :
    le (A j) (A' j) ∧ (Firm n → le (f.received start A j) (g.received start A' j)) := by
  have hj := contains_of_node? hn
  have hg := (h.planted hf).toLinked
  have hboth : Inherited le start f g A A' j → le (A j) (A' j) ∧
      (Firm n → le (f.received start A j) (g.received start A' j)) := fun h => ⟨h.own, fun _ => h.received⟩
  cases h with
  | @drop i m hi hd =>
    obtain ⟨p, hp⟩ := hf.exists_parent hi hd.isDataSource
    exact hboth (hA.removed hA' hle hf.toLinked (fun c _ => by rw [hp]; exact hdrop hi hd hp) hj)
  | @prune i m hi hends hleaf =>
    refine hboth (hA.removed hA' hle hf.toLinked (fun c hc => ?_) hj)
    rw [hf.single.parent?_eq_some, hleaf] at hc
    cases hc
  | @revise i m r signals hm hrevises =>
    refine hboth (hA.relinked hA' hle hg (fun {k o} hk => ?_) (fun _ => hle.refl _) hj)
    rcases node?_of_setNode (f := f) hm hk with ⟨rfl, rfl⟩ | ⟨-, hold⟩
    · exact ⟨m, hm, hrevise hrevises⟩
    · exact ⟨o, hold, fun _ => hle.refl _⟩
  | @raise i p grand r m hr hm hrises hp hgrand =>
    have hcontents := hf.contents_exchange hp hgrand
    have hji : j ≠ i := by
      rintro rfl
      cases hr.symm.trans ((node?_of_contents hcontents j).symm.trans hn)
      exact hstays m hrises
    obtain ⟨-, hover, hfirm⟩ := hrise hrises grand
    obtain ⟨hown, hreceived⟩ := hA.exchanged hA' hle hf.toLinked hp hgrand hcontents hr hm
      (by rw [hA.eq hr, received_of_parent? hp]; exact (hrise hrises _).1)
      (by rw [hA.eq hm, received_of_parent? hgrand]; exact hover)
    have hown := hown j ((contains_of_contents hcontents j).symm.trans hj)
    have hreceived := hreceived j
    rw [if_neg hji] at hown hreceived
    refine ⟨hown, fun hn' => hreceived ?_⟩
    rintro rfl
    cases hm.symm.trans ((node?_of_contents hcontents j).symm.trans hn)
    exact hfirm hn'
  | @shift c p q a hp hveil hveil' hq hb hplace =>
    refine hboth (hA.relinked hA' hle hg (fun {k o} hk => ⟨o,
      (node?_of_contents (contents_setParent f c q) k).symm.trans hk, fun _ => hle.refl _⟩)
      (fun {k} _ => ?_) hj)
    rw [received, received, hf.single.parent?_setParent]
    split
    · rename_i hkc
      rw [hkc, hp]
      exact hshift hveil hveil' hplace
    · exact hle.refl _
  | @insert p c hp =>
    refine hboth (hA.grown hA' hle hf.toLinked (fun hk => ?_)
      (fun {k m} hk => ⟨m, ?_, fun _ => hle.refl _⟩) ?_)
    · rw [hf.parent?_add, if_neg (hf.arena.ne_add _ _ hk)]
    · exact (hf.arena.node?_add_of_contains _ _ (contains_of_node? hk)).trans hk
    · rcases hf.arena.node?_of_add hn with ⟨-, rfl⟩ | hn
      · exact absurd (.coercion c .identifier) (hstays .identifier)
      · exact contains_of_node? hn
  | @join keep other p m o hk ho hsubsumes hne hkp hop =>
    refine hboth (hA.absorbed hA' hle hf.toLinked (contains_of_node? hk)
      (hf.not_below_sibling hkp hop hne) ?_ hj)
    rw [hA.eq hk, hA.eq ho, received_of_parent? hkp, received_of_parent? hop]
    exact hjoin hk ho hsubsumes hne _
  | @joinAbove keep other a b hk ho hp =>
    refine hboth (hA.absorbed hA' hle hf.toLinked (contains_of_node? hk)
      (hf.not_below_of_child (hf.child hp)) ?_ hj)
    rw [hA.eq ho, received_of_parent? hp]
    exact (hrise (m := .bin a) (.bins b rfl) _).1

end ChartPlan.Flow
