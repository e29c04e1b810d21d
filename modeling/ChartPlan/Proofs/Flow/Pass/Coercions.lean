import ChartPlan.Proofs.Flow.Pass.Walk

/-!
# Moving coercions rewrites

A coercion that rises changes places with a node that has a parent, and coercions that siblings share
go to a new node between the siblings and their parent.
-/

namespace ChartPlan.Flow

open Forest List

variable {rowIds : Bool} {f g : Forest} {i j p q c above merged : NodeId}

/-! ### Coercions that rise -/

theorem mayWrite_of_mem {n : Node} {field : String} {fields : NameSet} (h : mayWrite n fields = false) (hfield : field ∈ fields) :
    mayWrite n [field] = false := by
  unfold mayWrite at h ⊢
  cases hproduced : n.produced? with
  | none => simp [hproduced] at h
  | some produced =>
    simp only [hproduced, NameSet.disjoint, Bool.not_eq_false', all_eq_true] at h ⊢
    intro name hname
    have hnot := h name hname
    simp only [Bool.not_eq_true', contains_eq_mem, decide_eq_false_iff_not,
      mem_singleton] at hnot ⊢
    exact fun he => hnot (he ▸ hfield)

/-- One step of a coercion that is an only child: it becomes part of the coercion above it, or it
changes places with a node that does not write its fields. -/
inductive Lift (f : Forest) : Forest → Prop
  | merge {i above : NodeId} {c target : Coercion} :
      f.node? i = some (.parse c) → f.children above = [i] → f.node? above = some (.parse target) →
      Lift f ((f.setNode above (.parse (target.merge c).value)).remove i)
  | pass {i above : NodeId} {c : Coercion} {n : Node} :
      f.node? i = some (.parse c) → f.children above = [i] → f.node? above = some n →
      n.parse? = none → n.isDataSource = false → mayWrite n c.fields = false →
      Lift f (f.exchange i).2

theorem Forest.Single.parent?_of_only (h : f.Single) (honly : f.children above = [i]) :
    f.parent? i = some above :=
  h.parent?_eq_some.mpr (honly ▸ mem_singleton_self i)

theorem Lift.tame : Tame rowIds Nothing Lift := by
  refine .of_rewrites fun {f g} h hf => ?_
  cases h with
  | @merge i above c target hn honly htarget =>
    -- The coercion above takes over, and the one below is dropped.
    have hne : i ≠ above := hf.ne_parent (hf.single.parent?_of_only honly)
    have hrevise : Rewrite rowIds f (f.setNode above (.parse (target.merge c).value)) :=
      .revise f.signals htarget (.coercion _ _)
    have hdrop : Rewrite rowIds (f.setNode above (.parse (target.merge c).value))
        ((f.setNode above (.parse (target.merge c).value)).remove i) := by
      refine .drop (n := .parse c) ?_ (.coercion c)
      rw [node?_setNode, if_neg hne, hn]
    exact (Relation.ReflTransGen.single hrevise).tail hdrop
  | @pass i above c n hn honly hm _ hsource _ =>
    obtain ⟨grand, hgrand⟩ := hf.exists_parent hm hsource
    exact .single (.raise hn hm (.coercion c n) (hf.single.parent?_of_only honly) hgrand)

theorem Coercion.warns_merge (a b : Coercion) : (a.merge b).Warns :=
  warnings_map (fun _ => rfl) _

theorem raiseCoercion_does : (Climb.ofVisit raiseCoercion).Does Nothing Lift := by
  refine Climb.does_ofVisit fun p i hp _ => ?_
  unfold raiseCoercion
  split
  · exact ⟨.stop, p, rfl, .refl p⟩
  · rename_i c above hn habove
    split
    · exact ⟨.stop, p, rfl, .refl p⟩
    · rename_i hsource
      split
      · exact ⟨.parent, p, rfl, .refl p⟩
      · rename_i hcount
        have honly : p.forest.children above = [i] := by
          have hmem : i ∈ p.forest.children above := hp.child habove
          rw [← length_children, Nat.not_lt] at hcount
          obtain ⟨j, hj⟩ := length_eq_one_iff.mp
            (Nat.le_antisymm hcount (length_pos_of_mem hmem))
          rw [hj] at hmem ⊢
          rw [mem_singleton.mp hmem]
        split
        · rename_i target htarget
          exact ⟨.visit above, _, rfl, .of_deeds (.single (.merge hn honly htarget)) rfl
            fun h => h.append (target.warns_merge c)⟩
        · rename_i m hparse hm
          split
          · exact ⟨.parent, p, rfl, .refl p⟩
          · rename_i hfree
            have hfalse : m.isDataSource = false := by
              simpa [holds, hm] using hsource
            have hnone : m.parse? = none := by
              cases m with
              | parse target => exact absurd rfl (hparse target)
              | _ => rfl
            obtain ⟨grand, hgrand⟩ := hp.exists_parent hm hfalse
            refine ⟨.visit i, p.change (p.forest.exchange i).2, ?_,
              .change (.pass hn honly hm hnone hfalse (by simpa using hfree))⟩
            rw [hp.swapUp_eq habove hgrand]
            rfl
        · exact ⟨.parent, p, rfl, .refl p⟩
  · exact ⟨.parent, p, rfl, .refl p⟩

/-! ### Coercions of siblings -/

theorem Forest.ValidBut.parent?_add {loose : List NodeId} (hf : f.ValidBut loose) (n : Node)
    (p j : NodeId) :
    (f.add n (some p)).1.parent? j = if j = (f.add n (some p)).2 then some p else f.parent? j := by
  have hstore := hf.store n
  show ((f.store n).1.attach (f.store n).2 p none).parent? j = _
  rw [hstore.single.parent?_attach (hf.loose_store n).parentless,
    parent?_congr (edges_store f n)]
  rfl

/-- What is left of a node when a coercion above it does part of its work. -/
def Node.relieved (common : Dict String) : Node → Option Node
  | .parse c =>
    let rest := c.kinds.filter fun entry => !common.has entry.1
    if rest.isEmpty then none else some (.parse ⟨rest⟩)
  | n => some n

theorem moveBelow_cases (merged : NodeId) (common : Dict String) (f : Forest) (c : NodeId) :
    (∃ k rest, f.node? c = some (.parse k) ∧ (Node.parse k).relieved common = some (.parse rest) ∧
      moveBelow merged common f c = (f.setParent c merged).setNode c (.parse rest)) ∨
    (∃ k, f.node? c = some (.parse k) ∧ (Node.parse k).relieved common = none ∧
      moveBelow merged common f c = (f.setParent c merged).remove c) ∨
    (f.node? c).bind (Node.relieved common) = f.node? c ∧
      moveBelow merged common f c = f.setParent c merged := by
  unfold moveBelow
  simp only [node?_of_contents (contents_setParent f c merged)]
  split
  · rename_i k hk
    split
    · rename_i hempty
      exact .inr (.inl ⟨k, hk, if_pos hempty, rfl⟩)
    · rename_i hrest
      exact .inl ⟨k, _, hk, if_neg hrest, rfl⟩
  · rename_i hparse
    refine .inr (.inr ⟨?_, rfl⟩)
    cases hn : f.node? c with
    | none => rfl
    | some n =>
      cases n with
      | parse k => exact absurd hn (hparse k)
      | _ => rfl

theorem node?_moveBelow (merged : NodeId) (common : Dict String) (f : Forest) (c j : NodeId) :
    (moveBelow merged common f c).node? j =
      if j = c then (f.node? j).bind (Node.relieved common) else f.node? j := by
  have hnode := node?_of_contents (contents_setParent f c merged)
  by_cases hj : j = c
  · subst hj
    rw [if_pos rfl]
    rcases moveBelow_cases merged common f j with ⟨k, rest, hk, hrest, heq⟩ | ⟨k, hk, hrest, heq⟩ |
      ⟨hsame, heq⟩ <;> rw [heq]
    · rw [node?_setNode, if_pos rfl, hnode, hk, Option.bind_some, hrest]
      rfl
    · rw [node?_remove, if_pos rfl, hk, Option.bind_some, hrest]
    · rw [hnode, hsame]
  · rw [if_neg hj]
    rcases moveBelow_cases merged common f c with ⟨_, _, -, -, heq⟩ | ⟨_, -, -, heq⟩ | ⟨-, heq⟩ <;>
      rw [heq]
    · rw [node?_setNode, if_neg hj, hnode]
    · rw [node?_remove, if_neg hj, hnode]
    · exact hnode j

section

variable (hf : f.Valid) (common : Dict String) (hc : f.parent? c = some above)
  (hmerged : f.parent? merged = some above) (hne : c ≠ merged)

include hf hc hmerged hne

/-- A sibling of a coercion moves below it, or it goes and leaves its children there. -/
theorem Forest.ValidBut.moveBelow :
    (moveBelow merged common f c).Valid ∧ ∀ j, (moveBelow merged common f c).contains j →
      (moveBelow merged common f c).parent? j =
        if j = c ∨ f.parent? j = some c ∧ (moveBelow merged common f c).contains c = false
        then some merged else f.parent? j := by
  have hlive : f.contains c := (hf.live_of_parent? hc).2
  have hset : (f.setParent c merged).Valid :=
    hf.setParent hlive (hf.live_of_parent? hmerged).2
      (hf.not_below_sibling hmerged hc (Ne.symm hne)) not_mem_nil
  have hparent := hf.single.parent?_setParent c merged
  rw [← contains_of_contents (contents_setParent f c merged)] at hlive
  rcases moveBelow_cases merged common f c with ⟨_, rest, -, -, heq⟩ | ⟨_, -, -, heq⟩ | ⟨-, heq⟩ <;>
    rw [heq]
  · refine ⟨hset.modify c _, fun j _ => ?_⟩
    have hedges : ((f.setParent c merged).setNode c (.parse rest)).parent? j =
        (f.setParent c merged).parent? j := parent?_congr rfl j
    rw [hedges, hparent, setNode, contains_modify, hlive]
    simp
  · refine ⟨hset.remove c not_mem_nil, fun j hj => ?_⟩
    have hjc : j ≠ c := by
      rintro rfl
      simp [contains_remove] at hj
    rw [hset.parent?_remove, if_neg hjc, hparent, hparent, if_neg hjc, if_pos rfl]
    simp [hjc, contains_remove]
  · refine ⟨hset, fun j _ => ?_⟩
    rw [hlive, hparent]
    simp

theorem Forest.ValidBut.parent?_moveBelow (hj : j ≠ c) (hp : f.parent? j = some above) :
    (Flow.moveBelow merged common f c).parent? j = some above := by
  have hlive := (hf.live_of_parent? hp).2
  have hac : above ≠ c := Ne.symm (hf.ne_parent hc)
  rw [(hf.moveBelow common hc hmerged hne).2 j (by rwa [Forest.contains, node?_moveBelow, if_neg hj]),
    hp, if_neg (by simp [hj, hac])]

end

theorem moveBelow_rewrites {k : Coercion} (common : Dict String) (hf : f.Planted)
    (hmerged : f.node? merged = some (.parse k)) (hplace : f.parent? merged = some above)
    (hc : f.parent? c = some above) (hne : c ≠ merged) :
    Rewrites rowIds f (moveBelow merged common f c) := by
  have hveil : f.Veiled above merged := .step .refl hplace hmerged (.coercion k)
  have hshift : Rewrites rowIds f (f.setParent c merged) :=
    .single (.shift hc .refl hveil (contains_of_node? hmerged)
      (hf.not_below_sibling hplace hc (Ne.symm hne)) (.inr hplace))
  have hnode := node?_of_contents (contents_setParent f c merged) c
  rcases moveBelow_cases merged common f c with ⟨d, rest, hd, -, heq⟩ | ⟨d, hd, -, heq⟩ | ⟨-, heq⟩ <;>
    rw [heq]
  · exact hshift.tail (.revise (f.setParent c merged).signals (hnode.trans hd) (.coercion rest d))
  · exact hshift.tail (.drop (hnode.trans hd) (.coercion d))
  · exact hshift

theorem foldl_moveBelow_rewrites {k : Coercion} (common : Dict String) (siblings : List NodeId)
    (hf : f.Planted) (hmerged : f.node? merged = some (.parse k))
    (hplace : f.parent? merged = some above) (hsiblings : ∀ c ∈ siblings, f.parent? c = some above)
    (hnodup : (merged :: siblings).Nodup) :
    Rewrites rowIds f (siblings.foldl (moveBelow merged common) f) := by
  induction siblings generalizing f with
  | nil => exact .refl
  | cons c rest ih =>
    obtain ⟨hmrest, hrest⟩ := nodup_cons.mp hnodup
    obtain ⟨hcrest, hrest⟩ := nodup_cons.mp hrest
    have hne : c ≠ merged := fun he => hmrest (he ▸ mem_cons_self)
    have hc := hsiblings c mem_cons_self
    have hstep : Rewrites rowIds f _ := moveBelow_rewrites common hf hmerged hplace hc hne
    have hparent : ∀ {j}, j ≠ c → f.parent? j = some above → _ :=
      hf.toValidBut.parent?_moveBelow common hc hplace hne
    refine hstep.trans (ih (hstep.planted hf) ?_ (hparent (Ne.symm hne) hplace)
      (fun d hd => hparent (fun he => hcrest (he ▸ hd)) (hsiblings d (by simp [hd]))) ?_)
    · rw [node?_moveBelow, if_neg (Ne.symm hne), hmerged]
    · exact nodup_cons.mpr ⟨not_mem_of_not_mem_cons hmrest, hrest⟩

/-- The coercions that the children of a node share are done once above them. -/
inductive Hoist (f : Forest) : Forest → Prop
  | mk {above : NodeId} {common : Dict String} : 1 < (f.children above).length →
      (sharedKinds ((f.children above).filterMap fun c => (f.node? c).bind Node.parse?)).value =
        common → common ≠ [] →
      Hoist f ((f.children above).foldl (moveBelow (f.add (.parse ⟨common⟩) (some above)).2 common)
        (f.add (.parse ⟨common⟩) (some above)).1)

theorem Hoist.tame : Tame rowIds Nothing Hoist := by
  refine .of_rewrites fun {f g} h hf => ?_
  obtain ⟨hmany, -, -⟩ := h
  rename_i above common
  obtain ⟨first, hfirst⟩ := exists_mem_of_length_pos (Nat.lt_of_succ_lt hmany)
  -- The new node is no sibling: its slot was vacant.
  have hnew : (f.add (.parse ⟨common⟩) (some above)).2 ∉ f.children above := fun hmem =>
    hf.arena.ne_add _ _ (hf.live hmem).2 rfl
  have hinsert : Rewrite rowIds f (f.add (.parse ⟨common⟩) (some above)).1 :=
    .insert ⟨common⟩ (hf.live hfirst).1
  have hplace : (f.add (.parse ⟨common⟩) (some above)).1.parent?
      (f.add (.parse ⟨common⟩) (some above)).2 = some above := by
    rw [hf.parent?_add, if_pos rfl]
  refine (Relation.ReflTransGen.single hinsert).trans (foldl_moveBelow_rewrites _ _
    (hinsert.planted hf) (k := ⟨common⟩) ?_ hplace (fun c hc => ?_) ?_)
  · exact hf.arena.node?_add_self _ _
  · have hne : c ≠ (f.add (.parse ⟨common⟩) (some above)).2 := fun he => hnew (he ▸ hc)
    rw [hf.parent?_add, if_neg hne]
    exact hf.parent?_of_mem hc
  · exact nodup_cons.mpr ⟨hnew, hf.single.nodup_children above⟩

theorem warns_sharedKinds (nodes : List Coercion) : (sharedKinds nodes).Warns := by
  unfold sharedKinds
  refine List.foldlRecOn _ _ (motive := Logged.Warns) warnings_nil fun acc hacc field _ => ?_
  split
  · exact Warnings.append hacc fun note hnote => by rw [List.mem_singleton.mp hnote]; rfl
  · exact hacc

theorem hoistCoercions_does : (Climb.ofVisit hoistCoercions).Does Nothing Hoist := by
  refine Climb.does_ofVisit fun p i _ _ => ?_
  unfold hoistCoercions
  split
  · exact ⟨.stop, p, rfl, .refl p⟩
  · dsimp only
    split
    · exact ⟨.parent, p, rfl, .refl p⟩
    · rename_i hmany
      simp only [Bool.or_eq_true, decide_eq_true_eq, not_or, Nat.not_le] at hmany
      split
      · exact ⟨.parent, _, rfl, .refl, fun h => h.append (warns_sharedKinds _)⟩
      · rename_i hshared
        exact ⟨.parent, _, rfl, .of_deeds (.single ⟨hmany.1, rfl, mt isEmpty_iff.mpr hshared⟩) rfl
          fun h => h.append (warns_sharedKinds _)⟩

end ChartPlan.Flow
