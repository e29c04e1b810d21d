import ChartPlan.Proofs.Flow.Listing
import ChartPlan.Proofs.Flow.Pass.Facets
import ChartPlan.Proofs.Flow.Trace

/-!
# What was requested is kept

Optimization drops, merges and copies nodes, but no facet and no output that somebody requested is
ever lost. Two of them never merge, because each has a number of its own, and copies take numbers that
were not given before.

* `Forest.Numbered`: outputs and facets have numbers of their own.
* `Forest.Keeps`: what was requested is still there, and its entry leads to it or to a later copy.
* `Rewrite.keeps`, `Copying.keeps`: one step of a pass, and one step of copying cells.
* `optimize_keeps_requested`: optimization as a whole.
-/

namespace ChartPlan

open List

theorem Dict.get?_filter {α : Type} {d : Dict α} {key : String} {v : α} {P : String × α → Bool}
    (h : get? d key = some v) (hv : ∀ k, P (k, v)) : get? (d.filter P) key = some v := by
  induction d with
  | nil => exact absurd h (Option.some_ne_none v).symm
  | cons entry rest ih =>
    obtain ⟨k, w⟩ := entry
    unfold get? at h
    split at h
    · rename_i hk
      cases h
      rw [filter_cons_of_pos (hv k)]
      exact (if_pos hk)
    · rename_i hk
      rw [filter_cons]
      split
      · exact (if_neg hk).trans (ih h)
      · exact ih h

namespace Flow

open Forest

variable {rowIds : Bool} {f g h : Forest} {i j : NodeId} {m n : Node}

/-! ### Numbers -/

def Node.number? : Node → Option Nat
  | .output o => some o.id
  | .facet m => some m.id
  | _ => none

namespace Node

theorem endsBranch_of_number? {k : Nat} (h : n.number? = some k) : endsBranch n := by
  cases n <;> first | rfl | cases h

theorem number?_of_signature (h : m.signature = n.signature) : m.number? = n.number? := by
  obtain ⟨hkind, htext⟩ := signature_inj h
  cases m <;> cases n <;> first
    | rfl
    | exact congrArg some (Json.toText_nat_inj htext)
    | simp [kindName] at hkind

theorem Subsumes.number? (h : m.Subsumes n) : m.number? = n.number? := by
  cases h with
  | equal hsame => exact number?_of_signature hsame
  | _ => rfl

end Node

namespace Forest

/-- Outputs and facets have numbers of their own, and the numbers to come are larger. -/
structure Numbered (f : Forest) : Prop where
  lt {i : NodeId} {n : Node} {k : Nat} : f.node? i = some n → n.number? = some k → k < f.ids.next
  unique {i j : NodeId} {m n : Node} {k : Nat} : f.node? i = some m → f.node? j = some n →
    m.number? = some k → n.number? = some k → i = j

/-- Whether a node must stay: a facet, or an output that somebody requested. -/
def Vital (f : Forest) : Node → Prop
  | .output o => 0 < f.requestCount o.name
  | .facet _ => True
  | _ => False

def AllRequested (f : Forest) : Prop :=
  ∀ i o, f.node? i = some (.output o) → 0 < f.requestCount o.name

theorem Vital.endsBranch (h : f.Vital n) : endsBranch n := by
  cases n <;> first | rfl | exact h.elim

theorem Vital.exists_number (h : f.Vital n) : ∃ k, n.number? = some k := by
  cases n <;> first | exact ⟨_, rfl⟩ | exact h.elim

theorem Vital.congr (h : f.Vital n) (hrequests : g.requests = f.requests) : g.Vital n := by
  cases n with
  | output o =>
    show 0 < (g.requests.get? o.name).getD 0
    rw [hrequests]
    exact h
  | facet m => exact True.intro
  | _ => exact h

/-! ### Keeping -/

/-- Whether a name leads to the copy of an output, made when the next number was at least `next`. -/
def LeadsToCopy (g : Forest) (next : Nat) (name : String) : Prop :=
  ∃ j o, g.outputs.get? name = some j ∧ g.node? j = some (.output o) ∧ g.Vital (.output o) ∧
    o.kind = .scale ∧ o.source = name ∧ next ≤ o.id

/-- Facets and requested outputs are where they were, and a name that led to one of them leads there
still or to a copy that was made since. -/
structure Keeps (f g : Forest) : Prop where
  requests : g.requests = f.requests
  ids : f.ids.next ≤ g.ids.next
  node {i : NodeId} {n : Node} : f.node? i = some n → f.Vital n → g.node? i = some n
  entry {name : String} {i : NodeId} {n : Node} : f.outputs.get? name = some i →
    f.node? i = some n → f.Vital n →
      g.outputs.get? name = some i ∨ g.LeadsToCopy f.ids.next name

theorem Keeps.refl (f : Forest) : f.Keeps f :=
  ⟨rfl, Nat.le_refl _, fun hn _ => hn, fun he _ _ => .inl he⟩

theorem Keeps.trans (hfg : f.Keeps g) (hgh : g.Keeps h) : f.Keeps h where
  requests := hgh.requests.trans hfg.requests
  ids := le_trans hfg.ids hgh.ids
  node hn hv := hgh.node (hfg.node hn hv) (hv.congr hfg.requests)
  entry {name i n} he hn hv := by
    have later : h.LeadsToCopy g.ids.next name → h.LeadsToCopy f.ids.next name :=
      fun ⟨j, o, hj, ho, hov, hkind, hsource, hid⟩ =>
        ⟨j, o, hj, ho, hov, hkind, hsource, le_trans hfg.ids hid⟩
    rcases hfg.entry he hn hv with he | ⟨j, o, hj, ho, hov, hkind, hsource, hid⟩
    · exact (hgh.entry he (hfg.node hn hv) (hv.congr hfg.requests)).imp_right later
    · -- A copy is an output that somebody requested, so it is kept as well.
      refine .inr ((hgh.entry hj ho hov).elim (fun hj => ?_) later)
      exact ⟨j, o, hj, hgh.node ho hov, hov.congr hgh.requests, hkind, hsource, hid⟩

theorem requests_of_contents (hcontents : g.contents = f.contents) : g.requests = f.requests :=
  (Forest.mk.inj hcontents).2.2.2.2.2.1

theorem ids_of_contents (hcontents : g.contents = f.contents) : g.ids = f.ids :=
  (Forest.mk.inj hcontents).2.2.2.2.2.2.2

/-- The same outputs and facets with the same names and numbers; links and other nodes may differ. -/
structure SameEnds (f g : Forest) : Prop where
  requests : g.requests = f.requests
  ids : g.ids = f.ids
  outputs : g.outputs = f.outputs
  node {i : NodeId} {n : Node} : endsBranch n → (g.node? i = some n ↔ f.node? i = some n)

namespace SameEnds

theorem of_contents (hcontents : g.contents = f.contents) : f.SameEnds g where
  requests := requests_of_contents hcontents
  ids := ids_of_contents hcontents
  outputs := outputs_of_contents hcontents
  node {i _} _ := by rw [node?_of_contents hcontents i]

theorem keeps (hsame : f.SameEnds g) : f.Keeps g where
  requests := hsame.requests
  ids := Nat.le_of_eq (congrArg IdSupply.next hsame.ids).symm
  node hn hv := (hsame.node hv.endsBranch).mpr hn
  entry he _ _ := .inl ((congrArg (Dict.get? · _) hsame.outputs).trans he)

theorem numbered (hsame : f.SameEnds g) (hnum : f.Numbered) : g.Numbered where
  lt hn hk := hsame.ids ▸ hnum.lt ((hsame.node (Node.endsBranch_of_number? hk)).mp hn) hk
  unique hm hn hmk hnk := hnum.unique ((hsame.node (Node.endsBranch_of_number? hmk)).mp hm)
    ((hsame.node (Node.endsBranch_of_number? hnk)).mp hn) hmk hnk

theorem allRequested (hsame : f.SameEnds g) (hall : f.AllRequested) : g.AllRequested :=
  fun i o ho => Vital.congr (n := .output o) (hall i o ((hsame.node rfl).mp ho)) hsame.requests

end SameEnds

theorem requests_remove (f : Forest) (i : NodeId) : (f.remove i).requests = f.requests := by
  have hclear : ∀ g : Forest, (g.clear i).requests = g.requests := fun g => by
    unfold clear
    split <;> rfl
  exact (hclear _).trans (requests_of_contents (contents_unwrap f i))

theorem ids_remove (f : Forest) (i : NodeId) : (f.remove i).ids = f.ids := by
  have hclear : ∀ g : Forest, (g.clear i).ids = g.ids := fun g => by
    unfold clear
    split <;> rfl
  exact (hclear _).trans (ids_of_contents (contents_unwrap f i))

theorem keeps_remove (hn : ∀ n, f.node? i = some n → ¬ f.Vital n) : f.Keeps (f.remove i) where
  requests := requests_remove f i
  ids := Nat.le_of_eq (congrArg IdSupply.next (ids_remove f i)).symm
  node {j n} hj hv := by
    have hne : j ≠ i := fun he => hn n (he ▸ hj) hv
    rw [node?_remove, if_neg hne, hj]
  entry {name j n} he hj hv := by
    have hne : j ≠ i := fun he => hn n (he ▸ hj) hv
    rw [outputs_remove]
    exact .inl (Dict.get?_filter he fun _ => bne_iff_ne.mpr hne)

theorem keeps_absorb {keep : NodeId} (hn : ∀ n, f.node? i = some n → ¬ f.Vital n) :
    f.Keeps (f.absorb keep i) := by
  have hadopt := contents_adopt f keep (f.children i)
  refine (SameEnds.of_contents hadopt).keeps.trans (keeps_remove fun n hi hv => ?_)
  rw [node?_of_contents hadopt] at hi
  exact hn n hi (hv.congr (requests_of_contents hadopt).symm)

end Forest

/-! ### Passes -/

theorem Forest.Drops.not_vital (hd : f.Drops rowIds i n) : ¬ f.Vital n := by
  cases hd with
  | output hcount => exact Nat.not_lt.mpr (Nat.le_of_eq hcount)
  | _ => exact id

theorem Node.Revises.number? (hr : m.Revises n) : m.number? = none ∧ n.number? = none := by
  cases hr <;> exact ⟨rfl, rfl⟩

theorem Forest.not_vital_of_number? (hn : n.number? = none) : ¬ f.Vital n := fun hv => by
  obtain ⟨k, hk⟩ := hv.exists_number
  rw [hn] at hk
  cases hk

section

variable (hstep : Rewrite rowIds f g) (hf : f.Planted)

include hstep hf

theorem Rewrite.keeps (hnum : f.Numbered) : f.Keeps g := by
  cases hstep with
  | @drop i n hn hd =>
    refine keeps_remove fun m hm => ?_
    cases hn.symm.trans hm
    exact hd.not_vital
  | @prune i n hn hends _ =>
    refine keeps_remove fun m hm hv => ?_
    cases hn.symm.trans hm
    rw [hv.endsBranch] at hends
    exact Bool.noConfusion hends
  | @revise i m r signals hm hr =>
    refine ⟨rfl, Nat.le_refl _, fun {j n} hn hv => ?_, fun he _ _ => .inl he⟩
    show (f.setNode i r).node? j = some n
    have hne : j ≠ i := fun he => by
      cases (he ▸ hn).symm.trans hm
      exact not_vital_of_number? hr.number?.2 hv
    rw [node?_setNode, if_neg hne, hn]
  | raise _ _ _ hp hg => exact (SameEnds.of_contents (hf.contents_exchange hp hg)).keeps
  | shift _ _ _ _ _ _ => exact (SameEnds.of_contents (contents_setParent f _ _)).keeps
  | @insert p c hp =>
    refine ⟨requests_store f _, Nat.le_of_eq (congrArg IdSupply.next (ids_store f _)).symm,
      fun hn _ => ?_, fun he _ _ => .inl ?_⟩
    · exact (hf.arena.node?_add_of_contains _ _ (contains_of_node? hn)).trans hn
    · exact (congrArg (Dict.get? · _) (outputs_store f (.parse c))).trans he
  | @join keep other p m n hk ho hsub hne _ _ =>
    refine keeps_absorb fun r hr hv => ?_
    cases ho.symm.trans hr
    obtain ⟨k, hk'⟩ := hv.exists_number
    exact hne (hnum.unique hk ho (hsub.number?.trans hk') hk')
  | joinAbove _ ho _ =>
    refine keeps_absorb fun r hr => ?_
    cases ho.symm.trans hr
    exact id

theorem Rewrite.entries : g.ids = f.ids ∧ g.outputs ⊆ f.outputs := by
  have hremove : ∀ (f : Forest) i, (f.remove i).ids = f.ids ∧ (f.remove i).outputs ⊆ f.outputs :=
    fun f i => ⟨ids_remove f i, outputs_remove f i ▸ filter_sublist.subset⟩
  have hcontents : ∀ {g : Forest}, g.contents = f.contents → g.ids = f.ids ∧ g.outputs ⊆ f.outputs :=
    fun h => ⟨ids_of_contents h, fun _ he => outputs_of_contents h ▸ he⟩
  have habsorb : ∀ keep other, (f.absorb keep other).ids = f.ids ∧
      (f.absorb keep other).outputs ⊆ f.outputs := fun keep other =>
    have hadopt := hcontents (contents_adopt f keep (f.children other))
    have hgone := hremove (f.adopt keep (f.children other)) other
    ⟨hgone.1.trans hadopt.1, List.Subset.trans hgone.2 hadopt.2⟩
  cases hstep with
  | drop _ _ | prune _ _ _ => exact hremove f _
  | revise _ _ _ => exact ⟨rfl, Subset.refl _⟩
  | raise _ _ _ hp hg => exact hcontents (hf.contents_exchange hp hg)
  | shift _ _ _ _ _ _ => exact hcontents (contents_setParent f _ _)
  | insert c _ => exact ⟨ids_store f _, fun _ he => outputs_store f (.parse c) ▸ he⟩
  | join _ _ _ _ _ _ | joinAbove _ _ _ => exact habsorb _ _

theorem Rewrite.numbered (hnum : f.Numbered) :
    g.Numbered where
  lt {i n k} hn hk := by
    rw [(hstep.entries hf).1]
    exact hnum.lt (hstep.node?_of_endsBranch hf hn (Node.endsBranch_of_number? hk)) hk
  unique hm hn hmk hnk :=
    hnum.unique (hstep.node?_of_endsBranch hf hm (Node.endsBranch_of_number? hmk))
      (hstep.node?_of_endsBranch hf hn (Node.endsBranch_of_number? hnk)) hmk hnk

end

theorem Rewrites.keeps (hsteps : Rewrites rowIds f g) (hf : f.Planted) (hnum : f.Numbered) :
    f.Keeps g ∧ g.Numbered := by
  induction hsteps with
  | refl => exact ⟨.refl f, hnum⟩
  | tail hsteps hstep ih =>
    have hplanted := Rewrites.planted hsteps hf
    exact ⟨ih.1.trans (hstep.keeps hplanted ih.2), hstep.numbered hplanted ih.2⟩

theorem Rewrites.allRequested (hsteps : Rewrites rowIds f g) (hf : f.Planted)
    (hkeeps : f.Keeps g) (hall : f.AllRequested) : g.AllRequested := by
  intro i o ho
  exact Vital.congr (n := .output o) (hall i o (hsteps.course_refines hf ho rfl).1) hkeeps.requests

/-! ### Outputs that nobody requested -/

theorem Forest.Linked.live_of_below (hf : f.Linked) (hb : f.Below i j) (hj : f.contains j) :
    f.contains i := by
  rcases below_iff.mp hb with rfl | ⟨c, hc, -⟩
  · exact hj
  · exact (hf.live hc).1

theorem isUnrequested_remove (f : Forest) (i j : NodeId) :
    isUnrequested (f.remove i) j = (decide (j ≠ i) && isUnrequested f j) := by
  unfold isUnrequested holds requestCount
  rw [node?_remove, requests_remove]
  by_cases hj : j = i <;> simp [hj]

theorem isUnrequested_foldl_dropNode {p : Progress} (nodes : List NodeId)
    (h : isUnrequested (nodes.foldl (dropNode isUnrequested) p).forest i) :
    isUnrequested p.forest i ∧ i ∉ nodes := by
  induction nodes generalizing p with
  | nil => exact ⟨h, not_mem_nil⟩
  | cons a rest ih =>
    obtain ⟨hi, hrest⟩ := ih h
    unfold dropNode at hi
    split at hi
    · have hi : isUnrequested (p.forest.remove a) i := hi
      rw [isUnrequested_remove, Bool.and_eq_true, decide_eq_true_eq] at hi
      exact ⟨hi.2, by simp [hi.1, hrest]⟩
    · rename_i ha
      have hne : i ≠ a := fun he => ha (he ▸ hi)
      exact ⟨hi, by simp [hne, hrest]⟩

theorem below_foldl_dropNode {p : Progress} {r : NodeId} (nodes : List NodeId)
    (hp : p.forest.Linked) (hr : isUnrequested p.forest r = false)
    (hi : isUnrequested (nodes.foldl (dropNode isUnrequested) p).forest i)
    (hb : p.forest.Below r i) :
    (nodes.foldl (dropNode isUnrequested) p).forest.Linked ∧
      isUnrequested (nodes.foldl (dropNode isUnrequested) p).forest r = false ∧
      (nodes.foldl (dropNode isUnrequested) p).forest.Below r i := by
  induction nodes generalizing p with
  | nil => exact ⟨hp, hr, hb⟩
  | cons a rest ih =>
    have hne : i ≠ a := fun he => (isUnrequested_foldl_dropNode (a :: rest) hi).2 (by simp [he])
    rw [foldl_cons] at hi ⊢
    unfold dropNode at hi ⊢
    split at hi
    · rename_i ha
      have hra : r ≠ a := fun he => by
        rw [he, ha] at hr
        exact Bool.noConfusion hr
      rw [if_pos ha]
      refine ih (p := p.change (p.forest.remove a)) (hp.remove a) ?_ hi ((hp.below_remove_iff hra hne).mpr hb)
      show isUnrequested (p.forest.remove a) r = false
      rw [isUnrequested_remove, hr, Bool.and_false]
    · rename_i ha
      rw [if_neg ha]
      exact ih hp hr hi hb

def purgeRoot (p : Progress) (root : NodeId) : Progress :=
  if p.forest.contains root then (p.forest.subtree root).foldl (dropNode isUnrequested) p else p

theorem isUnrequested_foldl_purgeRoot {p : Progress} (roots : List NodeId)
    (h : isUnrequested (roots.foldl purgeRoot p).forest i) : isUnrequested p.forest i := by
  induction roots generalizing p with
  | nil => exact h
  | cons root rest ih =>
    have hfirst := ih h
    unfold purgeRoot at hfirst
    split at hfirst
    · exact (isUnrequested_foldl_dropNode _ hfirst).1
    · exact hfirst

theorem not_below_foldl_purgeRoot {p : Progress} {r : NodeId} (roots : List NodeId)
    (hp : p.forest.Linked) (hr : isUnrequested p.forest r = false)
    (hi : isUnrequested (roots.foldl purgeRoot p).forest i) (hb : p.forest.Below r i) :
    r ∉ roots := by
  induction roots generalizing p with
  | nil => exact not_mem_nil
  | cons root rest ih =>
    have hfirst : isUnrequested (purgeRoot p root).forest i := isUnrequested_foldl_purgeRoot rest hi
    have hrlive : p.forest.contains r := hp.live_of_below hb
      (contains_of_holds (isUnrequested_foldl_purgeRoot (root :: rest) hi))
    rw [foldl_cons] at hi
    unfold purgeRoot at hi hfirst
    split at hi
    · rename_i hlive
      rw [if_pos hlive] at hfirst
      have hne : r ≠ root := fun he =>
        (isUnrequested_foldl_dropNode _ hfirst).2 (hp.mem_subtree.mpr (he ▸ hb))
      obtain ⟨hp', hr', hb'⟩ := below_foldl_dropNode _ hp hr hfirst hb
      simpa [hne] using ih hp' hr' hi hb'
    · rename_i hdead
      have hne : r ≠ root := fun he => hdead (he ▸ hrlive)
      simpa [hne] using ih hp hr hi hb

theorem Forest.Planted.allRequested_purged (hf : f.Planted) : f.purged.AllRequested := by
  intro i o ho
  refine Nat.pos_of_ne_zero fun hcount => ?_
  have hi : isUnrequested f.purged i := by
    unfold isUnrequested
    rw [holds_of_node? ho]
    simp [Node.output?, hcount]
  have hi' : isUnrequested f i := isUnrequested_foldl_purgeRoot (p := { forest := f }) f.sources hi
  obtain ⟨r, hr, hb⟩ := Valid.exists_root hf.toValidBut (contains_of_holds hi')
  obtain ⟨n, hn, hsource⟩ := holds_iff.mp (hf.sourced.mp hr)
  have hroot : isUnrequested f r = false := by
    unfold isUnrequested
    rw [holds_of_node? hn]
    cases n <;> first | rfl | exact Bool.noConfusion hsource
  exact not_below_foldl_purgeRoot (p := { forest := f }) f.sources hf.toLinked hroot hi hb hr

/-! ### Copied cells -/

section

variable {fields : List String} {main : NodeId} {loose : List NodeId}

theorem Node.le_refresh (ids : IdSupply) (n : Node) : ids.next ≤ (n.refresh ids).2.next := by
  cases n <;> first | exact Nat.le_refl _ | exact Nat.le_succ _

theorem number?_globalCopy {ids : IdSupply} {k : Nat}
    (h : (globalCopy fields (n.refresh ids).1).number? = some k) :
    k = ids.next ∧ (n.refresh ids).2.next = ids.next + 1 := by
  cases n <;> first | (cases h; exact ⟨rfl, rfl⟩) | cases h

theorem Forest.AllRequested.vital_globalCopy {ids : IdSupply} {o : Output} (hall : f.AllRequested)
    (hn : f.node? i = some n) (ho : globalCopy fields (n.refresh ids).1 = .output o) :
    f.Vital (.output o) := by
  obtain ⟨original, rfl, rfl⟩ := eq_output_of_globalCopy ho
  exact (hall _ _ hn : 0 < f.requestCount original.name)

theorem Copying.keeps (hstep : Copying fields main f g) (hall : f.AllRequested) : f.Keeps g := by
  cases hstep with
  | @copy i _ n loose hf hn _ _ =>
    refine ⟨requests_copyNode fields hn, ?_, fun {j m} hj _ => ?_, fun {name j m} he hj hv => ?_⟩
    · rw [ids_copyNode fields hn]
      exact n.le_refresh f.ids
    · have hne : j ≠ (f.duplicate i).2 := fun he => by
        have hvacant := (hf.node?_duplicate hn i).1
        rw [← he, contains_of_node? hj] at hvacant
        exact Bool.noConfusion hvacant
      rw [hf.node?_copyNode fields hn, if_neg hne, hj]
    · rcases hf.get?_copyNode fields hn name with hsame | ⟨o, ho, hname, hentry⟩
      · exact .inl (hsame.trans he)
      · have hvital := (hall.vital_globalCopy hn ho).congr (requests_copyNode fields hn)
        have hnew : (f.copyNode fields i).node? (f.duplicate i).2 = some (.output o) := by
          rw [hf.node?_copyNode fields hn, if_pos rfl, ho]
        obtain ⟨original, rfl, rfl⟩ := eq_output_of_globalCopy ho
        exact .inr ⟨_, _, hentry, hnew, hvital, rfl, hname, Nat.le_refl _⟩
  | @link i p loose hf _ _ _ _ => exact (SameEnds.of_contents (contents_attach f i p none)).keeps

theorem Copying.allRequested (hstep : Copying fields main f g) (hall : f.AllRequested) :
    g.AllRequested := by
  cases hstep with
  | @copy i _ n loose hf hn _ _ =>
    intro j o ho
    refine Vital.congr (n := .output o) (f := f) ?_ (requests_copyNode fields hn)
    rw [hf.node?_copyNode fields hn] at ho
    split at ho
    · exact hall.vital_globalCopy hn (Option.some.inj ho)
    · exact hall j o ho
  | @link i p loose hf _ _ _ _ =>
    exact (SameEnds.of_contents (contents_attach f i p none)).allRequested hall

theorem Copying.numbered (hstep : Copying fields main f g) (hnum : f.Numbered) : g.Numbered := by
  cases hstep with
  | @copy i _ n loose hf hn _ _ =>
    have hold : ∀ {j m k}, (f.copyNode fields i).node? j = some m → m.number? = some k →
        (j = (f.duplicate i).2 ∧ k = f.ids.next ∧ (n.refresh f.ids).2.next = f.ids.next + 1) ∨
          f.node? j = some m := by
      intro j m k hj hk
      rw [hf.node?_copyNode fields hn] at hj
      split at hj
      · rename_i he
        cases hj
        exact .inl ⟨he, number?_globalCopy hk⟩
      · exact .inr hj
    refine ⟨fun {j m k} hj hk => ?_, fun {j j' m m' k} hj hj' hk hk' => ?_⟩
    · rw [ids_copyNode fields hn]
      rcases hold hj hk with ⟨-, rfl, hnext⟩ | hj
      · exact hnext ▸ Nat.lt_succ_self _
      · exact Nat.lt_of_lt_of_le (hnum.lt hj hk) (n.le_refresh f.ids)
    · rcases hold hj hk with ⟨he, hnew, -⟩ | hj <;> rcases hold hj' hk' with ⟨he', hnew', -⟩ | hj'
      · exact he.trans he'.symm
      · exact absurd (hnum.lt hj' hk') (Nat.not_lt.mpr (Nat.le_of_eq hnew.symm))
      · exact absurd (hnum.lt hj hk) (Nat.not_lt.mpr (Nat.le_of_eq hnew'.symm))
      · exact hnum.unique hj hj' hk hk'
  | @link i p loose hf _ _ _ _ =>
    exact (SameEnds.of_contents (contents_attach f i p none)).numbered hnum

end

/-! ### Optimization -/

/-- What is kept of a forest while facets move down. -/
structure Forest.Keeping (base f : Forest) : Prop where
  keeps : base.Keeps f
  numbered : f.Numbered
  allRequested : f.AllRequested

theorem Forest.Keeping.rewrites {base : Forest} {rowIds : Bool} (h : base.Keeping f) (hf : f.Planted)
    (hsteps : Rewrites rowIds f g) : base.Keeping g := by
  obtain ⟨hkeeps, hnum⟩ := Rewrites.keeps hsteps hf h.numbered
  exact ⟨h.keeps.trans hkeeps, hnum, hsteps.allRequested hf hkeeps h.allRequested⟩

theorem Forest.Keeping.sameEnds {base : Forest} (h : base.Keeping f) (hsame : f.SameEnds g) :
    base.Keeping g :=
  ⟨h.keeps.trans hsame.keeps, hsame.numbered h.numbered, hsame.allRequested h.allRequested⟩

theorem Forest.Keeping.copying {base : Forest} {fields : List String} {main : NodeId}
    (h : base.Keeping f) (hstep : Copying fields main f g) : base.Keeping g :=
  ⟨h.keeps.trans (hstep.keeps h.allRequested), hstep.numbered h.numbered,
    hstep.allRequested h.allRequested⟩

theorem Node.addDimensions_of_endsBranch (fields : List String) (h : endsBranch n) :
    n.addDimensions fields = n := by
  cases n <;> first | rfl | exact Bool.noConfusion h

theorem Node.endsBranch_addDimensions (fields : List String) (n : Node) :
    endsBranch (n.addDimensions fields) = endsBranch n := by
  cases n <;> rfl

theorem Forest.sameEnds_modify_addDimensions (fields : List String) (f : Forest) (i : NodeId) :
    f.SameEnds (f.modify i (Node.addDimensions fields)) where
  requests := rfl
  ids := rfl
  outputs := rfl
  node {j n} hends := by
    rw [node?_modify]
    split
    · cases f.node? j with
      | none => simp
      | some m =>
        simp only [Option.map_some, Option.some.injEq]
        refine ⟨fun he => ?_, fun he => he ▸ Node.addDimensions_of_endsBranch fields (he ▸ hends)⟩
        rw [← he, Node.endsBranch_addDimensions] at hends
        rw [← he, Node.addDimensions_of_endsBranch fields hends]
    · rfl

theorem sinkInvariant_keeping (base : Forest) :
    SinkInvariant (fun f => base.Keeping f) (fun _ _ => True) :=
  .of_steps (fun fields c h => h.sameEnds (sameEnds_modify_addDimensions fields _ c))
    (fun hf hp hg h => h.sameEnds (.of_contents (hf.contents_exchange hp hg)))
    fun _ hstep h => h.copying hstep

/-- Optimization succeeds on every forest that passes the check, has its data sources as roots and
numbers of their own for its outputs and facets. Every facet and every requested output is there
afterwards as before. A name that led to one of them leads there still, or to a copy made on the way.
No output remains that nobody requested, and numbers are still different. -/
theorem optimize_keeps_requested {f : Forest} (rowIds : Bool) (hgraph : f.Graph)
    (hcheck : f.check = .ok ()) (hroots : ∀ i, i ∈ f.sources ↔ f.holds i Node.isDataSource)
    (hnum : f.Numbered) :
    ∃ p, optimize rowIds f = .ok p ∧
      (∀ i n, f.node? i = some n → f.Vital n → p.forest.node? i = some n) ∧
      (∀ name i n, f.outputs.get? name = some i → f.node? i = some n → f.Vital n →
        p.forest.outputs.get? name = some i ∨ p.forest.LeadsToCopy f.ids.next name) ∧
      p.forest.requests = f.requests ∧ p.forest.AllRequested ∧ p.forest.Numbered := by
  have hf := hgraph.planted hcheck hroots
  obtain ⟨hpurged, hnum₁⟩ := Rewrites.keeps (hf.rewrites_purged rowIds) hf hnum
  have hkeeping : f.Keeping f.purged := ⟨hpurged, hnum₁, hf.allRequested_purged⟩
  obtain ⟨settled, moved, last, hrun, -, hsunk, hsteps⟩ := (sinkInvariant_keeping f).optimize rowIds hf
    fun hsteps => hkeeping.rewrites hf.purged hsteps
  obtain ⟨hkeeps, hnum', hall⟩ := hsunk.kept.rewrites hsunk.planted hsteps
  exact ⟨last, hrun.optimize_eq, fun _ _ => hkeeps.node, fun _ _ _ => hkeeps.entry, hkeeps.requests,
    hall, hnum'⟩

/-- Rows that are split into cells, counted in each of them, and an output that nobody requested. -/
def countedCells : Forest where
  slots := [some (.source .empty), some (.output (.fresh "main" .main 0)),
    some (.facet { id := 1, main := "main", name := "facet", row := some ⟨"row", ["kind"], none⟩ }),
    some (.aggregate { dimensions := ["year"], measures := [("*", [("count", ["rows"])])] }),
    some (.output (.fresh "child_main" .main 2)), some (.output (.fresh "child_raw" .raw 3))]
  edges := [⟨2, 5, 1⟩, ⟨3, 4, 0⟩, ⟨2, 3, 0⟩, ⟨1, 2, 0⟩, ⟨0, 1, 0⟩]
  sources := [0]
  outputs := [("child_main", 4), ("child_raw", 5), ("facet", 2), ("main", 1)]
  requests := [("child_main", 1), ("main", 1)]
  ids := ⟨4⟩

theorem optimize_countedCells : countedCells.Numbered ∧ countedCells.Vital (.facet
      { id := 1, main := "main", name := "facet", row := some ⟨"row", ["kind"], none⟩ }) ∧
    ∃ p, optimize false countedCells = .ok p ∧
      (∀ i n, countedCells.node? i = some n → countedCells.Vital n → p.forest.node? i = some n) ∧
      (∀ name i n, countedCells.outputs.get? name = some i → countedCells.node? i = some n →
        countedCells.Vital n →
          p.forest.outputs.get? name = some i ∨ p.forest.LeadsToCopy countedCells.ids.next name) ∧
      p.forest.requests = countedCells.requests ∧ p.forest.AllRequested ∧ p.forest.Numbered := by
  have hcheck : countedCells.check = .ok () := by rfl
  have hgraph : countedCells.Graph := ⟨⟨by decide, by decide⟩, by decide⟩
  have hnumber : ∀ {i : Nat} {n k}, countedCells.node? i = some n → n.number? = some k →
      (i, k) ∈ [(1, 0), (2, 1), (4, 2), (5, 3)] := by
    intro i n k hn hk
    have hi : i < 6 := lt_of_contains (contains_of_node? hn)
    obtain rfl | rfl | rfl | rfl | rfl | rfl :
        i = 0 ∨ i = 1 ∨ i = 2 ∨ i = 3 ∨ i = 4 ∨ i = 5 := by omega
    all_goals cases hn; cases hk <;> decide
  have hnum : countedCells.Numbered := by
    refine ⟨fun hn hk => ?_, fun hm hn hmk hnk => ?_⟩
    · have hk := hnumber hn hk
      simp only [mem_cons, Prod.mk.injEq, not_mem_nil, or_false] at hk
      show _ < 4
      omega
    · have hi := hnumber hm hmk
      have hj := hnumber hn hnk
      simp only [mem_cons, Prod.mk.injEq, not_mem_nil, or_false] at hi hj
      show (_ : Nat) = _
      omega
  exact ⟨hnum, True.intro, optimize_keeps_requested false hgraph hcheck (roots_of_slots (by decide)) hnum⟩

end Flow

end ChartPlan
