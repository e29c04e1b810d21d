import ChartPlan.Proofs.Flow.Housing
import Mathlib.Logic.Equiv.Basic

/-!
# Every requested output in a cell is copied

Scales that are shared by all cells of a facet read copies of the outputs in the cells. Moving facets down
makes such a copy for every output that is in a cell. The walk that does it changes the forest under its
feet: facets and main outputs change places with their only children. Each such exchange only swaps the
names of two nodes in the tree, so whatever was above an output stays above it. A node that waits for the
walk to come back is below a fork, which no exchange can take apart, so it never comes up and the links
that were counted at the start suffice.

* `Forest.ancestor?`: the node some links above another one.
* `Linked.parent?_swap`: an exchange with an only child swaps two nodes.
* `Forest.Forked`: a node that waits for the walk; `Lasting`: what exchanges and copies keep.
* `copyCells_serves`: copied cells have copies of all outputs in them.
* `settleBelow_serves`: the walk copies every output in a cell below it.
* `Arranged.optimize_serves`: after optimization every requested output in a cell has a copy.
-/

namespace ChartPlan.Flow

open Forest List

variable {base f g h : Forest} {i j x y z q c grand : NodeId} {n : Nat} {o : Output}

/-! ### Ancestors -/

namespace Forest

def ancestor? (f : Forest) (x : NodeId) : Nat → Option NodeId
  | 0 => some x
  | n + 1 => (f.ancestor? x n).bind f.parent?

theorem ancestor?_succ : f.ancestor? x (n + 1) = some i ↔
    ∃ c, f.ancestor? x n = some c ∧ f.parent? c = some i :=
  Option.bind_eq_some_iff

theorem ancestor?_parent {p : NodeId} (hp : f.parent? x = some p) (n : Nat) :
    f.ancestor? x (n + 1) = f.ancestor? p n := by
  induction n with
  | zero => exact hp
  | succ n ih =>
    show (f.ancestor? x (n + 1)).bind f.parent? = (f.ancestor? p n).bind f.parent?
    rw [ih]

theorem ancestor?_mono (hparent : ∀ {c p}, f.parent? c = some p → g.parent? c = some p)
    (hx : f.ancestor? x n = some i) : g.ancestor? x n = some i := by
  induction n generalizing i with
  | zero => exact hx
  | succ n ih =>
    obtain ⟨c, hc, hp⟩ := ancestor?_succ.mp hx
    exact ancestor?_succ.mpr ⟨c, ih hc, hparent hp⟩

theorem Linked.exists_ancestor (hf : f.Linked) (hb : f.Below i x) :
    ∃ n, f.ancestor? x n = some i := by
  induction hb using Relation.ReflTransGen.head_induction_on with
  | refl => exact ⟨0, rfl⟩
  | head hc _ ih =>
    obtain ⟨n, hn⟩ := ih
    exact ⟨n + 1, ancestor?_succ.mpr ⟨_, hn, hf.parent?_of_mem hc⟩⟩

theorem Linked.below_of_ancestor (hf : f.Linked) (hx : f.ancestor? x n = some i) : f.Below i x := by
  induction n generalizing i with
  | zero =>
    cases hx
    exact .refl f x
  | succ n ih =>
    obtain ⟨c, hc, hp⟩ := ancestor?_succ.mp hx
    exact Relation.ReflTransGen.head (hf.child hp) (ih hc)

theorem Linked.lt_of_fits (hf : f.Linked) {fuel : Nat} (hfits : f.Fits fuel i)
    (hx : f.ancestor? x n = some i) : n < fuel := by
  induction fuel generalizing i n with
  | zero => exact hfits.elim
  | succ fuel ih =>
    cases n with
    | zero => exact Nat.succ_pos fuel
    | succ n =>
      obtain ⟨c, hc, hp⟩ := ancestor?_succ.mp hx
      exact Nat.succ_lt_succ (ih (hfits c (hf.child hp)) hc)

/-! ### Exchanges -/

theorem Linked.parent?_swap (hf : f.Linked) (hq : f.parent? c = some q)
    (hg : f.parent? q = some grand) (honly : f.children q = [c]) {a b : NodeId}
    (hab : f.parent? a = some b) :
    (f.exchange c).2.parent? (Equiv.swap q c a) = some (Equiv.swap q c b) := by
  have hparent := (hf.exchange hq hg).2
  have hcq : c ∈ f.children q := hf.child hq
  have hqg : q ∈ f.children grand := hf.child hg
  have hne : c ≠ q := hf.ne_parent hq
  by_cases hac : a = c
  · subst hac
    cases hq.symm.trans hab
    rw [Equiv.swap_apply_right, Equiv.swap_apply_left, hparent, if_pos rfl]
  by_cases haq : a = q
  · subst haq
    cases hg.symm.trans hab
    have hga : grand ≠ a := fun he => hf.not_mem_children_self a (he ▸ hqg)
    have hgc : grand ≠ c := fun he => hf.not_below_of_child hcq ((Below.refl f c).step (he ▸ hqg))
    rw [Equiv.swap_apply_left, Equiv.swap_apply_of_ne_of_ne hga hgc, hparent, if_neg hne, if_pos rfl]
  rw [Equiv.swap_apply_of_ne_of_ne haq hac, hparent, if_neg haq, if_neg hac, hab]
  by_cases hbc : b = c
  · rw [if_pos (congrArg some hbc), hbc, Equiv.swap_apply_right]
  · have hbq : b ≠ q := fun he => by
      have hmem : a ∈ f.children q := hf.child (he ▸ hab)
      rw [honly, mem_singleton] at hmem
      exact hac hmem
    rw [if_neg fun he => hbc (Option.some.inj he), Equiv.swap_apply_of_ne_of_ne hbq hbc]

theorem Linked.ancestor?_swap (hf : f.Linked) (hq : f.parent? c = some q)
    (hg : f.parent? q = some grand) (honly : f.children q = [c])
    (hx : f.ancestor? x n = some i) :
    (f.exchange c).2.ancestor? (Equiv.swap q c x) n = some (Equiv.swap q c i) := by
  induction n generalizing i with
  | zero =>
    cases hx
    rfl
  | succ n ih =>
    obtain ⟨b, hb, hp⟩ := ancestor?_succ.mp hx
    exact ancestor?_succ.mpr ⟨_, ih hb, hf.parent?_swap hq hg honly hp⟩

/-- `y` is above `x` and below a node with two children, which is at most `k` links above `x`. -/
def Forked (f : Forest) (k : Nat) (y x : NodeId) : Prop :=
  ∃ z n m a b, f.ancestor? x n = some y ∧ f.ancestor? y (m + 1) = some z ∧ n + m + 1 ≤ k ∧
    f.parent? a = some z ∧ f.parent? b = some z ∧ a ≠ b

/-- What is kept while facets and main outputs other than `x` change places with their only children, and
while new nodes are linked. -/
structure Lasting (x : NodeId) (T : Forest → Prop) : Prop where
  exchange {f : Forest} {q c grand : NodeId} : f.Linked → f.parent? c = some q →
    f.parent? q = some grand → f.children q = [c] → x ≠ q → x ≠ c → T f → T (f.exchange c).2
  grow {f g : Forest} : (∀ {c p}, f.parent? c = some p → g.parent? c = some p) → T f → T g

theorem Linked.ancestor?_exchange (hf : f.Linked) (hq : f.parent? c = some q)
    (hg : f.parent? q = some grand) (honly : f.children q = [c]) (hxq : x ≠ q) (hxc : x ≠ c)
    (hx : f.ancestor? x n = some y) :
    ∃ k, (f.exchange c).2.ancestor? x k = some y ∧
      (y = c ∧ k = n + 1 ∨ y = q ∧ n = k + 1 ∨ y ≠ c ∧ y ≠ q ∧ k = n) := by
  have hswap := hf.ancestor?_swap hq hg honly hx
  have hparent := (hf.exchange hq hg).2
  have hcq : c ∈ f.children q := hf.child hq
  have hne : c ≠ q := hf.ne_parent hq
  rw [Equiv.swap_apply_of_ne_of_ne hxq hxc] at hswap
  by_cases hyc : y = c
  · subst hyc
    rw [Equiv.swap_apply_right] at hswap
    exact ⟨n + 1, ancestor?_succ.mpr ⟨q, hswap, (hparent q).trans (if_pos rfl)⟩, .inl ⟨rfl, rfl⟩⟩
  by_cases hyq : y = q
  · subst hyq
    -- The only way from `x` to its parent led through `c`.
    cases n with
    | zero => exact absurd (Option.some.inj hx) hxq
    | succ n =>
      obtain ⟨b, hb, hby⟩ := ancestor?_succ.mp hx
      have hmem : b ∈ f.children y := hf.child hby
      rw [honly, mem_singleton] at hmem
      subst hmem
      have hb' := hf.ancestor?_swap hq hg honly hb
      rw [Equiv.swap_apply_of_ne_of_ne hxq hxc, Equiv.swap_apply_right] at hb'
      exact ⟨n, hb', .inr (.inl ⟨rfl, rfl⟩)⟩
  · rw [Equiv.swap_apply_of_ne_of_ne hyq hyc] at hswap
    exact ⟨n, hswap, .inr (.inr ⟨hyc, hyq, rfl⟩)⟩

theorem lasting_above (y x : NodeId) : Lasting x fun f => ∃ n, f.ancestor? x n = some y where
  exchange hf hq hg honly hxq hxc := fun ⟨_, hn⟩ =>
    let ⟨k, hk, _⟩ := hf.ancestor?_exchange hq hg honly hxq hxc hn
    ⟨k, hk⟩
  grow hparent := fun ⟨n, hn⟩ => ⟨n, ancestor?_mono hparent hn⟩

theorem lasting_forked (k : Nat) (y x : NodeId) : Lasting x fun f => f.Forked k y x where
  exchange {f q c grand} hf hq hg honly hxq hxc := by
    rintro ⟨z, n, m, a, b, hy, hz, hk, ha, hb, hab⟩
    have hparent := (hf.exchange hq hg).2
    have ha' := hf.parent?_swap hq hg honly ha
    have hb' := hf.parent?_swap hq hg honly hb
    have hab' : Equiv.swap q c a ≠ Equiv.swap q c b := fun he => hab ((Equiv.swap q c).injective he)
    have hz' := hf.ancestor?_swap hq hg honly hz
    -- A node with an only child is no fork.
    have hzq : z ≠ q := fun he => by
      have hac : a ∈ f.children q := hf.child (he ▸ ha)
      have hbc : b ∈ f.children q := hf.child (he ▸ hb)
      rw [honly, mem_singleton] at hac hbc
      exact hab (hac.trans hbc.symm)
    have hqc : (f.exchange c).2.parent? q = some c := (hparent q).trans (if_pos rfl)
    obtain ⟨l, hl, ⟨rfl, rfl⟩ | ⟨rfl, rfl⟩ | ⟨hyc, hyq, rfl⟩⟩ :=
      hf.ancestor?_exchange hq hg honly hxq hxc hy
    · rw [Equiv.swap_apply_right, ancestor?_parent hqc] at hz'
      cases m with
      | zero =>
        have he : y = Equiv.swap q y z := Option.some.inj hz'
        exact absurd ((Equiv.swap q y).injective (he.symm.trans (Equiv.swap_apply_left q y).symm)) hzq
      | succ m => exact ⟨_, n + 1, m, _, _, hl, hz', by omega, ha', hb', hab'⟩
    · rw [Equiv.swap_apply_left] at hz'
      refine ⟨_, l, m + 1, _, _, hl, ?_, by omega, ha', hb', hab'⟩
      rw [ancestor?_parent hqc]
      exact hz'
    · rw [Equiv.swap_apply_of_ne_of_ne hyq hyc] at hz'
      exact ⟨_, l, m, _, _, hl, hz', hk, ha', hb', hab'⟩
  grow hparent := by
    rintro ⟨z, n, m, a, b, hy, hz, hk, ha, hb, hab⟩
    exact ⟨z, n, m, a, b, ancestor?_mono hparent hy, ancestor?_mono hparent hz, hk, hparent ha,
      hparent hb, hab⟩

end Forest

/-! ### Copies -/

namespace Forest

def Serves (f : Forest) (name : String) : Prop :=
  ∃ k o, f.outputs.get? name = some k ∧ f.node? k = some (.output o) ∧ f.Vital (.output o)

theorem Keeps.serves {name : String} (hfg : f.Keeps g) (hserves : f.Serves name) : g.Serves name := by
  obtain ⟨k, o, hk, ho, hv⟩ := hserves
  rcases hfg.entry hk ho hv with hk' | ⟨j, o', hj, ho', hv', -⟩
  · exact ⟨k, o, hk', hfg.node ho hv, hv.congr hfg.requests⟩
  · exact ⟨j, o', hj, ho', hv'⟩

end Forest

section

variable {fields : List String} {main : NodeId}

theorem Copying.parent? {p : NodeId} (hstep : Copying fields main f g) (hp : f.parent? c = some p) :
    g.parent? c = some p := by
  cases hstep with
  | copy hf hn hfacet _ =>
    have hlive := (hf.live_of_parent? hp).2
    exact ((hf.annexed_copyNode fields hn hfacet).parent hf hlive).trans hp
  | @link i q loose hf _ _ _ _ =>
    have hroot : f.parent? i = none := (hf.waiting mem_cons_self).2
    have hne : c ≠ i := fun he => by
      rw [he, hroot] at hp
      cases hp
    rw [hf.single.parent?_attach hroot q none, if_neg hne]
    exact hp

theorem Copyings.parent? {p : NodeId} (hsteps : Copyings fields main f g)
    (hp : f.parent? c = some p) : g.parent? c = some p := by
  induction hsteps with
  | refl => exact hp
  | tail _ hstep ih => exact hstep.parent? ih

theorem copyCells_serves (fields : List String) {facet : NodeId} (hf : f.Planted)
    (hall : f.AllRequested) (hmain : f.contains main) (hx : f.node? x = some (.output o))
    (habove : f.ancestor? x (n + 1) = some facet) :
    (copyCells fields facet main f).Serves (scaleStem ++ o.source) := by
  obtain ⟨h, roots, ts, heq, hts, hrep⟩ := copyCells_replica fields facet main hf.toValidBut
  obtain ⟨-, hsteps⟩ := copyCells_copied fields facet hf.toValidBut hmain
  have hall' := (Copyings.keeps hsteps hall).2
  rw [heq] at hall' ⊢
  obtain ⟨c, hc, hp⟩ := ancestor?_succ.mp habove
  obtain ⟨k, copy, hk, -, hcopy, -, -⟩ := hrep.registered o
    (hts.mem_preorders (hf.child hp) (hf.below_of_ancestor hc) hx)
  have hcontents := contents_attachAll h main roots
  have hcopy := (node?_of_contents hcontents k).trans hcopy
  exact ⟨k, copy, (congrArg (Dict.get? · _) (outputs_of_contents hcontents)).trans hk, hcopy,
    hall' k copy hcopy⟩

end

/-! ### The walk -/

section

variable {T : Forest → Prop} {p : Progress} {node : Facet}

section

variable (hbase : base.Arranged) (hx : base.node? x = some (.output o))
  (hv : base.Vital (.output o)) (hcell : base.cell? x ≠ none)

include hbase hx hv hcell

theorem sinkInvariant_lasting (hT : Lasting x T) :
    SinkInvariant (fun f => base.Housing f ∧ T f) (fun f i => f.contains i ∧ f.cell? i = none) where
  root hf h hi := (sinkInvariant_housing hbase).root hf h.1 hi
  child hf h hQ hfacet hc := (sinkInvariant_housing hbase).child hf h.1 hQ hfacet hc
  sink {f i c grand node} hf h hQ hn hc hq hg hout := by
    obtain ⟨hkept, hreached⟩ := (sinkInvariant_housing hbase).sink hf h.1 hQ hn hc hq hg hout
    have hxf := h.1.keeps.node hx hv
    have hxi : x ≠ i := fun he => by
      rw [he, hn] at hxf
      cases hxf
    have hxc : x ≠ c := fun he => by
      rw [← he, holds_of_node? hxf] at hout
      cases hout
    have hsame : T (f.modify c (Node.addDimensions node.fields)) := hT.grow (f := f) (fun hp => hp) h.2
    exact ⟨⟨hkept, hT.exchange (hf.grouped _ c).toLinked hq hg hc hxi hxc hsame⟩, hreached⟩
  main {f i m c grand node} hf h hQ hn hm hc hq hg hfacet := by
    obtain ⟨hkept, hreached⟩ := (sinkInvariant_housing hbase).main hf h.1 hQ hn hm hc hq hg hfacet
    obtain ⟨o', ho', hm'⟩ := h.1.main_output hbase hn hm
    have hxf : f.cell? x ≠ none := fun he => hcell ((h.1.cell hx hv).symm.trans he)
    have hmcell : f.cell? m = none := hm'.trans hQ.2
    have hccell : f.cell? c = none := (hf.cell?_below hq (holds_of_node? ho')).trans hmcell
    exact ⟨⟨hkept, hT.exchange hf.toLinked hq hg hc (fun he => hxf (he ▸ hmcell))
      (fun he => hxf (he ▸ hccell)) h.2⟩, hreached⟩
  copies hf h hQ hn hm hsteps := by
    obtain ⟨hkept, hreached⟩ := (sinkInvariant_housing hbase).copies hf h.1 hQ hn hm hsteps
    exact ⟨⟨hkept, hT.grow (Copyings.parent? hsteps) h.2⟩, hreached⟩

theorem settleFacet_serves (hp : p.forest.Planted)
    (hP : base.Housing p.forest) (hQ : p.forest.contains i ∧ p.forest.cell? i = none)
    (hn : p.forest.node? i = some (.facet node)) (habove : p.forest.ancestor? x n = some i) :
    ∃ q, settleFacet i node p = .ok q ∧ q.forest.Serves (scaleStem ++ o.source) := by
  have inv := sinkInvariant_lasting hbase hx hv hcell (lasting_above i x)
  obtain ⟨q, heq, ⟨hsunk, hqn⟩, -⟩ := (inv.settles.sinkFacet p.forest.slots.length
    ⟨hp, hP, n, habove⟩ hQ hn).resolve_right fun h => SinkInvariant.not_stuck h.2
  have hfacet := hP.facet hn
  obtain ⟨m, o', hentry, ho', hv', -⟩ := hbase.main i node hfacet
  have hm : q.forest.outputs.get? node.main = some m :=
    hsunk.kept.2.1.get?_eq hbase hentry ho' hv' (hbase.unscaled i node hfacet)
  -- Wherever the main output is by then, the facet is still above the output.
  have hserves : ∀ {r : Progress}, r.forest.Planted → base.Housing r.forest →
      r.forest.node? i = some (.facet node) → (∃ n, r.forest.ancestor? x n = some i) →
      (copyCells node.fields i m r.forest).Serves (scaleStem ++ o.source) := by
    rintro r hr hkept hrn ⟨k, hk⟩
    have hxr := hkept.keeps.node hx hv
    cases k with
    | zero =>
      cases hk
      cases hxr.symm.trans hrn
    | succ k =>
      exact copyCells_serves node.fields hr hkept.allRequested
        (contains_of_node? (hkept.keeps.node ho' hv')) hxr hk
  unfold settleFacet
  simp only [heq, bind, Except.bind, hm]
  split
  · rename_i hmain
    obtain ⟨r, hreq, ⟨hrsunk, hcontents⟩, -⟩ := (inv.settles.sinkMain q.forest.slots.length hsunk.kept
      (hsunk.reached i hQ) hqn hm hmain).resolve_right fun h => SinkInvariant.not_stuck h.2
    simp only [hreq]
    obtain ⟨hr, hhoused, habove⟩ := hrsunk.kept
    exact ⟨_, rfl, hserves hr hhoused ((node?_of_contents hcontents i).trans hqn) habove⟩
  · obtain ⟨hq, hhoused, habove⟩ := hsunk.kept
    exact ⟨_, rfl, hserves hq hhoused hqn habove⟩

end

/-- A visit that keeps whatever moving facets down keeps. -/
def Careful (step : Progress → NodeId → Attempt) : Prop :=
  ∀ P Q, SettleInvariant P Q → ∀ p c, P p.forest → Q p.forest c → Settles P Q p (step p c)

theorem careful_settleBelow (fuel : Progress → Nat) : Careful fun p => settleBelow (fuel p) p :=
  fun _ _ inv p => inv.settleBelow (fuel p) p

theorem Careful.foldlM {step : Progress → NodeId → Attempt} {P : Forest → Prop}
    {Q : Forest → NodeId → Prop} (hstep : Careful step) (inv : SinkInvariant P Q)
    (hp : p.forest.Planted) (hP : P p.forest) {nodes : List NodeId}
    (hnodes : ∀ c ∈ nodes, Q p.forest c) :
    ∃ q, nodes.foldlM step p = .ok q ∧ Sunk P Q p.forest q.forest :=
  SinkInvariant.ok (SettleInvariant.foldlM (hstep _ Q inv.settles) nodes p ⟨hp, hP⟩ hnodes)

theorem foldlM_serves {step : Progress → NodeId → Attempt} {before after : List NodeId}
    {name : String} {q : Progress} (hbase : base.Arranged) (hstep : Careful step)
    (hbefore : before.foldlM step p = .ok q) (hq : q.forest.Planted) (hP : base.Housing q.forest)
    (hQ : q.forest.contains c ∧ q.forest.cell? c = none)
    (hserves : ∃ r, step q c = .ok r ∧ r.forest.Serves name) :
    ∃ s, (before ++ c :: after).foldlM step p = .ok s ∧ s.forest.Serves name := by
  obtain ⟨r, hr, hserved⟩ := hserves
  obtain ⟨r', hr', hsunk⟩ :=
    SinkInvariant.ok (hstep _ _ (sinkInvariant_housing hbase).settles q c ⟨hq, hP⟩ hQ)
  cases hr.symm.trans hr'
  obtain ⟨s, hs, hlast⟩ := hstep.foldlM (sinkInvariant_keeping r.forest) hsunk.planted
    ⟨.refl _, hsunk.kept.numbered, hsunk.kept.allRequested⟩ fun c (_ : c ∈ after) => True.intro
  refine ⟨s, ?_, hlast.kept.keeps.serves hserved⟩
  rw [foldlM_append, hbefore]
  show (c :: after).foldlM step q = .ok s
  rw [foldlM_cons, hr]
  exact hs

theorem foldlM_waits (hbase : base.Arranged) (hx : base.node? x = some (.output o))
    (hv : base.Vital (.output o)) (hcell : base.cell? x ≠ none) {fuel : Nat}
    {before after : List NodeId} (hp : p.forest.Planted) (hP : base.Housing p.forest)
    (hchildren : p.forest.children i = before ++ c :: after)
    (hchild : ∀ d ∈ before ++ c :: after, p.forest.contains d ∧ p.forest.cell? d = none)
    (habove : p.forest.ancestor? x n = some c) (hn : n < fuel) :
    ∃ q k, before.foldlM (settleBelow fuel) p = .ok q ∧ q.forest.Planted ∧ base.Housing q.forest ∧
      (q.forest.contains c ∧ q.forest.cell? c = none) ∧ q.forest.ancestor? x k = some c ∧ k < fuel := by
  have hmem : c ∈ before ++ c :: after := mem_append_right _ mem_cons_self
  cases before with
  | nil => exact ⟨p, n, rfl, hp, hP, hchild c hmem, habove, hn⟩
  | cons d rest =>
    have hnodup := hp.single.nodup_children i
    rw [hchildren] at hnodup
    have hdc : d ≠ c := fun he => by simp [he] at hnodup
    have hdi : p.forest.parent? d = some i := hp.parent?_of_mem (by simp [hchildren])
    have hci : p.forest.parent? c = some i := hp.parent?_of_mem (hchildren ▸ hmem)
    -- The two children make a fork, which no exchange of a node with its only child moves.
    have hforked : p.forest.Forked fuel c x := ⟨i, n, 0, d, c, habove, hci, hn, hdi, hci, hdc⟩
    have inv := sinkInvariant_lasting hbase hx hv hcell (lasting_forked fuel c x)
    obtain ⟨q, hq, hsunk⟩ := (careful_settleBelow fun _ => fuel).foldlM inv hp ⟨hP, hforked⟩
      fun e (he : e ∈ d :: rest) => hchild e (mem_append_left _ he)
    obtain ⟨_, k, m, _, _, hk, -, hle, -⟩ := hsunk.kept.2
    exact ⟨q, k, hq, hsunk.planted, hsunk.kept.1, hsunk.reached c (hchild c hmem), hk, by omega⟩

theorem settleBelow_serves (hbase : base.Arranged) (hx : base.node? x = some (.output o))
    (hv : base.Vital (.output o)) (hcell : base.cell? x ≠ none) {fuel : Nat} (hp : p.forest.Planted)
    (hP : base.Housing p.forest) (hQ : p.forest.contains i ∧ p.forest.cell? i = none)
    (habove : p.forest.ancestor? x n = some i) (hn : n < fuel) :
    ∃ q, settleBelow fuel p i = .ok q ∧ q.forest.Serves (scaleStem ++ o.source) := by
  induction fuel generalizing p i n with
  | zero => exact absurd hn (Nat.not_lt_zero n)
  | succ fuel ih =>
    unfold settleBelow
    split
    · rename_i node hnode
      obtain ⟨m, hm, hfacet⟩ := Option.bind_eq_some_iff.mp hnode
      cases m with
      | facet m =>
        cases hfacet
        exact settleFacet_serves hbase hx hv hcell hp hP hQ hm habove
      | _ => cases hfacet
    · rename_i hnone
      have hchild : ∀ d ∈ p.forest.children i, p.forest.contains d ∧ p.forest.cell? d = none :=
        fun d hd => (sinkInvariant_housing hbase).child hp hP hQ
          (holds_isFacet_of_facet?_eq_none hnone) hd
      cases n with
      | zero =>
        -- The walk is not in a cell, so it has not come to the output.
        cases habove
        exact absurd ((hP.cell hx hv).symm.trans hQ.2) hcell
      | succ n =>
        obtain ⟨c, hc, hci⟩ := ancestor?_succ.mp habove
        obtain ⟨before, after, hchildren⟩ :=
          append_of_mem (hp.child hci)
        rw [hchildren] at hchild ⊢
        obtain ⟨q, k, hq, hplanted, hhousing, hQc, hk, hlt⟩ := foldlM_waits hbase hx hv hcell hp hP
          hchildren hchild hc (Nat.lt_of_succ_lt_succ hn)
        exact foldlM_serves hbase (careful_settleBelow fun _ => fuel) hq hplanted hhousing hQc
          (ih hplanted hhousing hQc hk hlt)

theorem moveFacetsDown_serves (hbase : base.Arranged) (hx : base.node? x = some (.output o))
    (hv : base.Vital (.output o)) (hcell : base.cell? x ≠ none) (hf : f.Planted)
    (hP : base.Housing f) :
    ∃ q, moveFacetsDown f = .ok q ∧ q.forest.Serves (scaleStem ++ o.source) := by
  obtain ⟨r, hr, hb⟩ := Valid.exists_root hf.toValidBut (contains_of_node? (hP.keeps.node hx hv))
  obtain ⟨n, hn⟩ := hf.exists_ancestor hb
  obtain ⟨before, after, hsources⟩ := append_of_mem hr
  have hroots : ∀ s ∈ before ++ r :: after, f.contains s ∧ f.cell? s = none := fun s hs =>
    (sinkInvariant_housing hbase).root hf hP (hsources ▸ hs)
  have inv := sinkInvariant_lasting hbase hx hv hcell (lasting_above r x)
  have hcareful := careful_settleBelow fun p => p.forest.slots.length + 1
  obtain ⟨q, hq, hsunk⟩ := hcareful.foldlM inv (p := { forest := f }) hf ⟨hP, n, hn⟩
    fun s (hs : s ∈ before) => hroots s (mem_append_left _ hs)
  obtain ⟨k, hk⟩ := hsunk.kept.2
  have hQ := hsunk.reached r (hroots r (by simp))
  unfold moveFacetsDown
  rw [hsources]
  have hdeep := hsunk.planted.lt_of_fits (hsunk.planted.fits r) hk
  exact foldlM_serves hbase hcareful hq hsunk.planted hsunk.kept.1 hQ
    (settleBelow_serves hbase hx hv hcell hsunk.planted hsunk.kept.1 hQ hk hdeep)

end

theorem Forest.Arranged.optimize_serves {rowIds : Bool} {p : Progress} (h : f.Arranged)
    (hp : Flow.optimize rowIds f = .ok p) (hx : f.node? x = some (.output o))
    (hv : f.Vital (.output o)) (hcell : f.cell? x ≠ none) :
    p.forest.Serves (scaleStem ++ o.source) := by
  obtain ⟨settled, moved, last, hrun, ⟨hplanted, hhousing⟩, ⟨hplanted', hhousing'⟩, hsteps⟩ :=
    h.exists_run rowIds
  cases hp.symm.trans hrun.optimize_eq
  obtain ⟨q, hq, hserves⟩ := moveFacetsDown_serves h hx hv hcell hplanted hhousing
  cases hq.symm.trans hrun.moves
  exact (Rewrites.keeps hsteps hplanted' hhousing'.numbered).1.serves hserves

end ChartPlan.Flow
