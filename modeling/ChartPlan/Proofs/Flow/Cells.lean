import ChartPlan.Proofs.Flow.Requested
import ChartPlan.Proofs.Flow.Scope

/-!
# Cells stay as they are

A pass may change places of nodes, but what was below a facet stays below it, as far as outputs and
facets are concerned. Only coercions and bins leave a cell.

* `Forest.cellBelow`: the cell of what hangs below a node.
* `Rewrite.cell?_eq`: one step of a pass changes the cell of no node that cannot rise.
* `Forest.FacetsScreened`: a requested output stands between any two facets.
* `Rewrite.facetsScreened`: one step of a pass keeps it there.
-/

namespace ChartPlan.Flow

open Forest

namespace Forest

variable {f g : Forest} {i j p q c : NodeId}

def facetName? (f : Forest) (i : NodeId) : Option String :=
  ((f.node? i).bind Node.facet?).map Facet.name

def cellBelow (f : Forest) (p : NodeId) : Option String :=
  (f.facetName? p).or (f.cell? p)

theorem facetName?_of_facet {m : Facet} (hm : f.node? i = some (.facet m)) :
    f.facetName? i = some m.name := by
  unfold facetName?
  rw [hm]
  rfl

theorem facetName?_eq_none (hn : f.node? i = some n) (hfacet : n.isFacet = false) :
    f.facetName? i = none := by
  unfold facetName?
  rw [hn]
  cases n <;> first | rfl | exact Bool.noConfusion hfacet

theorem facetName?_of_holds (h : f.holds i Node.isFacet = false) : f.facetName? i = none := by
  cases hn : f.node? i with
  | none =>
    unfold facetName?
    rw [hn]
    rfl
  | some n =>
    rw [holds_of_node? hn] at h
    exact facetName?_eq_none hn h

theorem cellBelow_of_facet {m : Facet} (hm : f.node? p = some (.facet m)) :
    f.cellBelow p = some m.name := by
  unfold cellBelow
  rw [facetName?_of_facet hm]
  rfl

theorem cellBelow_eq_cell? (h : f.facetName? p = none) : f.cellBelow p = f.cell? p := by
  unfold cellBelow
  rw [h]
  rfl

theorem Linked.cell?_of_parent? (hf : f.Linked) (hp : f.parent? i = some p) :
    f.cell? i = f.cellBelow p := by
  cases hfacet : f.holds p Node.isFacet with
  | false => rw [hf.cell?_below hp hfacet, cellBelow_eq_cell? (facetName?_of_holds hfacet)]
  | true =>
    obtain ⟨m, hm⟩ := exists_facet hfacet
    rw [hf.cell?_below_facet hp hm, cellBelow_of_facet hm]

/-- The cell of what hangs below a node that is in a cell itself. -/
def enclose (cell : Option String) (n : Node) : Option String :=
  (n.facet?.map Facet.name).or cell

theorem enclose_of_not_facet (h : n.isFacet = false) (cell : Option String) :
    enclose cell n = cell := by
  cases n <;> first | rfl | exact Bool.noConfusion h

section

variable (hf : f.Linked)

include hf

theorem Linked.received_cellBelow (i : NodeId) :
    f.received (fun _ => none) f.cellBelow i = f.cell? i := by
  unfold received
  cases hp : f.parent? i with
  | none => exact (cell?_of_root hp).symm
  | some p => exact (hf.cell?_of_parent? hp).symm

theorem Linked.inherits_cellBelow : f.Inherits (fun _ => none) (fun _ => enclose) f.cellBelow := by
  refine ⟨fun {i n} hn => ?_⟩
  rw [hf.received_cellBelow, cellBelow, facetName?, hn]
  rfl

theorem Linked.cell?_eq (hg : g.Linked)
    (h : Inherited Eq (fun _ => none) f g f.cellBelow g.cellBelow j) : g.cell? j = f.cell? j := by
  rw [← hf.received_cellBelow, ← hg.received_cellBelow, h.received]

theorem Linked.cellBelow_of_veiled {a : NodeId} (h : f.Veiled a i) :
    f.cellBelow i = f.cellBelow a := by
  induction h with
  | refl => rfl
  | step _ hp hn hveil ih =>
    rw [hf.inherits_cellBelow.eq hn, received_of_parent? hp, ih, enclose_of_not_facet]
    cases hveil <;> rfl

/-- When a node that is no facet changes places with its parent, it comes into the cell of that; all
other nodes stay in theirs. -/
theorem Linked.cell?_exchange {grand : NodeId} (hfacet : f.holds i Node.isFacet = false)
    (hp : f.parent? i = some p) (hg : f.parent? p = some grand)
    (hcontents : (f.exchange i).2.contents = f.contents) (j : NodeId) :
    (f.exchange i).2.cell? j = if j = i then f.cell? p else f.cell? j := by
  obtain ⟨n, hn⟩ := exists_node (hf.live_of_parent? hp).2
  obtain ⟨m, hm⟩ := exists_node (hf.live_of_parent? hp).1
  rw [holds_of_node? hn] at hfacet
  have hreceived := (hf.inherits_cellBelow.exchanged (hf.exchange hp hg).1.inherits_cellBelow (.eq _)
    hf hp hg hcontents hn hm
    (by rw [hf.inherits_cellBelow.eq hn, received_of_parent? hp, enclose_of_not_facet hfacet])
    (by rw [enclose_of_not_facet hfacet, hf.inherits_cellBelow.eq hm, received_of_parent? hg])).2 j
    fun _ => (enclose_of_not_facet hfacet _).symm
  rwa [hf.received_cellBelow, (hf.exchange hp hg).1.received_cellBelow, ← hf.cell?_of_parent? hg,
    eq_comm] at hreceived

theorem Linked.cell?_eq_of_kept (hg : g.Linked)
    (hparent : ∀ {j}, f.contains j → g.parent? j = f.parent? j)
    (hnode : ∀ {j m}, f.node? j = some m → ∃ n, g.node? j = some n ∧ n.facet? = m.facet?)
    (hj : f.contains j) : g.cell? j = f.cell? j := by
  refine hf.cell?_eq hg (hf.inherits_cellBelow.grown hg.inherits_cellBelow (.eq _) hf hparent
    (fun hm => ?_) hj)
  obtain ⟨n, hn, hsame⟩ := hnode hm
  exact ⟨n, hn, fun cell => by rw [enclose, enclose, hsame]⟩

end

theorem Grown.cell?_eq (hfg : Grown f g) (hf : f.Linked) (hg : g.Linked) (hj : f.contains j) :
    g.cell? j = f.cell? j :=
  hf.cell?_eq_of_kept hg hfg.parent
    (fun hm => ⟨_, (hfg.node (contains_of_node? hm)).trans hm, rfl⟩) hj

end Forest

/-! ### Steps of passes -/

variable {rowIds : Bool} {f g : Forest} {j : NodeId} {n : Node}

theorem Node.Rises.isFacet {m : Node} (h : n.Rises m) : n.isFacet = false := by
  cases h <;> rfl

theorem Node.Revises.isFacet {m : Node} (h : m.Revises n) :
    m.isFacet = false ∧ n.isFacet = false := by
  cases h <;> exact ⟨rfl, rfl⟩

theorem Forest.Drops.isFacet {i : NodeId} (h : f.Drops rowIds i n) : n.isFacet = false := by
  cases h <;> rfl

theorem Node.isFacet_of_number? {m : Node} (hm : m.number? = none) : m.isFacet = false := by
  cases m <;> first | rfl | cases hm

theorem Forest.Numbered.number?_of_join {keep other : NodeId} {m o : Node} (hnum : f.Numbered)
    (hk : f.node? keep = some m) (ho : f.node? other = some o) (hsubsumes : m.Subsumes o)
    (hne : keep ≠ other) : m.number? = none ∧ o.number? = none := by
  have hnumber : o.number? = none := by
    cases hnum' : o.number? with
    | none => rfl
    | some k => exact absurd (hnum.unique hk ho (hsubsumes.number?.trans hnum') hnum') hne
  exact ⟨hsubsumes.number?.trans hnumber, hnumber⟩

theorem Rewrite.cell?_eq (h : Rewrite rowIds f g) (hf : f.Planted) (hnum : f.Numbered)
    (hn : g.node? j = some n) (hstays : ∀ m, ¬ n.Rises m) : g.cell? j = f.cell? j := by
  have hlinked := (h.planted hf).toLinked
  have hinherits := hf.inherits_cellBelow
  have hreceived := (h.carried (fun _ => True) hf (.eq _) hinherits hlinked.inherits_cellBelow
    (fun hi hd hp => ?_) (fun hrevises b => ?_) (fun hrises b => ?_) (fun hveil hveil' _ => ?_)
    (fun hk ho hsubsumes hne b => ?_) hn hstays).2 trivial
  · rwa [hf.received_cellBelow, hlinked.received_cellBelow, eq_comm] at hreceived
  · rw [hinherits.eq hi, received_of_parent? hp, enclose_of_not_facet hd.isFacet]
  · rw [enclose_of_not_facet hrevises.isFacet.1, enclose_of_not_facet hrevises.isFacet.2]
  · rw [enclose_of_not_facet hrises.isFacet]
    exact ⟨rfl, rfl, fun _ => rfl⟩
  · rw [hf.cellBelow_of_veiled hveil, hf.cellBelow_of_veiled hveil']
  · -- Two facets would have the same number.
    obtain ⟨hm, ho⟩ := hnum.number?_of_join hk ho hsubsumes hne
    rw [enclose_of_not_facet (Node.isFacet_of_number? hm), enclose_of_not_facet (Node.isFacet_of_number? ho)]

theorem Rewrites.cell?_eq (h : Rewrites rowIds f g) (hf : f.Planted) (hnum : f.Numbered)
    (hn : g.node? j = some n) (hends : endsBranch n) : g.cell? j = f.cell? j := by
  induction h with
  | refl => rfl
  | tail hsteps hstep ih =>
    have hplanted := Rewrites.planted hsteps hf
    have hstays : ∀ m, ¬ n.Rises m := fun m hrises => by cases hrises <;> cases hends
    rw [hstep.cell?_eq hplanted (Rewrites.keeps hsteps hf hnum).2 hn hstays]
    exact ih (hstep.node?_of_endsBranch hplanted hn hends)

/-! ### Screens -/

namespace Forest

variable {i p c q : NodeId}

/-- Whether what hangs below a node meets a requested output on its way up before it meets a facet. -/
inductive Screens (f : Forest) : NodeId → Prop
  | output {i : NodeId} {o : Output} : f.node? i = some (.output o) → f.Vital (.output o) →
      Screens f i
  | step {i : NodeId} : f.holds i Node.isFacet = false → (∀ p, f.parent? i = some p → Screens f p) →
      Screens f i

/-- Whether a requested output stands between any two facets. -/
def FacetsScreened (f : Forest) : Prop :=
  ∀ i m p, f.node? i = some (.facet m) → f.parent? i = some p → f.Screens p

theorem Screens.not_facet (h : f.Screens i) : f.holds i Node.isFacet = false := by
  cases h with
  | output ho _ => exact holds_of_node? ho
  | step hfacet _ => exact hfacet

theorem Screens.of_parent? (h : f.Screens i) (hi : ∀ n, f.node? i = some n → ¬ f.Vital n)
    (hp : f.parent? i = some p) : f.Screens p := by
  cases h with
  | output ho hv => exact absurd hv (hi _ ho)
  | step _ hparent => exact hparent p hp

/-- Whether what hangs below a node is screened, when the node itself is or is not. -/
def screen (f : Forest) (screened : Prop) (n : Node) : Prop :=
  (n.isOutput ∧ f.Vital n) ∨ (n.isFacet = false ∧ screened)

theorem lossless_screen (f : Forest) : Lossless (fun a b : Prop => a → b) fun _ => f.screen :=
  ⟨fun _ => id, fun h h' ha => h' (h ha), fun _ _ _ _ h => Or.imp_right (And.imp_right h)⟩

theorem received_screens : f.received (fun _ => True) f.Screens i ↔
    ∀ p, f.parent? i = some p → f.Screens p := by
  unfold received
  cases f.parent? i <;> simp

theorem inherits_screens (h : g.requests = f.requests) :
    g.Inherits (fun _ => True) (fun _ => f.screen) g.Screens := by
  refine ⟨fun {i n} hn => propext ⟨fun hi => ?_, fun hi => ?_⟩⟩
  · cases hi with
    | output ho hv =>
      cases hn.symm.trans ho
      exact .inl ⟨rfl, hv.congr h.symm⟩
    | step hfacet hup =>
      rw [holds_of_node? hn] at hfacet
      exact .inr ⟨hfacet, received_screens.mpr hup⟩
  · rcases hi with ⟨hout, hv⟩ | ⟨hfacet, hup⟩
    · cases n with
      | output o => exact .output hn (hv.congr h)
      | _ => cases hout
    · exact .step ((holds_of_node? hn).trans hfacet) (received_screens.mp hup)

section

variable (h : f.FacetsScreened)

include h

theorem FacetsScreened.of_received
    (hfacet : ∀ {k m}, g.node? k = some (.facet m) → f.node? k = some (.facet m))
    (hreceived : ∀ {k m}, g.node? k = some (.facet m) → f.received (fun _ => True) f.Screens k → g.received (fun _ => True) g.Screens k) :
    g.FacetsScreened := fun i m p hm hp =>
  received_screens.mp (hreceived hm (received_screens.mpr fun q hq => h i m q (hfacet hm) hq)) p hp

theorem FacetsScreened.remove (hf : f.Linked) (hi : ∀ n, f.node? i = some n → ¬ f.Vital n) :
    (f.remove i).FacetsScreened := by
  refine h.of_received (fun hm => (node?_of_remove hm).2) fun hm =>
    ((inherits_screens rfl).removed (inherits_screens (keeps_remove hi).requests) (lossless_screen f) hf
      (fun c _ hscreens => ?_) (contains_of_node? hm)).received
  cases hp : f.parent? i with
  | none => exact True.intro
  | some p => exact hscreens.of_parent? hi hp

/-- A node that is no facet may change places with its parent, unless it is a requested output and its
parent is none. -/
theorem FacetsScreened.exchange {grand : NodeId} (hf : f.Linked)
    (hfacet : f.holds i Node.isFacet = false) (hp : f.parent? i = some p)
    (hg : f.parent? p = some grand) (hcontents : (f.exchange i).2.contents = f.contents)
    (hscreens : f.Screens i → f.Screens p) : (f.exchange i).2.FacetsScreened := by
  obtain ⟨n, hn⟩ := exists_node (hf.live_of_parent? hp).2
  obtain ⟨m, hm⟩ := exists_node (hf.live_of_parent? hp).1
  rw [holds_of_node? hn] at hfacet
  have hpass : ∀ b : Prop, b → f.screen b n := fun b hb => .inr ⟨hfacet, hb⟩
  have hnode := node?_of_contents hcontents
  refine h.of_received (fun hk => (hnode _).symm.trans hk) fun {k o} hk => ?_
  have hki : k ≠ i := fun he => by
    cases hn.symm.trans ((hnode i).symm.trans (he ▸ hk))
    cases hfacet
  have hreceived := ((inherits_screens rfl).exchanged (inherits_screens (requests_of_contents hcontents))
    (lossless_screen f) hf hp hg hcontents hn hm hscreens
    (by
      rw [(inherits_screens rfl).eq hm, received_of_parent? hg]
      exact (lossless_screen f).add p (hpass _))).2 k fun _ => hpass _
  rwa [if_neg hki] at hreceived

theorem FacetsScreened.grown (hfg : Grown f g) (hf : f.Linked) (hkeeps : f.Keeps g)
    (hfacet : ∀ {k m}, g.node? k = some (.facet m) → f.node? k = some (.facet m)) :
    g.FacetsScreened :=
  h.of_received hfacet fun hm => ((inherits_screens rfl).grown (inherits_screens hkeeps.requests)
    (lossless_screen f) hf hfg.parent
    (fun hm => ⟨_, (hfg.node (contains_of_node? hm)).trans hm, fun _ => id⟩)
    (contains_of_node? (hfacet hm))).received

end

end Forest

theorem Rewrite.facetsScreened (h : Rewrite rowIds f g) (hf : f.Planted) (hnum : f.Numbered)
    (hall : f.AllRequested) (hscreened : f.FacetsScreened) : g.FacetsScreened := by
  have hinherits := inherits_screens (g := f) (f := f) rfl
  refine hscreened.of_received (fun hm => h.node?_of_endsBranch hf hm rfl) fun {k m} hm =>
    (h.carried (fun _ => True) hf (lossless_screen f) hinherits
      (inherits_screens (h.keeps hf hnum).requests) (fun hi hd hp hscreens => ?_)
      (fun hrevises b => ?_) (fun hrises b => ?_) (fun hveil hveil' hplace hscreens => ?_)
      (fun hk ho hsubsumes hne b => ?_) hm fun m hrises => nomatch hrises).2 trivial
  · refine hscreens.of_parent? (fun n hn => ?_) hp
    cases hi.symm.trans hn
    exact hd.not_vital
  · exact fun hb => .inr ⟨hrevises.isFacet.1, (hb.resolve_left fun hv =>
      not_vital_of_number? hrevises.number?.2 hv.2).2⟩
  · have hpass : ∀ b : Prop, b → f.screen b _ := fun b hb => .inr ⟨hrises.isFacet, hb⟩
    refine ⟨fun hb => (hb.resolve_left fun hv => ?_).2, (lossless_screen f).add b (hpass _),
      fun _ => hpass _⟩
    cases hrises <;> exact hv.2
  · rcases hplace with hout | hqp
    · obtain ⟨n, hn, hkind⟩ := holds_iff.mp hout
      cases n with
      | output o => exact .output hn (hall _ o hn)
      | _ => cases hkind
    · -- A sibling that is reached through outputs and coercions is one of them.
      cases hveil' with
      | refl =>
        exact absurd (hveil.toBelow hf.single)
          (hf.not_below_of_child (hf.child hqp))
      | step _ _ hn hveil' =>
        refine .step ?_ fun p' hp' => ?_
        · rw [holds_of_node? hn]
          cases hveil' <;> rfl
        · cases hqp.symm.trans hp'
          exact hscreens
  · obtain ⟨hm, ho⟩ := hnum.number?_of_join hk ho hsubsumes hne
    exact fun hb => .inr ⟨Node.isFacet_of_number? hm, (hb.resolve_left fun hv =>
      not_vital_of_number? ho hv.2).2⟩

theorem Rewrites.facetsScreened (h : Rewrites rowIds f g) (hf : f.Planted) (hnum : f.Numbered)
    (hall : f.AllRequested) (hscreened : f.FacetsScreened) : g.FacetsScreened := by
  induction h with
  | refl => exact hscreened
  | tail hsteps hstep ih =>
    obtain ⟨hkeeps, hnum'⟩ := Rewrites.keeps hsteps hf hnum
    exact hstep.facetsScreened (Rewrites.planted hsteps hf) hnum'
      (Rewrites.allRequested hsteps hf hkeeps hall) ih

end ChartPlan.Flow
