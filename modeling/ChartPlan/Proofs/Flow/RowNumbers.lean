import ChartPlan.Proofs.Flow.Pass.Facets
import ChartPlan.Proofs.Flow.Trace

/-!
# Numbered rows

A selection of single rows compares their numbers, so the rows of an output must have been numbered
after they were last aggregated. A pass drops a node that numbers rows unless it stands right below a
data source, a coercion or an aggregate, and other passes move nodes in between. Row numbers survive
this while every node that numbers rows hangs below rows that are numbered already, or below a data
source or an aggregate with nothing but coercions in between.

* `Forest.isNumbered`: whether the rows of a node are numbered.
* `Forest.Guarded`: row numbers are where no pass loses them.
* `Forest.number`: what a node makes of the row numbers that it receives.
* `Rewrite.guarded`: all rewrites keep row numbers.
* `Forest.Secure.optimize`: so does the optimization of a forest without facets.
-/

namespace ChartPlan.Flow

/-! ### Kinds of nodes -/

namespace Node

theorem eq_identifier_of_kindName {n : Node} (h : n.kindName = "Identifier") : n = .identifier := by
  cases n with
  | identifier => rfl
  | _ => simp [kindName] at h

theorem eq_parse_of_kindName {n : Node} (h : n.kindName = "Parse") : ∃ c, n = .parse c := by
  cases n with
  | parse c => exact ⟨c, rfl⟩
  | _ => simp [kindName] at h

/-- Whether a node makes rows of its own: it loads, generates or aggregates them. -/
def isGround (n : Node) : Bool :=
  n.isDataSource || n.aggregate?.isSome

theorem isGround_eq (n : Node) :
    n.isGround = ["Source", "Sequence", "Graticule", "Aggregate"].contains n.kindName := by
  cases n <;> rfl

theorem aggregate?_isSome_eq (n : Node) : n.aggregate?.isSome = (n.kindName == "Aggregate") := by
  cases n <;> rfl

theorem Revises.kindName_eq {m n : Node} (h : n.Revises m) : n.kindName = m.kindName := by
  cases h <;> rfl

theorem Subsumes.kindName_eq {m n : Node} (h : m.Subsumes n) : m.kindName = n.kindName := by
  cases h with
  | equal hsame => exact (signature_inj hsame).1
  | _ => rfl

end Node

namespace Forest

variable {f g : Forest} {i j p q c : NodeId} {m n : Node}

/-! ### Numbered rows -/

/-- Whether the rows of a node are numbered: on the way up, a node that numbers rows comes before any
aggregate. -/
def isNumbered (f : Forest) (i : NodeId) : Bool :=
  ((f.path i).reverse.takeWhile fun j => !f.holds j fun n => n.aggregate?.isSome).any
    fun j => f.holds j fun n => n.kindName == "Identifier"

/-- The rows of a node are numbered. -/
inductive Identified (f : Forest) : NodeId → Prop
  | here {i : NodeId} : f.node? i = some .identifier → Identified f i
  | passed {i p : NodeId} {n : Node} : f.node? i = some n → n.aggregate? = none →
      f.parent? i = some p → Identified f p → Identified f i

/-- Rows may be numbered below a node: they are numbered already, or they are made there but for
coercions. -/
inductive Steady (f : Forest) : NodeId → Prop
  | ground {i : NodeId} : f.holds i Node.isGround → Steady f i
  | coercion {i p : NodeId} {c : Coercion} : f.node? i = some (.parse c) → f.parent? i = some p →
      Steady f p → Steady f i
  | identified {i : NodeId} : f.Identified i → Steady f i

theorem Identified.parent? (h : f.Identified i) (hn : f.node? i = some n) (hne : n ≠ .identifier) :
    n.aggregate? = none ∧ ∃ p, f.parent? i = some p ∧ f.Identified p := by
  cases h with
  | here hm =>
    cases hn.symm.trans hm
    exact absurd rfl hne
  | passed hm hagg hp hid =>
    cases hn.symm.trans hm
    exact ⟨hagg, _, hp, hid⟩

theorem Steady.parent? (h : f.Steady i) (hn : f.node? i = some n) (hne : n ≠ .identifier)
    (hground : n.isGround = false) : ∃ p, f.parent? i = some p ∧ f.Steady p := by
  cases h with
  | ground hg =>
    rw [holds_of_node? hn, hground] at hg
    cases hg
  | coercion _ hp hs => exact ⟨_, hp, hs⟩
  | identified hid =>
    obtain ⟨-, p, hp, hid⟩ := hid.parent? hn hne
    exact ⟨p, hp, .identified hid⟩

theorem isNumbered_of_parent? (hf : f.Linked) (hn : f.node? i = some n) (hp : f.parent? i = some p) :
    f.isNumbered i =
      (n.aggregate?.isNone && (n.kindName == "Identifier" || f.isNumbered p)) := by
  unfold isNumbered
  rw [hf.path_of_parent? hp, List.reverse_append, List.reverse_singleton, List.singleton_append,
    List.takeWhile_cons, holds_of_node? hn]
  cases n.aggregate? with
  | none => simp [holds_of_node? hn]
  | some a => rfl

theorem isNumbered_of_root (hn : f.node? i = some n) (hp : f.parent? i = none) :
    f.isNumbered i = (n.aggregate?.isNone && n.kindName == "Identifier") := by
  unfold isNumbered
  rw [path_of_parent?_eq_none hp, List.reverse_singleton, List.takeWhile_cons, holds_of_node? hn]
  cases n.aggregate? with
  | none => simp [holds_of_node? hn]
  | some a => rfl

theorem Linked.isNumbered_of_identified (hf : f.Linked) (h : f.Identified i) : f.isNumbered i := by
  induction h with
  | @here i hn =>
    cases hp : f.parent? i with
    | none => exact isNumbered_of_root hn hp
    | some p => exact isNumbered_of_parent? hf hn hp
  | passed hn hagg hp _ ih =>
    rw [isNumbered_of_parent? hf hn hp, hagg, ih]
    simp

/-! ### Row numbers along a path -/

/-- Row numbers are where no pass loses them, and the rows of all outputs are numbered. -/
structure Guarded (f : Forest) : Prop where
  identifier {i p : NodeId} : f.node? i = some .identifier → f.parent? i = some p → f.Steady p
  output {i : NodeId} {o : Output} : f.node? i = some (.output o) → f.Identified i

/-- Whether the rows of a node are numbered, or may be, depends on those that it receives and on its
kind. -/
def number (rows : Prop × Prop) (n : Node) : Prop × Prop :=
  let numbered := n.kindName = "Identifier" ∨ n.aggregate? = none ∧ rows.1
  (numbered, n.isGround ∨ numbered ∨ n.kindName = "Parse" ∧ rows.2)

def Grants (rows rows' : Prop × Prop) : Prop :=
  (rows.1 → rows'.1) ∧ (rows.2 → rows'.2)

theorem lossless_number : Lossless Grants fun _ => number where
  refl _ := ⟨id, id⟩
  trans h h' := ⟨h'.1 ∘ h.1, h'.2 ∘ h.2⟩
  add _ _ _ _ h := ⟨Or.imp_right (And.imp_right h.1),
    Or.imp_right (Or.imp (Or.imp_right (And.imp_right h.1)) (And.imp_right h.2))⟩

theorem number_congr (h : m.kindName = n.kindName) (rows : Prop × Prop) : number rows m = number rows n := by
  have hagg : m.aggregate? = none ↔ n.aggregate? = none := by
    rw [← Option.not_isSome_iff_eq_none, ← Option.not_isSome_iff_eq_none, Node.aggregate?_isSome_eq,
      Node.aggregate?_isSome_eq, h]
  unfold number
  rw [Node.isGround_eq, Node.isGround_eq, h, hagg]

def rows (f : Forest) (i : NodeId) : Prop × Prop :=
  (f.Identified i, f.Steady i)

theorem received_rows : (f.received (fun _ => (False, False)) f.rows i) =
    (∃ p, f.parent? i = some p ∧ f.Identified p, ∃ p, f.parent? i = some p ∧ f.Steady p) := by
  unfold received
  cases f.parent? i <;> simp [rows]

theorem inherits_rows (f : Forest) : f.Inherits (fun _ => (False, False)) (fun _ => number) f.rows := by
  refine ⟨fun {i n} hn => ?_⟩
  have hid : f.Identified i ↔ n.kindName = "Identifier" ∨
      n.aggregate? = none ∧ ∃ p, f.parent? i = some p ∧ f.Identified p := by
    refine ⟨fun h => ?_, ?_⟩
    · cases h with
      | here hm =>
        cases hn.symm.trans hm
        exact .inl rfl
      | passed hm hagg hp hid =>
        cases hn.symm.trans hm
        exact .inr ⟨hagg, _, hp, hid⟩
    · rintro (hkind | ⟨hagg, p, hp, hid⟩)
      · cases Node.eq_identifier_of_kindName hkind
        exact .here hn
      · exact .passed hn hagg hp hid
  rw [received_rows, number]
  refine Prod.ext (propext hid) (propext ⟨fun h => ?_, ?_⟩)
  · cases h with
    | ground hground => exact .inl ((holds_of_node? hn).symm.trans hground)
    | identified h => exact .inr (.inl (hid.mp h))
    | coercion hm hp hs =>
      cases hn.symm.trans hm
      exact .inr (.inr ⟨rfl, _, hp, hs⟩)
  · rintro (hground | h | ⟨hkind, p, hp, hs⟩)
    · exact .ground ((holds_of_node? hn).trans hground)
    · exact .identified (hid.mpr h)
    · obtain ⟨c, rfl⟩ := Node.eq_parse_of_kindName hkind
      exact .coercion hn hp hs

theorem grants_rise (h : n.Rises m) (i : NodeId) : Grants (number (f.rows i) n) (f.rows i) ∧
    Grants (number (f.rows i) m) (number (number (f.rows i) n) m) ∧
      (m = .identifier → Grants (f.rows i) (number (f.rows i) n)) := by
  cases h with
  | coercion c m =>
    have hpass : Grants (f.rows i) (number (f.rows i) (.parse c)) :=
      ⟨fun hid => .inr ⟨rfl, hid⟩, fun hs => .inr (.inr ⟨rfl, hs⟩)⟩
    refine ⟨⟨?_, ?_⟩, lossless_number.add i hpass, fun _ => hpass⟩
    · rintro (hkind | ⟨-, hid⟩)
      · simp [Node.kindName] at hkind
      · exact hid
    · rintro (hground | (hkind | ⟨-, hid⟩) | ⟨-, hs⟩)
      · cases hground
      · simp [Node.kindName] at hkind
      · exact .identified hid
      · exact hs
  | bins b hm =>
    refine ⟨⟨?_, ?_⟩, ⟨?_, ?_⟩, ?_⟩
    · rintro (hkind | ⟨-, hid⟩)
      · simp [Node.kindName] at hkind
      · exact hid
    · rintro (hground | (hkind | ⟨-, hid⟩) | ⟨hkind, -⟩)
      · cases hground
      · simp [Node.kindName] at hkind
      · exact .identified hid
      · simp [Node.kindName] at hkind
    · exact Or.imp_right (And.imp_right fun hid => .inr ⟨rfl, hid⟩)
    · refine Or.imp_right (Or.imp (Or.imp_right (And.imp_right fun hid => .inr ⟨rfl, hid⟩)) ?_)
      rintro ⟨hkind, -⟩
      obtain ⟨c, rfl⟩ := Node.eq_parse_of_kindName hkind
      cases hm
    · rintro rfl
      cases hm

theorem identified_iff_of_veiled {a : NodeId} (h : f.Veiled a i) : f.Identified i ↔ f.Identified a := by
  induction h with
  | refl => rfl
  | step _ hp hn hveil ih =>
    rw [← ih]
    refine ⟨fun hid => ?_, fun hid => .passed hn hveil.silent.aggregate hp hid⟩
    obtain ⟨-, q, hq, hid⟩ := hid.parent? hn fun he => by
      subst he
      cases hveil
    cases hp.symm.trans hq
    exact hid

end Forest

/-! ### Rewrites -/

open Forest

variable {f g : Forest}

theorem Forest.Guarded.identified_of_needless {i p : NodeId} (h : f.Guarded)
    (hn : f.node? i = some .identifier) (hneedless : isNeedlessIdentifier true f i)
    (hp : f.parent? i = some p) : f.Identified p := by
  have hkeeps : f.holds p keepsRows = false := by
    unfold isNeedlessIdentifier at hneedless
    rw [holds_of_node? hn, hp] at hneedless
    simpa using hneedless
  have hlost : ∀ {n}, f.node? p = some n → keepsRows n = false := fun hk =>
    (holds_of_node? hk).symm.trans hkeeps
  cases h.identifier hn hp with
  | ground hground =>
    obtain ⟨n, hk, hground⟩ := holds_iff.mp hground
    have := hlost hk
    cases n <;> simp_all [keepsRows, Node.isGround, Node.isDataSource, Node.aggregate?]
  | coercion hk _ _ => cases hlost hk
  | identified hid => exact hid

theorem Rewrite.guarded (h : Rewrite true f g) (hf : f.Planted) (hguarded : f.Guarded) :
    g.Guarded := by
  have hsame : ∀ {m n : Node}, m.kindName = n.kindName → ∀ b, Grants (number b n) (number b m) :=
    fun hkind b => by
      rw [number_congr hkind]
      exact lossless_number.refl _
  have hkept : ∀ {j n}, g.node? j = some n → n = .identifier ∨ n.isOutput → f.node? j = some n ∧
      Grants (f.rows j) (g.rows j) ∧ (n = .identifier →
        Grants (f.received (fun _ => (False, False)) f.rows j)
          (g.received (fun _ => (False, False)) g.rows j)) := by
    intro j n hn hkind
    refine ⟨h.node?_of_kind (P := fun n => n.kindName == "Identifier" || n.isOutput) hf hn ?_
      (fun hrevises => by cases hrevises <;> rfl) fun _ => rfl,
      h.carried (· = .identifier) hf lossless_number f.inherits_rows g.inherits_rows
        (fun {i p m} hi hdrops hp => ?_) (fun hrevises b => hsame hrevises.kindName_eq b)
        (fun hrises i => grants_rise hrises i) (fun {p q a} hveiled hveiled' hplace => ⟨fun hid => ?_, fun hs => ?_⟩)
        (fun _ _ hsubsumes _ b => hsame hsubsumes.kindName_eq b) hn fun m hrises => ?_⟩
    · rcases hkind with rfl | hout
      · rfl
      · simp [hout]
    · by_cases hne : m = .identifier
      · subst hne
        cases hdrops with
        | identifier hneedless =>
          have hid := hguarded.identified_of_needless hi hneedless hp
          exact ⟨fun _ => hid, fun _ => .identified hid⟩
      · have hground : m.isGround = false := by cases hdrops <;> rfl
        refine ⟨fun hid => ?_, fun hs => ?_⟩
        · obtain ⟨-, q, hq, hid⟩ := Identified.parent? hid hi hne
          cases hp.symm.trans hq
          exact hid
        · obtain ⟨q, hq, hs⟩ := Steady.parent? hs hi hne hground
          cases hp.symm.trans hq
          exact hs
    · exact (identified_iff_of_veiled hveiled').mpr ((identified_iff_of_veiled hveiled).mp hid)
    · rcases hplace with hout | hqp
      · obtain ⟨n, hn, hout⟩ := holds_iff.mp hout
        cases n with
        | output o => exact .identified (hguarded.output hn)
        | _ => cases hout
      · cases hveiled' with
        | refl =>
          -- The node is not above its own parent.
          exact absurd (hveiled.toBelow hf.single)
            (hf.not_below_of_child (hf.child hqp))
        | step _ hp' hn hveil =>
          cases hveil with
          | output o => exact .identified (hguarded.output hn)
          | coercion c => exact .coercion hn hqp hs
    · rcases hkind with rfl | hout <;> cases hrises <;> cases hout
  refine ⟨fun {j p} hn hp => ?_, fun {j o} hn => ?_⟩
  · obtain ⟨hold, -, hreceived⟩ := hkept hn (.inl rfl)
    obtain ⟨q, hq⟩ := hf.exists_parent hold rfl
    have hsteady := (hreceived rfl).2
    rw [received_rows, received_rows] at hsteady
    obtain ⟨p', hp', hs⟩ := hsteady ⟨q, hq, hguarded.identifier hold hq⟩
    cases hp.symm.trans hp'
    exact hs
  · obtain ⟨hold, hown, -⟩ := hkept hn (.inr rfl)
    exact hown.1 (hguarded.output hold)

theorem Rewrites.guarded (h : Rewrites true f g) (hf : f.Planted) (hguarded : f.Guarded) :
    g.Guarded := by
  induction h with
  | refl => exact hguarded
  | tail hsteps hstep ih => exact hstep.guarded (Rewrites.planted hsteps hf) ih

/-! ### Optimization without facets -/

def Forest.Unfaceted (f : Forest) : Prop :=
  ∀ i facet, f.node? i ≠ some (.facet facet)

/-- Optimization cannot lose row numbers. -/
structure Forest.Secure (f : Forest) : Prop extends f.Guarded where
  unfaceted : f.Unfaceted

theorem Rewrites.unfaceted {rowIds : Bool} (h : Rewrites rowIds f g) (hf : f.Planted)
    (hplain : f.Unfaceted) : g.Unfaceted := by
  induction h with
  | refl => exact hplain
  | tail hsteps hstep ih =>
    exact fun i facet hn => ih i facet (hstep.node?_of_endsBranch (Rewrites.planted hsteps hf) hn rfl)

theorem settleBelow_of_unfaceted {p : Progress} (h : p.forest.Unfaceted) (fuel : Nat) (i : NodeId) :
    settleBelow fuel p i = .ok p := by
  induction fuel generalizing i with
  | zero => rfl
  | succ fuel ih =>
    unfold settleBelow
    split
    · rename_i node hnode
      obtain ⟨n, hn, hfacet⟩ := Option.bind_eq_some_iff.mp hnode
      cases n with
      | facet m => exact absurd hn (h i m)
      | _ => cases hfacet
    · induction p.forest.children i with
      | nil => rfl
      | cons c rest ihrest =>
        rw [List.foldlM_cons, ih]
        exact ihrest

theorem moveFacetsDown_of_unfaceted (h : f.Unfaceted) : moveFacetsDown f = .ok { forest := f } := by
  unfold moveFacetsDown
  induction f.sources with
  | nil => rfl
  | cons root rest ih =>
    rw [List.foldlM_cons, settleBelow_of_unfaceted (p := { forest := f }) h]
    exact ih

theorem Forest.Secure.optimize {p : Progress} (h : f.Secure) (hf : f.Planted)
    (hp : optimize true f = .ok p) : p.forest.Planted ∧ p.forest.Guarded := by
  obtain ⟨settled, moved, last, hrun, hplanted, -, hlast⟩ := optimize_planted true hf
  cases hp.symm.trans hrun.optimize_eq
  obtain ⟨settled', hsettles, hsteps⟩ := settle_rewrites true maxRuns (p := { forest := f }) hf
  cases hrun.settles.symm.trans hsettles
  cases hrun.moves.symm.trans (moveFacetsDown_of_unfaceted (hsteps.unfaceted hf h.unfaceted))
  obtain ⟨last', hresettles, hsteps'⟩ :=
    settle_rewrites true maxRuns (p := settled.follow { forest := settled.forest }) hplanted
  cases hrun.resettles.symm.trans hresettles
  exact ⟨hlast, hsteps'.guarded hplanted (hsteps.guarded hf h.toGuarded)⟩

end ChartPlan.Flow
