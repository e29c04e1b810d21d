import ChartPlan.Proofs.Flow.Grounding
import ChartPlan.Proofs.Flow.Housing
import ChartPlan.Proofs.View.Growth

/-!
# Forests that are sown

While the views build their dataflow, nodes are only added, and a name that was given to a node is
never given to another one. Every node finds what it needs: an output is registered under its name, a
facet hangs below the main output of its view, and a lookup searches in a requested output outside of
all cells or in the store of a selection.

* `Forest.Extends f g`: `g` has all nodes, links, names and requests of `f`.
* `Forest.Sown stores f`: what is known of all nodes while views are added.
* `Sown.arranged`: when no name begins like that of a copy, optimization keeps everything in its cell.
-/

namespace ChartPlan.Flow

open Dataset

theorem Node.number?_of_isDataSource {n : Node} (h : n.isDataSource) : n.number? = none := by
  cases n <;> first | rfl | exact Bool.noConfusion h

theorem Node.isFacet_of_isDataSource {n : Node} (h : n.isDataSource) : n.isFacet = false :=
  Node.isFacet_of_number? (Node.number?_of_isDataSource h)

namespace Forest

variable {f g : Forest} {i j p : NodeId} {n : Node} {name : String} {stores : String → Prop}

/-! ### Growing forests -/

/-- All nodes, links, names and requests are kept; a source may get a name. -/
structure Extends (f g : Forest) : Prop extends StaysIn f g where
  entry {name : String} {j : NodeId} : f.outputs.get? name = some j → g.outputs.get? name = some j
  request (name : String) : f.requestCount name ≤ g.requestCount name

namespace Extends

theorem refl (f : Forest) : Extends f f :=
  ⟨.refl f, id, fun _ => Nat.le_refl _⟩

section

variable (hfg : Extends f g)

include hfg

theorem trans {k : Forest} (hgh : Extends g k) : Extends f k where
  toStaysIn := hfg.toStaysIn.trans hgh.toStaysIn
  entry he := hgh.entry (hfg.entry he)
  request name := (hfg.request name).trans (hgh.request name)

theorem facet? {m : Node} (hm : f.node? j = some m) :
    ∃ n, g.node? j = some n ∧ n.facet? = m.facet? := by
  rcases hfg.node hm with hn | ⟨_, _, rfl, hn⟩ <;> exact ⟨_, hn, rfl⟩

theorem cell?_eq (hf : f.Linked) (hg : g.Linked) (hj : f.contains j) : g.cell? j = f.cell? j :=
  hf.cell?_eq_of_kept hg hfg.parent hfg.facet? hj

theorem cellBelow_eq (hf : f.Linked) (hg : g.Linked) (hj : f.contains j) :
    g.cellBelow j = f.cellBelow j := by
  obtain ⟨m, hm⟩ := exists_node hj
  obtain ⟨n, hn, hsame⟩ := hfg.facet? hm
  rw [cellBelow, cellBelow, hfg.cell?_eq hf hg hj, facetName?, facetName?, hm, hn, Option.bind_some,
    Option.bind_some, hsame]

theorem vital (hn : f.Vital n) : g.Vital n := by
  cases n with
  | output o => exact Nat.lt_of_lt_of_le hn (hfg.request o.name)
  | facet m => exact True.intro
  | _ => exact hn

end

end Extends

/-! ### What nodes need -/

/-- A requested output of a name is outside of all cells. -/
def Offers (f : Forest) (name : String) : Prop :=
  ∃ j o, f.outputs.get? name = some j ∧ f.node? j = some (.output o) ∧ f.Vital (.output o) ∧
    f.cell? j = none

def Suits (stores : String → Prop) (f : Forest) (i : NodeId) : Node → Prop
  | .output o => o.source = o.name ∧ f.outputs.get? o.name = some i
  | .facet m => f.outputs.get? m.name = some i ∧ ∃ j o, f.parent? i = some j ∧
      f.outputs.get? m.main = some j ∧ f.node? j = some (.output o) ∧ f.Vital (.output o)
  | .lookup l => stores l.secondary ∨ f.Offers l.secondary
  | .source s => Tidy s.descriptor
  | _ => True

/-- A planted forest in which every node has what it needs. -/
structure Sown (stores : String → Prop) (f : Forest) : Prop where
  planted : f.Planted
  numbered : f.Numbered
  suits {i : NodeId} {n : Node} : f.node? i = some n → f.Suits stores i n

theorem Offers.mono (h : f.Offers name) (hfg : Extends f g) (hf : f.Linked) (hg : g.Linked) :
    g.Offers name := by
  obtain ⟨j, o, hentry, ho, hvital, hcell⟩ := h
  exact ⟨j, o, hfg.entry hentry, hfg.kept ho rfl, hfg.vital hvital,
    (hfg.cell?_eq hf hg (contains_of_node? ho)).trans hcell⟩

theorem Suits.mono (h : f.Suits stores i n) (hn : f.node? i = some n) (hfg : Extends f g)
    (hf : f.Linked) (hg : g.Linked) : g.Suits stores i n := by
  cases n with
  | output o => exact ⟨h.1, hfg.entry h.2⟩
  | facet m =>
    obtain ⟨hentry, j, o, hparent, hmain, ho, hvital⟩ := h
    exact ⟨hfg.entry hentry, j, o, (hfg.parent (contains_of_node? hn)).trans hparent,
      hfg.entry hmain, hfg.kept ho rfl, hfg.vital hvital⟩
  | lookup l => exact h.imp_right fun h => h.mono hfg hf hg
  | _ => exact h

theorem suits_of_source (hn : n.isDataSource) (htidy : ∀ s, n = .source s → Tidy s.descriptor) :
    g.Suits stores i n := by
  cases n with
  | source s => exact htidy s rfl
  | sequence _ => exact True.intro
  | graticule _ => exact True.intro
  | _ => exact Bool.noConfusion hn

/-! ### New nodes -/

theorem outputs_add (f : Forest) (n : Node) (parent : Option NodeId) :
    (f.add n parent).1.outputs = f.outputs := by
  cases parent <;> exact outputs_store f n

theorem requestCount_add (f : Forest) (n : Node) (parent : Option NodeId) (name : String) :
    (f.add n parent).1.requestCount name = f.requestCount name := by
  have hrequests : (f.add n parent).1.requests = f.requests := by
    cases parent <;> exact requests_store f n
  unfold requestCount
  rw [hrequests]

theorem ids_add (f : Forest) (n : Node) (parent : Option NodeId) :
    (f.add n parent).1.ids = f.ids := by
  cases parent <;> exact ids_store f n

theorem requestCount_le_request (f : Forest) (name other : String) :
    f.requestCount other ≤ (f.request name).requestCount other := by
  unfold requestCount Forest.request
  rw [Dict.get?_insert]
  split
  · rename_i he
    rw [he]
    exact Nat.le_succ _
  · exact Nat.le_refl _

theorem requestCount_request (f : Forest) (name : String) : 0 < (f.request name).requestCount name := by
  unfold requestCount Forest.request
  rw [Dict.get?_insert, if_pos rfl]
  exact Nat.succ_pos _

theorem add_recount (f : Forest) (n : Node) (p : NodeId) (ids : IdSupply) :
    { f with ids := ids }.add n (some p) =
      ({ (f.add n (some p)).1 with ids := ids }, (f.add n (some p)).2) := by
  unfold Forest.add store
  cases f.free <;> rfl

/-- The forest with a new node that takes a number and gets a name. -/
def addNamed (f : Forest) (n : Node) (p : NodeId) (name : String) (requests : Dict Nat) : Forest :=
  { (f.add n (some p)).1 with
    ids := f.ids.take.2
    requests := requests
    outputs := (f.add n (some p)).1.outputs.insert name (f.add n (some p)).2 }

theorem get?_addNamed (f : Forest) (n : Node) (p : NodeId) (name : String) (requests : Dict Nat) :
    (f.addNamed n p name requests).outputs.get? name = some (f.add n (some p)).2 := by
  show Dict.get? (Dict.insert _ _ _) name = _
  rw [Dict.get?_insert, if_pos rfl]

namespace Sown

theorem extend (h : f.Sown stores) (hfg : Extends f g) (hg : g.Planted) (hnum : g.Numbered)
    (hnew : ∀ {i n}, g.node? i = some n → f.node? i = some n ∨ g.Suits stores i n) :
    g.Sown stores :=
  ⟨hg, hnum, fun hn => (hnew hn).elim
    (fun hold => (h.suits hold).mono hold hfg h.planted.toLinked hg.toLinked) id⟩

theorem empty (stores : String → Prop) : Sown stores {} where
  planted := planted_empty
  numbered := ⟨fun hn => by simp [node?] at hn, fun hn => by simp [node?] at hn⟩
  suits hn := by simp [node?] at hn

/-! ### Steps -/

section

variable (h : f.Sown stores)

include h

theorem grow (hg : g.Planted) (hslots : ∀ j, g.node? j = (f.add n (some p)).1.node? j)
    (hedges : g.edges = (f.add n (some p)).1.edges)
    (hentry : ∀ {name j}, f.outputs.get? name = some j → g.outputs.get? name = some j)
    (hrequest : ∀ name, f.requestCount name ≤ g.requestCount name)
    (hids : f.ids.next ≤ g.ids.next)
    (hnumber : ∀ k, n.number? = some k → f.ids.next ≤ k ∧ k < g.ids.next)
    (hsuits : Extends f g → g.Suits stores (f.add n (some p)).2 n) :
    Extends f g ∧ g.Sown stores := by
  have hstays := h.planted.staysIn_add n (some p)
  have hfg : Extends f g :=
    { node := fun {j _} hn => hslots j ▸ hstays.node hn
      parent := fun hj => (parent?_congr hedges _).trans (hstays.parent hj)
      entry := hentry
      request := hrequest }
  -- A node is the new one or an old one.
  have hcases : ∀ {j m}, g.node? j = some m → (j = (f.add n (some p)).2 ∧ m = n) ∨ f.node? j = some m :=
    fun {j _} hm => h.planted.arena.node?_of_add ((hslots j).symm.trans hm)
  refine ⟨hfg, h.extend hfg hg ⟨fun hm hk => ?_, fun {j j' m m' k} hm hm' hk hk' => ?_⟩ fun hm => ?_⟩
  · rcases hcases hm with ⟨-, rfl⟩ | hm
    · exact (hnumber _ hk).2
    · exact Nat.lt_of_lt_of_le (h.numbered.lt hm hk) hids
  · rcases hcases hm with ⟨rfl, rfl⟩ | hm <;> rcases hcases hm' with ⟨rfl, rfl⟩ | hm'
    · rfl
    · exact absurd (h.numbered.lt hm' hk') (Nat.not_lt.mpr (hnumber _ hk).1)
    · exact absurd (h.numbered.lt hm hk) (Nat.not_lt.mpr (hnumber _ hk').1)
    · exact h.numbered.unique hm hm' hk hk'
  · rcases hcases hm with ⟨rfl, rfl⟩ | hm
    · exact .inr (hsuits hfg)
    · exact .inl hm

theorem add (hp : f.contains p) (hsource : n.isDataSource = false) (hnumber : n.number? = none)
    (hsuits : Extends f (f.add n (some p)).1 → (f.add n (some p)).1.Suits stores (f.add n (some p)).2 n) :
    Extends f (f.add n (some p)).1 ∧ (f.add n (some p)).1.Sown stores := by
  refine h.grow (h.planted.add hsource hp) (fun _ => rfl) rfl (fun he => ?_)
    (fun name => Nat.le_of_eq (requestCount_add f n (some p) name).symm) ?_ (by simp [hnumber]) hsuits
  · rwa [outputs_add]
  · rw [ids_add]

theorem addNamed (hp : f.contains p) (hnumber : n.number? = some f.ids.next)
    (hname : f.outputs.get? name = none) {requests : Dict Nat}
    (hrequest : ∀ name, f.requestCount name ≤ (requests.get? name).getD 0)
    (hsuits : Extends f (f.addNamed n p name requests) → (f.addNamed n p name requests).Suits stores (f.add n (some p)).2 n) :
    Extends f (f.addNamed n p name requests) ∧ (f.addNamed n p name requests).Sown stores := by
  have hsource : n.isDataSource = false := Bool.eq_false_iff.mpr fun hsource => by
    rw [Node.number?_of_isDataSource hsource] at hnumber
    cases hnumber
  have hlive : (f.add n (some p)).1.contains (f.add n (some p)).2 :=
    (h.planted.arena.contains_add _ _ _).mpr (.inl rfl)
  refine h.grow (((h.planted.add hsource hp).recount f.ids.take.2 requests).register name hlive)
    (fun _ => rfl) rfl (fun {other j} he => ?_) hrequest (Nat.le_succ _) (fun k hk => ?_) hsuits
  · show Dict.get? (Dict.insert _ _ _) other = some j
    rw [outputs_add, Dict.get?_insert]
    split
    · rename_i heq
      rw [heq, hname] at he
      cases he
    · exact he
  · rw [hnumber] at hk
    cases hk
    exact ⟨Nat.le_refl _, Nat.lt_succ_self _⟩

theorem addFacet {m : Facet} {o : Output} (ho : f.node? p = some (.output o))
    (hmain : f.outputs.get? m.main = some p) (hid : m.id = f.ids.next)
    (hname : f.outputs.get? m.name = none) (requests : Dict Nat)
    (hrequest : ∀ name, f.requestCount name ≤ (requests.get? name).getD 0)
    (hvital : 0 < (requests.get? o.name).getD 0) :
    Extends f (f.addNamed (.facet m) p m.name requests) ∧
      (f.addNamed (.facet m) p m.name requests).Sown stores :=
  h.addNamed (n := .facet m) (contains_of_node? ho) (congrArg some hid) hname hrequest fun hfg =>
    ⟨get?_addNamed _ _ _ _ _, p, o, (h.planted.parent?_add _ p _).trans (if_pos rfl),
      hfg.entry hmain, hfg.kept ho rfl, hvital⟩

theorem request (name : String) : Extends f (f.request name) ∧ (f.request name).Sown stores := by
  have hfg : Extends f (f.request name) :=
    ⟨⟨.inl, fun _ => rfl⟩, id, requestCount_le_request f name⟩
  exact ⟨hfg, h.extend hfg (h.planted.recount _ _) ⟨h.numbered.lt, h.numbered.unique⟩ .inl⟩

end

/-! ### Roots -/

/-- Data sources are new or get names, and nothing else changes. -/
theorem source (h : f.Sown stores) (hfg : Extends f g) (hg : g.Planted) (hids : g.ids = f.ids)
    (hnew : ∀ {j m}, g.node? j = some m →
      f.node? j = some m ∨ m.isDataSource ∧ ∀ s, m = .source s → Tidy s.descriptor) : g.Sown stores := by
  have hnumber : ∀ {j m k}, g.node? j = some m → m.number? = some k → f.node? j = some m := by
    intro j m k hm hk
    refine (hnew hm).resolve_right fun ⟨hsource, _⟩ => ?_
    rw [Node.number?_of_isDataSource hsource] at hk
    cases hk
  exact h.extend hfg hg ⟨fun hm hk => hids ▸ h.numbered.lt (hnumber hm hk) hk,
      fun hm hm' hk hk' => h.numbered.unique (hnumber hm hk) (hnumber hm' hk') hk hk'⟩
    fun hm => (hnew hm).imp_right fun hm => suits_of_source hm.1 hm.2

theorem addRoot (h : f.Sown stores) (hn : n.isDataSource)
    (htidy : ∀ s, n = .source s → Tidy s.descriptor) :
    Extends f (f.add n none).1 ∧ (f.add n none).1.Sown stores := by
  have hfg : Extends f (f.add n none).1 :=
    ⟨h.planted.staysIn_add n none, fun he => (outputs_add f n none).symm ▸ he,
      fun name => Nat.le_of_eq (requestCount_add f n none name).symm⟩
  refine ⟨hfg, h.source hfg (h.planted.addRoot hn) (ids_add f n none) fun hm => ?_⟩
  exact (h.planted.arena.node?_of_add hm).symm.imp_right fun ⟨_, he⟩ => he ▸ ⟨hn, htidy⟩

theorem root (h : f.Sown stores) (hn : n.isDataSource)
    (htidy : ∀ s, n = .source s → Tidy s.descriptor) :
    Extends f (f.root n).1 ∧ (f.root n).1.Sown stores ∧ (f.root n).1.outputs = f.outputs ∧
      (f.root n).1.holds (f.root n).2 Node.isDataSource := by
  obtain ⟨houtputs, hrequests, hids⟩ : (f.root n).1.outputs = f.outputs ∧
      (∀ name, (f.root n).1.requestCount name = f.requestCount name) ∧ (f.root n).1.ids = f.ids := by
    unfold Forest.root
    split
    · exact ⟨rfl, fun _ => rfl, rfl⟩
    · exact ⟨outputs_add f n none, requestCount_add f n none, ids_add f n none⟩
  obtain ⟨hstays, hroot⟩ := h.planted.staysIn_root hn
  have hfg : Extends f (f.root n).1 :=
    ⟨hstays, fun he => houtputs.symm ▸ he, fun name => Nat.le_of_eq (hrequests name).symm⟩
  refine ⟨hfg, h.source hfg (h.planted.rooted_root hn).planted hids fun hm => ?_, houtputs, hroot⟩
  refine (h.planted.node?_of_root hm).imp_right ?_
  rintro (rfl | ⟨s, s', hs, rfl, hsame⟩)
  · exact ⟨hn, htidy⟩
  · refine ⟨rfl, fun t ht => ?_⟩
    cases ht
    rw [hsame]
    exact h.suits hs

end Sown

theorem Planted.cellBelow_root (hf : f.Planted) (hi : f.holds i Node.isDataSource) :
    f.cellBelow i = none := by
  obtain ⟨n, hn, hsource⟩ := holds_iff.mp hi
  rw [cellBelow_eq_cell? (facetName?_eq_none hn (Node.isFacet_of_isDataSource hsource)),
    cell?_of_root ((hf.parent?_eq_none_iff (contains_of_holds hi)).mpr hi)]

namespace Sown

/-! ### Cells -/

theorem facetsApart (h : f.Sown stores) : f.FacetsApart := by
  intro i j m m' hm hm' he
  have hi := (h.suits hm).1
  rw [he, (h.suits hm').1] at hi
  exact (Option.some.inj hi).symm

theorem main_of_facet (h : f.Sown stores) {m : Facet} (hm : f.node? i = some (.facet m)) :
    ∃ j o, f.parent? i = some j ∧ f.outputs.get? m.main = some j ∧ f.node? j = some (.output o) ∧
      f.Vital (.output o) ∧ f.cell? j = f.cell? i := by
  obtain ⟨-, j, o, hparent, hentry, ho, hvital⟩ := h.suits hm
  refine ⟨j, o, hparent, hentry, ho, hvital, ?_⟩
  rw [h.planted.cell?_of_parent? hparent, cellBelow_eq_cell? (facetName?_eq_none ho rfl)]

theorem arranged (h : f.Sown stores)
    (hnames : ∀ {i m}, f.node? i = some (.facet m) → ∀ s, m.main ≠ scaleStem ++ s) : f.Arranged where
  planted := h.planted
  numbered := h.numbered
  fresh _ _ ho := (h.suits ho).1
  screened i m p hm hp := by
    obtain ⟨j, o, hparent, -, ho, hvital, -⟩ := h.main_of_facet hm
    rw [hp] at hparent
    cases hparent
    exact .output ho hvital
  main i m hm := by
    obtain ⟨j, o, -, hentry, ho, hvital, hcell⟩ := h.main_of_facet hm
    exact ⟨j, o, hentry, ho, hvital, hcell⟩
  unscaled _ _ hm := hnames hm

end Sown

end Forest

end ChartPlan.Flow
