import ChartPlan.Proofs.Flow.Pass.Optimize
import ChartPlan.Proofs.Flow.Path
import ChartPlan.Tree

/-!
# The copy of the cells for the whole data

The cells of a facet are copied node by node: a copy waits without a parent while what is below the
original is copied, and then the copies of the children are linked below it. Facets are left out, and
what is below them comes in their place. So the copies make the trees that the originals make, with the
contents changed for the whole data (`replicas`). All of them are new nodes, and what was there before
is not touched (`Annexed`).

* `Forest.Shows`: the nodes at and below some slots make some trees.
* `Copying`: one step of copying cells.
* `copySubtree_replica`: what is copied, and that it is copied by such steps.
* `Forest.Planted.copyCells`: copies leave the roots as they are.
-/

namespace ChartPlan.Flow

open Forest List

/-! ### Steps of copying -/

/-- The forest with the copy of a node for the whole data, registered and without a parent. -/
def Forest.copyNode (fields : List String) (f : Forest) (i : NodeId) : Forest :=
  registerCopy ((f.duplicate i).1.modify (f.duplicate i).2 (globalCopy fields)) (f.duplicate i).2

/-- One step of copying cells: a node below another one is copied, or a copy that waits is linked below
another one that waits or below the main output. -/
inductive Copying (fields : List String) (main : NodeId) : Forest → Forest → Prop
  | copy {f : Forest} {i p : NodeId} {n : Node} {loose : List NodeId} :
      f.ValidBut loose → f.node? i = some n → n.isFacet = false → f.parent? i = some p →
      Copying fields main f (f.copyNode fields i)
  | link {f : Forest} {i p : NodeId} {loose : List NodeId} :
      f.ValidBut (i :: loose) → i ∉ loose → f.contains p → ¬ f.Below i p →
      p = main ∨ f.parent? p = none ∧ f.holds p Node.isFacet = false →
      Copying fields main f (f.attach i p none)

abbrev Copyings (fields : List String) (main : NodeId) : Forest → Forest → Prop :=
  Relation.ReflTransGen (Copying fields main)

/-! ### Trees -/

/-- The nodes at and below the listed ones make the listed trees. -/
inductive Forest.Shows (f : Forest) : List (Tree Node) → List NodeId → Prop
  | nil : Shows f [] []
  | cons {n : Node} {i : NodeId} {ts rest : List (Tree Node)} {more : List NodeId} :
      f.node? i = some n → Shows f ts (f.children i) → Shows f rest more →
      Shows f (.node n ts :: rest) (i :: more)

/-- The copy of a node for the whole data. Outputs get a number, and what groups rows groups them by
the facet fields as well. -/
def replicaNode (fields : List String) (id : Nat) : Node → Node
  | .output o => .output { o with id, source := "scale_" ++ o.source, kind := .scale }
  | .aggregate a => .aggregate { a with dimensions := a.dimensions.extend fields }
  | .joinAggregate j => .joinAggregate { j with groupby := appendNew j.groupby fields }
  | .window w => .window ⟨{ w.spec with groupby := appendNew w.spec.groupby fields }⟩
  | .stack s => .stack { s with facetby := s.facetby ++ fields }
  | n => n

def nextId (id : Nat) (n : Node) : Nat :=
  if n.isOutput then id + 1 else id

mutual

/-- The copy of a tree for the whole data, with what is below a facet in its place. Outputs are numbered
from `id` on, a parent before its children. -/
def replica (fields : List String) (id : Nat) : Tree Node → List (Tree Node) × Nat
  | .node n ts =>
    let below := replicas fields (nextId id n) ts
    (if n.isFacet then below.1 else [.node (replicaNode fields id n) below.1], below.2)

def replicas (fields : List String) (id : Nat) : List (Tree Node) → List (Tree Node) × Nat
  | [] => ([], id)
  | t :: rest =>
    let first := replica fields id t
    let beside := replicas fields first.2 rest
    (first.1 ++ beside.1, beside.2)

end

theorem replicas_append (fields : List String) (ts us : List (Tree Node)) (id : Nat) :
    replicas fields id (ts ++ us) =
      ((replicas fields id ts).1 ++ (replicas fields (replicas fields id ts).2 us).1,
        (replicas fields (replicas fields id ts).2 us).2) := by
  induction ts generalizing id with
  | nil => rfl
  | cons t rest ih => simp [replicas, ih]

namespace Forest

variable {f g h : Forest} {i j p r : NodeId} {n : Node} {ts us : List (Tree Node)}
  {nodes more roots loose : List NodeId} {name : String}

theorem Shows.append (ht : f.Shows ts nodes) (hu : f.Shows us more) : f.Shows (ts ++ us) (nodes ++ more) := by
  induction ht with
  | nil => exact hu
  | cons hn hts _ _ ih => exact .cons hn hts ih

theorem Shows.congr (ht : f.Shows ts nodes) (hsame : ∀ i ∈ nodes, ∀ j, f.Below i j →
    g.node? j = f.node? j ∧ g.children j = f.children j) : g.Shows ts nodes := by
  induction ht with
  | nil => exact .nil
  | @cons n i _ _ _ hn _ _ ih ihrest =>
    obtain ⟨hnode, hchildren⟩ := hsame i mem_cons_self i (.refl f i)
    refine .cons (hnode.trans hn) ?_ (ihrest fun k hk => hsame k (mem_cons_of_mem _ hk))
    rw [hchildren]
    exact ih fun c hc j hj => hsame i mem_cons_self j (Relation.ReflTransGen.head hc hj)

theorem Shows.mem_preorders (ht : f.Shows ts nodes) (hi : i ∈ nodes) (hb : f.Below i j)
    (hn : f.node? j = some n) : n ∈ Tree.preorders ts := by
  induction ht generalizing i with
  | nil => cases hi
  | cons hm _ _ ih ihrest =>
    simp only [Tree.preorders, Tree.preorder, cons_append, mem_cons, mem_append]
    rcases mem_cons.mp hi with rfl | hi
    · rcases below_iff.mp hb with rfl | ⟨c, hc, hcj⟩
      · exact .inl (Option.some.inj (hn.symm.trans hm))
      · exact .inr (.inl (ih hc hcj))
    · exact .inr (.inr (ihrest hi hb))

theorem exists_shows (hnodes : ∀ c ∈ nodes, ∃ t, f.Shows [t] [c]) : ∃ ts, f.Shows ts nodes := by
  induction nodes with
  | nil => exact ⟨[], .nil⟩
  | cons c rest ih =>
    obtain ⟨t, ht⟩ := hnodes c mem_cons_self
    obtain ⟨ts, hts⟩ := ih fun d hd => hnodes d (mem_cons_of_mem c hd)
    exact ⟨[t] ++ ts, ht.append hts⟩

theorem Linked.exists_tree (hf : f.Linked) (hi : f.contains i) : ∃ t, f.Shows [t] [i] := by
  refine hf.up (P := fun i => f.contains i → ∃ t, f.Shows [t] [i]) (fun i ih hi => ?_) i hi
  obtain ⟨n, hn⟩ := exists_node hi
  obtain ⟨ts, hts⟩ := exists_shows fun c hc => ih c hc (hf.live hc).2
  exact ⟨.node n ts, .cons hn hts .nil⟩

/-! ### New nodes beside the old ones -/

/-- New nodes came, and the nodes that were there are as they were. -/
structure Grown (f g : Forest) : Prop where
  node : ∀ {j}, f.contains j → g.node? j = f.node? j
  parent : ∀ {j}, f.contains j → g.parent? j = f.parent? j

namespace Grown

theorem contains (hfg : Grown f g) (hj : f.contains j) : g.contains j := by
  unfold Forest.contains
  rw [hfg.node hj]
  exact hj

theorem not_below (hfg : Grown f g) (hf : f.Linked) (hg : g.Single) (hi : f.contains i = false)
    (hj : f.contains j) : ¬ g.Below i j := by
  intro hb
  induction hb with
  | refl =>
    rw [hi] at hj
    exact Bool.noConfusion hj
  | tail _ hstep ih =>
    have hparent := (hfg.parent hj).symm.trans (hg.parent?_eq_some.mpr hstep)
    exact ih (hf.live_of_parent? hparent).1

end Grown

/-- A name leads to a new output that carries it and is read by scales. -/
def Registered (f g : Forest) (name : String) : Prop :=
  ∃ k o, g.outputs.get? name = some k ∧ f.contains k = false ∧ g.node? k = some (.output o) ∧
    o.source = name ∧ o.kind = .scale

theorem Registered.of_contents (hname : Registered f g name) (hcontents : h.contents = g.contents) :
    Registered f h name := by
  obtain ⟨k, o, hk, hnew, ho, hrest⟩ := hname
  exact ⟨k, o, (congrArg (Dict.get? · name) (outputs_of_contents hcontents)).trans hk, hnew,
    (node?_of_contents hcontents k).trans ho, hrest⟩

/-- `g` is `f` with new nodes, of which `roots` wait to be linked, beside the old ones. -/
structure Annexed (f g : Forest) (roots loose : List NodeId) : Prop where
  valid : g.ValidBut (roots ++ loose)
  node : ∀ {j}, f.contains j → g.node? j = f.node? j
  children : ∀ {j}, f.contains j → g.children j = f.children j
  sources : g.sources = f.sources
  plain : ∀ {j}, g.holds j Node.isFacet → f.contains j
  fresh : ∀ r ∈ roots, f.contains r = false
  nodup : roots.Nodup
  outputs : ∀ name, g.outputs.get? name = f.outputs.get? name ∨ Registered f g name

namespace Annexed

theorem refl (hf : f.ValidBut loose) : Annexed f f [] loose :=
  ⟨hf, fun _ => rfl, fun _ => rfl, rfl, contains_of_holds, by simp, nodup_nil, fun _ => .inl rfl⟩

theorem contains (hfg : Annexed f g roots loose) (hj : f.contains j) : g.contains j := by
  unfold Forest.contains
  rwa [hfg.node hj]

theorem holds (hfg : Annexed f g roots loose) (hj : f.contains j) (kind : Node → Bool) :
    g.holds j kind = f.holds j kind := by
  unfold Forest.holds
  rw [hfg.node hj]

theorem vacant (hfg : Annexed f g roots loose) (hj : g.contains j = false) : f.contains j = false :=
  Bool.eq_false_iff.mpr fun hlive => Bool.eq_false_iff.mp hj (hfg.contains hlive)

theorem parent_of_mem (hf : f.Linked) (hfg : Annexed f g roots loose) {c : NodeId} (hc : c ∈ f.children i) :
    g.parent? c = some i :=
  hfg.valid.parent?_of_mem (hfg.children (hf.live hc).1 ▸ hc)

section

variable (hf : f.ValidBut loose) (hfg : Annexed f g roots loose)

include hf hfg

theorem parent (hj : f.contains j) : g.parent? j = f.parent? j := by
  cases hp : f.parent? j with
  | some a => exact hfg.parent_of_mem hf.toLinked (hf.child hp)
  | none =>
    by_cases hloose : j ∈ loose
    · exact (hfg.valid.waiting (mem_append_right _ hloose)).2
    · exact (hfg.valid.roots.mp (hfg.sources ▸ hf.roots.mpr ⟨hj, hp, hloose⟩)).2.1

theorem grown : Grown f g :=
  ⟨hfg.node, hfg.parent hf⟩

theorem not_below (hi : f.contains i = false) (hj : f.contains j) : ¬ g.Below i j :=
  (hfg.grown hf).not_below hf.toLinked hfg.valid.single hi hj

theorem exists_root (hj : g.contains j) (hnew : f.contains j = false) :
    ∃ r ∈ roots, g.Below r j := by
  have hold {j : NodeId} (hnew : f.contains j = false) (hj : f.contains j) : False :=
    Bool.eq_false_iff.mp hnew hj
  refine hfg.valid.down (P := fun j => g.contains j → f.contains j = false →
    ∃ r ∈ roots, g.Below r j) (fun j hroot hj hnew => ?_) (fun j p hp ih _ hnew => ?_) j hj hnew
  · by_cases hwaits : j ∈ roots ++ loose
    · rcases mem_append.mp hwaits with hr | hloose
      · exact ⟨j, hr, .refl g j⟩
      · exact (hold hnew (hf.waiting hloose).1).elim
    · have hsource : j ∈ f.sources := hfg.sources ▸ hfg.valid.roots.mpr ⟨hj, hroot, hwaits⟩
      exact (hold hnew (hf.roots.mp hsource).1).elim
  · have hc : j ∈ g.children p := hfg.valid.child hp
    have hpnew : f.contains p = false := Bool.eq_false_iff.mpr fun hp =>
      hold hnew (hf.live (hfg.children hp ▸ hc)).2
    obtain ⟨r, hr, hb⟩ := ih (hfg.valid.live hc).1 hpnew
    exact ⟨r, hr, hb.step hc⟩

end

theorem shows (hf : f.Linked) (hfg : Annexed f g roots loose) (hnodes : ∀ i ∈ nodes, f.contains i)
    (ht : f.Shows ts nodes) : g.Shows ts nodes :=
  ht.congr fun i hi _ hb =>
    have hj := hf.contains_of_below (hnodes i hi) hb
    ⟨hfg.node hj, hfg.children hj⟩

theorem fits (hf : f.Linked) (hfg : Annexed f g roots loose) {fuel : Nat} (hi : f.contains i)
    (hfits : f.Fits fuel i) : g.Fits fuel i := by
  induction fuel generalizing i with
  | zero => exact hfits
  | succ fuel ih =>
    intro c hc
    rw [hfg.children hi] at hc
    exact ih (hf.live hc).2 (hfits c hc)

theorem registered (hfg : Annexed f g roots loose) (hgh : Annexed g h more nodes)
    (hname : Registered f g name) : Registered f h name := by
  obtain ⟨k, o, hk, hnew, ho, hsource, hkind⟩ := hname
  rcases hgh.outputs name with heq | ⟨k', o', hk', hnew', ho', hrest⟩
  · exact ⟨k, o, heq.trans hk, hnew, (hgh.node (contains_of_node? ho)).trans ho, hsource, hkind⟩
  · exact ⟨k', o', hk', hfg.vacant hnew', ho', hrest⟩

theorem registered_of_later (hfg : Annexed f g roots loose) (hname : Registered g h name) :
    Registered f h name := by
  obtain ⟨k, o, hk, hnew, hrest⟩ := hname
  exact ⟨k, o, hk, hfg.vacant hnew, hrest⟩

theorem trans (hfg : Annexed f g roots loose) (hgh : Annexed g h more (roots ++ loose)) :
    Annexed f h (roots ++ more) loose where
  valid := by
    have hsame : ∀ j, j ∈ roots ++ more ++ loose ↔ j ∈ more ++ (roots ++ loose) := fun j => by
      simp only [mem_append]
      tauto
    refine ⟨hgh.valid.toLinked, ?_, fun hj => hgh.valid.waiting ((hsame _).mp hj), hgh.valid.contiguous,
      hgh.valid.outputs⟩
    intro i
    rw [hsame]
    exact hgh.valid.roots
  node hj := (hgh.node (hfg.contains hj)).trans (hfg.node hj)
  children hj := (hgh.children (hfg.contains hj)).trans (hfg.children hj)
  sources := hgh.sources.trans hfg.sources
  plain hj := hfg.plain (hgh.holds (hgh.plain hj) Node.isFacet ▸ hj)
  fresh r hr := (mem_append.mp hr).elim (hfg.fresh r) fun hr => hfg.vacant (hgh.fresh r hr)
  nodup := by
    refine nodup_append.mpr ⟨hfg.nodup, hgh.nodup, fun r hr s hs he => ?_⟩
    have hlive := (hfg.valid.waiting (mem_append_left _ hr)).1
    rw [he, hgh.fresh s hs] at hlive
    cases hlive
  outputs name := by
    rcases hgh.outputs name with heq | hlater
    · exact (hfg.outputs name).imp heq.trans fun hname => hfg.registered hgh hname
    · exact .inr (hfg.registered_of_later hlater)

end Annexed

/-! ### Linking -/

theorem children_attach_last (f : Forest) (i p q : NodeId) :
    (f.attach i p none).children q = if q = p then f.children p ++ [i] else f.children q := by
  rw [children_attach]
  simp [splice]

theorem children_attachAll (f : Forest) (p : NodeId) (more : List NodeId) (q : NodeId) :
    (attachAll f p more).children q = if q = p then f.children p ++ more else f.children q := by
  induction more generalizing f with
  | nil => by_cases hq : q = p <;> simp [attachAll, hq]
  | cons r rest ih =>
    show (attachAll (f.attach r p none) p rest).children q = _
    rw [ih, children_attach_last, children_attach_last]
    by_cases hq : q = p <;> simp [hq]

theorem contents_attachAll (f : Forest) (p : NodeId) (roots : List NodeId) :
    (attachAll f p roots).contents = f.contents := by
  induction roots generalizing f with
  | nil => rfl
  | cons r rest ih => exact (ih (f.attach r p none)).trans (contents_attach f r p none)

theorem ValidBut.attach_waiting (hf : f.ValidBut (i :: loose)) (hi : i ∉ loose) (hp : f.contains p)
    (hb : ¬ f.Below i p) :
    (f.attach i p none).ValidBut loose ∧ (f.attach i p none).sources = f.sources := by
  obtain ⟨hlive, hroot⟩ := hf.waiting (i := i) mem_cons_self
  refine ⟨hf.attach hroot hlive hp hb none fun j => ?_, ?_⟩
  · rw [mem_cons]
    exact ⟨fun hj => ⟨fun he => hi (he ▸ hj), .inr hj⟩, fun hj => hj.2.resolve_left hj.1⟩
  · rw [sources_attach, filter_eq_self]
    exact fun s hs => bne_iff_ne.mpr fun he => (hf.roots.mp (he ▸ hs)).2.2 mem_cons_self

theorem ValidBut.attachAll (hf : f.ValidBut (more ++ loose)) (hnodup : more.Nodup)
    (happart : ∀ r ∈ more, r ∉ loose) (hp : f.contains p) (hb : ∀ r ∈ more, ¬ f.Below r p) :
    (attachAll f p more).ValidBut loose ∧ (attachAll f p more).sources = f.sources ∧
      ∀ fields main, p = main ∨ f.parent? p = none ∧ f.holds p Node.isFacet = false →
        Copyings fields main f (attachAll f p more) := by
  induction more generalizing f with
  | nil => exact ⟨hf, rfl, fun _ _ _ => .refl⟩
  | cons r rest ih =>
    obtain ⟨hrest, hnodup⟩ := nodup_cons.mp hnodup
    have hnot : r ∉ rest ++ loose := fun hmem => (mem_append.mp hmem).elim hrest
      (happart r mem_cons_self)
    have hr := hb r mem_cons_self
    have hcontents := contents_attach f r p none
    obtain ⟨hnext, hsources⟩ := ValidBut.attach_waiting hf hnot hp hr
    obtain ⟨hvalid, hsources', hsteps⟩ := ih hnext hnodup (fun s hs => happart s (mem_cons_of_mem r hs))
      ((contains_of_contents hcontents p).trans hp)
      fun s hs hbs => hb s (mem_cons_of_mem r hs) (hbs.of_attach hr)
    refine ⟨hvalid, hsources'.trans hsources, fun fields main hplace => ?_⟩
    refine .head (.link hf hnot hp hr hplace) (hsteps fields main ?_)
    have hpr : p ≠ r := fun he => hr (he ▸ .refl f p)
    rw [hf.single.parent?_attach (hf.waiting mem_cons_self).2, if_neg hpr,
      Planted.holds_of_contents hcontents]
    exact hplace

theorem Annexed.attachAll (hg : g.ValidBut loose) (hgh : Annexed g h more loose) (hp : g.contains p) :
    (Flow.attachAll h p more).ValidBut loose ∧ (Flow.attachAll h p more).sources = g.sources ∧
      ∀ fields main, p = main ∨ h.parent? p = none ∧ h.holds p Node.isFacet = false →
        Copyings fields main h (Flow.attachAll h p more) := by
  have happart : ∀ r ∈ more, r ∉ loose := fun r hr hmem =>
    Bool.eq_false_iff.mp (hgh.fresh r hr) (hg.waiting hmem).1
  obtain ⟨hvalid, hsources, hsteps⟩ := hgh.valid.attachAll hgh.nodup happart (hgh.contains hp) fun r hr =>
    hgh.not_below hg (hgh.fresh r hr) hp
  exact ⟨hvalid, hsources.trans hgh.sources, hsteps⟩

/-- New nodes that wait are linked below another one that waits. -/
theorem Annexed.graft (hfg : Annexed f g roots loose) (hgh : Annexed g h more (roots ++ loose))
    (hp : p ∈ roots) : Annexed f (Flow.attachAll h p more) roots loose ∧
      ∀ fields main, Copyings fields main h (Flow.attachAll h p more) := by
  have hcontents := contents_attachAll h p more
  have hall := hfg.trans hgh
  have hlive : g.contains p := (hfg.valid.waiting (mem_append_left _ hp)).1
  obtain ⟨hvalid, hsources, hsteps⟩ := hgh.attachAll hfg.valid hlive
  refine ⟨⟨hvalid, fun hj => (node?_of_contents hcontents _).trans (hall.node hj), fun {j} hj => ?_,
    hsources.trans hfg.sources, fun hj => hall.plain ((Planted.holds_of_contents hcontents _).symm.trans hj),
    hfg.fresh, hfg.nodup, fun name => ?_⟩, fun fields main => hsteps fields main (.inr ⟨?_, ?_⟩)⟩
  · have hne : j ≠ p := fun he => Bool.eq_false_iff.mp (hfg.fresh p hp) (he ▸ hj)
    exact ((children_attachAll _ p _ j).trans (if_neg hne)).trans (hall.children hj)
  · have houtputs := congrArg (Dict.get? · name) (outputs_of_contents hcontents)
    exact (hall.outputs name).imp houtputs.trans fun hname => hname.of_contents hcontents
  · exact (hgh.valid.waiting (mem_append_right _ (mem_append_left _ hp))).2
  · refine Bool.eq_false_iff.mpr fun hfacet => ?_
    exact Bool.eq_false_iff.mp (hfg.fresh p hp) (hall.plain hfacet)

theorem Shows.attachAll (ht : f.Shows ts nodes) (hp : ∀ i ∈ nodes, ¬ f.Below i p) (more : List NodeId) :
    (attachAll f p more).Shows ts nodes :=
  ht.congr fun i hi j hb =>
    ⟨node?_of_contents (contents_attachAll f p more) j,
      (children_attachAll f p more j).trans (if_neg fun he : j = p => hp i hi (he ▸ hb))⟩

end Forest

/-! ### Copies -/

section

variable {fields : List String} {f g h : Forest} {i j c p : NodeId} {n : Node} {t : Tree Node}
  {ts us : List (Tree Node)} {nodes roots more loose : List NodeId}

theorem node?_registerCopy (f : Forest) (i j : NodeId) : (registerCopy f i).node? j = f.node? j := by
  unfold registerCopy
  split <;> rfl

theorem Forest.ValidBut.node?_copyNode (fields : List String) (hf : f.ValidBut loose)
    (hn : f.node? i = some n) (j : NodeId) : (f.copyNode fields i).node? j =
      if j = (f.duplicate i).2 then some (globalCopy fields (n.refresh f.ids).1) else f.node? j := by
  unfold Forest.copyNode
  rw [node?_registerCopy, node?_modify, (hf.node?_duplicate hn j).2]
  split <;> rfl

theorem Forest.edges_copyNode (fields : List String) (f : Forest) (i : NodeId) :
    (f.copyNode fields i).edges = f.edges := by
  unfold copyNode registerCopy
  split <;> exact ValidBut.edges_duplicate f i

theorem Forest.sources_copyNode (fields : List String) (f : Forest) (i : NodeId) :
    (f.copyNode fields i).sources = f.sources := by
  unfold copyNode registerCopy
  split <;> exact ValidBut.sources_duplicate f i

theorem contents_registerCopy (f : Forest) (i : NodeId) :
    (registerCopy f i).requests = f.requests ∧ (registerCopy f i).ids = f.ids := by
  unfold registerCopy
  split <;> exact ⟨rfl, rfl⟩

theorem Forest.requests_copyNode (fields : List String) (hn : f.node? i = some n) :
    (f.copyNode fields i).requests = f.requests := by
  refine (contents_registerCopy _ _).1.trans ?_
  show (f.duplicate i).1.requests = f.requests
  rw [ValidBut.duplicate_eq hn, requests_store]

theorem Forest.ids_copyNode (fields : List String) (hn : f.node? i = some n) :
    (f.copyNode fields i).ids = (n.refresh f.ids).2 := by
  refine (contents_registerCopy _ _).2.trans ?_
  show (f.duplicate i).1.ids = _
  rw [ValidBut.duplicate_eq hn, ids_store]

theorem Forest.outputs_duplicate (f : Forest) (i : NodeId) :
    (f.duplicate i).1.outputs = f.outputs := by
  unfold Forest.duplicate
  cases f.node? i with
  | none => rfl
  | some n => exact outputs_store _ _

theorem Forest.ValidBut.outputs_copyNode_eq (fields : List String) (hf : f.ValidBut loose)
    (hn : f.node? i = some n) : (f.copyNode fields i).outputs =
      (globalCopy fields (n.refresh f.ids).1).output?.elim f.outputs fun o =>
        Dict.insert f.outputs o.source (f.duplicate i).2 := by
  have hcopy : ((f.duplicate i).1.modify (f.duplicate i).2 (globalCopy fields)).node?
      (f.duplicate i).2 = some (globalCopy fields (n.refresh f.ids).1) := by
    rw [node?_modify, if_pos rfl, (hf.node?_duplicate hn _).2, if_pos rfl]
    rfl
  unfold Forest.copyNode registerCopy
  rw [hcopy, Option.bind_some, ← outputs_duplicate f i]
  cases (globalCopy fields (n.refresh f.ids).1).output? <;> rfl

theorem Forest.ValidBut.outputs_copyNode (fields : List String) (hf : f.ValidBut loose)
    (hn : f.node? i = some n) : (f.copyNode fields i).outputs = f.outputs ∨
      ∃ o, globalCopy fields (n.refresh f.ids).1 = .output o ∧
        (f.copyNode fields i).outputs = Dict.insert f.outputs o.source (f.duplicate i).2 := by
  rw [hf.outputs_copyNode_eq fields hn]
  generalize globalCopy fields (n.refresh f.ids).1 = r
  cases r <;> first | exact .inl rfl | exact .inr ⟨_, rfl, rfl⟩

theorem eq_output_of_globalCopy {ids : IdSupply} {o : Output}
    (h : globalCopy fields (n.refresh ids).1 = .output o) : ∃ original, n = .output original ∧
      o = { original with
        id := ids.next, source := scaleStem ++ original.source, kind := .scale } := by
  cases n with
  | output original =>
    cases h
    exact ⟨original, rfl, rfl⟩
  | _ => cases h

theorem Forest.ValidBut.get?_copyNode (fields : List String) (hf : f.ValidBut loose)
    (hn : f.node? i = some n) (name : String) :
    (f.copyNode fields i).outputs.get? name = f.outputs.get? name ∨
      ∃ o, globalCopy fields (n.refresh f.ids).1 = .output o ∧ o.source = name ∧
        (f.copyNode fields i).outputs.get? name = some (f.duplicate i).2 := by
  rcases hf.outputs_copyNode fields hn with hsame | ⟨o, ho, houtputs⟩
  · exact .inl (congrArg (Dict.get? · name) hsame)
  · rw [houtputs, Dict.get?_insert]
    split
    · rename_i hname
      exact .inr ⟨o, ho, hname.symm, rfl⟩
    · exact .inl rfl

theorem isFacet_globalCopy (fields : List String) (ids : IdSupply) (h : n.isFacet = false) :
    (globalCopy fields (n.refresh ids).1).isFacet = false := by
  cases n <;> first | rfl | exact h

/-- `g` is `f` with the copies of the trees beside it. -/
structure Replica (fields : List String) (f g : Forest) (loose : List NodeId) (ts : List (Tree Node))
    (roots : List NodeId) : Prop where
  annexed : Annexed f g roots loose
  steps : ∀ main, Copyings fields main f g
  shows : g.Shows (replicas fields f.ids.next ts).1 roots
  ids : g.ids.next = (replicas fields f.ids.next ts).2
  registered : ∀ o, .output o ∈ Tree.preorders ts → Registered f g (scaleStem ++ o.source)

theorem Replica.live (h : Replica fields f g loose ts roots) : ∀ r ∈ roots, g.contains r :=
  fun _ hr => (h.annexed.valid.waiting (mem_append_left _ hr)).1

theorem Replica.refl (hf : f.ValidBut loose) : Replica fields f f loose [] [] :=
  ⟨.refl hf, fun _ => .refl, .nil, rfl, fun _ h => (nomatch h)⟩

theorem Replica.append (hfg : Replica fields f g loose ts roots)
    (hgh : Replica fields g h (roots ++ loose) us more) : Replica fields f h loose (ts ++ us) (roots ++ more) where
  annexed := hfg.annexed.trans hgh.annexed
  steps main := (hfg.steps main).trans (hgh.steps main)
  shows := by
    rw [replicas_append, ← hfg.ids]
    exact (hgh.annexed.shows hfg.annexed.valid.toLinked hfg.live hfg.shows).append hgh.shows
  ids := by
    rw [replicas_append, ← hfg.ids]
    exact hgh.ids
  registered o ho := by
    rw [Tree.preorders_append, mem_append] at ho
    exact ho.elim (fun ho => hfg.annexed.registered hgh.annexed (hfg.registered o ho))
      fun ho => hfg.annexed.registered_of_later (hgh.registered o ho)

/-- Whether a way to copy makes a copy of the tree at a node of `f`, also when there are new nodes. -/
def Replicates (fields : List String) (copy : Forest → NodeId → Forest × List NodeId) (f : Forest)
    (t : Tree Node) (c : NodeId) : Prop :=
  ∀ {g roots loose}, Annexed f g roots loose →
    Replica fields g (copy g c).1 (roots ++ loose) [t] (copy g c).2

variable {copy : Forest → NodeId → Forest × List NodeId}

theorem Forest.Shows.foldl {α : Type} {step : α → NodeId → α} {P : α → List (Tree Node) → Prop} {a : α}
    (ht : f.Shows ts nodes)
    (hstep : ∀ a us t c, c ∈ nodes → f.Shows [t] [c] → P a us → P (step a c) (us ++ [t])) (h : P a us) :
    P (nodes.foldl step a) (us ++ ts) := by
  induction ht generalizing a us with
  | nil =>
    rw [append_nil]
    exact h
  | @cons n i ts rest more hn hts _ _ ih =>
    have hfirst := hstep a us (.node n ts) i mem_cons_self (.cons hn hts .nil) h
    have hrest := ih (fun a us t c hc => hstep a us t c (mem_cons_of_mem i hc)) hfirst
    rwa [append_assoc] at hrest

theorem Replica.collect (hcopy : ∀ t c, c ∈ nodes → f.Shows [t] [c] → Replicates fields copy f t c)
    (ht : f.Shows ts nodes) (hf : f.ValidBut loose) :
    Replica fields f (nodes.foldl (collectCopies copy) (f, [])).1 loose ([] ++ ts)
      (nodes.foldl (collectCopies copy) (f, [])).2 :=
  ht.foldl (P := fun (x : Forest × List NodeId) us => Replica fields f x.1 loose us x.2)
    (fun _ _ t c hc ht h => h.append (hcopy t c hc ht h.annexed)) (.refl hf)

theorem replicas_node (fields : List String) (id : Nat) (ts : List (Tree Node)) (hn : n.isFacet = false) :
    replicas fields id [.node n ts] = ([.node (replicaNode fields id n) (replicas fields (nextId id n) ts).1],
      (replicas fields (nextId id n) ts).2) := by
  simp [replicas, replica, hn]

/-- A copy that waits has the copies of some trees below it, and gets the copy of one more. -/
theorem Replica.graft (hn : n.isFacet = false) (hfg : Replica fields f g loose [.node n us] [p])
    (hc : Replicates fields copy f t c) :
    Replica fields f (copyBelow copy p g c) loose [.node n (us ++ [t])] [p] := by
  obtain ⟨hannexed, hsteps, hshows, hids, hregistered⟩ := hfg
  rw [replicas_node _ _ _ hn] at hshows hids
  obtain _ | ⟨hnode, hbelow, -⟩ := hshows
  have hrep := hc hannexed
  have hg := hannexed.valid
  have hlive : g.contains p := contains_of_node? hnode
  have hcontents := contents_attachAll (copy g c).1 p (copy g c).2
  obtain ⟨hgrafted, hlinks⟩ := hannexed.graft hrep.annexed (mem_singleton_self p)
  have hchildren : (copyBelow copy p g c).children p = g.children p ++ (copy g c).2 := by
    rw [← hrep.annexed.children hlive]
    exact (children_attachAll _ p _ p).trans (if_pos rfl)
  refine ⟨hgrafted, fun main => ((hsteps main).trans (hrep.steps main)).trans (hlinks fields main),
    ?_, ?_, fun o ho => Registered.of_contents ?_ hcontents⟩
  · rw [replicas_node _ _ _ hn]
    refine .cons ((node?_of_contents hcontents p).trans ((hrep.annexed.node hlive).trans hnode)) ?_ .nil
    rw [hchildren, replicas_append, ← hids]
    have hold : (copy g c).1.Shows _ (g.children p) :=
      hrep.annexed.shows hg.toLinked (fun d hd => (hg.live hd).2) hbelow
    refine (hold.attachAll (fun d hd hb => ?_) _).append (hrep.shows.attachAll (fun r hr => ?_) _)
    · exact hrep.annexed.valid.not_below_of_child
        ((hrep.annexed.children hlive).symm ▸ hd) hb
    · exact hrep.annexed.not_below hg (hrep.annexed.fresh r hr) hlive
  · rw [replicas_node _ _ _ hn, replicas_append, ← hids]
    exact (congrArg (fun g : Forest => g.ids.next) hcontents).trans hrep.ids
  · have hmem : .output o ∈ Tree.preorders [.node n us] ∨ .output o ∈ Tree.preorders [t] := by
      simpa [Tree.preorders, Tree.preorder, Tree.preorders_append, or_assoc] using ho
    exact hmem.elim (fun ho => hannexed.registered hrep.annexed (hregistered o ho))
      fun ho => hannexed.registered_of_later (hrep.registered o ho)

section

variable (fields : List String)

theorem globalCopy_refresh (ids : IdSupply) (hn : n.isFacet = false) :
    globalCopy fields (n.refresh ids).1 = replicaNode fields ids.next n ∧
      (n.refresh ids).2.next = nextId ids.next n := by
  cases n <;> first | exact ⟨rfl, rfl⟩ | cases hn

theorem Forest.ValidBut.valid_copyNode (hf : f.ValidBut loose) (hi : f.contains i) :
    (f.copyNode fields i).ValidBut ((f.duplicate i).2 :: loose) := by
  have hchanged := (hf.duplicate hi).1.modify (f.duplicate i).2 (globalCopy fields)
  unfold Forest.copyNode registerCopy
  split
  · exact hchanged.register _ (hchanged.waiting mem_cons_self).1
  · exact hchanged

theorem Forest.ValidBut.annexed_copyNode (hf : f.ValidBut loose) (hn : f.node? i = some n)
    (hfacet : n.isFacet = false) : Annexed f (f.copyNode fields i) [(f.duplicate i).2] loose := by
  have hvacant := (hf.node?_duplicate hn i).1
  have hnode := hf.node?_copyNode fields hn
  refine ⟨hf.valid_copyNode fields (contains_of_node? hn), fun {j} hj => (hnode j).trans (if_neg ?_),
    fun _ => children_congr (edges_copyNode fields f i) _, sources_copyNode fields f i, fun {j} hj => ?_,
    by simpa using hvacant, nodup_singleton _, fun name => ?_⟩
  · exact fun he => Bool.eq_false_iff.mp hvacant (he ▸ hj)
  · obtain ⟨m, hm, hisFacet⟩ := holds_iff.mp hj
    rw [hnode] at hm
    split at hm
    · cases hm
      rw [isFacet_globalCopy fields f.ids hfacet] at hisFacet
      cases hisFacet
    · exact contains_of_node? hm
  · refine (hf.get?_copyNode fields hn name).imp id fun ⟨o, ho, hname, hk⟩ => ?_
    obtain ⟨original, -, rfl⟩ := eq_output_of_globalCopy ho
    exact ⟨_, _, hk, hvacant, ho ▸ (hnode _).trans (if_pos rfl), hname, rfl⟩

theorem Forest.ValidBut.replica_copyNode (hf : f.ValidBut loose) (hn : f.node? i = some n)
    (hfacet : n.isFacet = false) (hp : f.parent? i = some p) :
    Replica fields f (f.copyNode fields i) loose [.node n []] [(f.duplicate i).2] := by
  obtain ⟨hcopy, hids⟩ := globalCopy_refresh fields f.ids hfacet
  have hvacant := (hf.node?_duplicate hn i).1
  have hmade := (hf.node?_copyNode fields hn (f.duplicate i).2).trans (if_pos rfl)
  refine ⟨hf.annexed_copyNode fields hn hfacet, fun _ => .single (.copy hf hn hfacet hp), ?_, ?_,
    fun o ho => ?_⟩
  · rw [replicas_node _ _ _ hfacet]
    refine .cons (hcopy ▸ hmade) ?_ .nil
    rw [children_congr (edges_copyNode fields f i), hf.children_eq_nil hvacant]
    exact .nil
  · rw [replicas_node _ _ _ hfacet, ids_copyNode fields hn, hids]
    rfl
  · cases mem_singleton.mp ho
    have hget : (f.copyNode fields i).outputs.get? (scaleStem ++ o.source) = some (f.duplicate i).2 := by
      rw [hf.outputs_copyNode_eq fields hn]
      exact (Dict.get?_insert _ _ _ _).trans (if_pos rfl)
    exact ⟨_, _, hget, hvacant, hmade, rfl, rfl⟩

theorem copySubtree_replica (fuel : Nat) (hf : f.ValidBut loose) (hfits : f.Fits fuel i)
    (hp : f.parent? i = some p) (ht : f.Shows [t] [i]) :
    Replica fields f (copySubtree fields fuel f i).1 loose [t] (copySubtree fields fuel f i).2 := by
  induction fuel generalizing f loose t i p with
  | zero => exact hfits.elim
  | succ fuel ih =>
    cases ht with
    | @cons n _ ts _ _ hn hts _ =>
      have hcopy (t : Tree Node) (c : NodeId) (hc : c ∈ f.children i) (ht : f.Shows [t] [c]) :
          Replicates fields (copySubtree fields fuel) f t c := fun hfg =>
        have hlive := (hf.live hc).2
        ih hfg.valid (hfg.fits hf.toLinked hlive (hfits c hc)) (hfg.parent_of_mem hf.toLinked hc)
          (hfg.shows hf.toLinked (by simpa using hlive) ht)
      unfold copySubtree
      rw [holds_of_node? hn]
      split
      · rename_i hfacet
        have hcells := Replica.collect hcopy hts hf
        have hreplicas : replicas fields f.ids.next [.node n ts] = replicas fields f.ids.next ([] ++ ts) := by
          have hid : nextId f.ids.next n = f.ids.next := by
            cases n <;> first | rfl | cases hfacet
          simp [replicas, replica, hfacet, hid]
        refine ⟨hcells.annexed, hcells.steps, hreplicas ▸ hcells.shows, hreplicas ▸ hcells.ids, fun o ho => hcells.registered o ?_⟩
        rcases mem_cons.mp ho with rfl | ho
        · cases hfacet
        · simpa [Tree.preorders] using ho
      · rename_i hfacet
        have hfacet := Bool.eq_false_iff.mpr hfacet
        exact hts.foldl (P := fun g us => Replica fields f g loose [.node n us] [_])
          (fun _ _ t c hc ht hg => hg.graft hfacet (hcopy t c hc ht)) (hf.replica_copyNode fields hn hfacet hp)

theorem copyCells_replica (facet main : NodeId) (hf : f.ValidBut loose) :
    ∃ h roots ts, copyCells fields facet main f = attachAll h main roots ∧
      f.Shows ts (f.children facet) ∧ Replica fields f h loose ts roots := by
  obtain ⟨ts, hts⟩ := exists_shows fun c (hc : c ∈ f.children facet) =>
    hf.exists_tree (hf.live hc).2
  have hcopy (t : Tree Node) (c : NodeId) (hc : c ∈ f.children facet) (ht : f.Shows [t] [c]) :
      Replicates fields (copyWhole fields) f t c := fun hfg =>
    have hlive := (hf.live hc).2
    copySubtree_replica fields _ hfg.valid (hfg.valid.fits c) (hfg.parent_of_mem hf.toLinked hc)
      (hfg.shows hf.toLinked (by simpa using hlive) ht)
  exact ⟨_, _, ts, rfl, hts, Replica.collect hcopy hts hf⟩

theorem copyCells_copied (facet : NodeId) {main : NodeId} (hf : f.ValidBut loose)
    (hmain : f.contains main) : (copyCells fields facet main f).ValidBut loose ∧
      Copyings fields main f (copyCells fields facet main f) := by
  obtain ⟨h, roots, _, heq, -, hrep⟩ := copyCells_replica fields facet main hf
  obtain ⟨hvalid, -, hlinks⟩ := hrep.annexed.attachAll hf hmain
  rw [heq]
  exact ⟨hvalid, (hrep.steps main).trans (hlinks fields main (.inl rfl))⟩

end

theorem Forest.ValidBut.isDataSource_eq_false (hvalid : f.ValidBut loose)
    (hf : ∀ {i}, i ∈ f.sources ↔ f.holds i Node.isDataSource) (hn : f.node? i = some n)
    (hp : f.parent? i = some p) : n.isDataSource = false := by
  refine Bool.eq_false_iff.mpr fun hsource => ?_
  have hroot := (hvalid.roots.mp (hf.mpr ((holds_of_node? hn).trans hsource))).2.1
  cases hroot.symm.trans hp

/-- A copy has an original with a parent, so it is no data source, and links leave the roots alone. -/
theorem Copying.sourced {main : NodeId} (hstep : Copying fields main f g)
    (hf : ∀ {i}, i ∈ f.sources ↔ f.holds i Node.isDataSource) :
    j ∈ g.sources ↔ g.holds j Node.isDataSource := by
  cases hstep with
  | @copy i p n loose hvalid hn _ hp =>
    rw [sources_copyNode, hf]
    unfold holds
    rw [hvalid.node?_copyNode fields hn]
    split
    · rename_i hj
      have hvacant : f.node? j = none := by
        simpa [hj, Forest.contains] using (hvalid.node?_duplicate hn i).1
      have hsource := hvalid.isDataSource_eq_false hf hn hp
      have hcopy : (globalCopy fields (n.refresh f.ids).1).isDataSource = n.isDataSource := by
        cases n <;> rfl
      rw [hvacant]
      simp [hcopy, hsource]
    · rfl
  | @link i p loose hvalid hi hp hb _ =>
    rw [(hvalid.attach_waiting hi hp hb).2, Planted.holds_of_contents (contents_attach f i p none)]
    exact hf

theorem Copyings.sourced {main : NodeId} (hsteps : Copyings fields main f g)
    (hf : ∀ {i}, i ∈ f.sources ↔ f.holds i Node.isDataSource) :
    j ∈ g.sources ↔ g.holds j Node.isDataSource := by
  induction hsteps generalizing j with
  | refl => exact hf
  | tail _ hstep ih => exact hstep.sourced ih

theorem Forest.Planted.copyCells (fields : List String) (facet : NodeId) {main : NodeId} (hf : f.Planted)
    (hmain : f.contains main) : (copyCells fields facet main f).Planted ∧
      Copyings fields main f (copyCells fields facet main f) := by
  obtain ⟨hvalid, hsteps⟩ := copyCells_copied fields facet hf.toValidBut hmain
  exact ⟨⟨hvalid, Copyings.sourced hsteps hf.sourced⟩, hsteps⟩

end

end ChartPlan.Flow
