import ChartPlan.Proofs.Flow.Cellwise
import ChartPlan.Proofs.Flow.Pass.Facets

/-!
# What a facet moves past

Moving facets down exchanges nodes with their only children and copies cells. Of two nodes that were
there before, one comes to stand above the other in one way only: it was the only child of a facet or of
a main output and changed places with it. From this it follows what the nodes are that a facet leaves
above itself.

* `Forest.Linked.below_of_exchange`: what is below what after an exchange;
* `Resettled`: what every step of moving facets down keeps;
* `moveFacetsDown_cellwise`: a node that a facet has moved past works on each row separately, or groups by
  the facet fields, or is of a kind that looks at all rows. In the first two cases the cells keep their
  rows.
-/

namespace ChartPlan.Flow

open Forest Node

variable {f g h : Forest} {i j p c : NodeId}

/-! ### Exchanged nodes -/

namespace Forest

theorem Linked.not_below_of_below (hf : f.Linked) {a b : NodeId} (hb : f.Below a b) (hne : a ≠ b) :
    ¬ f.Below b a := by
  intro hba
  obtain rfl | ⟨c, hc, hcb⟩ := below_iff.mp hb
  · exact hne rfl
  · exact hf.not_below_of_child hc (hcb.trans hba)

section

variable {q grand a b : NodeId}

/-- When a node changes places with its parent, whose only child it is, it is above the parent then,
and apart from that nothing is below anything new. -/
theorem Linked.below_of_exchange (hf : f.Linked) (hq : f.parent? c = some q)
    (hg : f.parent? q = some grand) (honly : f.children q = [c])
    (hb : (f.exchange c).2.Below a b) : f.Below a b ∨ a = c ∧ b = q := by
  rw [hf.below_exchange_iff hq hg] at hb
  split at hb
  · rename_i hac
    subst hac
    obtain rfl | ⟨y, hy, hb⟩ := below_iff.mp hb
    · exact .inr ⟨rfl, rfl⟩
    · rw [honly, List.mem_singleton] at hy
      exact .inl (hy ▸ hb)
  · exact .inl hb.1

end

/-! ### Copies in forests with roots of any kind -/

def Sturdy (f : Forest) : Prop :=
  ∃ loose, f.ValidBut loose

theorem Sturdy.linked (hf : f.Sturdy) : f.Linked :=
  hf.elim fun _ hf => hf.toLinked

/-- `g` is `f` with new nodes, of which none is a facet. -/
structure Sprouted (f g : Forest) : Prop where
  sturdy : g.Sturdy
  grown : Grown f g
  plain : ∀ {j}, g.holds j Node.isFacet → f.contains j

theorem Sprouted.holds_of_contains (hs : Sprouted f g) (hj : f.contains j) (kind : Node → Bool) :
    g.holds j kind = f.holds j kind := by
  unfold holds
  rw [hs.grown.node hj]

theorem Annexed.sprouted {roots loose : List NodeId} (hf : f.ValidBut loose) (hfg : Annexed f g roots loose)
    (hp : f.contains p) : Sprouted f (Flow.attachAll g p roots) := by
  have hcontents := contents_attachAll g p roots
  have hvalid := (hfg.attachAll hf hp).1
  refine ⟨⟨loose, hvalid⟩, ⟨fun {j} hj => ?_, fun {j} hj => ?_⟩, fun hj => ?_⟩
  · exact (node?_of_contents hcontents j).trans (hfg.node hj)
  · have hold : j ∉ roots := fun hr => Bool.eq_false_iff.mp (hfg.fresh j hr) hj
    rw [← hfg.parent hf hj]
    refine Option.ext fun a => ?_
    rw [hvalid.single.parent?_eq_some, hfg.valid.single.parent?_eq_some, children_attachAll]
    split
    · rename_i ha
      rw [ha, List.mem_append, or_iff_left hold]
    · rfl
  · exact hfg.plain ((Planted.holds_of_contents hcontents _).symm.trans hj)

end Forest

theorem copyCells_sprouted (fields : List String) {facet main : NodeId} (hf : f.Sturdy)
    (hmain : f.contains main) : Sprouted f (copyCells fields facet main f) := by
  obtain ⟨loose, hvalid⟩ := hf
  obtain ⟨g, roots, _, heq, -, hrep⟩ := copyCells_replica fields facet main hvalid
  rw [heq]
  exact hrep.annexed.sprouted hvalid hmain

/-! ### Exchanges -/

/-- What an exchange of a node `c` with its parent `q`, whose only child it is, does to the order of the
nodes. -/
structure Swapped (f g : Forest) (c q : NodeId) : Prop where
  sturdy : g.Sturdy
  was : f.Below q c
  risen : g.Below c q
  down : ∀ {a b}, g.Below a b → f.Below a b ∨ a = c ∧ b = q
  up : ∀ {a b}, f.Below a b → g.Below a b ∨ a = q ∧ b = c

theorem Forest.Sturdy.exchange {q grand : NodeId} (hf : f.Sturdy) (honly : f.children q = [c])
    (hg : f.parent? q = some grand) :
    Swapped f (f.exchange c).2 c q ∧ ∀ j, (f.exchange c).2.node? j = f.node? j := by
  obtain ⟨loose, hvalid⟩ := hf
  have hcq : c ∈ f.children q := by simp [honly]
  have hq : f.parent? c = some q := hvalid.parent?_of_mem hcq
  obtain ⟨hlinked, hparent⟩ := hvalid.toLinked.exchange hq hg
  have hrisen : q ∈ (f.exchange c).2.children c :=
    hlinked.child (by rw [hparent, if_pos rfl])
  exact ⟨⟨⟨loose, hvalid.exchange hq hg⟩, (Below.refl f q).step hcq, (Below.refl _ c).step hrisen,
    hvalid.below_of_exchange hq hg honly, hvalid.below_exchange hq hg⟩,
    node?_of_contents (hvalid.contents_exchange hq hg)⟩

theorem Forest.Sturdy.sunk (fields : List String) {q grand : NodeId} (hf : f.Sturdy)
    (honly : f.children q = [c]) (hg : f.parent? q = some grand) :
    Swapped f (f.sunk fields c) c q ∧ ∀ j, (f.sunk fields c).node? j =
      if j = c then (f.node? j).map (Node.addDimensions fields) else f.node? j := by
  have hchanged : (f.modify c (Node.addDimensions fields)).Sturdy :=
    hf.imp fun _ hf => hf.modify c _
  obtain ⟨hswapped, hnode⟩ := hchanged.exchange (q := q) honly hg
  exact ⟨⟨hswapped.sturdy, hswapped.was, hswapped.risen, hswapped.down, hswapped.up⟩,
    fun j => (hnode j).trans (node?_modify f c _ j)⟩

/-! ### Runs -/

theorem Forest.Sprouted.below_iff (hs : Sprouted f g) (hf : f.Linked) {a b : NodeId}
    (hb : f.contains b) : g.Below a b ↔ f.Below a b := by
  have hg := hs.sturdy.linked.single
  constructor
  · intro h
    induction h with
    | refl => exact .refl f a
    | tail _ hstep ih =>
      have hparent := (hs.grown.parent hb).symm.trans (hg.parent?_eq_some.mpr hstep)
      have hstep' := hf.child hparent
      exact (ih (hf.live hstep').1).step hstep'
  · intro h
    refine h.mono fun {p c} hc => ?_
    have hparent := hs.grown.parent (hf.live hc).2
    rw [hf.parent?_of_mem hc] at hparent
    exact hg.parent?_eq_some.mp hparent

/-- The place of an exchange: a facet above a node that groups by its fields then, or another node that
does not group, above one that stays as it is. -/
structure Exchanges (g h : Forest) (c q : NodeId) (fields : List String) : Prop where
  swapped : Swapped g h c q
  node : ∀ j, h.node? j = if j = c then (g.node? j).map (Node.addDimensions fields) else g.node? j
  upper : g.holds q Node.groups = false
  facet : ∀ {m}, g.node? q = some (.facet m) → m.fields = fields ∧ g.holds c Node.isOutput = false
  other : g.holds q Node.isFacet = false → fields = []

/-- What is left of a forest when facets have moved down. -/
structure Resettled (f g : Forest) : Prop where
  sturdy : g.Sturdy
  /-- Nodes are there as before, perhaps with more grouping fields. -/
  node : ∀ {n a}, f.node? n = some a → ∃ fields, g.node? n = some (a.addDimensions fields)
  /-- There are no new facets. -/
  facet : ∀ {i}, g.holds i Node.isFacet → f.holds i Node.isFacet
  /-- Nothing came to stand above a node that groups. -/
  above : ∀ {n a x}, f.node? n = some a → a.groups → g.Below x n → f.Below x n
  /-- What came to stand above a facet is no output, and groups by the facet fields if it groups. -/
  raised : ∀ {i n m a}, f.node? i = some (.facet m) → f.node? n = some a → ¬ f.Below n i → g.Below n i →
    a.isOutput = false ∧ ∃ fields, g.node? n = some (a.addDimensions fields) ∧
      (a.groups → ∀ field ∈ m.fields, field ∈ (a.addDimensions fields).groupFields)
  /-- A node that groups and has one facet above it changes when it comes to stand above that. -/
  only : ∀ {i n m a}, f.node? i = some (.facet m) → f.node? n = some a → a.groups → f.Below i n →
    (∀ j, f.holds j Node.isFacet → f.Below j n → j = i) →
    g.Below n i ∧ g.node? n = some (a.addDimensions m.fields) ∨ ¬ g.Below n i ∧ g.node? n = some a

namespace Resettled

theorem refl (hf : f.Sturdy) : Resettled f f where
  sturdy := hf
  node {n a} ha := ⟨[], by rw [addDimensions_nil, ha]⟩
  facet h := h
  above _ _ h := h
  raised _ _ hnot hb := absurd hb hnot
  only {i n m a} hm ha hgroups hb _ := by
    have hne : i ≠ n := by
      rintro rfl
      rw [hm] at ha
      cases ha
      cases hgroups
    exact .inr ⟨hf.linked.not_below_of_below hb hne, ha⟩

theorem node_facet (hg : Resettled f g) {m : Facet} (hm : f.node? i = some (.facet m)) :
    g.node? i = some (.facet m) :=
  (hg.node hm).elim fun _ h => h

theorem holds_groups (hg : Resettled f g) {n : NodeId} {a : Node} (ha : f.node? n = some a)
    (hgroups : a.groups) : g.holds n Node.groups := by
  obtain ⟨fields, hb⟩ := hg.node ha
  rw [holds_of_node? hb, groups_addDimensions]
  exact hgroups

theorem contains (hg : Resettled f g) (hj : f.contains j) : g.contains j := by
  obtain ⟨a, ha⟩ := exists_node hj
  obtain ⟨fields, hb⟩ := hg.node ha
  exact contains_of_node? hb

theorem sprouted (hg : Resettled f g) (hs : Sprouted g h) : Resettled f h := by
  have hlinked := hg.sturdy.linked
  have hnode : ∀ {n a}, f.node? n = some a → h.node? n = g.node? n := fun ha =>
    hs.grown.node (hg.contains (contains_of_node? ha))
  have hbelow : ∀ {x n a}, f.node? n = some a → (h.Below x n ↔ g.Below x n) := fun ha =>
    hs.below_iff hlinked (hg.contains (contains_of_node? ha))
  exact {
    sturdy := hs.sturdy
    node := fun ha => by
      rw [hnode ha]
      exact hg.node ha
    facet := fun hi => hg.facet (by rwa [← hs.holds_of_contains (hs.plain hi)])
    above := fun ha hgroups hb => hg.above ha hgroups ((hbelow ha).mp hb)
    raised := fun hm ha hnot hb => by
      rw [hnode ha]
      exact hg.raised hm ha hnot ((hbelow hm).mp hb)
    only := fun hm ha hgroups hb honly => by
      rw [hnode ha, hbelow hm]
      exact hg.only hm ha hgroups hb honly }

section

variable {q n : NodeId} {fields : List String} {a : Node}

theorem node_exchanged (he : Exchanges g h c q fields) (ha : g.node? n = some a) :
    h.node? n = some (a.addDimensions (if n = c then fields else [])) := by
  rw [he.node, ha]
  split
  · rfl
  · rw [addDimensions_nil]

theorem below_exchanged (he : Exchanges g h c q fields) (hn : g.holds n Node.groups)
    (hnot : ¬ (n = c ∧ i = q)) : h.Below n i ↔ g.Below n i := by
  refine ⟨fun hb => (he.swapped.down hb).resolve_right hnot, fun hb => ?_⟩
  refine (he.swapped.up hb).resolve_right fun hup => ?_
  rw [hup.1, he.upper] at hn
  exact Bool.noConfusion hn

theorem exchanged (hg : Resettled f g) (he : Exchanges g h c q fields) : Resettled f h where
  sturdy := he.swapped.sturdy
  node ha := by
    obtain ⟨more, hb⟩ := hg.node ha
    exact ⟨_, (node_exchanged he hb).trans (congrArg some (addDimensions_append _ _ _))⟩
  facet {i} hi := by
    obtain ⟨b, hb, hfacet⟩ := holds_iff.mp hi
    rw [he.node] at hb
    refine hg.facet (holds_iff.mpr ?_)
    split at hb
    · obtain ⟨b', hb', rfl⟩ := Option.map_eq_some_iff.mp hb
      rw [isFacet_addDimensions] at hfacet
      exact ⟨b', hb', hfacet⟩
    · exact ⟨b, hb, hfacet⟩
  above {n a x} ha hgroups hb := by
    refine hg.above ha hgroups ((he.swapped.down hb).resolve_right fun hx => ?_)
    have hupper := hg.holds_groups ha hgroups
    rw [hx.2, he.upper] at hupper
    exact Bool.noConfusion hupper
  raised {i n m a} hm ha hnot hb := by
    rcases he.swapped.down hb with hb | ⟨rfl, rfl⟩
    · obtain ⟨hout, more, hnode, hgroup⟩ := hg.raised hm ha hnot hb
      have hnode' := node_exchanged he hnode
      rw [addDimensions_append] at hnode'
      refine ⟨hout, _, hnode', fun hgroups field hfield => ?_⟩
      rw [← addDimensions_append, mem_groupFields_addDimensions (by rwa [groups_addDimensions])]
      exact .inl (hgroup hgroups field hfield)
    · obtain ⟨more, hnode⟩ := hg.node ha
      obtain ⟨rfl, hout⟩ := he.facet (hg.node_facet hm)
      have hnode' := node_exchanged he hnode
      rw [if_pos rfl, addDimensions_append] at hnode'
      rw [holds_of_node? hnode, isOutput_addDimensions] at hout
      exact ⟨hout, _, hnode', fun hgroups field hfield =>
        (mem_groupFields_addDimensions hgroups).mpr (.inr (List.mem_append_right more hfield))⟩
  only {i n m a} hm ha hgroups hin honly := by
    have hn := hg.holds_groups ha hgroups
    by_cases hplace : n = c ∧ i = q
    · obtain ⟨rfl, rfl⟩ := hplace
      obtain ⟨rfl, -⟩ := he.facet (hg.node_facet hm)
      have hne : i ≠ n := by
        rintro rfl
        rw [he.upper] at hn
        exact Bool.noConfusion hn
      rcases hg.only hm ha hgroups hin honly with ⟨hb, -⟩ | ⟨-, hnode⟩
      · exact absurd hb (hg.sturdy.linked.not_below_of_below he.swapped.was hne)
      · have hnode' := node_exchanged he hnode
        rw [if_pos rfl] at hnode'
        exact .inl ⟨he.swapped.risen, hnode'⟩
    · have hsame : h.node? n = g.node? n := by
        rw [he.node]
        split
        · rename_i hnc
          -- A facet above the node would be the one facet, which is not at this place.
          have hfacet : g.holds q Node.isFacet = false := Bool.eq_false_iff.mpr fun hfacet =>
            hplace ⟨hnc, (honly q (hg.facet hfacet) (hg.above ha hgroups (hnc ▸ he.swapped.was))).symm⟩
          rw [he.other hfacet]
          cases g.node? n with
          | none => rfl
          | some b => exact congrArg some (addDimensions_nil b)
        · rfl
      rw [below_exchanged he hn hplace, hsame]
      exact hg.only hm ha hgroups hin honly

end

theorem sunk {i c grand : NodeId} {node : Facet} (hg : Resettled f g)
    (hn : g.node? i = some (.facet node)) (honly : g.children i = [c]) (hgrand : g.parent? i = some grand)
    (hout : g.holds c Node.isOutput = false) : Resettled f (g.sunk node.fields c) := by
  obtain ⟨hswapped, hnode⟩ := hg.sturdy.sunk node.fields honly hgrand
  refine hg.exchanged ⟨hswapped, hnode, by rw [holds_of_node? hn]; rfl, fun {m} hm => ?_, fun h => ?_⟩
  · rw [hn] at hm
    cases hm
    exact ⟨rfl, hout⟩
  · rw [holds_of_node? hn] at h
    cases h

theorem exchange_main {i c grand : NodeId} (hg : Resettled f g) (hmain : g.holds i isMainOutput)
    (honly : g.children i = [c]) (hgrand : g.parent? i = some grand) :
    Resettled f (g.exchange c).2 := by
  obtain ⟨hswapped, hnode⟩ := hg.sturdy.exchange honly hgrand
  obtain ⟨n, hn, hisMain⟩ := holds_iff.mp hmain
  refine hg.exchanged (show Exchanges g _ c i [] from
    ⟨hswapped, fun j => ?_, ?_, fun {m} hm => ?_, fun _ => rfl⟩)
  · rw [hnode]
    split
    · cases g.node? j with
      | none => rfl
      | some b => exact congrArg some (addDimensions_nil b).symm
    · rfl
  · rw [holds_of_node? hn]
    cases n <;> first | rfl | cases hisMain
  · rw [hn] at hm
    cases hm
    cases hisMain

theorem invariant (f : Forest) : SettleInvariant (Resettled f) (fun _ _ => True) where
  sturdy hg := hg.sturdy
  root _ _ := True.intro
  child _ _ _ _ := True.intro
  sink hg _ hn honly hgrand hout := ⟨hg.sunk hn honly hgrand hout, fun _ _ => True.intro⟩
  main hg _ _ _ hmain honly hgrand _ := ⟨hg.exchange_main hmain honly hgrand, fun _ _ => True.intro⟩
  copies {g i m node} hg _ _ hm := by
    have hlive : g.contains m := hg.sturdy.elim fun _ hvalid => hvalid.outputs _ (Dict.mem_of_get? hm)
    exact ⟨hg.sprouted (copyCells_sprouted node.fields hg.sturdy hlive), fun _ _ => True.intro⟩

theorem of_moveFacetsDown {q : Progress} (hf : f.Sturdy) (h : moveFacetsDown f = .ok q) :
    Resettled f q.forest := by
  rcases (invariant f).moveFacetsDown (.refl hf) with ⟨r, hr, hkept, -⟩ | ⟨⟨e, he⟩, -⟩
  · cases hr.symm.trans h
    exact hkept.kept
  · cases he.symm.trans h

end Resettled

/-! ### The nodes that a facet moves past -/

/-- A node that a facet has moved past works on each row separately and is as it was, or it groups, by the
facet fields as well, or it is of a kind that looks at all rows and is as it was. If no other facet was
above it, the facet fields are all that it groups by in addition.

A node of the first two kinds that leaves the facet fields and its own grouping fields alone keeps the
cells: over the whole data it gives in each of them the rows that it gave inside of it, as far as fields
other than the facet fields are concerned. -/
theorem moveFacetsDown_cellwise {f : Forest} {q : Progress} (hf : f.Valid)
    (hq : moveFacetsDown f = .ok q) {i n : NodeId} {m : Facet} (hm : f.node? i = some (.facet m))
    (hbelow : f.Below i n) (hne : i ≠ n) (hmoved : q.forest.Below n i) :
    ∃ a b, f.node? n = some a ∧ q.forest.node? n = some b ∧
      (a.isRowwise ∧ b = a ∨
        a.groups ∧ (∃ fields, b = a.addDimensions fields) ∧ (∀ field ∈ m.fields, field ∈ b.groupFields) ∨
        a.isWhole ∧ b = a) ∧
      ((∀ j, f.holds j Node.isFacet → f.Below j n → j = i) → b = a.addDimensions m.fields) ∧
      (b = a.addDimensions m.fields → m.fields ≠ [] → a.isRowwise ∨ a.groups →
        (∀ field, field ∈ m.fields ∨ field ∈ a.groupFields → a.Leaves field) →
        ∀ {Row Value : Type} [DecidableEq Value] (e : Engine Row Value) {key : List Value} {rows : List Row},
          e.cell m.fields key rows ≠ [] →
          ((e.cell m.fields key (e.run b rows)).map (e.without m.fields)).Perm
            ((e.run a (e.cell m.fields key rows)).map (e.without m.fields))) := by
  have hsturdy : f.Sturdy := ⟨[], hf⟩
  have hg := Resettled.of_moveFacetsDown hsturdy hq
  have hlive : f.contains n := by
    obtain ⟨p, hp, -⟩ := (hbelow.cases_parent hf.single).resolve_left hne
    exact (hf.live_of_parent? hp).2
  obtain ⟨a, ha⟩ := exists_node hlive
  obtain ⟨hout, fields, hb, hgroup⟩ :=
    hg.raised hm ha (hf.not_below_of_below hbelow hne) hmoved
  refine ⟨a, a.addDimensions fields, ha, hb, ?_, fun honly => ?_, ?_⟩
  · rcases kind_of_not_isOutput hout with hkind | hkind | hkind
    · exact .inl ⟨hkind, addDimensions_of_not_groups (not_groups_of_isRowwise hkind)⟩
    · exact .inr (.inl ⟨hkind, ⟨fields, rfl⟩, hgroup hkind⟩)
    · exact .inr (.inr ⟨hkind, addDimensions_of_not_groups (not_groups_of_isWhole hkind)⟩)
  · by_cases hgroups : a.groups
    · rcases hg.only hm ha hgroups hbelow honly with ⟨-, hnode⟩ | ⟨hnot, -⟩
      · exact Option.some.inj (hb.symm.trans hnode)
      · exact absurd hmoved hnot
    · rw [Bool.not_eq_true] at hgroups
      rw [addDimensions_of_not_groups hgroups, addDimensions_of_not_groups hgroups]
  · intro hb hfields hkind hleaves Row Value _ e key rows hcell
    rw [hb]
    exact Engine.perm_cell_addDimensions hkind hfields hleaves hcell

/-- Rows that are split into cells by kind, and changed by one node in each of them. -/
def cellsWith (n : Node) : Forest where
  slots := [some (.source .empty), some (.output (.fresh "main" .main 0)),
    some (.facet { id := 1, main := "main", name := "facet", row := some ⟨"row", ["kind"], none⟩ }),
    some n, some (.output (.fresh "child_main" .main 2))]
  edges := [⟨3, 4, 0⟩, ⟨2, 3, 0⟩, ⟨1, 2, 0⟩, ⟨0, 1, 0⟩]
  sources := [0]
  outputs := [("child_main", 4), ("facet", 2), ("main", 1)]
  requests := [("child_main", 1), ("main", 1)]
  ids := ⟨3⟩

theorem valid_cellsWith (n : Node) : (cellsWith n).Valid := by
  have hgraph : (cellsWith n).Graph := ⟨⟨by simp [cellsWith], by simp [cellsWith]⟩,
    by simp [cellsWith, Forest.contains, Forest.node?]⟩
  exact (hgraph.check_eq_ok_iff (by simp [cellsWith, Forest.contains, Forest.node?])).mp rfl

theorem below_cellsWith (n : Node) : (cellsWith n).Below 2 3 :=
  (Below.refl _ 2).step (show 3 ∈ [3] by simp)

/-- Rows are counted for each year in each cell: the count for each year and kind gives the same. -/
theorem moveFacetsDown_counted :
    ∃ q b, moveFacetsDown (cellsWith (.aggregate { dimensions := ["year"] })) = .ok q ∧
      q.forest.Below 3 2 ∧ q.forest.node? 3 = some b ∧
      b = .aggregate { dimensions := ["kind", "year"] } ∧
      ∀ rows, Engine.small.cell ["kind"] [1] rows ≠ [] →
        ((Engine.small.cell ["kind"] [1] (Engine.small.run b rows)).map (Engine.small.without ["kind"])).Perm
          ((Engine.small.run (.aggregate { dimensions := ["year"] })
            (Engine.small.cell ["kind"] [1] rows)).map (Engine.small.without ["kind"])) := by
  obtain ⟨q, hq, hlinks⟩ := exists_ok_of_map (b := ([1], [2, 5]))
    (show (moveFacetsDown (cellsWith (.aggregate { dimensions := ["year"] }))).toOption.map
      (fun q => (q.forest.children 3, q.forest.children 1)) = _ by decide +kernel)
  rw [Prod.mk.injEq] at hlinks
  have hmoved : q.forest.Below 3 2 := ((Below.refl _ 3).step (show 1 ∈ q.forest.children 3 by
    rw [hlinks.1]; decide)).step (by rw [hlinks.2]; decide)
  obtain ⟨a, b, ha, hb, -, hone, hcells⟩ := moveFacetsDown_cellwise
    (valid_cellsWith (.aggregate { dimensions := ["year"] })) hq (i := 2) rfl (below_cellsWith _)
    (by decide) hmoved
  cases ha
  have hfacet : ∀ j, (cellsWith (.aggregate { dimensions := ["year"] })).holds j Node.isFacet → j = 2
    | 0 | 1 | 3 | 4 => by decide
    | 2 => fun _ => rfl
    | _ + 5 => by simp [cellsWith, Forest.holds, Forest.node?]
  have hb' := hone fun j hj _ => hfacet j hj
  refine ⟨q, b, hq, hmoved, hb, hb', fun rows hrows => ?_⟩
  exact hcells hb' (by decide) (.inr rfl) (fun field _ => ⟨[], rfl, by simp⟩) Engine.small hrows

/-- A sample of one row from each cell becomes a sample of one row from the whole data, which neither works
on each row separately nor groups. It leaves a cell without rows. -/
theorem moveFacetsDown_sampled :
    ∃ q, moveFacetsDown (cellsWith (.sample ⟨1⟩)) = .ok q ∧ (cellsWith (.sample ⟨1⟩)).Valid ∧
      (cellsWith (.sample ⟨1⟩)).Below 2 3 ∧ q.forest.Below 3 2 ∧
      q.forest.node? 3 = some (.sample ⟨1⟩) ∧
      (Node.sample ⟨1⟩).isRowwise = false ∧ (Node.sample ⟨1⟩).groupFields = [] ∧
      ∃ rows, Engine.small.cell ["kind"] [1] (Engine.small.run (.sample ⟨1⟩) rows) = [] ∧
        (Engine.small.run (.sample ⟨1⟩) (Engine.small.cell ["kind"] [1] rows)).length = 1 := by
  obtain ⟨q, hq, hlinks⟩ := exists_ok_of_map (b := ([1], [2, 5]))
    (show (moveFacetsDown (cellsWith (.sample ⟨1⟩))).toOption.map
      (fun q => (q.forest.children 3, q.forest.children 1)) = _ by decide +kernel)
  rw [Prod.mk.injEq] at hlinks
  have hvalid := valid_cellsWith (.sample ⟨1⟩)
  have hg := Resettled.of_moveFacetsDown ⟨[], hvalid⟩ hq
  obtain ⟨fields, hnode⟩ := hg.node (show (cellsWith (.sample ⟨1⟩)).node? 3 = some (.sample ⟨1⟩) from rfl)
  exact ⟨q, hq, hvalid, below_cellsWith _, ((Below.refl _ 3).step (show 1 ∈ q.forest.children 3 by
    rw [hlinks.1]; decide)).step (by rw [hlinks.2]; decide), hnode, rfl, rfl,
    [fun _ => 0, fun _ => 1], rfl, rfl⟩

end ChartPlan.Flow
