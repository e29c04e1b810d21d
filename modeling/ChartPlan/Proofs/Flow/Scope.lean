import ChartPlan.Proofs.Flow.Lineage
import ChartPlan.Proofs.Flow.Path
import Mathlib.Data.List.Pairwise

/-!
# Cells and tracks

A node below a facet is in the cell of the innermost one. Its track leads from the root, or from that
facet, to the node itself. What a node contributes to the transforms on the way are its records; the
coercions of a node behind a loader are done by the loader, as far as it can.

* `Forest.cell?`, `Forest.track`: the cell of a node and the way to it.
* `Forest.recordsTo`, `Forest.loadedTo`: the transforms and the loaded coercions on the way.
* `Forest.NamesApart`: the names that the user gives are distinct and look like no numbered one;
  `Forest.FacetsApart`: at least those of facets are distinct.
-/

namespace ChartPlan.Flow

open Dataset List

namespace Node

def isSource : Node → Bool
  | .source _ => true
  | _ => false

def isRemote : Node → Bool
  | .source s => s.isRemote
  | _ => false

/-- Whether a dataset that loads rows goes on behind the node. -/
def carries : Node → Bool
  | .output _ | .facet _ => false
  | .source s => s.isRemote
  | _ => true

def headerNames : Node → List String
  | .facet m => names m.datasets
  | _ => []

def givenNames : Node → List String
  | .source s => s.name.toList
  | .facet m => m.name :: names m.datasets
  | _ => []

end Node

namespace Forest

variable {f : Forest} {i j p c : NodeId}

theorem exists_facet (h : f.holds i Node.isFacet) : ∃ m, f.node? i = some (.facet m) := by
  obtain ⟨n, hn, hkind⟩ := holds_iff.mp h
  cases n with
  | facet m => exact ⟨m, hn⟩
  | _ => cases hkind

theorem exists_source (h : f.holds i Node.isSource) : ∃ s, f.node? i = some (.source s) := by
  obtain ⟨n, hn, hkind⟩ := holds_iff.mp h
  cases n with
  | source s => exact ⟨s, hn⟩
  | _ => cases hkind

def cell? (f : Forest) (i : NodeId) : Option String :=
  (f.above i).findSome? fun j => ((f.node? j).bind Node.facet?).map Facet.name

/-- The nodes above a node in the same cell, the first one first. -/
def lead (f : Forest) (i : NodeId) : List NodeId :=
  ((f.above i).takeWhile fun j => !f.holds j Node.isFacet).reverse

/-- The nodes on the way to a node, from its root or from the facet around it. -/
def track (f : Forest) (i : NodeId) : List NodeId :=
  f.lead i ++ [i]

/-- Whether all above a node is one dataset that loads rows. -/
def unbroken (f : Forest) (i : NodeId) : Bool :=
  (f.above i).all fun j => (f.children j).length == 1 && f.holds j Node.carries

/-- Whether a node stands behind a loader, which can do its coercions. -/
def atLoader (f : Forest) (i : NodeId) : Bool :=
  (f.parent? i).any (f.holds · Node.isSource) && f.unbroken i

/-- The transforms of a node; behind a loader only nested coercions are left. -/
def recordsAt (f : Forest) (i : NodeId) : List Json :=
  match f.node? i with
  | some (.parse c) => (if f.atLoader i then c.nested else c).records.value
  | some n => (n.records f.signals).value
  | none => []

def loadedAt (f : Forest) (i : NodeId) : Dict String :=
  match f.node? i with
  | some (.parse c) => if f.atLoader i then c.loaded else []
  | _ => []

/-- Later coercions of a loader take the place of earlier ones. -/
def reload (f : Forest) (kinds : Dict String) (i : NodeId) : Dict String :=
  if (f.loadedAt i).isEmpty then kinds else f.loadedAt i

def recordsTo (f : Forest) (i : NodeId) : List Json :=
  (f.track i).flatMap f.recordsAt

/-- The coercions that the loader does on the way to a node. -/
def loadedTo (f : Forest) (i : NodeId) : Dict String :=
  (f.track i).foldl f.reload []

theorem recordsTo_eq (f : Forest) (i : NodeId) :
    f.recordsTo i = (f.lead i).flatMap f.recordsAt ++ f.recordsAt i := by
  simp [recordsTo, track]

theorem loadedTo_eq (f : Forest) (i : NodeId) :
    f.loadedTo i = f.reload ((f.lead i).foldl f.reload []) i := by
  simp [loadedTo, track]

theorem recordsTo_of_nil (h : f.recordsAt i = []) :
    f.recordsTo i = (f.lead i).flatMap f.recordsAt := by
  rw [recordsTo_eq, h, append_nil]

theorem loadedTo_of_nil (h : f.loadedAt i = []) : f.loadedTo i = (f.lead i).foldl f.reload [] := by
  rw [loadedTo_eq, reload, h]
  rfl

/-! ### From parents to children -/

theorem cell?_of_root (hp : f.parent? i = none) : f.cell? i = none := by
  unfold cell?
  rw [above_of_parent?_eq_none hp]
  rfl

theorem lead_of_root (hp : f.parent? i = none) : f.lead i = [] := by
  unfold lead
  rw [above_of_parent?_eq_none hp]
  rfl

theorem unbroken_of_root (hp : f.parent? i = none) : f.unbroken i = true := by
  unfold unbroken
  rw [above_of_parent?_eq_none hp]
  rfl

section

variable (hf : f.Linked) (hp : f.parent? i = some p)

include hf hp

theorem Linked.cell?_below_facet {m : Facet} (hm : f.node? p = some (.facet m)) :
    f.cell? i = some m.name := by
  unfold cell?
  rw [hf.above_of_parent? hp, List.findSome?_cons, hm]
  rfl

theorem Linked.lead_below_facet {m : Facet} (hm : f.node? p = some (.facet m)) : f.lead i = [] := by
  have hfacet : f.holds p Node.isFacet = true := holds_of_node? hm
  unfold lead
  rw [hf.above_of_parent? hp, takeWhile_cons_of_neg (by simp [hfacet])]
  rfl

theorem Linked.cell?_below (hfacet : f.holds p Node.isFacet = false) : f.cell? i = f.cell? p := by
  have hnone : ((f.node? p).bind Node.facet?).map Facet.name = none := by
    unfold holds at hfacet
    cases hn : f.node? p with
    | none => rfl
    | some n =>
      rw [hn] at hfacet
      cases n with
      | facet m => cases hfacet
      | _ => rfl
  unfold cell?
  rw [hf.above_of_parent? hp, List.findSome?_cons, hnone]

theorem Linked.lead_below (hfacet : f.holds p Node.isFacet = false) : f.lead i = f.track p := by
  unfold track lead
  rw [hf.above_of_parent? hp, takeWhile_cons_of_pos (by simp [hfacet]), reverse_cons]

theorem Linked.unbroken_below :
    f.unbroken i = ((f.children p).length == 1 && f.holds p Node.carries && f.unbroken p) := by
  unfold unbroken
  rw [hf.above_of_parent? hp, all_cons]

end

/-! ### The facets around a node -/

theorem Linked.facet_of_cell? (hf : f.Linked) {name : String} (h : f.cell? i = some name) :
    ∃ j m c, f.node? j = some (.facet m) ∧ m.name = name ∧ c ∈ f.children j ∧ f.Below c i := by
  refine hf.down (P := fun i => f.cell? i = some name → ∃ j m c, f.node? j = some (.facet m) ∧
    m.name = name ∧ c ∈ f.children j ∧ f.Below c i) (fun i hp h => ?_) (fun i p hp ih h => ?_) i h
  · rw [cell?_of_root hp] at h
    cases h
  · have hchild : i ∈ f.children p := hf.child hp
    cases hfacet : f.holds p Node.isFacet with
    | false =>
      rw [hf.cell?_below hp hfacet] at h
      obtain ⟨j, m, c, hm, hname, hc, hb⟩ := ih h
      exact ⟨j, m, c, hm, hname, hc, hb.step hchild⟩
    | true =>
      obtain ⟨m, hm⟩ := exists_facet hfacet
      rw [hf.cell?_below_facet hp hm] at h
      exact ⟨p, m, i, hm, Option.some.inj h, hchild, .refl f i⟩

theorem Linked.cell?_of_below (hf : f.Linked) {m : Facet} (hm : f.node? i = some (.facet m))
    (hc : c ∈ f.children i) (hb : f.Below c j) :
    ∃ k m', f.Below i k ∧ f.node? k = some (.facet m') ∧ f.cell? j = some m'.name := by
  induction hb with
  | refl => exact ⟨i, m, .refl f i, hm, hf.cell?_below_facet (hf.parent?_of_mem hc) hm⟩
  | @tail j k hb hk ih =>
    have hp : f.parent? k = some j := hf.parent?_of_mem hk
    cases hfacet : f.holds j Node.isFacet with
    | false =>
      rw [hf.cell?_below hp hfacet]
      exact ih
    | true =>
      obtain ⟨m', hm'⟩ := exists_facet hfacet
      exact ⟨j, m', Relation.ReflTransGen.head hc hb, hm', hf.cell?_below_facet hp hm'⟩

/-! ### Names -/

def givenAt (f : Forest) (i : NodeId) : List String :=
  ((f.node? i).map Node.givenNames).getD []

/-- The names of the header datasets of the facet in a slot. -/
def headersAt (f : Forest) (i : NodeId) : List String :=
  ((f.node? i).map Node.headerNames).getD []

theorem givenAt_of_headersAt {name : String} (h : name ∈ f.headersAt i) : name ∈ f.givenAt i := by
  unfold headersAt at h
  unfold givenAt
  cases hn : f.node? i with
  | none => simp [hn] at h
  | some n =>
    rw [hn] at h
    cases n with
    | facet m => exact mem_cons_of_mem _ h
    | _ => cases h

/-- The names of sources, facets and header datasets are distinct, and none is a numbered one. -/
structure NamesApart (f : Forest) : Prop where
  nodup : (f.liveIds.flatMap f.givenAt).Nodup
  unnumbered : ∀ n ∈ f.liveIds.flatMap f.givenAt, ∀ k : Nat,
    n ≠ "source_" ++ toString k ∧ n ≠ "data_" ++ toString k

theorem mem_headersAt {n : Node} {name : String} (hn : f.node? i = some n) :
    name ∈ f.headersAt i ↔ name ∈ n.headerNames := by
  unfold headersAt
  rw [hn]
  rfl

theorem mem_givenAt {n : Node} {name : String} (hn : f.node? i = some n) :
    name ∈ f.givenAt i ↔ name ∈ n.givenNames := by
  unfold givenAt
  rw [hn]
  rfl

namespace NamesApart

variable {name : String}

theorem live (h : name ∈ f.givenAt i) : i ∈ f.liveIds := by
  refine mem_liveIds.mpr ?_
  unfold contains
  unfold givenAt at h
  cases hn : f.node? i with
  | none => simp [hn] at h
  | some n => rfl

theorem eq_of_mem (h : f.NamesApart) (hi : name ∈ f.givenAt i) (hj : name ∈ f.givenAt j) :
    i = j := by
  by_contra hne
  obtain ⟨-, hpairs⟩ := nodup_flatMap.mp h.nodup
  have : Std.Symm (Function.onFun List.Disjoint f.givenAt) := ⟨fun _ _ hd _ hb ha => hd ha hb⟩
  exact hpairs.forall (live hi) (live hj) hne hi hj

theorem ne_numbered (h : f.NamesApart) (hi : name ∈ f.givenAt i) (k : Nat) :
    name ≠ "source_" ++ toString k ∧ name ≠ "data_" ++ toString k :=
  h.unnumbered name (mem_flatMap.mpr ⟨i, live hi, hi⟩) k

theorem nodup_givenAt (h : f.NamesApart) (hi : f.contains i) : (f.givenAt i).Nodup :=
  (nodup_flatMap.mp h.nodup).1 i (mem_liveIds.mpr hi)

end NamesApart

def FacetsApart (f : Forest) : Prop :=
  ∀ {i j m m'}, f.node? i = some (.facet m) → f.node? j = some (.facet m') → m.name = m'.name → i = j

theorem NamesApart.facetsApart (h : f.NamesApart) : f.FacetsApart := fun hm hm' he =>
  h.eq_of_mem ((mem_givenAt hm).mpr mem_cons_self)
    ((mem_givenAt hm').mpr (he ▸ mem_cons_self))

theorem Linked.cell?_ne (hf : f.Linked) (hapart : f.FacetsApart) {m : Facet}
    (hm : f.node? i = some (.facet m)) (hc : c ∈ f.children i) (hb : f.Below c j) :
    f.cell? j ≠ f.cell? i := by
  intro he
  obtain ⟨k, m', hik, hm', hcell⟩ := hf.cell?_of_below hm hc hb
  obtain ⟨q, m'', a, hm'', hname, ha, hai⟩ := hf.facet_of_cell? (he.symm.trans hcell)
  cases hapart hm' hm'' hname.symm
  exact hf.not_below_of_child ha (Relation.ReflTransGen.trans hai hik)

end Forest

/-! ### Headers -/

theorem Dataset.name?_object (name : String) (source transform : Json) :
    name? (.object [("name", .str name), ("source", source), ("transform", transform)]) =
      some name := by
  unfold name? Json.textField? Json.object
  rw [Json.field?_obj]
  simp [Dict.ofList, Dict.extend, Dict.get?_insert, Json.text?]

namespace Facet

theorem name?_crossed {m : Facet} {name : String} {d : Json} (h : m.crossed? = some (name, d)) :
    name? d = some name := by
  unfold crossed? at h
  split at h
  · split at h
    · cases h
    · cases h
      exact name?_object _ _ _
  · cases h

theorem names_datasets (m : Facet) : names m.datasets =
    (m.crossed?.map Prod.fst).toList ++
      [m.column, m.row, m.facet].filterMap fun c => c.map FacetChannel.name := by
  have hheader : ∀ (crossed : Option String) (channel : FacetChannel) (sized : Option String),
      name? (m.header crossed channel sized) = some channel.name :=
    fun _ _ _ => name?_object _ _ _
  have hcrossed : names (m.crossed?.map Prod.snd).toList = (m.crossed?.map Prod.fst).toList := by
    cases h : m.crossed? with
    | none => rfl
    | some entry => simp [names, name?_crossed h]
  unfold datasets
  rw [names_append, hcrossed]
  congr 1
  cases m.column <;> cases m.row <;> cases m.facet <;> simp [names, hheader]

theorem names_datasets_data (m : Facet) (data : Option String) :
    names { m with data := data }.datasets = names m.datasets := by
  have hcrossed : { m with data := data }.crossed?.map Prod.fst = m.crossed?.map Prod.fst := by
    unfold crossed?
    cases m.column <;> cases m.row <;> try rfl
    dsimp only
    split <;> rfl
  rw [names_datasets, names_datasets, hcrossed]

end Facet

end ChartPlan.Flow
