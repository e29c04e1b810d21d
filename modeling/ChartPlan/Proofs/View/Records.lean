import ChartPlan.Proofs.Json.Fields
import ChartPlan.View.Dataflow

/-!
# Records of kinds

A branch keeps a record of the kinds of fields. A kind enters it because a node gives it to the field:
a coercion that was still to be done, or a transform that writes the field.

* `Node.Gives`: a node gives a field a kind.
* `KnownKinds.Keeps`, `KnownKinds.Learns`: the record after nothing happened, and after a node.
* `Branch.coerce_cases`: what a coercion does to a branch.
-/

namespace ChartPlan

/-! ### Kinds given by nodes -/

namespace Flow

def Node.written (n : Node) : List String :=
  n.produced?.getD []

theorem Node.isDataSource_ofTransform? {stem secondary : String} {t : Transform}
    {n : Node} (hn : Node.ofTransform? stem secondary t = some n) : n.isDataSource = false := by
  cases t with
  | bin v field start stop =>
    simp only [Node.ofTransform?] at hn
    split at hn
    · cases hn
      rfl
    · cases hn
  | timeUnit unit field output =>
    obtain ⟨_, -, rfl⟩ := Option.map_eq_some_iff.mp hn
    rfl
  | _ =>
    cases hn
    rfl

/-- A node gives a field a kind: it coerces the field to it, or it is the node of a transform that
writes the field. -/
inductive Node.Gives (field kind : String) : Node → Prop
  | coercion {c : Coercion} : c.kinds.get? field = some kind → Gives field kind (.parse c)
  | transform {stem secondary : String} {t : Transform} {n : Node} :
      ofTransform? stem secondary t = some n → field ∈ n.written → Gives field kind n

theorem Node.Gives.isDataSource {field kind : String} {n : Node} (h : n.Gives field kind) :
    n.isDataSource = false := by
  cases h with
  | coercion _ => rfl
  | transform hn _ => exact isDataSource_ofTransform? hn

theorem Node.Gives.mem_written {field kind : String} {n : Node} (h : n.Gives field kind) :
    field ∈ n.written := by
  cases h with
  | coercion hkind => exact List.mem_map_of_mem (Dict.mem_of_get? hkind)
  | transform _ hfield => exact hfield

end Flow

/-! ### Records -/

namespace KnownKinds

variable {k : KnownKinds} {x y : String}

theorem kind?_learn (k : KnownKinds) (field kind : String) (explicit : Bool) (x : String) :
    (k.learn field kind explicit).kind? x = if x = field then some kind else k.kind? x := by
  show (k.kinds.set field kind explicit).get? x = _
  unfold Split.set kind? Split.get?
  cases explicit <;> by_cases hx : x = field <;> simp [Dict.get?_insert, Dict.get?_erase, hx]

theorem off_learnAll (k : KnownKinds) (kinds : Dict String) (explicit : Bool) :
    (k.learnAll kinds explicit).off = k.off := by
  unfold learnAll
  induction kinds generalizing k with
  | nil => rfl
  | cons entry rest ih => exact ih (k.learn entry.1 entry.2 explicit)

theorem kind?_learnAll (acc : Dict String) {P : String → String → Prop} (kinds : Dict String)
    (explicit : Bool) (h : ∀ x y, k.kind? x = some y → acc.get? x = some y ∨ P x y) :
    ∀ x y, (k.learnAll kinds explicit).kind? x = some y → (acc.extend kinds).get? x = some y ∨ P x y := by
  unfold learnAll
  induction kinds generalizing k acc with
  | nil => exact h
  | cons entry rest ih =>
    refine ih (k := k.learn entry.1 entry.2 explicit) (acc.insert entry.1 entry.2) fun x y hy => ?_
    rw [kind?_learn] at hy
    rw [Dict.get?_insert]
    by_cases hx : x = entry.1
    · rw [if_pos hx] at hy ⊢
      exact .inl hy
    · rw [if_neg hx] at hy ⊢
      exact h x y hy

theorem off_foldl_learn (fields : List String) (kind : String) (k : KnownKinds) :
    (fields.foldl (fun k field => k.learn field kind false) k).off = k.off := by
  induction fields generalizing k with
  | nil => rfl
  | cons field rest ih => exact ih (k.learn field kind false)

theorem kind?_foldl_learn (fields : List String) (kind : String) (k : KnownKinds)
    (h : (fields.foldl (fun k field => k.learn field kind false) k).kind? x = some y) :
    x ∈ fields ∨ k.kind? x = some y := by
  induction fields generalizing k with
  | nil => exact .inr h
  | cons field rest ih =>
    rcases ih (k.learn field kind false) h with hx | hx
    · exact .inl (List.mem_cons_of_mem field hx)
    · rw [kind?_learn] at hx
      split at hx
      · rename_i hfield
        exact .inl (hfield ▸ List.mem_cons_self)
      · exact .inr hx

end KnownKinds

/-! ### Needed kinds are listed in order -/

theorem Dict.Sorted.insertIfNew {α : Type} {d : Dict α} (h : d.Sorted) (key : String) (v : α) :
    (d.insertIfNew key v).Sorted := by
  unfold Dict.insertIfNew
  split
  · exact h
  · exact h.insert key v

theorem ChannelDef.sorted_flattenNested {kinds : Dict String} (h : kinds.Sorted) (field : String) :
    (flattenNested kinds field).Sorted := by
  unfold flattenNested
  split
  · exact h.insertIfNew field "flatten"
  · exact h

theorem ChannelDef.sorted_addKinds {kinds : Dict String} (h : kinds.Sorted) (d : ChannelDef) :
    (addKinds kinds d).Sorted := by
  unfold addKinds
  split
  · exact h
  · exact h
  · dsimp only
    split
    · refine sorted_flattenNested ?_ _
      split
      · exact h.insert _ _
      · exact sorted_flattenNested h _
    · split
      · exact h.insert _ _
      · exact sorted_flattenNested h _

theorem View.sorted_neededKinds (v : View) : v.neededKinds.Sorted := by
  have hdefs : (v.preparedDefs.foldl ChannelDef.addKinds []).Sorted :=
    List.foldlRecOn v.preparedDefs ChannelDef.addKinds (motive := Dict.Sorted) .nil
      fun _ h d _ => ChannelDef.sorted_addKinds h d
  unfold View.neededKinds
  dsimp only
  split
  · exact hdefs.insertIfNew _ _
  · exact hdefs

theorem Transform.sorted_neededKinds (known : KnownKinds) (t : Transform) :
    (t.neededKinds known).Sorted := by
  cases t with
  | filter condition => exact Dict.sorted_ofList _
  | timeUnit unit field result =>
    show Dict.Sorted (if _ then _ else _)
    split
    · exact List.pairwise_singleton _ _
    · exact .nil
  | _ => exact .nil

/-! ### What a branch learns -/

namespace KnownKinds

/-- Nothing new is known, as long as anything is coerced at all. -/
def Keeps (k k' : KnownKinds) : Prop :=
  k'.off = false → k.off = false ∧ ∀ field kind, k'.kind? field = some kind → k.kind? field = some kind

/-- What is known after a node: what the node gives, and what was known. -/
structure Learns (n : Flow.Node) (k k' : KnownKinds) : Prop where
  off : k'.off = k.off
  kinds : ∀ field kind, k'.kind? field = some kind → n.Gives field kind ∨ k.kind? field = some kind

theorem Learns.refl (n : Flow.Node) (k : KnownKinds) : Learns n k k :=
  ⟨rfl, fun _ _ => .inr⟩

theorem learns_transform {stem secondary : String} {t : Transform} {n : Flow.Node}
    (hn : Flow.Node.ofTransform? stem secondary t = some n) (kind : String) (k : KnownKinds) :
    Learns n k (n.written.foldl (fun k field => k.learn field kind false) k) :=
  ⟨off_foldl_learn _ _ _, fun _ _ hkind => (kind?_foldl_learn _ _ _ hkind).imp_left (.transform hn)⟩

end KnownKinds

theorem Branch.coerce_cases (b : Branch) (explicit : Dict String) {implicit : Dict String}
    (h : implicit = [] ∨ explicit = [] ∧ implicit.Sorted) :
    (∃ known, b.known.Keeps known ∧ (b.coerce explicit implicit).value = { b with known }) ∨
      ∃ c known, b.known.Learns (.parse c) known ∧
        (b.coerce explicit implicit).value = { b.push (.parse c) with known } := by
  have hkinds (kinds : Dict String) (explicit : Bool) :=
    KnownKinds.kind?_learnAll (k := b.known) [] kinds explicit fun _ _ => .inr
  obtain ⟨known, kinds, hoff, hkinds, hvalue⟩ : ∃ (known : KnownKinds) (kinds : Dict String),
      known.off = b.known.off ∧ (∀ field kind, known.kind? field = some kind →
        kinds.get? field = some kind ∨ b.known.kind? field = some kind) ∧
      (b.coerce explicit implicit).value = if kinds.isEmpty || known.off then { b with known }
        else { b with known }.push (.parse ⟨kinds⟩) := by
    rcases h with rfl | ⟨rfl, hsorted⟩
    · exact ⟨b.known.learnAll _ true, _, KnownKinds.off_learnAll _ _ _, hkinds _ true, rfl⟩
    · have hrest : (b.known.pending b.known.allows implicit).value.Sorted :=
        List.Pairwise.filter _ hsorted
      refine ⟨b.known.learnAll _ false, _, KnownKinds.off_learnAll _ _ _, fun field kind hkind => ?_, rfl⟩
      have hkind := hkinds _ false field kind hkind
      rwa [Dict.get?_extend hrest, Dict.get?_nil, Option.or_none] at hkind
  rw [hvalue]
  split
  · rename_i hskip
    refine .inl ⟨known, fun hon => ⟨hoff.symm.trans hon, fun field kind hkind => ?_⟩, rfl⟩
    rw [hon, Bool.or_false, List.isEmpty_iff] at hskip
    rw [hskip] at hkinds
    exact (hkinds field kind hkind).resolve_left nofun
  · exact .inr ⟨⟨kinds⟩, known, ⟨hoff, fun field kind hkind =>
      (hkinds field kind hkind).imp_left .coercion⟩, rfl⟩

end ChartPlan
