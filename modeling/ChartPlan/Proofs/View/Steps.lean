import ChartPlan.Proofs.View.Naming
import ChartPlan.Proofs.View.Records

/-!
# Steps of a branch

Whatever a view asks for, its branch grows in a few kinds of steps: a node that computes rows from
rows, an aggregate with the numbers of its rows, and a lookup in a store or in rows that were brought
in beside the branch. A view begins at its root, has its rows numbered, and passes its raw output on
the way to the main one.

* `Branch.Grows`: one step.
* `View.Grew`: how the branch of a view comes about; `View.grow_grew`: every branch does so.
-/

namespace ChartPlan

open Flow

/-- Whether a node computes rows from the rows above it alone and keeps their grain. -/
def Flow.Node.isPlain : Node → Bool
  | .source _ | .sequence _ | .graticule _ | .output _ | .facet _ | .aggregate _ | .lookup _ => false
  | _ => true

theorem Flow.Node.isDataSource_of_isPlain {n : Node} (hn : n.isPlain) : n.isDataSource = false := by
  cases n <;> first | rfl | exact Bool.noConfusion hn

/-- The rows in which a transform searches, when they are written in the chart. -/
def Transform.block? : Transform → Option Json
  | .lookup _ target _ _ => target.data
  | _ => none

namespace Branch

open Checked Relation

/-- One step of a branch, with the number of lookups in rows that were brought in beside it. -/
inductive Grows (context : DataContext) (v : View) : Branch × Nat → Branch × Nat → Prop
  | learn {b : Branch} {k : Nat} {known : KnownKinds} : b.known.Keeps known →
      Grows context v (b, k) ({ b with known }, k)
  | push {b : Branch} {k : Nat} {n : Node} {known : KnownKinds} : n.isPlain →
      b.known.Learns n known → Grows context v (b, k) ({ b.push n with known }, k)
  | aggregate {b : Branch} {k : Nat} {a : Aggregate} {known : KnownKinds} :
      b.known.Learns (.aggregate a) known → Grows context v (b, k)
        (if context.rowIds then identify { b.push (.aggregate a) with known }
          else { b.push (.aggregate a) with known }, k)
  | search {b : Branch} {k : Nat} {l : Lookup} {known : KnownKinds} {param : String} :
      context.selections.contains param → l.secondary = param ++ "_store" →
      b.known.Learns (.lookup l) known → Grows context v (b, k) ({ b.push (.lookup l) with known }, k)
  | join {b b' : Branch} {k : Nat} {l : Lookup} {known : KnownKinds} {t : Transform} {data : Json} :
      t ∈ v.transforms → t.block? = some data →
      b.lookupSource data (v.inner (Slot.lookup k).text) = .ok b' →
      l.secondary = v.inner (Slot.lookup k).text → b'.known.Learns (.lookup l) known →
      Grows context v (b, k) ({ b'.push (.lookup l) with known }, k + 1)

/-- The branch goes on from a facet, which requests an output. -/
def split (b : Branch) (main : String) (m : Facet) : Branch :=
  let (forest, i) := b.forest.freshId.1.add (.facet m) (some b.tip)
  { b with forest := (forest.request main).register m.name i, tip := i }

abbrev GrowsTo (context : DataContext) (v : View) : Branch × Nat → Branch × Nat → Prop :=
  ReflTransGen (Grows context v)

variable {context : DataContext} {v : View} {b b' : Branch} {k : Nat}

theorem growsTo_push? {n : Option Node} (hn : ∀ m, n = some m → m.isPlain) :
    GrowsTo context v (b, k) (b.push? n, k) := by
  cases n with
  | none => exact .refl
  | some m => exact .single (.push (hn m rfl) (.refl m _))

theorem growsTo_pushAll {nodes : List Node} (hn : ∀ n ∈ nodes, n.isPlain) :
    GrowsTo context v (b, k) (b.pushAll nodes, k) := by
  induction nodes generalizing b with
  | nil => exact .refl
  | cons n rest ih =>
    exact .head (.push (hn n List.mem_cons_self) (.refl n _)) (ih fun m hm => hn m (List.mem_cons_of_mem n hm))

theorem growsTo_coerce {kinds : Dict String} (hkinds : kinds.Sorted) :
    GrowsTo context v (b, k) ((b.coerce [] kinds).value, k) := by
  rcases b.coerce_cases [] (.inr ⟨rfl, hkinds⟩) with ⟨known, hkeeps, heq⟩ | ⟨c, known, hlearns, heq⟩
  · rw [heq]
    exact .single (.learn hkeeps)
  · rw [heq]
    exact .single (.push rfl hlearns)

theorem isPlain_ofTransform? {stem secondary : String} {t : Transform} {n : Node}
    (hn : Node.ofTransform? stem secondary t = some n) :
    (n.isPlain ∧ t.isAggregate = false) ∨
      (∃ measures groupby, t = .aggregate measures groupby ∧
        n = .aggregate (.ofMeasures measures groupby)) ∨
      ∃ field target outputs default, t = .lookup field target outputs default := by
  cases t with
  | bin v field start stop =>
    simp only [Node.ofTransform?] at hn
    split at hn
    · cases hn
      exact .inl ⟨rfl, rfl⟩
    · cases hn
  | timeUnit unit field output =>
    obtain ⟨_, -, rfl⟩ := Option.map_eq_some_iff.mp hn
    exact .inl ⟨rfl, rfl⟩
  | aggregate measures groupby =>
    cases hn
    exact .inr (.inl ⟨measures, groupby, rfl, rfl⟩)
  | lookup field target outputs default =>
    exact .inr (.inr ⟨field, target, outputs, default, rfl⟩)
  | _ =>
    cases hn
    exact .inl ⟨rfl, rfl⟩

section

variable {t : Transform}
  (ht : ∀ field target outputs default, t ≠ .lookup field target outputs default)

include ht

theorem secondary_eq : b.secondary context v k t = .ok (b, k, "") := by
  unfold secondary
  split
  · exact absurd rfl (ht _ _ _ _)
  · rfl

theorem growsTo_transform_of_ne :
    Delivers (GrowsTo context v (b, k)) (b.transform context v k t).outcome := by
  unfold Branch.transform
  rw [secondary_eq ht]
  refine delivers_bind (P := (· = (b, k, ""))) rfl ?_
  rintro _ rfl
  dsimp only
  split
  · exact .refl
  · rename_i node hnode
    rcases isPlain_ofTransform? hnode with ⟨hplain, hkeeps⟩ | ⟨measures, groupby, rfl, rfl⟩ |
      ⟨_, _, _, _, rfl⟩
    · rw [hkeeps]
      exact (growsTo_coerce (t.sorted_neededKinds _)).tail
        (.push hplain (KnownKinds.learns_transform hnode _ _))
    · exact .single (.aggregate (KnownKinds.learns_transform hnode _ _))
    · exact absurd rfl (ht _ _ _ _)

end

/-- The rows of a lookup come from a root, perhaps after a coercion, and are put out beside the branch. -/
theorem lookupSource_cases {data : Json} {name : String} (h : b.lookupSource data name = .ok b') :
    ∃ block side, DataSetting.read (some data) = .ok (.block block) ∧
      (side = ⟨(b.forest.root (.ofBlock block)).1, (b.forest.root (.ofBlock block)).2, {}⟩ ∨
        ∃ c, side = push ⟨(b.forest.root (.ofBlock block)).1, (b.forest.root (.ofBlock block)).2, {}⟩
          (.parse c)) ∧
      b' = { b with forest := ((side.output name .lookup).request name).forest } := by
  unfold lookupSource at h
  cases hread : DataSetting.read (some data) with
  | error e =>
    rw [hread] at h
    cases h
  | ok setting =>
    rw [hread] at h
    cases setting with
    | block block =>
      refine ⟨block, _, rfl, ?_, (Except.ok.inj h).symm⟩
      split
      · exact .inr ⟨_, rfl⟩
      · exact .inl rfl
    | _ => cases h

theorem fair_lookupSource (data : Json) (name : String) : Fair (b.lookupSource data name) := by
  refine Fair.bind (DataSetting.fair_read _) fun setting => ?_
  split <;> trivial

theorem growsTo_lookup {field : String} {target : LookupTarget} {outputs default : Option Json}
    (ht : .lookup field target outputs default ∈ v.transforms) :
    Delivers (GrowsTo context v (b, k))
      (b.transform context v k (.lookup field target outputs default)).outcome := by
  unfold Branch.transform Branch.secondary
  dsimp only
  split
  · rename_i data hdata
    have hfair := fair_lookupSource (b := b) data (v.inner ("lookup_" ++ toString k))
    cases hside : b.lookupSource data (v.inner ("lookup_" ++ toString k)) with
    | error e =>
      rw [hside] at hfair
      exact hfair
    | ok b' => exact .single (.join ht hdata hside rfl
        (KnownKinds.learns_transform
        (show Node.ofTransform? "" _ (.lookup field target outputs default) = _ from rfl) _ _))
  · rename_i param hdata hparam
    split
    · rename_i hselection
      exact .single (.search hselection rfl
        (KnownKinds.learns_transform
        (show Node.ofTransform? "" _ (.lookup field target outputs default) = _ from rfl) _ _))
    · rfl
  · rfl

theorem growsTo_transforms {ts : List Transform} (hts : ∀ t ∈ ts, t ∈ v.transforms) :
    Delivers (fun b' => ∃ k', GrowsTo context v (b, k) (b', k'))
      (b.transforms context v k ts).outcome := by
  induction ts generalizing b k with
  | nil => exact ⟨k, .refl⟩
  | cons t rest ih =>
    have hstep : Delivers (GrowsTo context v (b, k)) (b.transform context v k t).outcome := by
      by_cases hlookup : ∃ field target outputs default, t = .lookup field target outputs default
      · obtain ⟨_, _, _, _, rfl⟩ := hlookup
        exact growsTo_lookup (hts _ List.mem_cons_self)
      · exact growsTo_transform_of_ne fun _ _ _ _ he => hlookup ⟨_, _, _, _, he⟩
    refine delivers_bind hstep fun r hr => ?_
    refine (ih fun t ht => hts t (List.mem_cons_of_mem _ ht)).mono fun b' hb' => ?_
    obtain ⟨k', hk'⟩ := hb'
    exact ⟨k', ReflTransGen.trans hr hk'⟩

end Branch

/-! ### The branch of a view -/

namespace View

open Branch Checked

variable {context : DataContext} {v : View} {above : Option Above} {f : Forest} {b : Branch}

theorem isPlain_map {α : Type} {o : Option α} {make : α → Node}
    (hmake : ∀ a, (make a).isPlain) (n : Node) (hn : o.map make = some n) : n.isPlain := by
  obtain ⟨a, -, rfl⟩ := Option.map_eq_some_iff.mp hn
  exact hmake a

theorem isPlain_binNode? (n : Node) (hn : v.binNode? = some n) : n.isPlain := by
  unfold binNode? at hn
  dsimp only at hn
  split at hn
  · cases hn
  · cases hn
    rfl

theorem isPlain_timeUnitNode? (n : Node) (hn : v.timeUnitNode? = some n) : n.isPlain := by
  unfold timeUnitNode? at hn
  dsimp only at hn
  split at hn
  · cases hn
  · cases hn
    rfl

theorem isPlain_sortNodes (n : Node) (hn : n ∈ v.sortNodes) : n.isPlain := by
  obtain ⟨_, -, rfl⟩ := List.mem_map.mp hn
  rfl

theorem isPlain_geoNodes {projections : Renames} {e : Encoding} (n : Node)
    (hn : n ∈ v.geoNodes projections e) : n.isPlain := by
  rcases List.mem_append.mp hn with hn | hn
  · obtain ⟨_, -, rfl⟩ := List.mem_map.mp hn
    rfl
  · obtain ⟨_, -, hn⟩ := List.mem_filterMap.mp hn
    obtain ⟨_, -, rfl⟩ := Option.map_eq_some_iff.mp hn
    rfl

theorem growsTo_refine (mark : Mark) (e : Encoding) (k : Nat) :
    GrowsTo context v (b, k) (v.refine context mark e b, k) := by
  unfold refine
  refine .trans ?_ (growsTo_push? (isPlain_map fun _ => rfl))
  refine .trans ?_ (growsTo_push? (isPlain_map fun _ => rfl))
  refine .trans ?_ (growsTo_push? (isPlain_map fun _ => rfl))
  split
  · exact .single (.aggregate (.refl _ _))
  · exact .refl

theorem growsTo_prepared (layered : Bool) (k : Nat) : GrowsTo context v (b, k)
    (((if layered then b else b.push? v.binNode?).push? v.timeUnitNode?).pushAll v.sortNodes, k) := by
  refine .trans (.trans ?_ (growsTo_push? isPlain_timeUnitNode?)) (growsTo_pushAll isPlain_sortNodes)
  cases layered with
  | true => exact .refl
  | false => exact growsTo_push? isPlain_binNode?

def rootBranch (v : View) (above : Option Above) (f : Forest) : Branch :=
  ⟨(v.rootOf above f).1, (v.rootOf above f).2, v.knownAbove above⟩

/-- The beginning of a branch: a root, and perhaps a coercion. -/
inductive Starts (v : View) (above : Option Above) (f : Forest) : Branch → Prop
  | root {known : KnownKinds} : (v.knownAbove above).Keeps known →
      Starts v above f { v.rootBranch above f with known }
  | parse {known : KnownKinds} {c : Coercion} : (v.knownAbove above).Learns (.parse c) known →
      Starts v above f { (v.rootBranch above f).push (.parse c) with known }

theorem startBranch_starts (v : View) (above : Option Above) (f : Forest) :
    v.Starts above f (v.startBranch above f).value := by
  have hroot : v.Starts above f (v.rootBranch above f) := .root fun hon => ⟨hon, fun _ _ => id⟩
  unfold startBranch
  dsimp only
  split
  · split
    · exact .root nofun
    · exact .root nofun
    · rename_i kinds _ _
      rcases (v.rootBranch above f).coerce_cases kinds (.inl rfl) with
        ⟨known, hkeeps, heq⟩ | ⟨c, known, hlearns, heq⟩
      · exact heq ▸ .root hkeeps
      · exact heq ▸ .parse hlearns
    · exact hroot
  · exact hroot

/-- How the branch of a view comes about: its rows are numbered, steps lead to the raw output and from
there to the main one, which is requested for marks. -/
inductive Grew (context : DataContext) (v : View) (above : Option Above) (f : Forest) :
    Branch → Prop
  | mk {start early late : Branch} {k k' : Nat} : v.Starts above f start →
      GrowsTo context v (start.identify, 0) (early, k) →
      GrowsTo context v (early.output (v.inner "raw") .raw, k) (late, k') →
      Grew context v above f (if v.unit?.isSome then
        (late.output (v.inner "main") .main).request (v.inner "main")
        else late.output (v.inner "main") .main)

theorem grow_grew (context : DataContext) (v : View) (above : Option Above) (f : Forest) :
    Delivers (v.Grew context above f) (v.grow context above f).outcome := by
  unfold grow
  refine delivers_bind (P := v.Starts above f) (v.startBranch_starts above f) fun start hstart => ?_
  have hbins : GrowsTo context v (start.identify, 0)
      (if above.any Above.isLayer then start.identify.push? v.binNode? else start.identify, 0) := by
    split
    · exact growsTo_push? isPlain_binNode?
    · exact .refl
  refine delivers_bind (growsTo_transforms fun _ ht => ht) fun b hb => ?_
  obtain ⟨k, hk⟩ := hb
  refine delivers_bind (P := fun b' : Branch => GrowsTo context v (start.identify, 0) (b', k))
    (.trans (hbins.trans hk) (growsTo_coerce v.sorted_neededKinds)) fun b hb => ?_
  cases hunit : v.unit? with
  | none =>
    have hgrew := Grew.mk hstart (hb.trans (growsTo_prepared (above.any Above.isLayer) k)) .refl
    rw [hunit] at hgrew
    exact hgrew
  | some parts =>
    have hgeo : GrowsTo context v (b, k) (b.pushAll (v.geoNodes context.projections parts.2), k) :=
      growsTo_pushAll isPlain_geoNodes
    have hgrew := Grew.mk hstart
      ((hb.trans hgeo).trans (growsTo_prepared (above.any Above.isLayer) k))
      (growsTo_refine parts.1 parts.2 k)
    rw [hunit] at hgrew
    exact hgrew

theorem Grew.keeps {P : Branch → Prop} (h : v.Grew context above f b)
    (hstart : ∀ {b}, v.Starts above f b → P b.identify)
    (hgrows : ∀ {x y}, Grows context v x y → P x.1 → P y.1)
    (houtput : ∀ {b} name kind, P b → P (b.output name kind))
    (hrequest : ∀ {b} name, P b → P (b.request name)) : P b := by
  obtain ⟨hstarts, hearly, hlate⟩ := h
  have hsteps : ∀ {x y}, GrowsTo context v x y → P x.1 → P y.1 := fun h hx => by
    induction h with
    | refl => exact hx
    | tail _ hstep ih => exact hgrows hstep ih
  have hmain := houtput (v.inner "main") .main
    (hsteps hlate (houtput (v.inner "raw") .raw (hsteps hearly (hstart hstarts))))
  split
  · exact hrequest _ hmain
  · exact hmain

/-! ### Facets -/

theorem addFacet_cases (v : View) (child : Option View) (b : Branch) :
    (v.isFacet = false ∧ (v.addFacet child b).value = (b.forest, none)) ∨
      ∃ mapping, v.body = .facet mapping ∧
        (v.addFacet child b).value = ((b.split (v.inner "main")
          (v.facetNode mapping child b.forest.freshId.2).value).forest, some (b.split (v.inner "main")
          (v.facetNode mapping child b.forest.freshId.2).value).tip) := by
  unfold addFacet isFacet
  cases hbody : v.body with
  | facet mapping => exact .inr ⟨mapping, rfl, rfl⟩
  | _ => exact .inl ⟨rfl, rfl⟩

end View

end ChartPlan
