import ChartPlan.Proofs.Chart.Regular
import ChartPlan.Proofs.View.Growth

/-!
# Fields on the way to a view

A field is there at a node when a data source above has it or a node on the way writes it, and no
aggregate drops it later. While the views build their dataflow, nodes and links are kept, so what is
there once stays there; and each view knows which fields its main output has.

* `Forest.Carries given f i field`: a field is there at a node.
* `Transform.after`: the fields that a transform leaves.
* `Branch.Bears`: the fields at the end of a growing branch.
* `View.routes`: the views, each with the transforms that its rows go through.
* `View.withData_fed`: every view has the fields that it prepares.
-/

namespace ChartPlan

open Flow List

/-! ### Fields at nodes -/

namespace Flow

namespace Node

/-- Whether a node lets a field through: an aggregate keeps nothing but what it groups by. -/
def passes (field : String) : Node → Bool
  | .aggregate a => a.dimensions.contains field
  | _ => true

theorem passes_of_isPlain {n : Node} (hn : n.isPlain) (field : String) : n.passes field := by
  cases n with
  | aggregate a => exact Bool.noConfusion hn
  | _ => rfl

theorem fields_ofTransform? (stem secondary : String) (t : Transform) :
    (ofTransform? stem secondary t).map (fun n => (n.written, fun field => n.passes field)) =
      (ofTransform? "" "" t).map fun n => (n.written, fun field => n.passes field) := by
  cases t with
  | bin v field start stop =>
    simp only [ofTransform?]
    split <;> rfl
  | _ => rfl

end Node

namespace Forest

variable {f g h : Forest} {i j p : NodeId} {n : Node} {given : List String} {field : String}

/-- A field is there at a node: a data source has it or a node on the way writes it, and no aggregate
drops it later. -/
inductive Carries (given : List String) (f : Forest) : NodeId → String → Prop
  | source {i : NodeId} {field : String} : f.holds i Node.isDataSource → field ∈ given →
      Carries given f i field
  | written {i : NodeId} {n : Node} {field : String} : f.node? i = some n → field ∈ n.written →
      Carries given f i field
  | passed {i p : NodeId} {n : Node} {field : String} : f.node? i = some n → n.passes field →
      f.parent? i = some p → Carries given f p field → Carries given f i field

theorem Carries.cases_node (h : f.Carries given i field) (hn : f.node? i = some n) :
    n.isDataSource ∧ field ∈ given ∨ field ∈ n.written ∨
      n.passes field ∧ ∃ p, f.parent? i = some p ∧ f.Carries given p field := by
  cases h with
  | source hsource hgiven => exact .inl ⟨(holds_of_node? hn).symm.trans hsource, hgiven⟩
  | written hm hfield =>
    cases hn.symm.trans hm
    exact .inr (.inl hfield)
  | passed hm hpasses hp hcarries =>
    cases hn.symm.trans hm
    exact .inr (.inr ⟨hpasses, _, hp, hcarries⟩)

/-- Whether no node from a data source to a node has a field, unless one below drops it; at most `fuel`
nodes are looked at. -/
def lacks (f : Forest) (field : String) : Nat → NodeId → Bool
  | 0, _ => false
  | fuel + 1, i => (f.node? i).any fun n => !n.isDataSource && !n.written.contains field &&
      (!n.passes field || (f.parent? i).all (f.lacks field fuel))

theorem not_carries_of_lacks {fuel : Nat} (h : f.lacks field fuel i) : ¬ f.Carries given i field := by
  induction fuel generalizing i with
  | zero => cases h
  | succ fuel ih =>
    intro hcarries
    obtain ⟨n, hn, hlacks⟩ := (Option.any_eq_true _ _).mp h
    simp only [Bool.and_eq_true, Bool.not_eq_true', Bool.or_eq_true] at hlacks
    obtain ⟨⟨hsource, hwritten⟩, habove⟩ := hlacks
    rcases hcarries.cases_node hn with ⟨hroot, -⟩ | hfield | ⟨hpasses, p, hp, hcarries⟩
    · rw [hsource] at hroot
      cases hroot
    · rw [contains_iff_mem.mpr hfield] at hwritten
      cases hwritten
    · rcases habove with hdrops | habove
      · rw [hpasses] at hdrops
        cases hdrops
      · rw [hp] at habove
        exact ih habove hcarries

theorem StaysIn.carries (hfg : f.StaysIn g) (hi : f.Carries given i field) : g.Carries given i field := by
  induction hi with
  | source hsource hgiven =>
    obtain ⟨n, hn, hsource⟩ := holds_iff.mp hsource
    refine .source ?_ hgiven
    rcases hfg.node hn with hn | ⟨_, _, -, hn⟩
    · exact (holds_of_node? hn).trans hsource
    · exact holds_of_node? hn
  | written hn hfield =>
    rcases hfg.node hn with hn | ⟨_, _, rfl, -⟩
    · exact .written hn hfield
    · exact absurd hfield not_mem_nil
  | passed hn hpasses hp _ ih =>
    have hp' := (hfg.parent (contains_of_node? hn)).trans hp
    rcases hfg.node hn with hn | ⟨_, _, -, hn⟩
    · exact .passed hn hpasses hp' ih
    · exact .passed hn rfl hp' ih

end Forest

end Flow

/-- The fields after a transform: what its node writes and lets through. -/
def Transform.after (fields : String → Bool) (t : Transform) (x : String) : Bool :=
  match Node.ofTransform? "" "" t with
  | some n => n.written.contains x || fields x && n.passes x
  | none => fields x

theorem Transform.foldl_after_mono {S T : String → Bool} (h : ∀ x, T x → S x) (ts : List Transform)
    (x : String) (hx : ts.foldl after T x) : ts.foldl after S x := by
  induction ts generalizing S T with
  | nil => exact h x hx
  | cons t rest ih =>
    refine ih (fun y hy => ?_) hx
    unfold after at hy ⊢
    split at hy
    · simp only [Bool.or_eq_true, Bool.and_eq_true] at hy ⊢
      exact hy.imp_right (And.imp_left (h y))
    · exact h y hy

/-! ### Fields at the end of a branch -/

/-- A branch grew out of a forest and has fields at its end. -/
structure Branch.Bears (f : Forest) (given : List String) (fields : String → Prop) (b : Branch) :
    Prop where
  grew : b.GrewFrom f
  carries : ∀ x, fields x → b.forest.Carries given b.tip x

namespace Branch

open Checked Forest

variable {f : Forest} {given : List String} {S T : String → Prop} {b b' : Branch} {n : Node}

namespace Bears

section

variable (h : b.Bears f given S)

include h

theorem mono (hT : ∀ x, T x → S x) : b.Bears f given T :=
  ⟨h.grew, fun x hx => h.carries x (hT x hx)⟩

theorem move (hgrew : b'.GrewFrom f) (hkeeps : b.forest.StaysIn b'.forest) (htip : b'.tip = b.tip) :
    b'.Bears f given S :=
  ⟨hgrew, fun x hx => by rw [htip]; exact hkeeps.carries (h.carries x hx)⟩

theorem push (hn : n.isDataSource = false) (hT : ∀ x, T x → x ∈ n.written ∨ S x ∧ n.passes x) :
    (b.push n).Bears f given T := by
  have hplanted := h.grew.planted
  have hkeeps := hplanted.staysIn_add n (some b.tip)
  refine ⟨h.grew.push hn, fun x hx => ?_⟩
  have hnode := hplanted.arena.node?_add_self n (some b.tip)
  rcases hT x hx with hwritten | ⟨hx, hpasses⟩
  · exact .written hnode hwritten
  · refine .passed hnode hpasses ?_ (hkeeps.carries (h.carries x hx))
    exact (hplanted.parent?_add _ _ _).trans (if_pos rfl)

theorem relay (hn : n.isDataSource = false) (hpasses : ∀ x, n.passes x) :
    (b.push n).Bears f given S :=
  h.push hn fun x hx => .inr ⟨hx, hpasses x⟩

theorem plain (hn : n.isPlain) : (b.push n).Bears f given fun x => S x ∨ x ∈ n.written :=
  h.push (Node.isDataSource_of_isPlain hn) fun x hx => by
    rcases hx with hx | hx
    · exact .inr ⟨hx, Node.passes_of_isPlain hn x⟩
    · exact .inl hx

theorem push? {n : Option Node} (hn : ∀ m, n = some m → m.isPlain) :
    (b.push? n).Bears f given fun x => S x ∨ x ∈ n.toList.flatMap Node.written := by
  cases n with
  | none => exact h.mono fun x hx => hx.resolve_right not_mem_nil
  | some m => exact (h.plain (hn m rfl)).mono fun x hx => by simpa using hx

theorem pushAll {nodes : List Node} (hn : ∀ n ∈ nodes, n.isPlain) :
    (b.pushAll nodes).Bears f given fun x => S x ∨ x ∈ nodes.flatMap Node.written := by
  induction nodes generalizing b S with
  | nil => exact h.mono fun x hx => hx.resolve_right not_mem_nil
  | cons n rest ih =>
    refine (ih (h.plain (hn n mem_cons_self)) fun m hm => hn m (mem_cons_of_mem n hm)).mono
      fun x hx => ?_
    rw [flatMap_cons, mem_append] at hx
    exact or_assoc.mpr hx

theorem identify : b.identify.Bears f given S :=
  h.relay rfl fun _ => rfl

theorem coerce (explicit implicit : Dict String) :
    (b.coerce explicit implicit).value.Bears f given S := by
  unfold Branch.coerce
  simp only [Logged.value_bind, Logged.value_pure]
  split
  · exact ⟨h.grew, h.carries⟩
  · exact relay (b := { b with known := _ }) ⟨h.grew, h.carries⟩ rfl fun _ => rfl

theorem freshId : Bears f given S { b with forest := b.forest.freshId.1 } :=
  h.move h.grew.freshId ⟨.inl, fun _ => rfl⟩ rfl

theorem output (name : String) (kind : OutputKind) : (b.output name kind).Bears f given S := by
  have hpushed := h.freshId.relay (n := .output (.fresh name kind b.forest.freshId.2)) rfl
    fun _ => rfl
  exact hpushed.move (h.grew.output name kind) ⟨.inl, fun _ => rfl⟩ rfl

theorem request (name : String) : (b.request name).Bears f given S :=
  h.move (h.grew.request name) ⟨.inl, fun _ => rfl⟩ rfl

end

theorem split (h : b.Bears f given S) (main : String) (m : Facet) :
    (b.split main m).Bears f given S := by
  exact (h.freshId.relay (n := .facet m) rfl fun _ => rfl).move (h.grew.split main m)
    ⟨.inl, fun _ => rfl⟩ rfl

/-! ### Transforms -/

theorem secondary (h : b.Bears f given S) (context : DataContext) (v : View) (lookups : Nat)
    (t : Transform) : Delivers (fun r : Branch × Nat × String => r.1.Bears f given S)
      (b.secondary context v lookups t) := by
  unfold Branch.secondary
  split
  · split
    · rename_i data _
      have hfair := fair_lookupSource (b := b) data (v.inner ("lookup_" ++ toString lookups))
      dsimp only
      cases hside : b.lookupSource data (v.inner ("lookup_" ++ toString lookups)) with
      | error e =>
        rw [hside] at hfair
        exact hfair
      | ok b' =>
        obtain ⟨hgrew, hkeeps, htip, -⟩ := h.grew.lookupSource hside
        exact h.move hgrew hkeeps htip
    · split
      · exact h
      · rfl
    · rfl
  · exact h

theorem pushTransform {S : String → Bool} (h : b.Bears f given (S ·)) {stem secondary : String}
    {t : Transform} (hn : Node.ofTransform? stem secondary t = some n) :
    (b.push n).Bears f given (t.after S ·) := by
  refine h.push (Node.isDataSource_ofTransform? hn) fun x hx => ?_
  have hfields := Node.fields_ofTransform? stem secondary t
  rw [hn, Option.map_some] at hfields
  obtain ⟨m, hm, hsame⟩ := Option.map_eq_some_iff.mp hfields.symm
  obtain ⟨hwritten, hpasses⟩ := Prod.mk.inj hsame
  unfold Transform.after at hx
  rw [hm] at hx
  simp only [hwritten, congrFun hpasses x, Bool.or_eq_true, Bool.and_eq_true,
    contains_iff_mem] at hx
  exact hx

theorem transform {S : String → Bool} (h : b.Bears f given (S ·)) (context : DataContext) (v : View)
    (lookups : Nat) (t : Transform) :
    Delivers (fun r : Branch × Nat => r.1.Bears f given (t.after S ·))
      (b.transform context v lookups t).outcome := by
  refine delivers_bind (h.secondary context v lookups t) fun r hr => ?_
  obtain ⟨b, lookups, secondary⟩ := r
  dsimp only
  split
  · rename_i hnone
    refine hr.mono fun x hx => ?_
    have hfields := Node.fields_ofTransform? (Bin.signalStem v.name) secondary t
    rw [hnone, Option.map_none, eq_comm, Option.map_eq_none_iff] at hfields
    unfold Transform.after at hx
    rwa [hfields] at hx
  · rename_i node hnode
    have hpushed : Bears f given (t.after S ·)
        ((b.coerce [] (t.neededKinds b.known)).value.pushKnown node t.resultKind) := by
      have hpushed := (hr.coerce [] (t.neededKinds b.known)).pushTransform hnode
      exact ⟨hpushed.grew, hpushed.carries⟩
    show Bears f given (t.after S ·) (if _ then _ else _)
    split
    · exact hpushed.identify
    · exact hpushed

theorem transforms (context : DataContext) (v : View) {ts : List Transform} {lookups : Nat}
    {S : String → Bool} (h : b.Bears f given (S ·)) :
    Delivers (fun b : Branch => b.Bears f given (ts.foldl Transform.after S ·))
      (b.transforms context v lookups ts).outcome := by
  induction ts generalizing b lookups S with
  | nil => exact h
  | cons t rest ih => exact delivers_bind (h.transform context v lookups t) fun r hr => ih hr

end Bears

end Branch

/-! ### Fields of a view -/

/-- A view, the transforms that its rows go through, and whether it is a layer. -/
structure Route where
  view : View
  passed : List Transform
  layered : Bool

namespace Route

def binFields (c : Route) : List String :=
  c.view.binNode?.toList.flatMap Node.written

/-- The fields before the transforms of a view: only a layer has its bins there. -/
def early (c : Route) (S : String → Bool) (x : String) : Bool :=
  S x || c.layered && c.binFields.contains x

/-- The fields at the raw output. Bins of a layer are made before the transforms of the layer. -/
def AtRaw (c : Route) (given : List String) (x : String) : Prop :=
  c.passed.foldl Transform.after given.contains x ∨
    x ∈ c.binFields ∧ (c.layered → c.view.transforms.foldl Transform.after (· == x) x) ∨
    x ∈ c.view.timeUnitNode?.toList.flatMap Node.written ∨
    x ∈ c.view.sortNodes.flatMap Node.written

def AtMain (c : Route) (e : Encoding) (given : List String) (x : String) : Prop :=
  (match c.view.aggregate? e with
    | some a => x ∈ a.produced ∨ c.AtRaw given x ∧ x ∈ a.dimensions
    | none => c.AtRaw given x) ∨
  x ∈ (c.view.stackNode? e).toList.flatMap Stack.produced

/-- The main output of a unit view has the fields of the view. -/
def Fed (f : Forest) (given : List String) (c : Route) : Prop :=
  ∃ part, c.view.dataPart = some part ∧ ∀ mark e, c.view.unit? = some (mark, e) →
    ∀ x, c.AtMain e given x → f.Carries given part.main x

theorem Fed.mono {f g : Forest} {given : List String} {c : Route} (h : c.Fed f given)
    (hfg : f.StaysIn g) : c.Fed g given := by
  obtain ⟨part, hpart, hcarries⟩ := h
  exact ⟨part, hpart, fun mark e hunit x hx => hfg.carries (hcarries mark e hunit x hx)⟩

end Route

namespace View

open Checked Branch Forest

variable {f g : Forest} {given : List String} {v : View} {above : Option Above} {b : Branch}
  {S : String → Prop} {before : List Transform}

theorem body_of_unit? {mark : Mark} {e : Encoding} (h : v.unit? = some (mark, e)) :
    v.body = .unit mark e := by
  unfold unit? at h
  split at h
  · cases h
    assumption
  · cases h

/-- The transforms before those of a view: none when the view has data of its own. -/
def inherited (v : View) (before : List Transform) : List Transform :=
  match v.data with
  | .inherit => before
  | _ => []

def passed (v : View) (before : List Transform) : List Transform :=
  v.inherited before ++ v.transforms

mutual

/-- The views of a tree with the transforms that their rows go through. -/
def routes (before : List Transform) (layered : Bool) : Tree View → List Route
  | .node v children =>
    ⟨v, v.passed before, layered⟩ :: routesAll (v.passed before) v.isLayer children

/-- The views of several trees with the transforms that their rows go through. -/
def routesAll (before : List Transform) (layered : Bool) : List (Tree View) → List Route
  | [] => []
  | t :: rest => routes before layered t ++ routesAll before layered rest

end

mutual

theorem map_view_routes : (t : Tree View) → (before : List Transform) → (layered : Bool) →
    (routes before layered t).map Route.view = t.preorder
  | .node v children, _, _ => congrArg (v :: ·) (map_view_routesAll children _ _)

theorem map_view_routesAll : (ts : List (Tree View)) → (before : List Transform) → (layered : Bool) →
    (routesAll before layered ts).map Route.view = Tree.preorders ts
  | [], _, _ => rfl
  | t :: rest, before, layered => by
    rw [routesAll, Tree.preorders, map_append, map_view_routes t, map_view_routesAll rest]

end

theorem refine_bears (context : DataContext) (c : Route) (mark : Mark) (e : Encoding)
    (h : b.Bears f given (c.AtRaw given)) :
    (c.view.refine context mark e b).Bears f given (c.AtMain e given) := by
  unfold refine
  have haggregated : Bears f given (fun x => match c.view.aggregate? e with
      | some a => x ∈ a.produced ∨ c.AtRaw given x ∧ x ∈ a.dimensions
      | none => c.AtRaw given x) (match c.view.aggregate? e with
      | some a => if context.rowIds then (b.push (.aggregate a)).identify else b.push (.aggregate a)
      | none => b) := by
    cases c.view.aggregate? e with
    | none => exact h
    | some a =>
      have hpushed : Bears f given (fun x => x ∈ a.produced ∨ c.AtRaw given x ∧ x ∈ a.dimensions)
          (b.push (.aggregate a)) :=
        h.push rfl fun x hx => hx.imp_right (And.imp_right contains_iff_mem.mpr)
      dsimp only
      split
      · exact hpushed.identify
      · exact hpushed
  have himputed := haggregated.push? (n := (impute? e).map .impute) (isPlain_map fun _ => rfl)
  have hstacked := himputed.push? (n := (c.view.stackNode? e).map .stack) (isPlain_map fun _ => rfl)
  refine (hstacked.push? (isPlain_map fun _ => rfl)).mono fun x hx => .inl ?_
  refine hx.imp .inl fun hx => ?_
  cases hstack : c.view.stackNode? e <;> rwa [hstack] at hx

theorem prepared_bears (c : Route) {S : String → Bool}
    (h : b.Bears f given (c.view.transforms.foldl Transform.after (c.early S) ·))
    (hpassed : c.passed.foldl Transform.after given.contains =
      c.view.transforms.foldl Transform.after S) :
    Bears f given (c.AtRaw given) ((((if c.layered then b
      else b.push? c.view.binNode?).push? c.view.timeUnitNode?).pushAll
        c.view.sortNodes).output (c.view.inner "raw") .raw) := by
  have hsteady : ∀ x, c.passed.foldl Transform.after given.contains x →
      c.view.transforms.foldl Transform.after (c.early S) x := fun x hx => by
    rw [hpassed] at hx
    exact Transform.foldl_after_mono (fun y hy => by rw [Route.early, hy]; rfl) _ x hx
  have hbinned : Bears f given (fun x => c.passed.foldl Transform.after given.contains x ∨
      x ∈ c.binFields ∧ (c.layered → c.view.transforms.foldl Transform.after (· == x) x))
      (if c.layered then b else b.push? c.view.binNode?) := by
    cases hlayered : c.layered with
    | false =>
      exact (h.push? isPlain_binNode?).mono fun x hx => hx.imp (hsteady x) And.left
    | true =>
      refine h.mono fun x hx => hx.elim (hsteady x) fun ⟨hbin, hsurvives⟩ => ?_
      refine Transform.foldl_after_mono (fun y hy => ?_) _ x (hsurvives rfl)
      rw [beq_iff_eq.mp hy, Route.early, hlayered, contains_iff_mem.mpr hbin, Bool.and_self,
        Bool.or_true]
  refine (((hbinned.push? isPlain_timeUnitNode?).pushAll isPlain_sortNodes).output _ _).mono
    fun x hx => ?_
  unfold Route.AtRaw at hx
  rwa [← or_assoc, ← or_assoc] at hx

theorem grow_bears (context : DataContext) (c : Route) {S : String → Bool}
    (hstart : (c.view.startBranch above f).value.Bears f given (S ·))
    (hlayered : c.layered = above.any Above.isLayer)
    (hpassed : c.passed.foldl Transform.after given.contains =
      c.view.transforms.foldl Transform.after S) :
    Delivers (fun b : Branch =>
      (∀ mark e, c.view.unit? = some (mark, e) → b.Bears f given (c.AtMain e given)) ∧
      (c.view.unit? = none → b.Bears f given (c.passed.foldl Transform.after given.contains ·)))
      (c.view.grow context above f).outcome := by
  unfold grow
  refine delivers_bind (P := fun b : Branch => b.identify.Bears f given (S ·)) hstart.identify
    fun b hb => ?_
  rw [← hlayered]
  have hearly : Bears f given (c.early S ·)
      (if c.layered then b.identify.push? c.view.binNode? else b.identify) := by
    unfold Route.early
    cases c.layered with
    | true => exact (hb.push? isPlain_binNode?).mono fun x hx => by simpa [Route.binFields] using hx
    | false => exact hb.mono fun x hx => by simpa using hx
  refine delivers_bind (hearly.transforms context c.view) fun b hb => ?_
  refine delivers_bind (P := fun b : Branch => b.Bears f given _) (hb.coerce _ _) fun b hb => ?_
  cases hunit : c.view.unit? with
  | none =>
    refine ⟨fun _ _ h => (nomatch h), fun _ => ?_⟩
    exact ((prepared_bears c hb hpassed).output _ _).mono fun x hx => .inl hx
  | some parts =>
    have hgeo : Bears f given (c.view.transforms.foldl Transform.after (c.early S) ·)
        (b.pushAll (c.view.geoNodes context.projections parts.2)) :=
      (hb.pushAll isPlain_geoNodes).mono fun x hx => .inl hx
    refine ⟨fun mark e h => ?_, fun h => (nomatch h)⟩
    cases h
    have hraw := prepared_bears c hgeo hpassed
    exact ((refine_bears context c mark e hraw).output _ _).request _

/-! ### All views -/

def Feeds (f : Forest) (given : List String) (before : List Transform) : Option Above → Prop
  | none => before = []
  | some a => Reaches f a.part ∧ ∀ x, before.foldl Transform.after given.contains x →
      f.Carries given (a.part.facet.getD a.part.main) x

theorem Feeds.mono (h : Feeds f given before above) (hfg : f.StaysIn g) :
    Feeds g given before above := by
  cases above with
  | none => exact h
  | some a => exact ⟨h.1.mono hfg.contains, fun x hx => hfg.carries (h.2 x hx)⟩

theorem Feeds.reaches (h : Feeds f given before above) :
    ∀ a, above = some a → Reaches f a.part := by
  rintro a rfl
  exact h.1

theorem rootOf_bears (v : View) (hf : f.Planted) (h : Feeds f given before above)
    (known : KnownKinds) :
    Bears f given ((v.inherited before).foldl Transform.after given.contains ·)
      ⟨(v.rootOf above f).1, (v.rootOf above f).2, known⟩ := by
  refine ⟨v.rootOf_sprouts hf h.reaches, ?_⟩
  unfold inherited
  rcases v.rootOf_cases hf above with ⟨a, hdata, rfl⟩ | ⟨hnone, hroot⟩
  · unfold rootOf
    rw [hdata]
    exact h.2
  · have hown : ∀ x, given.contains x → (v.rootOf above f).1.Carries given (v.rootOf above f).2 x :=
      fun x hx => .source hroot.source (contains_iff_mem.mp hx)
    split
    · rename_i hdata
      cases hnone hdata
      cases h
      exact hown
    · exact hown

theorem startBranch_bears (v : View) (hf : f.Planted) (h : Feeds f given before above) :
    Bears f given
      ((v.inherited before).foldl Transform.after given.contains ·) (v.startBranch above f).value := by
  have hroot := v.rootOf_bears hf h
  unfold startBranch
  dsimp only
  split
  · split
    · exact hroot _
    · exact hroot _
    · exact (hroot _).coerce _ _
    · exact hroot _
  · exact hroot _

theorem addFacet_bears (v : View) (child : Option View) (h : b.Bears f given S) :
    ∀ x, S x → (v.addFacet child b).value.1.Carries given
      ((v.addFacet child b).value.2.getD b.tip) x := by
  rcases v.addFacet_cases child b with ⟨-, heq⟩ | ⟨mapping, -, heq⟩
  · rw [heq]
    exact h.carries
  · rw [heq]
    exact (h.split _ _).carries

theorem addData_fed (context : DataContext) (v : View) (child : Option View) (hf : f.Planted)
    (h : Feeds f given before above) :
    Delivers (fun r : DataPart × Forest => r.2.Planted ∧ f.StaysIn r.2 ∧
      Route.Fed r.2 given ⟨{ v with dataPart := some r.1 }, v.passed before, above.any Above.isLayer⟩ ∧
      (v.unit? = none → Feeds r.2 given (v.passed before) (some ⟨r.1, v.isLayer⟩)))
      (v.addData context child above f).outcome := by
  refine delivers_bind (grow_bears context ⟨v, v.passed before, above.any Above.isLayer⟩
    (v.startBranch_bears hf h) rfl foldl_append) fun b hb => ?_
  obtain ⟨hunit, hother⟩ := hb
  have hgrew : b.Bears f given fun _ => False := by
    cases hu : v.unit? with
    | none => exact (hother hu).mono fun _ hx => hx.elim
    | some parts => exact (hunit parts.1 parts.2 hu).mono fun _ hx => hx.elim
  obtain ⟨hplanted, hkeeps, hreaches⟩ := v.addFacet_sprouts child hgrew.grew
  refine ⟨hplanted, hgrew.grew.stays.trans hkeeps, ⟨_, rfl, fun mark e hu x hx => ?_⟩, fun hu => ?_⟩
  · exact hkeeps.carries ((hunit mark e hu).carries x hx)
  · exact ⟨hreaches, v.addFacet_bears child (hother hu)⟩

theorem mem_routesAll {c : Route} {ts : List (Tree View)} {layered : Bool} :
    c ∈ routesAll before layered ts ↔ ∃ t ∈ ts, c ∈ routes before layered t := by
  induction ts with
  | nil => simp [routesAll]
  | cons t rest ih => simp [routesAll, ih]

theorem builds_fed (context : DataContext) (given : List String) : Builds context
    (fun ts f => (∀ t ∈ ts, Body.Regular (t.map View.body)) ∧ f.Planted) StaysIn
    (fun f before above => Feeds f given before above) fun f before above t =>
      ∀ c ∈ routes before (above.any Above.isLayer) t, c.Fed f given where
  refl _ := .refl _
  trans := .trans
  hands hstays h := h.mono hstays
  tells hstays h c hc := (h c hc).mono hstays
  add {v children rest f before above} hinv habove := by
    obtain ⟨hregular, hf⟩ := hinv
    obtain ⟨⟨hunit, hchildren⟩, hrest⟩ := forall_mem_cons.mp hregular
    refine (v.addData_fed context _ hf habove).mono fun r hr => ?_
    obtain ⟨hplanted, hstays, hfed, hfeeds⟩ := hr
    refine ⟨⟨?_, hplanted⟩, hstays, _, fun hne => hfeeds ?_, fun g ts hg hts c hc => ?_⟩
    · exact forall_mem_append.mpr ⟨Body.regularAll_mapAll.mp hchildren, hrest⟩
    · -- Nothing is below a unit view.
      cases children with
      | nil => exact absurd rfl hne
      | cons t ts =>
        cases hu : v.unit? with
        | none => rfl
        | some parts => exact (nomatch (hunit _ _ (body_of_unit? hu)).2)
    · rcases mem_cons.mp hc with rfl | hc
      · exact hfed.mono hg
      · obtain ⟨t, ht, hc⟩ := mem_routesAll.mp hc
        exact hts t ht c hc

theorem withData_fed (context : DataContext) (given : List String) {t : Tree View}
    (ht : Body.Regular (t.map View.body)) :
    Delivers (fun r : Tree View × Forest => ∀ c ∈ routes [] false r.1, c.Fed r.2 given)
      (withData context t).outcome := by
  have hfeeds : Feeds {} given [] none := rfl
  exact ((builds_fed context given).withData ⟨forall_mem_singleton.mpr ht, planted_empty⟩ hfeeds).mono
    fun _ hr => hr.2

end View

end ChartPlan
