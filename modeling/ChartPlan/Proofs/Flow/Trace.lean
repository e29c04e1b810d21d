import ChartPlan.Proofs.Flow.Inheritance
import ChartPlan.Proofs.Flow.Pass.Optimize
import ChartPlan.Proofs.Json.Text

/-!
# What happens to the rows of a node

The trace of a node tells what happens to rows on the way from the root: the root, and a mark for
every node on the path that changes which rows there are. Outputs, coercions, bins, time units and
row numbers leave no mark. An aggregate is marked by what it groups by only, since passes may add
results to it.

* `Forest.trace`, `Forest.aggregates`: the trace and the aggregates of a path.
* `Rewrite.course`: what one rewrite does to them.
* `trace_runPasses`: the passes keep the trace of every output and facet.
-/

namespace ChartPlan.Flow

open List

/-! ### Traces -/

/-- What a node does to the rows. -/
inductive Mark where
  | group (dimensions : NameSet)
  | step (kind identity : String)
deriving DecidableEq

/-- The mark of a node; none when the node leaves the rows as they are. -/
def Node.mark? : Node → Option Mark
  | .output _ | .parse _ | .bin _ | .timeUnit _ | .identifier => none
  | .aggregate a => some (.group a.dimensions)
  | n => some (.step n.kindName n.identity.toText)

/-- What happened to the rows of a node. -/
structure Trace where
  root : Option NodeId
  marks : List Mark
deriving DecidableEq

namespace Forest

def trace (f : Forest) (i : NodeId) : Trace where
  root := (f.path i).head?
  marks := (f.path i).filterMap fun j => (f.node? j).bind Node.mark?

/-- The aggregates on the path to a node, the one nearest to the root first. -/
def aggregates (f : Forest) (i : NodeId) : List Aggregate :=
  (f.path i).filterMap fun j => (f.node? j).bind Node.aggregate?

end Forest

theorem Aggregate.forall₂_extends_trans {as bs cs : List Aggregate}
    (h : List.Forall₂ Extends as bs) (h' : List.Forall₂ Extends bs cs) :
    List.Forall₂ Extends as cs := by
  induction h generalizing cs with
  | nil => exact h'
  | cons hab _ ih =>
    cases h' with
    | cons hbc hrest => exact .cons (hab.trans hbc) (ih hrest)

/-- A trace together with the aggregates that left its marks. -/
structure Course where
  trace : Trace
  aggregates : List Aggregate

namespace Course

def start (root : NodeId) : Course where
  trace := ⟨some root, []⟩
  aggregates := []

def add (c : Course) (n : Node) : Course where
  trace := ⟨c.trace.root, c.trace.marks ++ n.mark?.toList⟩
  aggregates := c.aggregates ++ n.aggregate?.toList

/-- The same happens to the rows, and each aggregate gives at least the results of the other. -/
structure Refines (c d : Course) : Prop where
  trace : c.trace = d.trace
  aggregates : List.Forall₂ Aggregate.Extends c.aggregates d.aggregates

theorem Refines.refl (c : Course) : c.Refines c :=
  ⟨rfl, List.forall₂_same.mpr fun a _ => .refl a⟩

theorem Refines.trans {c d e : Course} (h : c.Refines d) (h' : d.Refines e) : c.Refines e :=
  ⟨h.trace.trans h'.trace, Aggregate.forall₂_extends_trans h.aggregates h'.aggregates⟩

end Course

namespace Node

/-- Whether a node leaves the mark of another one and gives at least its results. -/
structure Covers (m n : Node) : Prop where
  mark : m.mark? = n.mark?
  aggregate : List.Forall₂ Aggregate.Extends m.aggregate?.toList n.aggregate?.toList

/-- Whether a node leaves the rows as they are. -/
structure Silent (n : Node) : Prop where
  mark : n.mark? = none
  aggregate : n.aggregate? = none

theorem Covers.refl (n : Node) : n.Covers n :=
  ⟨rfl, List.forall₂_same.mpr fun a _ => .refl a⟩

theorem Rises.silent {m n : Node} (h : n.Rises m) : n.Silent := by
  cases h <;> exact ⟨rfl, rfl⟩

theorem Veil.silent {n : Node} (h : n.Veil) : n.Silent := by
  cases h <;> exact ⟨rfl, rfl⟩

theorem Revises.covers {m n : Node} (h : m.Revises n) : m.Covers n := by
  cases h with
  | aggregate hab => exact ⟨congrArg (some ∘ Mark.group) hab.dimensions, .cons hab .nil⟩
  | _ => exact ⟨rfl, .nil⟩

end Node

theorem Forest.Drops.silent {rowIds : Bool} {f : Forest} {i : NodeId} {n : Node}
    (h : f.Drops rowIds i n) : n.Silent := by
  cases h <;> exact ⟨rfl, rfl⟩

theorem Course.Refines.add {c d : Course} {m n : Node} (h : c.Refines d) (hmn : m.Covers n) :
    (c.add m).Refines (d.add n) := by
  refine ⟨?_, rel_append h.aggregates hmn.aggregate⟩
  unfold Course.add
  rw [h.trace, hmn.mark]

theorem Course.add_of_silent {n : Node} (c : Course) (h : n.Silent) : c.add n = c := by
  unfold Course.add
  rw [h.mark, h.aggregate]
  simp

/-! ### Equal signatures -/

theorem Node.forall_mem_kindName_ne_blank (n : Node) : ∀ c ∈ n.kindName.toList, c != ' ' := by
  cases n <;> simp [kindName]

theorem Node.signature_inj {m n : Node} (h : m.signature = n.signature) :
    m.kindName = n.kindName ∧ m.identity.toText = n.identity.toText := by
  have hlist := congrArg String.toList h
  simp only [signature, String.toList_append, append_assoc] at hlist
  obtain ⟨hkind, htext⟩ := append_span_inj m.forall_mem_kindName_ne_blank
    n.forall_mem_kindName_ne_blank (by simp) (by simp) hlist
  exact ⟨String.toList_inj.mp hkind, String.toList_inj.mp (cons.inj htext).2⟩

theorem Aggregate.tells : Json.Tells identity := by
  rintro ⟨dimensions, measures⟩ ⟨_, others⟩ h
  have hf := Json.spelled_fields h ["dimensions", "measures"]
  simp [identity] at hf
  obtain ⟨rfl, hmeasures⟩ := hf
  cases Json.tells_texts.dict.dict hmeasures
  rfl

namespace Node

def silentKinds : List String :=
  ["Output", "Parse", "Bin", "TimeUnit", "Identifier"]

theorem eq_aggregate_of_kindName {n : Node} (h : n.kindName = "Aggregate") :
    ∃ a, n = .aggregate a := by
  cases n with
  | aggregate a => exact ⟨a, rfl⟩
  | _ => simp [kindName] at h

theorem mark?_of_kindName_ne {n : Node} (h : n.kindName ≠ "Aggregate") :
    n.aggregate? = none ∧ n.mark? = if n.kindName ∈ silentKinds then none
      else some (.step n.kindName n.identity.toText) := by
  cases n with
  | aggregate a => exact absurd rfl h
  | _ => simp [mark?, aggregate?, kindName, silentKinds]

theorem covers_of_signature {m n : Node} (h : m.signature = n.signature) : m.Covers n := by
  obtain ⟨hkind, htext⟩ := signature_inj h
  by_cases hm : m.kindName = "Aggregate"
  · obtain ⟨a, rfl⟩ := eq_aggregate_of_kindName hm
    obtain ⟨b, rfl⟩ := eq_aggregate_of_kindName (hkind.symm.trans hm)
    cases Aggregate.tells (Json.toText_eq_iff.mp htext)
    exact .refl _
  · obtain ⟨hma, hmm⟩ := mark?_of_kindName_ne hm
    obtain ⟨hna, hnm⟩ := mark?_of_kindName_ne (hkind ▸ hm)
    refine ⟨by rw [hmm, hnm, hkind, htext], ?_⟩
    rw [hma, hna]
    exact .nil

theorem Subsumes.covers {m n : Node} (h : m.Subsumes n) : m.Covers n := by
  cases h with
  | aggregate hab => exact ⟨congrArg (some ∘ Mark.group) hab.dimensions, .cons hab .nil⟩
  | equal hsame => exact covers_of_signature hsame
  | _ => exact ⟨rfl, .nil⟩

end Node

/-! ### Courses -/

namespace Forest

variable {f g : Forest} {i j p : NodeId} {n : Node}

def course (f : Forest) (i : NodeId) : Course :=
  ⟨f.trace i, f.aggregates i⟩

theorem Linked.inherits_course (hf : f.Linked) : f.Inherits Course.start (fun _ => Course.add) f.course := by
  refine ⟨fun {i n} hn => ?_⟩
  unfold course trace aggregates Course.add received
  cases hp : f.parent? i with
  | none =>
    rw [path_of_parent?_eq_none hp]
    cases hmark : n.mark? <;> cases hagg : n.aggregate? <;> simp [hn, hmark, hagg, Course.start]
  | some p =>
    have hne : f.path p ≠ [] := by
      cases hq : f.parent? p with
      | none => simp [path_of_parent?_eq_none hq]
      | some q => simp [hf.path_of_parent? hq]
    rw [hf.path_of_parent? hp, List.head?_append_of_ne_nil _ hne]
    cases hmark : n.mark? <;> cases hagg : n.aggregate? <;> simp [hn, hmark, hagg]

theorem Linked.course_of_silent (hf : f.Linked) (hn : f.node? i = some n) (hsilent : n.Silent)
    (hp : f.parent? i = some p) : f.course i = f.course p := by
  rw [hf.inherits_course.eq hn, received_of_parent? hp, Course.add_of_silent _ hsilent]

theorem Linked.course_of_veiled (hf : f.Linked) {a : NodeId} (h : f.Veiled a i) :
    f.course i = f.course a := by
  induction h with
  | refl => rfl
  | step _ hp hn hveil ih => rw [hf.course_of_silent hn hveil.silent hp, ih]

end Forest

/-! ### Rewrites -/

section

open Forest

variable {rowIds : Bool} {f g : Forest} {j : NodeId} {n : Node}

theorem Node.Revises.endsBranch {m r : Node} (h : r.Revises m) : endsBranch r = false := by
  cases h <;> rfl

theorem Rewrite.node?_of_kind {P : Node → Bool} (h : Rewrite rowIds f g) (hf : f.Planted)
    (hn : g.node? j = some n) (hP : P n) (hrevised : ∀ {r m}, r.Revises m → P r = false)
    (hparse : ∀ c, P (.parse c) = false) : f.node? j = some n := by
  cases h with
  | drop _ _ | prune _ _ _ => exact (node?_of_remove hn).2
  | @revise i m r signals hm hrevises =>
    rcases node?_of_setNode (f := f) hm hn with ⟨-, rfl⟩ | ⟨-, hold⟩
    · rw [hrevised hrevises] at hP
      exact Bool.noConfusion hP
    · exact hold
  | raise _ _ _ hp hg => exact (node?_of_contents (hf.contents_exchange hp hg) j).symm.trans hn
  | shift _ _ _ _ _ _ => exact (node?_of_contents (contents_setParent f _ _) j).symm.trans hn
  | insert c _ =>
    rcases hf.arena.node?_of_add hn with ⟨-, rfl⟩ | hn
    · rw [hparse] at hP
      exact Bool.noConfusion hP
    · exact hn
  | join _ _ _ _ _ _ | joinAbove _ _ _ => exact (node?_of_absorb hn).2

theorem Rewrite.node?_of_endsBranch (h : Rewrite rowIds f g) (hf : f.Planted) (hn : g.node? j = some n)
    (hends : endsBranch n) : f.node? j = some n :=
  h.node?_of_kind hf hn hends Node.Revises.endsBranch fun _ => rfl

theorem Course.lossless : Lossless (fun c d : Course => d.Refines c) fun _ => Course.add where
  refl := .refl
  trans h h' := h'.trans h
  add _ _ _ _ h := Course.Refines.add h (.refl _)

theorem Rewrite.course_refines (h : Rewrite rowIds f g) (hf : f.Planted) (hn : g.node? j = some n)
    (hends : endsBranch n) : (g.course j).Refines (f.course j) := by
  refine (h.carried (fun _ => False) hf Course.lossless hf.inherits_course
    (h.planted hf).inherits_course (fun hi hd hp => ?_)
    (fun hrevises b => (Course.Refines.refl b).add hrevises.covers) (fun hrises b => ?_)
    (fun hveil hveil' _ => ?_) (fun _ _ hsubsumes _ b => (Course.Refines.refl b).add hsubsumes.covers)
    hn fun m hrises => ?_).1
  · rw [hf.course_of_silent hi hd.silent hp]
    exact .refl _
  · rw [Course.add_of_silent _ hrises.silent]
    exact ⟨.refl _, .refl _, nofun⟩
  · rw [hf.course_of_veiled hveil, hf.course_of_veiled hveil']
    exact .refl _
  · cases hrises <;> exact Bool.noConfusion hends

theorem Rewrites.course_refines (h : Rewrites rowIds f g) (hf : f.Planted) (hn : g.node? j = some n)
    (hends : endsBranch n) : f.node? j = some n ∧ (g.course j).Refines (f.course j) := by
  induction h with
  | refl => exact ⟨hn, .refl _⟩
  | tail hsteps hstep ih =>
    have hplanted := Rewrites.planted hsteps hf
    obtain ⟨hold, hcourse⟩ := ih (hstep.node?_of_endsBranch hplanted hn hends)
    exact ⟨hold, (hstep.course_refines hplanted hn hends).trans hcourse⟩

end

/-! ### The passes -/

/-- The passes succeed on every forest that passes the check and has its data sources as roots. An
output or a facet that is there afterwards was there before; its rows come from the same root, the
same happened to them on the way, and each aggregate on the way gives at least the results of the one
in its place before. -/
theorem trace_runPasses {f : Forest} (rowIds : Bool) (hgraph : f.Graph) (hcheck : f.check = .ok ())
    (hroots : ∀ i, i ∈ f.sources ↔ f.holds i Node.isDataSource) :
    ∃ q, runPasses rowIds f = .ok q ∧
      ∀ i n, q.forest.node? i = some n → n.isOutput ∨ n.isFacet →
        f.node? i = some n ∧ q.forest.trace i = f.trace i ∧
          List.Forall₂ Aggregate.Extends (q.forest.aggregates i) (f.aggregates i) := by
  have hf := hgraph.planted hcheck hroots
  obtain ⟨q, heq, hsteps⟩ := runPasses_rewrites rowIds hf
  refine ⟨q, heq, fun i n hn hkind => ?_⟩
  have hends : endsBranch n := by
    cases n <;> simp_all [Node.isOutput, Node.isFacet, endsBranch]
  obtain ⟨hold, hcourse⟩ := hsteps.course_refines hf hn hends
  exact ⟨hold, hcourse.trace, hcourse.aggregates⟩

/-- Rows that are grouped alike in two places, each with an output, one of them below a coercion. -/
def groupedTwice : Forest where
  slots := [some (.source .empty),
    some (.aggregate { dimensions := ["kind"], measures := [("price", [("sum", ["total"])])] }),
    some (.aggregate { dimensions := ["kind"], measures := [("price", [("mean", ["average"])])] }),
    some (.parse ⟨[("total", "number")]⟩), some (.output (.fresh "totals" .main 0)),
    some (.output (.fresh "averages" .main 1))]
  edges := [⟨2, 5, 0⟩, ⟨3, 4, 0⟩, ⟨1, 3, 0⟩, ⟨0, 2, 1⟩, ⟨0, 1, 0⟩]
  sources := [0]
  outputs := [("averages", 5), ("totals", 4)]
  requests := [("averages", 1), ("totals", 1)]

theorem trace_groupedTwice : groupedTwice.check = .ok () ∧
    ∃ q, runPasses true groupedTwice = .ok q ∧
      ∀ i n, q.forest.node? i = some n → n.isOutput ∨ n.isFacet →
        groupedTwice.node? i = some n ∧ q.forest.trace i = groupedTwice.trace i ∧
          List.Forall₂ Aggregate.Extends (q.forest.aggregates i) (groupedTwice.aggregates i) := by
  have hcheck : groupedTwice.check = .ok () := by rfl
  have hgraph : groupedTwice.Graph := ⟨⟨by decide, by decide⟩, by decide⟩
  exact ⟨hcheck, trace_runPasses true hgraph hcheck (Forest.roots_of_slots (by decide))⟩

end ChartPlan.Flow
