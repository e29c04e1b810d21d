import ChartPlan.Proofs.Flow.Ancestry

/-!
# Bins that move up

Before the pass that merges bins lifts one over its parent, it looks at what the bin reads, and not at
what it writes: a node above may read or write the results, or it may drop them.

* `mergeBins_moves`: the whole pass is a run of moves, also when it fails.
* `BinMove.unseen`: that nodes above bins leave alone what the bins write is kept by every move.
* `mergeBins_lifts`: what is known of the bins and the nodes over which the pass lifts them.
-/

namespace ChartPlan.Flow

open Forest

/-! ### Outcomes -/

def Attempt.left (a : Attempt) : Forest :=
  match a with
  | .ok p => p.forest
  | .error e => e.progress.forest

theorem Attempt.left_of_meets {a : Attempt} {I : Forest → Prop}
    (h : a.Meets (fun p => I p.forest) fun e => I e.progress.forest) : I a.left := by
  cases a with
  | ok p => exact h
  | error e => exact h

theorem Climb.guards_ofVisit {I : Progress → Prop} {E : Failure → Prop}
    {visit : Progress → NodeId → Except Failure (Step × Progress)}
    (h : ∀ p i, I p → p.forest.contains i →
      (∀ step q, visit p i = .ok (step, q) → I q) ∧ ∀ e, visit p i = .error e → E e) :
    (Climb.ofVisit visit).Guards I (fun _ _ => True) E where
  ok {_ p i step _ q} hp _ hi heq := by
    obtain ⟨r, hvisit, hr⟩ := map_eq_ok.mp heq
    cases hr
    exact ⟨(h p i hp hi).1 _ _ hvisit, fun _ _ => trivial⟩
  error {_ p i e} hp _ hi heq := by
    have hmap : (visit p i).map _ = .error e := heq
    cases hvisit : visit p i with
    | ok r => simp [hvisit, Except.map] at hmap
    | error e' =>
      rw [hvisit] at hmap
      cases hmap
      exact (h p i hp hi).2 _ hvisit

/-! ### Moves -/

variable {ok : Bins → Node → Prop} {f g : Forest} {i j keep other above grand : NodeId} {a b : Bins}
  {n : Node}

theorem mergeBins_moves (hf : f.Linked) : BinMoves Bins.Clears f (mergeBins f).left := by
  have hguards : (Climb.ofVisit gatherBins).Guards (fun p => BinMoves Bins.Clears f p.forest)
      (fun _ _ => True) fun e => BinMoves Bins.Clears f e.progress.forest := by
    refine Climb.guards_ofVisit fun p i hp _ => ?_
    obtain ⟨hok, herror⟩ := gatherBins_moves (BinMoves.linked hp hf) i
    exact ⟨fun step q heq => hp.trans (hok step q heq).moves,
      fun e heq => hp.trans (herror e heq).1⟩
  exact Attempt.left_of_meets (hguards.run (fun _ => trivial) .refl)

theorem mergeBins_succeeds (hgraph : f.Graph) (hcheck : f.check = .ok ())
    (hsources : ∀ i, i ∈ f.sources ↔ f.holds i Node.isDataSource) : ∃ q, mergeBins f = .ok q :=
  (Pass.does false .mergeBins (hgraph.planted hcheck hsources)).imp fun _ h => h.1

/-! ### What bins write -/

/-- A node that leaves alone what bins write: it neither writes nor reads it, and when it aggregates rows
it keeps it. -/
structure Bins.Unseen (b : Bins) (n : Node) : Prop where
  unwritten : ∀ name ∈ b.produced, mayWrite n [name] = false
  unread : ∀ name ∈ b.produced, name ∉ n.deps
  kept : ∀ a, n = .aggregate a → ∀ name ∈ b.produced, name ∈ a.dimensions

theorem Bins.Unseen.merge (ha : a.Unseen n) (hb : b.Unseen n) (signals : Renames) :
    (a.merge b signals).1.Unseen n where
  unwritten name hname := (mem_produced_merge hname).elim (ha.unwritten name) (hb.unwritten name)
  unread name hname := (mem_produced_merge hname).elim (ha.unread name) (hb.unread name)
  kept c hc name hname := (mem_produced_merge hname).elim (ha.kept c hc name) (hb.kept c hc name)

/-- Whether the nodes over bins that let bins pass leave alone what the bins write. -/
def Forest.Unseen (f : Forest) : Prop :=
  ∀ {i above b n}, f.node? i = some (.bin b) → f.Over above i → f.node? above = some n →
    n.isBin = false → letsBinsPass n → b.Unseen n

section

variable {x y : NodeId} {merged : Node}

theorem Forest.Linked.below_of_near (hf : f.Linked) (hx : x ≠ keep) (hb : f.Below x keep)
    (hnear : f.Near keep other) : f.Below x other := by
  rcases hnear with hp | ⟨p, hk, ho⟩
  · exact hb.trans (hf.below_of_parent? hp)
  · exact ((hf.over_iff hk).mp ⟨hb, hx⟩).trans (hf.below_of_parent? ho)

theorem Joined.below_of_ne (h : Joined f g keep other merged) (hf : f.Linked) (hx : x ≠ keep)
    (hnear : f.Near keep other) (hb : g.Below x y) : f.Below x y := by
  induction hb with
  | refl => exact .refl f x
  | @tail y z _ hz ih =>
    have hp := (h.parent z).symm.trans (h.linked.parent?_of_mem hz)
    split at hp
    · cases hp
    · split at hp
      · rename_i hzo
        cases hp
        exact (hf.below_of_near hx ih hnear).trans (hf.below_of_parent? hzo)
      · exact ih.trans (hf.below_of_parent? hp)

theorem Forest.Linked.below_of_exchange_ne (hf : f.Linked) (hp : f.parent? i = some above)
    (hg : f.parent? above = some grand) (hx : x ≠ i) (hb : (f.exchange i).2.Below x y) :
    f.Below x y := by
  rw [hf.below_exchange_iff hp hg, if_neg hx] at hb
  exact hb.1

end

theorem BinMove.unseen (h : BinMove ok f g) (hf : f.Linked) (hunseen : f.Unseen) : g.Unseen := by
  cases h with
  | @join keep other a b hk ho hne hnear =>
    have hjoined := hf.joined hk ho (hf.not_below_of_near hne hnear)
    intro i above b' n hi habove hn hbin hlets
    rw [hjoined.node] at hi hn
    split at hn
    · cases hn
    · rename_i hao
      split at hn
      · cases hn
        cases hbin
      · rename_i hak
        have hover : f.Over above i := ⟨hjoined.below_of_ne hf hak hnear habove.1, habove.2⟩
        split at hi
        · cases hi
        · split at hi
          · rename_i hik
            cases hi
            subst hik
            exact (hunseen hk hover hn hbin hlets).merge
              (hunseen ho ⟨hf.below_of_near hak hover.1 hnear, hao⟩ hn hbin hlets) f.signals
          · exact hunseen hi hover hn hbin hlets
  | @lift i above grand b n hi hp hn hg hbin hok =>
    have hnode := node?_of_contents (hf.contents_exchange hp hg)
    intro j x b' m hj hx hm hmbin hlets
    rw [hnode] at hj hm
    have hxi : x ≠ i := fun he => by
      rw [he, hi] at hm
      cases hm
      cases hmbin
    exact hunseen hj ⟨hf.below_of_exchange_ne hp hg hxi hx.1, hx.2⟩ hm hmbin hlets

theorem BinMoves.unseen (h : BinMoves Bins.Clears f g) (hf : f.Linked) (hunseen : f.Unseen) :
    BinMoves (fun b n => b.Clears n ∧ b.Unseen n) f g ∧ g.Unseen := by
  induction h with
  | refl => exact ⟨.refl, hunseen⟩
  | @tail g h hmoves hmove ih =>
    obtain ⟨hsofar, hunseen'⟩ := ih
    have hg : g.Linked := BinMoves.linked hmoves hf
    refine ⟨hsofar.tail ?_, hmove.unseen hg hunseen'⟩
    cases hmove with
    | join hk ho hne hnear => exact .join hk ho hne hnear
    | lift hi hp hn hgrand hbin hok =>
      exact .lift hi hp hn hgrand hbin ⟨hok, hunseen' hi (hg.over_of_parent? hp) hn hbin hok.lets⟩

/-- The pass is a run of moves on every forest that passes the check. Whenever it lifts a bin above a
node, the node lets bins pass and writes nothing that the bin reads. If the nodes over the bins of the
forest leave alone what the bins write, so does every node over which the pass lifts a bin. The pass
succeeds when the roots are the data sources. -/
theorem mergeBins_lifts {f : Forest} (hgraph : f.Graph) (hcheck : f.check = .ok ())
    (hroots : ∀ i ∈ f.sources, f.contains i) :
    BinMoves Bins.Clears f (mergeBins f).left ∧
      ((∀ i above b n, f.node? i = some (.bin b) → f.Over above i → f.node? above = some n →
          n.isBin = false → letsBinsPass n → b.Unseen n) →
        BinMoves (fun b n => b.Clears n ∧ b.Unseen n) f (mergeBins f).left) ∧
      ((∀ i, i ∈ f.sources ↔ f.holds i Node.isDataSource) → ∃ q, mergeBins f = .ok q) := by
  have hf : f.Linked := ((hgraph.check_eq_ok_iff hroots).mp hcheck).toLinked
  have hmoves := mergeBins_moves hf
  refine ⟨hmoves, fun hunseen => ?_, mergeBins_succeeds hgraph hcheck⟩
  exact (BinMoves.unseen hmoves hf fun hi ha hn hbin hlets => hunseen _ _ _ _ hi ha hn hbin hlets).1

def tenBins (field start stop : String) : Bins :=
  Bins.add {} (Binning.fresh [("maxbins", .nat 10)] field (start, stop) "")

def binnedTwice : Forest where
  slots := [some (.source .empty), some (.formula ⟨"datum.count + 1", "next"⟩),
    some (.bin (tenBins "size" "size_start" "size_end")),
    some (.bin (tenBins "age" "age_start" "age_end")),
    some (.output (.fresh "bars" .main 0)), some (.output (.fresh "labels" .main 0))]
  edges := [⟨3, 5, 0⟩, ⟨2, 4, 0⟩, ⟨1, 3, 1⟩, ⟨1, 2, 0⟩, ⟨0, 1, 0⟩]
  sources := [0]
  outputs := [("bars", 4), ("labels", 5)]
  requests := [("bars", 1), ("labels", 1)]

theorem binnedTwice_unseen (hi : binnedTwice.node? i = some (.bin b))
    (hn : binnedTwice.node? above = some n) (hbin : n.isBin = false) : b.Unseen n := by
  have hnames : ∀ name ∈ b.produced, name ∈ ["age_end", "age_start", "size_end", "size_start"] := by
    rcases i with _ | _ | _ | _ | _ | _ | i
    · cases hi
    · cases hi
    · cases hi
      decide +kernel
    · cases hi
      decide +kernel
    · cases hi
    · cases hi
    · simp [binnedTwice, node?] at hi
  have hunseen : (∀ name ∈ ["age_end", "age_start", "size_end", "size_start"],
      mayWrite n [name] = false ∧ name ∉ n.deps) → (∀ a, n ≠ .aggregate a) → b.Unseen n :=
    fun hfree hnot => ⟨fun name hname => (hfree name (hnames name hname)).1,
      fun name hname => (hfree name (hnames name hname)).2, fun a ha => absurd ha (hnot a)⟩
  rcases above with _ | _ | _ | _ | _ | _ | above
  · cases hn
    exact hunseen (by decide +kernel) (by simp)
  · cases hn
    exact hunseen (by decide +kernel) (by simp)
  · cases hn
    cases hbin
  · cases hn
    cases hbin
  · cases hn
    exact hunseen (by decide +kernel) (by simp)
  · cases hn
    exact hunseen (by decide +kernel) (by simp)
  · simp [binnedTwice, node?] at hn

theorem mergeBins_binnedTwice :
    [4, 5].map binnedTwice.path = [[0, 1, 2, 4], [0, 1, 3, 5]] ∧
    (mergeBins binnedTwice).toOption.map (fun q => [4, 5].map q.forest.path) =
      some [[0, 2, 1, 4], [0, 2, 1, 5]] ∧
    BinMoves (fun b n => b.Clears n ∧ b.Unseen n) binnedTwice (mergeBins binnedTwice).left ∧
    ∃ q, mergeBins binnedTwice = .ok q := by
  obtain ⟨-, hmoves, hsucceeds⟩ := mergeBins_lifts (f := binnedTwice) ⟨⟨by decide, by decide⟩, by decide⟩
    rfl (by decide)
  exact ⟨by decide +kernel, by decide +kernel,
    hmoves fun i above b n hi _ hn hbin _ => binnedTwice_unseen hi hn hbin, hsucceeds (roots_of_slots (by decide))⟩

def binnedBelow (n : Node) : Forest where
  slots := [some (.source .empty), some n, some (.bin (tenBins "size" "start" "stop")),
    some (.output (.fresh "bars" .main 0))]
  edges := [⟨2, 3, 0⟩, ⟨1, 2, 0⟩, ⟨0, 1, 0⟩]
  sources := [0]
  outputs := [("bars", 3)]
  requests := [("bars", 1)]

/-- A bin is lifted above an aggregate that drops what it writes, above a formula that reads it, and above
a formula that writes it. -/
theorem mergeBins_lifts_blindly :
    "start" ∈ (tenBins "size" "start" "stop").produced ∧
    (∀ n ∈ [Node.aggregate { dimensions := ["size"] }, .formula ⟨"datum.start + 1", "next"⟩,
        .formula ⟨"datum.size", "start"⟩],
      (binnedBelow n).check = .ok () ∧ (binnedBelow n).path 3 = [0, 1, 2, 3] ∧
        (mergeBins (binnedBelow n)).toOption.map (fun q => q.forest.path 3) = some [0, 2, 1, 3]) ∧
    "start" ∉ ["size"] ∧ "start" ∈ (Node.formula ⟨"datum.start + 1", "next"⟩).deps ∧
    mayWrite (.formula ⟨"datum.size", "start"⟩) ["start"] := by
  refine ⟨by decide +kernel, fun n hn => ?_, by decide, by decide +kernel, by decide +kernel⟩
  simp only [List.mem_cons, List.not_mem_nil, or_false] at hn
  rcases hn with rfl | rfl | rfl <;> exact ⟨rfl, by decide +kernel, by decide +kernel⟩

end ChartPlan.Flow
