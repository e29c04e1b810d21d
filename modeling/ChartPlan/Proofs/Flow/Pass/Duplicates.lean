import ChartPlan.Proofs.Flow.Ancestry
import ChartPlan.Proofs.Flow.Pass.Raising

/-!
# Time units that are computed already

The pass that drops time units walks up from every leaf and remembers the time units on its way. What a
time unit writes is dropped from those that were met before it, which are below it. Only the names of
the results decide: a result of another field, or of another unit, is dropped as well, and so is one
that was overwritten on the way.

* `Forest.Thinned`: a forest from which the pass has dropped something, with the reason for it.
* `removeDuplicateTimeUnits_computed`: what is dropped is written above, and it is computed there when
  names tell what is computed.
-/

namespace ChartPlan.Flow

open Forest List

/-! ### Cuts of a node -/

/-- Whether a cut writes a name: the one of its result, or the one of the end of the unit. -/
def TimeCut.Writes (c : TimeCut) (name : String) : Prop :=
  name = c.output ∨ name = c.endName

theorem TimeUnits.mem_produced {unit : TimeUnits} {name : String} :
    name ∈ unit.produced ↔ ∃ c ∈ unit.cuts.values, c.Writes name := by
  unfold produced TimeCut.Writes
  rw [NameSet.mem_ofList, mem_flatMap]
  simp

/-- Whether every cut stands under the name of its result. -/
def TimeUnits.Keyed (unit : TimeUnits) : Prop :=
  ∀ entry ∈ unit.cuts, entry.1 = entry.2.output

namespace Forest

variable {f g : Forest} {a i j : NodeId} {c d : TimeCut} {unit rest : TimeUnits} {name : String}

/-- The cuts that a node makes; none when it is no time unit. -/
def cutsAt (f : Forest) (i : NodeId) : List TimeCut :=
  match (f.node? i).bind Node.timeUnit? with
  | some unit => unit.cuts.values
  | none => []

theorem cutsAt_of_node? (h : f.node? i = some (.timeUnit unit)) : f.cutsAt i = unit.cuts.values := by
  unfold cutsAt
  rw [h]
  rfl

theorem cutsAt_congr (h : g.node? i = f.node? i) : g.cutsAt i = f.cutsAt i := by
  unfold cutsAt
  rw [h]

theorem cutsAt_setNode (h : f.node? i = some (.timeUnit unit)) (j : NodeId) :
    (f.setNode i (.timeUnit rest)).cutsAt j = if j = i then rest.cuts.values else f.cutsAt j := by
  split
  · rename_i hj
    subst hj
    refine cutsAt_of_node? ?_
    rw [node?_setNode, if_pos rfl, h]
    rfl
  · rename_i hj
    exact cutsAt_congr (by rw [node?_setNode, if_neg hj])

theorem cutsAt_remove (f : Forest) (i j : NodeId) :
    (f.remove i).cutsAt j = if j = i then [] else f.cutsAt j := by
  split
  · rename_i hj
    unfold cutsAt
    rw [node?_remove, if_pos hj]
    rfl
  · rename_i hj
    exact cutsAt_congr (by rw [node?_remove, if_neg hj])

def WrittenOver (f : Forest) (i : NodeId) (name : String) : Prop :=
  ∃ a d, f.Over a i ∧ d ∈ f.cutsAt a ∧ d.Writes name

/-! ### What is left of a forest -/

/-- What is left of a forest when time units have lost cuts that are written above them. -/
structure Thinned (f g : Forest) : Prop where
  linked : g.Linked
  parents : ∀ {a i}, g.parent? i = some a → f.Over a i
  keyed : ∀ {i unit}, g.node? i = some (.timeUnit unit) → unit.Keyed
  kept : ∀ i, g.cutsAt i ⊆ f.cutsAt i
  dropped : ∀ {i c}, c ∈ f.cutsAt i → c ∉ g.cutsAt i → f.WrittenOver i c.output

theorem Thinned.refl (hf : f.Linked)
    (hkeyed : ∀ {i unit}, f.node? i = some (.timeUnit unit) → unit.Keyed) : f.Thinned f where
  linked := hf
  parents := hf.over_of_parent?
  keyed := hkeyed
  kept _ := List.Subset.refl _
  dropped hc hnot := absurd hc hnot

theorem Thinned.without (h : f.Thinned g) (hj : g.node? j = some (.timeUnit unit))
    {produced : NameSet} (hproduced : ∀ name ∈ produced, f.WrittenOver j name) :
    f.Thinned (g.setNode j (.timeUnit (unit.without produced))) where
  linked := h.linked.congr rfl (h.linked.arena.modify _ _) fun i hi => by
    rwa [setNode, contains_modify]
  parents hp := h.parents ((parent?_congr rfl _).symm.trans hp)
  keyed {i left} hi := by
    rw [node?_setNode] at hi
    split at hi
    · rename_i he
      subst he
      rw [hj] at hi
      cases hi
      exact fun entry he => h.keyed hj entry (mem_of_mem_filter he)
    · exact h.keyed hi
  kept i := by
    rw [cutsAt_setNode hj]
    split
    · rename_i hi
      subst hi
      have hsub : (unit.without produced).cuts.values ⊆ unit.cuts.values :=
        (filter_sublist.map _).subset
      exact fun c hc => h.kept i (by rw [cutsAt_of_node? hj]; exact hsub hc)
    · exact h.kept i
  dropped {i c} hc hnot := by
    rw [cutsAt_setNode hj] at hnot
    split at hnot
    · rename_i hi
      subst hi
      by_cases hmem : c ∈ g.cutsAt i
      · -- The cut was there until now, so its name is one of those above.
        rw [cutsAt_of_node? hj] at hmem
        obtain ⟨entry, hentry, rfl⟩ := mem_map.mp hmem
        have hname : produced.contains entry.1 := by
          by_contra hno
          exact hnot (mem_map_of_mem (mem_filter.mpr ⟨hentry, by simpa using hno⟩))
        rw [← h.keyed hj entry hentry]
        exact hproduced _ (contains_iff_mem.mp hname)
      · exact h.dropped hc hmem
    · exact h.dropped hc hnot

theorem Thinned.remove (hf : f.Linked) (h : f.Thinned g) (hj : g.cutsAt j = []) :
    f.Thinned (g.remove j) where
  linked := h.linked.remove j
  parents {a i} hp := by
    rw [h.linked.parent?_remove] at hp
    split at hp
    · cases hp
    · split at hp
      · rename_i hij
        exact hf.over_trans (h.parents hp) (h.parents hij)
      · exact h.parents hp
  keyed hi := h.keyed (node?_of_remove hi).2
  kept i := by
    rw [cutsAt_remove]
    split
    · exact nil_subset _
    · exact h.kept i
  dropped {i c} hc hnot := by
    refine h.dropped hc fun hmem => hnot ?_
    rw [cutsAt_remove]
    split
    · rename_i hi
      rw [hi, hj] at hmem
      cases hmem
    · exact hmem

end Forest

/-! ### The pass -/

variable {f : Forest} {i j : NodeId}

theorem dropCuts_thinned (hf : f.Linked) {produced : NameSet} {p : Progress} (kept : List NodeId)
    (h : f.Thinned p.forest) (hproduced : ∀ name ∈ produced, f.WrittenOver j name) :
    f.Thinned (dropCuts produced (p, kept) j).1.forest ∧
      (dropCuts produced (p, kept) j).2 ⊆ kept ++ [j] := by
  unfold dropCuts
  dsimp only
  split
  · exact ⟨h, subset_append_left _ _⟩
  · rename_i unit hunit
    -- Whether or not cuts are lost, the node makes those that are left.
    have hleft : ∃ q : Progress, q = (if (unit.without produced).cuts.length == unit.cuts.length then p
        else p.change (p.forest.setNode j (.timeUnit (unit.without produced)))) ∧
        f.Thinned q.forest ∧ q.forest.cutsAt j = (unit.without produced).cuts.values := by
      refine ⟨_, rfl, ?_⟩
      split
      · rename_i hlength
        have hsame : (unit.without produced).cuts = unit.cuts :=
          filter_sublist.eq_of_length (beq_iff_eq.mp hlength)
        exact ⟨h, by rw [hsame, cutsAt_of_node? hunit]⟩
      · exact ⟨h.without hunit hproduced, (cutsAt_setNode hunit j).trans (if_pos rfl)⟩
    obtain ⟨q, hq, hthin, hcuts⟩ := hleft
    rw [← hq]
    split
    · rename_i hempty
      refine ⟨hthin.remove hf ?_, subset_append_left _ _⟩
      rw [hcuts, isEmpty_iff.mp hempty]
      rfl
    · exact ⟨hthin, List.Subset.refl _⟩
  · exact ⟨h, List.Subset.refl _⟩

theorem foldl_dropCuts_thinned (hf : f.Linked) {produced : NameSet} (seen : List NodeId) {p : Progress}
    (kept : List NodeId) (h : f.Thinned p.forest)
    (hproduced : ∀ j ∈ seen, ∀ name ∈ produced, f.WrittenOver j name) :
    f.Thinned (seen.foldl (dropCuts produced) (p, kept)).1.forest ∧
      (seen.foldl (dropCuts produced) (p, kept)).2 ⊆ kept ++ seen := by
  refine foldlRecOn seen _ (motive := fun s : Progress × List NodeId =>
    f.Thinned s.1.forest ∧ s.2 ⊆ kept ++ seen) ⟨h, subset_append_left _ _⟩ fun s hs j hj => ?_
  obtain ⟨hstep, hsub⟩ := dropCuts_thinned hf s.2 hs.1 (hproduced j hj)
  exact ⟨hstep, List.Subset.trans hsub (append_subset.mpr
    ⟨hs.2, cons_subset.mpr ⟨mem_append_right _ hj, nil_subset _⟩⟩)⟩

theorem dropBelow_thinned (hf : f.Linked) {p : Progress} {seen : List NodeId}
    (hp : f.Thinned p.forest) (hseen : ∀ j ∈ seen, f.Over i j) :
    ∃ memory q, dropBelow seen p i = .ok (.parent, memory, q) ∧ f.Thinned q.forest ∧
      ∀ a, p.forest.parent? i = some a → ∀ j ∈ memory, f.Over a j := by
  unfold dropBelow
  split
  · rename_i unit hunit
    rw [timeUnit?_bind_eq_some] at hunit
    have hproduced : ∀ j ∈ seen, ∀ name ∈ unit.produced, f.WrittenOver j name := fun j hj name hname => by
      obtain ⟨d, hd, hwrites⟩ := TimeUnits.mem_produced.mp hname
      exact ⟨i, d, hseen j hj, hp.kept i (by rwa [cutsAt_of_node? hunit]), hwrites⟩
    obtain ⟨hthin, hsub⟩ := foldl_dropCuts_thinned hf seen [] hp hproduced
    refine ⟨_, _, rfl, hthin, fun a ha j hj => ?_⟩
    rcases mem_append.mp hj with hj | hj
    · exact hf.over_trans (hp.parents ha) (hseen j (hsub hj))
    · rw [mem_singleton.mp hj]
      exact hp.parents ha
  · exact ⟨seen, p, rfl, hp, fun a ha j hj => hf.over_trans (hp.parents ha) (hseen j hj)⟩

theorem dropBelow_guards (hf : f.Linked) :
    Climb.Guards { start := [], visit := dropBelow } (fun p => f.Thinned p.forest)
    (fun seen i => ∀ j ∈ seen, f.Over i j) fun _ => False where
  ok hp hseen _ heq := by
    obtain ⟨memory, q, heq', hq, hnext⟩ := dropBelow_thinned hf hp hseen
    cases Eq.trans heq.symm heq'
    exact ⟨hq, hnext⟩
  error hp hseen _ heq := by
    obtain ⟨memory, q, heq', -⟩ := dropBelow_thinned hf hp hseen
    cases Eq.trans heq.symm heq'

/-- Whether names tell what a cut of a node computes: a time unit over the node that writes the name of
the result makes the same cut, and of the nodes in between only those that make it, too, may write what
it reads and writes. -/
structure Forest.Telling (f : Forest) (i : NodeId) (c : TimeCut) : Prop where
  same : ∀ {a d}, f.Over a i → d ∈ f.cutsAt a → d.Writes c.output → d = c
  quiet : ∀ {a m n}, c ∈ f.cutsAt a → f.Over a m → f.Over m i → f.node? m = some n →
    mayWrite n [c.output, c.endName, c.field] → c ∈ f.cutsAt m

/-- The pass succeeds on every forest that passes the check. The name of a cut that it drops is written
by a time unit over the node. Where names tell what is computed, that time unit makes the same cut, and
no node in between may write the field that is cut or the results. -/
theorem removeDuplicateTimeUnits_computed {f : Forest} (hgraph : f.Graph) (hcheck : f.check = .ok ())
    (hroots : ∀ i ∈ f.sources, f.contains i)
    (hkeyed : ∀ i unit, f.node? i = some (.timeUnit unit) → unit.Keyed) :
    ∃ q, removeDuplicateTimeUnits f = .ok q ∧
      ∀ i c, c ∈ f.cutsAt i → c ∉ q.forest.cutsAt i →
        (∃ a d, f.Over a i ∧ d ∈ f.cutsAt a ∧ d.Writes c.output) ∧
        (f.Telling i c → ∃ a, f.Over a i ∧ c ∈ f.cutsAt a ∧ ∀ m n, f.Over a m → f.Over m i →
          f.node? m = some n → mayWrite n [c.output, c.endName, c.field] = false) := by
  have hf : f.Linked := ((hgraph.check_eq_ok_iff hroots).mp hcheck).toLinked
  obtain ⟨q, heq, hthin⟩ := ((dropBelow_guards hf).run (f := f) (by simp)
    (Thinned.refl hf fun hi => hkeyed _ _ hi)).exists_ok
  refine ⟨q, heq, fun i c hc hnot => ?_⟩
  obtain ⟨a, d, ha, hd, hwrites⟩ := hthin.dropped hc hnot
  refine ⟨⟨a, d, ha, hd, hwrites⟩, fun htelling => ?_⟩
  cases htelling.same ha hd hwrites
  -- The nearest time unit with the cut: a node in between that interferes would be nearer.
  obtain ⟨b, hb, hcut, hnearest⟩ := hf.exists_nearest (P := fun a => c ∈ f.cutsAt a) ⟨a, ha, hd⟩
  refine ⟨b, hb, hcut, fun m n hbm hmi hn => ?_⟩
  by_contra hwrite
  exact hnearest m hbm hmi (htelling.quiet hcut hbm hmi hn (Bool.not_eq_false _ ▸ hwrite))

def byMonth : TimeCut := ⟨"month_date", "date", ⟨"month", false⟩⟩

def byYear : TimeCut := ⟨"year_date", "date", ⟨"year", false⟩⟩

/-- Dates that are cut to months, and further below to months and to years. -/
def cutTwice : Forest where
  slots := [some (.source .empty), some (.timeUnit ⟨[("month_date", byMonth)]⟩),
    some (.formula ⟨"datum.count + 1", "next"⟩),
    some (.timeUnit ⟨[("month_date", byMonth), ("year_date", byYear)]⟩),
    some (.output (.fresh "rows" .main 0))]
  edges := [⟨3, 4, 0⟩, ⟨2, 3, 0⟩, ⟨1, 2, 0⟩, ⟨0, 1, 0⟩]
  sources := [0]
  outputs := [("rows", 4)]
  requests := [("rows", 1)]

theorem cutTwice_graph : cutTwice.Graph :=
  ⟨⟨by decide, by decide⟩, by decide⟩

theorem cutTwice_telling : cutTwice.Telling 3 byMonth where
  same {a d} ha hd _ := by
    rcases a with _ | _ | _ | _ | _ | a
    · cases hd
    · exact mem_singleton.mp hd
    · cases hd
    · exact absurd rfl ha.2
    · cases hd
    · simp [cutTwice, cutsAt, node?] at hd
  quiet {a m n} _ ham hm hn hwrite := by
    rcases m with _ | _ | _ | _ | _ | m
    · exact absurd hwrite (by cases hn; decide +kernel)
    · exact mem_singleton_self _
    · exact absurd hwrite (by cases hn; decide +kernel)
    · exact absurd rfl hm.2
    · exact absurd hwrite (by cases hn; decide +kernel)
    · simp [cutTwice, node?] at hn

theorem removeDuplicateTimeUnits_cutTwice : byMonth ∈ cutTwice.cutsAt 3 ∧ cutTwice.Telling 3 byMonth ∧
    (removeDuplicateTimeUnits cutTwice).toOption.map (fun q => q.forest.cutsAt 3) = some [byYear] ∧
    ∃ q, removeDuplicateTimeUnits cutTwice = .ok q ∧
      ∀ i c, c ∈ cutTwice.cutsAt i → c ∉ q.forest.cutsAt i →
        (∃ a d, cutTwice.Over a i ∧ d ∈ cutTwice.cutsAt a ∧ d.Writes c.output) ∧
        (cutTwice.Telling i c → ∃ a, cutTwice.Over a i ∧ c ∈ cutTwice.cutsAt a ∧
          ∀ m n, cutTwice.Over a m → cutTwice.Over m i → cutTwice.node? m = some n →
            mayWrite n [c.output, c.endName, c.field] = false) := by
  refine ⟨mem_cons_self, cutTwice_telling, by decide +kernel,
    removeDuplicateTimeUnits_computed cutTwice_graph rfl (by decide) fun i unit hunit => ?_⟩
  rcases i with _ | _ | _ | _ | _ | i
  · cases hunit
  · cases hunit
    unfold TimeUnits.Keyed
    decide
  · cases hunit
  · cases hunit
    unfold TimeUnits.Keyed
    decide
  · cases hunit
  · simp [cutTwice, node?] at hunit

/-- Dates that are cut to years and, under the same name, to months. -/
def recutRows : Forest where
  slots := [some (.source .empty), some (.timeUnit ⟨[("time", ⟨"time", "date", ⟨"year", false⟩⟩)]⟩),
    some (.timeUnit ⟨[("time", ⟨"time", "date", ⟨"month", false⟩⟩)]⟩),
    some (.output (.fresh "rows" .main 0))]
  edges := [⟨2, 3, 0⟩, ⟨1, 2, 0⟩, ⟨0, 1, 0⟩]
  sources := [0]
  outputs := [("rows", 3)]
  requests := [("rows", 1)]

/-- Dates that are cut to months again, after a formula has written over the months. -/
def rewrittenMonths : Forest where
  slots := [some (.source .empty), some (.timeUnit ⟨[("month_date", byMonth)]⟩),
    some (.formula ⟨"0", "month_date"⟩), some (.timeUnit ⟨[("month_date", byMonth)]⟩),
    some (.output (.fresh "rows" .main 0))]
  edges := [⟨3, 4, 0⟩, ⟨2, 3, 0⟩, ⟨1, 2, 0⟩, ⟨0, 1, 0⟩]
  sources := [0]
  outputs := [("rows", 4)]
  requests := [("rows", 1)]

/-- The months are dropped where only years are computed above, and where a formula in between has
written over the months that are computed above. -/
theorem removeDuplicateTimeUnits_recut :
    (recutRows.check = .ok () ∧ recutRows.cutsAt 2 = [⟨"time", "date", ⟨"month", false⟩⟩] ∧
      (removeDuplicateTimeUnits recutRows).toOption.map (fun q => q.forest.cutsAt 2) = some [] ∧
      ∀ a, ⟨"time", "date", ⟨"month", false⟩⟩ ∈ recutRows.cutsAt a → a = 2) ∧
    rewrittenMonths.check = .ok () ∧ rewrittenMonths.cutsAt 3 = [byMonth] ∧
      (removeDuplicateTimeUnits rewrittenMonths).toOption.map (fun q => q.forest.cutsAt 3) = some [] ∧
      ∀ a, rewrittenMonths.Over a 3 → byMonth ∈ rewrittenMonths.cutsAt a →
        ∃ m n, rewrittenMonths.Over a m ∧ rewrittenMonths.Over m 3 ∧
          rewrittenMonths.node? m = some n ∧ mayWrite n [byMonth.output] = true := by
  refine ⟨⟨rfl, rfl, by decide +kernel, fun a ha => ?_⟩, rfl, rfl, by decide +kernel, fun a ha hcut => ?_⟩
  · rcases a with _ | _ | _ | _ | a
    · cases ha
    · exact absurd ha (by decide +kernel)
    · rfl
    · cases ha
    · simp [recutRows, cutsAt, node?] at ha
  · have hlinked : rewrittenMonths.Linked :=
      ((Graph.check_eq_ok_iff ⟨⟨by decide, by decide⟩, by decide⟩ (by decide)).mp rfl).toLinked
    rcases a with _ | _ | _ | _ | _ | a
    · cases hcut
    · exact ⟨2, _, hlinked.over_of_parent? rfl, hlinked.over_of_parent? rfl, rfl, by decide +kernel⟩
    · cases hcut
    · exact absurd rfl ha.2
    · cases hcut
    · simp [rewrittenMonths, cutsAt, node?] at hcut

end ChartPlan.Flow
