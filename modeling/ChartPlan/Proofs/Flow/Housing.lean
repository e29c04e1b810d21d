import ChartPlan.Proofs.Flow.Cells

/-!
# Optimization leaves everything in its cell

In the forests that views build, a facet hangs below the main output of its view, and a requested
output stands between any two facets. Then optimization takes no output and no facet out of its cell,
not even when it moves facets down, and the copies that it makes are in no cell at all.

* `Forest.Arranged`: what is known of the forests that views build.
* `Forest.Housing`: what optimization keeps of such a forest.
* `sinkInvariant_housing`: moving facets down keeps it.
* `Arranged.optimize`: so does optimization as a whole.
-/

namespace ChartPlan.Flow

open Forest

/-- Whether a node is given by the user and changed by no pass. -/
def Node.isGiven : Node → Bool
  | .lookup _ => true
  | n => n.isDataSource

/-- Whether an output is the copy of another one of its name, or the copy of a copy. -/
def Output.IsCopy (o : Output) : Prop :=
  ∃ s, o.source = scaleStem ++ s ∧ (s = o.name ∨ ∃ r, s = scaleStem ++ r)

namespace Forest

variable {base f g : Forest} {i j c main : NodeId} {n : Node}

/-- A forest as views build it: outputs have their own names as datasets, and each facet is in the
cell of its main output and screened from the facet above it. -/
structure Arranged (f : Forest) : Prop where
  planted : f.Planted
  numbered : f.Numbered
  fresh : ∀ i o, f.node? i = some (.output o) → o.source = o.name
  screened : f.FacetsScreened
  main : ∀ i m, f.node? i = some (.facet m) → ∃ j o, f.outputs.get? m.main = some j ∧
    f.node? j = some (.output o) ∧ f.Vital (.output o) ∧ f.cell? j = f.cell? i
  unscaled : ∀ i m, f.node? i = some (.facet m) → ∀ s, m.main ≠ scaleStem ++ s

/-- What is kept of an arranged forest. Outputs and facets stay in their cells, and there are no more
of them, apart from copies, which are in no cell. -/
structure Housing (base f : Forest) : Prop extends base.Keeping f where
  screened : f.FacetsScreened
  cell {i : NodeId} {n : Node} : base.node? i = some n → base.Vital n → f.cell? i = base.cell? i
  facet {i : NodeId} {m : Facet} : f.node? i = some (.facet m) → base.node? i = some (.facet m)
  output {i : NodeId} {o : Output} : f.node? i = some (.output o) →
    base.node? i = some (.output o) ∨ o.IsCopy
  entry {e : String × NodeId} : e ∈ f.outputs → e ∈ base.outputs ∨
    ∃ o, f.node? e.2 = some (.output o) ∧ o.source = e.1 ∧ o.IsCopy ∧ f.cell? e.2 = none
  given {i : NodeId} {n : Node} : f.node? i = some n → n.isGiven → ∃ j, base.node? j = some n

theorem Housing.self (h : base.Housing f) : f.Keeping f :=
  ⟨.refl f, h.numbered, h.allRequested⟩

theorem Housing.trans (h : base.Housing f) (h' : f.Housing g) : base.Housing g where
  keeps := h.keeps.trans h'.keeps
  numbered := h'.numbered
  allRequested := h'.allRequested
  screened := h'.screened
  cell hn hv := (h'.cell (h.keeps.node hn hv) (hv.congr h.keeps.requests)).trans (h.cell hn hv)
  facet hm := h.facet (h'.facet hm)
  output ho := (h'.output ho).elim h.output .inr
  entry {e} he := by
    refine (h'.entry he).elim (fun he => ?_) .inr
    refine (h.entry he).imp_right fun ⟨o, ho, hsource, hcopy, hcell⟩ => ?_
    have hv := h.allRequested e.2 o ho
    exact ⟨o, h'.keeps.node ho hv, hsource, hcopy, (h'.cell ho hv).trans hcell⟩
  given hn hgiven := by
    obtain ⟨j, hj⟩ := h'.given hn hgiven
    exact h.given hj hgiven

end Forest

variable {rowIds : Bool} {base f g : Forest} {i j c main : NodeId} {n : Node} {fields : List String}

/-! ### Passes -/

theorem Node.Revises.isGiven {m : Node} (h : m.Revises n) : m.isGiven = false := by
  cases h <;> rfl

theorem Rewrite.node?_of_isGiven (h : Rewrite rowIds f g) (hf : f.Planted)
    (hn : g.node? j = some n) (hgiven : n.isGiven) : f.node? j = some n :=
  h.node?_of_kind hf hn hgiven Node.Revises.isGiven fun _ => rfl

theorem Rewrites.given (h : Rewrites rowIds f g) (hf : f.Planted) :
    (∀ e ∈ g.outputs, e ∈ f.outputs) ∧
      ∀ {j n}, g.node? j = some n → n.isGiven → f.node? j = some n := by
  induction h with
  | refl => exact ⟨fun _ he => he, fun hn _ => hn⟩
  | tail hsteps hstep ih =>
    have hplanted := Rewrites.planted hsteps hf
    exact ⟨fun e he => ih.1 e ((hstep.entries hplanted).2 he),
      fun hn hgiven => ih.2 (hstep.node?_of_isGiven hplanted hn hgiven) hgiven⟩

theorem Rewrites.housing (hsteps : Rewrites rowIds f g) (hf : f.Planted) (hnum : f.Numbered)
    (hall : g.AllRequested) (hscreened : g.FacetsScreened) : f.Housing g := by
  obtain ⟨hkeeps, hnum'⟩ := Rewrites.keeps hsteps hf hnum
  obtain ⟨houtputs, hgiven⟩ := hsteps.given hf
  exact { keeps := hkeeps, numbered := hnum', allRequested := hall, screened := hscreened,
          cell := fun hn hv => hsteps.cell?_eq hf hnum (hkeeps.node hn hv) hv.endsBranch,
          facet := fun hm => (hsteps.course_refines hf hm rfl).1,
          output := fun ho => .inl (hsteps.course_refines hf ho rfl).1,
          entry := fun he => .inl (houtputs _ he),
          given := fun hn hgiven' => ⟨_, hgiven hn hgiven'⟩ }

theorem Forest.Housing.rewrites (h : base.Housing f) (hf : f.Planted)
    (hsteps : Rewrites rowIds f g) : base.Housing g :=
  h.trans (hsteps.housing hf h.numbered (h.toKeeping.rewrites hf hsteps).allRequested
    (hsteps.facetsScreened hf h.numbered h.allRequested h.screened))

/-! ### Outputs that nobody requested -/

theorem dropWhere_induction {P : Forest → Prop} {doomed : Forest → NodeId → Bool}
    (hdrop : ∀ f i, P f → doomed f i → P (f.remove i)) (hf : P f) :
    P (dropWhere doomed f).forest := by
  refine List.foldlRecOn f.sources _ (motive := fun p : Progress => P p.forest) hf fun p hp root _ => ?_
  split
  · refine List.foldlRecOn _ _ (motive := fun p : Progress => P p.forest) hp fun p hp i _ => ?_
    unfold dropNode
    split
    · rename_i hi
      exact hdrop p.forest i hp hi
    · exact hp
  · exact hp

theorem not_vital_of_isUnrequested (h : isUnrequested f i) :
    ∀ n, f.node? i = some n → ¬ f.Vital n := by
  intro n hn hv
  unfold isUnrequested at h
  rw [holds_of_node? hn] at h
  cases n with
  | output o =>
    have hcount : f.requestCount o.name = 0 := by simpa [Node.output?] using h
    exact Nat.not_lt.mpr (Nat.le_of_eq hcount) hv
  | _ => simp [Node.output?] at h

theorem Forest.Arranged.housing_purged (h : f.Arranged) : f.Housing f.purged :=
  (h.planted.rewrites_purged false).housing h.planted h.numbered h.planted.allRequested_purged
    (dropWhere_induction (P := fun f => f.Linked ∧ f.FacetsScreened)
      (fun _ i hf hi => ⟨hf.1.remove i, hf.2.remove hf.1 (not_vital_of_isUnrequested hi)⟩)
      ⟨h.planted.toLinked, h.screened⟩).2

/-! ### Copies -/

namespace Forest

variable {p : NodeId}

theorem Linked.cell?_attach (hf : f.Linked) (hg : (f.attach i p none).Linked)
    (hi : f.parent? i = none) (hp : f.cellBelow p = none) (hj : f.contains j) :
    (f.attach i p none).cell? j = f.cell? j :=
  hf.cell?_eq hg (hf.inherits_cellBelow.attached hg.inherits_cellBelow (.eq _) hf hg hi hp.symm hj)

theorem FacetsScreened.attach (h : f.FacetsScreened) (hf : f.Linked)
    (hg : (f.attach i p none).Linked) (hi : f.parent? i = none) (hp : f.Screens p) :
    (f.attach i p none).FacetsScreened :=
  h.of_received (fun hm => hm) fun hm => ((inherits_screens rfl).attached (inherits_screens rfl)
    (lossless_screen f) hf hg hi (fun _ => hp) (contains_of_node? hm)).received

end Forest

theorem isGiven_globalCopy {ids : IdSupply} (h : (globalCopy fields (n.refresh ids).1).isGiven) :
    globalCopy fields (n.refresh ids).1 = n := by
  cases n <;> first | rfl | exact Bool.noConfusion h

/-- One step of copying, when the main output is in no cell: what was there is in the cell where it
was, and what is new is in none. -/
theorem Forest.Housing.copying {o : Output} (hbase : base.Arranged) (h : base.Housing f)
    (hmain : f.node? main = some (.output o)) (hcell : f.cell? main = none)
    (hstep : Copying fields main f g) :
    f.Housing g ∧ ∀ j, f.contains j → g.contains j ∧ g.cell? j = f.cell? j := by
  have hkeeping : f.Keeping g := h.self.copying hstep
  cases hstep with
  | @copy i _ n loose hf hn hfacet _ =>
    have hcopied := hf.annexed_copyNode fields hn hfacet
    have hgrown := hcopied.grown hf
    have hlinked := hcopied.valid.toLinked
    have hnode := hf.node?_copyNode fields hn
    have hold : ∀ {j}, f.contains j → (f.copyNode fields i).cell? j = f.cell? j :=
      fun hj => hgrown.cell?_eq hf.toLinked hlinked hj
    -- What is not the copy was there before.
    have hcases : ∀ {j m}, (f.copyNode fields i).node? j = some m →
        (j = (f.duplicate i).2 ∧ m = globalCopy fields (n.refresh f.ids).1) ∨
          f.node? j = some m := by
      intro j m hm
      rw [hnode] at hm
      split at hm
      · rename_i hj
        exact .inl ⟨hj, (Option.some.inj hm).symm⟩
      · exact .inr hm
    have hfacets : ∀ {j m}, (f.copyNode fields i).node? j = some (.facet m) →
        f.node? j = some (.facet m) := fun hm => (hcases hm).resolve_left fun ⟨_, he⟩ => by
      have := isFacet_globalCopy fields f.ids hfacet
      rw [← he] at this
      exact Bool.noConfusion this
    -- The copy waits, so it is in no cell.
    have hnew : (f.copyNode fields i).cell? (f.duplicate i).2 = none :=
      cell?_of_root (hcopied.valid.waiting (i := (f.duplicate i).2) (by simp)).2
    have hcopy : ∀ {o}, globalCopy fields (n.refresh f.ids).1 = .output o → o.IsCopy := by
      intro o ho
      obtain ⟨original, rfl, rfl⟩ := eq_output_of_globalCopy ho
      refine ⟨original.source, rfl, ?_⟩
      rcases h.output hn with horiginal | ⟨s, hs, -⟩
      · exact .inl (hbase.fresh _ _ horiginal)
      · exact .inr ⟨s, hs⟩
    refine ⟨{ toKeeping := hkeeping,
              screened := h.screened.grown hgrown hf.toLinked hkeeping.keeps hfacets,
              cell := fun hb _ => hold (contains_of_node? hb), facet := hfacets,
              output := fun ho => (hcases ho).symm.imp_right fun ⟨_, he⟩ => hcopy he.symm,
              entry := fun {e} he => ?_, given := fun {j m} hm hgiven => ?_ },
      fun j hj => ⟨hgrown.contains hj, hold hj⟩⟩
    · rcases hf.outputs_copyNode fields hn with hsame | ⟨o, ho, houtputs⟩
      · exact .inl (hsame ▸ he)
      · rw [houtputs] at he
        rcases Dict.mem_of_mem_insert he with rfl | he
        · exact .inr ⟨o, ho ▸ (hnode _).trans (if_pos rfl), rfl, hcopy ho, hnew⟩
        · exact .inl he
    · rcases hcases hm with ⟨-, rfl⟩ | hm
      · exact ⟨i, hn.trans (congrArg some (isGiven_globalCopy hgiven).symm)⟩
      · exact ⟨j, hm⟩
  | @link i p loose hf hnot hp hb hplace =>
    have hroot : f.parent? i = none := (hf.waiting List.mem_cons_self).2
    have hlinked := (hf.attach_waiting hnot hp hb).1.toLinked
    have hbelow : f.Screens p ∧ f.cellBelow p = none := by
      rcases hplace with rfl | ⟨hproot, hpfacet⟩
      · exact ⟨.output hmain (h.allRequested _ o hmain),
          (cellBelow_eq_cell? (facetName?_eq_none hmain rfl)).trans hcell⟩
      · refine ⟨.step hpfacet fun q hq => ?_, ?_⟩
        · cases hproot.symm.trans hq
        · exact (cellBelow_eq_cell? (facetName?_of_holds hpfacet)).trans (cell?_of_root hproot)
    have hold : ∀ {j}, f.contains j → (f.attach i p none).cell? j = f.cell? j :=
      fun hj => hf.cell?_attach hlinked hroot hbelow.2 hj
    refine ⟨{ toKeeping := hkeeping,
              screened := h.screened.attach hf.toLinked hlinked hroot hbelow.1,
              cell := fun hb _ => hold (contains_of_node? hb), facet := fun hm => hm, output := .inl,
              entry := .inl, given := fun hn _ => ⟨_, hn⟩ }, fun j hj => ⟨hj, hold hj⟩⟩

theorem Copyings.keeps (hsteps : Copyings fields main f g) (hall : f.AllRequested) :
    f.Keeps g ∧ g.AllRequested := by
  induction hsteps with
  | refl => exact ⟨.refl f, hall⟩
  | tail _ hstep ih => exact ⟨ih.1.trans (hstep.keeps ih.2), hstep.allRequested ih.2⟩

section

variable (hbase : base.Arranged) (h : base.Housing f)

include hbase h

theorem Forest.Housing.copyings {o : Output}
    (hmain : f.node? main = some (.output o)) (hcell : f.cell? main = none)
    (hsteps : Copyings fields main f g) :
    base.Housing g ∧ ∀ j, f.contains j → g.contains j ∧ g.cell? j = f.cell? j := by
  induction hsteps with
  | refl => exact ⟨h, fun _ hj => ⟨hj, rfl⟩⟩
  | tail hsteps hstep ih =>
    obtain ⟨h', hold⟩ := ih
    have hmain' := (Copyings.keeps hsteps h.allRequested).1.node hmain (h.allRequested main o hmain)
    obtain ⟨h'', hold'⟩ := h'.copying hbase hmain'
      ((hold main (contains_of_node? hmain)).2.trans hcell) hstep
    refine ⟨h'.trans h'', fun j hj => ?_⟩
    obtain ⟨hj', hcell'⟩ := hold j hj
    exact ⟨(hold' j hj').1, (hold' j hj').2.trans hcell'⟩

/-! ### Moving facets down -/

theorem Forest.Housing.get?_eq {name : String}
    (hentry : base.outputs.get? name = some i) (hn : base.node? i = some n) (hv : base.Vital n)
    (hname : ∀ s, name ≠ scaleStem ++ s) : f.outputs.get? name = some i := by
  rcases h.keeps.entry hentry hn hv with hentry' | ⟨k, o, -, hk, -, -, hsource, hid⟩
  · exact hentry'
  · -- A copy has a number of its own and another name.
    rcases h.output hk with hk | ⟨s, hs, -⟩
    · exact absurd (hbase.numbered.lt hk rfl) (Nat.not_lt.mpr hid)
    · exact absurd (hsource.symm.trans hs) (hname s)

theorem Forest.Housing.main_output {m : NodeId} {node : Facet} (hn : f.node? i = some (.facet node))
    (hm : f.outputs.get? node.main = some m) :
    ∃ o, f.node? m = some (.output o) ∧ f.cell? m = f.cell? i := by
  have hfacet := h.facet hn
  obtain ⟨j, o, hentry, ho, hv, hcell⟩ := hbase.main i node hfacet
  cases hm.symm.trans (h.get?_eq hbase hentry ho hv (hbase.unscaled i node hfacet))
  exact ⟨o, h.keeps.node ho hv, by rw [h.cell ho hv, h.cell hfacet True.intro, hcell]⟩

end

/-- A node that is no facet changes places with its parent. It is no output, or it comes into no other
cell. -/
theorem Forest.Housing.exchange {p grand : NodeId} (h : base.Housing f) (hf : f.Planted)
    (hfacet : f.holds c Node.isFacet = false) (hp : f.parent? c = some p)
    (hg : f.parent? p = some grand) (hscreens : f.Screens c → f.Screens p)
    (hstays : f.holds c Node.isOutput = false ∨ f.cell? c = f.cell? p) :
    base.Housing (f.exchange c).2 := by
  have hcontents := hf.contents_exchange hp hg
  have hnode := node?_of_contents hcontents
  -- Outputs and facets stay in their cells.
  have hold : ∀ {i n}, f.node? i = some n → endsBranch n →
      (f.exchange c).2.cell? i = f.cell? i := by
    intro i n hn hends
    rw [hf.cell?_exchange hfacet hp hg hcontents]
    split
    · rename_i hic
      subst hic
      rcases hstays with hout | hcell
      · rw [holds_of_node? hn] at hfacet hout
        cases n <;> simp_all [endsBranch, Node.isFacet, Node.isOutput]
      · exact hcell.symm
    · rfl
  exact h.trans { toKeeping := h.self.sameEnds (.of_contents hcontents),
                  screened := h.screened.exchange hf.toLinked hfacet hp hg hcontents hscreens,
                  cell := fun hn hv => hold hn hv.endsBranch,
                  facet := fun hm => (hnode _).symm.trans hm,
                  output := fun ho => .inl ((hnode _).symm.trans ho),
                  entry := fun he => .inl (outputs_of_contents hcontents ▸ he),
                  given := fun hn _ => ⟨_, (hnode _).symm.trans hn⟩ }

theorem Node.addDimensions_of_isGiven (h : (n.addDimensions fields).isGiven) :
    n.addDimensions fields = n := by
  cases n <;> first | rfl | exact Bool.noConfusion h

theorem Forest.Planted.cell?_addDimensions (hf : f.Planted) (fields : List String) (c : NodeId)
    (hj : f.contains j) : (f.modify c (Node.addDimensions fields)).cell? j = f.cell? j := by
  refine hf.cell?_eq_of_kept (hf.grouped fields c).toLinked (fun _ => rfl) (fun {k m} hm => ?_) hj
  rw [node?_modify, hm]
  split
  · exact ⟨_, rfl, by cases m <;> rfl⟩
  · exact ⟨m, rfl, rfl⟩

theorem Forest.FacetsScreened.addDimensions (h : f.FacetsScreened) (hf : f.Planted)
    (fields : List String) (c : NodeId) :
    (f.modify c (Node.addDimensions fields)).FacetsScreened := by
  have hsame := sameEnds_modify_addDimensions fields f c
  refine h.of_received (fun hm => (hsame.node rfl).mp hm) fun hm =>
    ((inherits_screens rfl).grown (inherits_screens hsame.keeps.requests) (lossless_screen f)
      hf.toLinked (fun _ => rfl) (fun {k m} hm => ?_)
      (contains_of_node? ((hsame.node rfl).mp hm))).received
  rw [node?_modify, hm]
  split
  · exact ⟨_, rfl, by cases m <;> exact fun _ => id⟩
  · exact ⟨m, rfl, fun _ => id⟩

theorem Forest.Housing.addDimensions (h : base.Housing f) (hf : f.Planted) (fields : List String)
    (c : NodeId) : base.Housing (f.modify c (Node.addDimensions fields)) := by
  have hsame := sameEnds_modify_addDimensions fields f c
  refine h.trans { toKeeping := h.self.sameEnds hsame,
                   screened := h.screened.addDimensions hf fields c,
                   cell := fun hn _ => hf.cell?_addDimensions fields c (contains_of_node? hn),
                   facet := (hsame.node rfl).mp, output := fun ho => .inl ((hsame.node rfl).mp ho),
                   entry := .inl, given := fun {j n} hn hgiven => ?_ }
  rw [node?_modify] at hn
  split at hn
  · obtain ⟨m, hm, rfl⟩ := Option.map_eq_some_iff.mp hn
    exact ⟨j, hm.trans (congrArg some (Node.addDimensions_of_isGiven hgiven).symm)⟩
  · exact ⟨j, hn⟩

theorem sinkInvariant_housing (hbase : base.Arranged) :
    SinkInvariant (fun f => base.Housing f) (fun f i => f.contains i ∧ f.cell? i = none) where
  root hf _ hi := by
    obtain ⟨hlive, hroot, -⟩ := hf.roots.mp hi
    exact ⟨hlive, cell?_of_root hroot⟩
  child {f i c} hf _ hQ hfacet hc := by
    refine ⟨(hf.live hc).2, ?_⟩
    rw [hf.cell?_below (hf.parent?_of_mem hc) hfacet]
    exact hQ.2
  sink {f i c grand node} hf h hQ hn _ hp hgrand hout := by
    -- A facet is screened from the next one, so it is no child of it.
    have hfacet : f.holds c Node.isFacet = false := by
      refine Bool.eq_false_iff.mpr fun hfacet => ?_
      obtain ⟨m, hm⟩ := exists_facet hfacet
      have hnot := (h.screened c m i hm hp).not_facet
      rw [holds_of_node? hn] at hnot
      exact Bool.noConfusion hnot
    have hgrouped := hf.grouped node.fields c
    have hholds : ∀ P : Node → Bool, (∀ n : Node, P (n.addDimensions node.fields) = P n) →
        (f.modify c (Node.addDimensions node.fields)).holds c P = f.holds c P := by
      intro P hP
      unfold holds
      rw [node?_modify, if_pos rfl]
      cases f.node? c with
      | none => rfl
      | some n => exact hP n
    have hfacet' := (hholds _ fun n => by cases n <;> rfl).trans hfacet
    have hout' := (hholds _ fun n => by cases n <;> rfl).trans hout
    have hcontents := hgrouped.contents_exchange hp hgrand
    have h' := h.addDimensions hf node.fields c
    refine ⟨h'.exchange hgrouped hfacet' hp hgrand (fun hscreens => ?_) (.inl hout'),
      fun j hj => ⟨?_, ?_⟩⟩
    · refine hscreens.of_parent? (fun n hn hv => ?_) hp
      rw [holds_of_node? hn] at hfacet' hout'
      cases n <;> simp_all [Vital, Node.isFacet, Node.isOutput]
    · exact (contains_of_contents hcontents j).trans ((contains_modify f c _ j).trans hj.1)
    · unfold sunk
      rw [hgrouped.cell?_exchange hfacet' hp hgrand hcontents]
      split
      · exact (hf.cell?_addDimensions _ c hQ.1).trans hQ.2
      · exact (hf.cell?_addDimensions _ c hj.1).trans hj.2
  main {f i m c grand node} hf h hQ hn hm _ hp hgrand hfacet := by
    obtain ⟨o, ho, -⟩ := h.main_output hbase hn hm
    have hcontents := hf.contents_exchange hp hgrand
    have hcell : f.cell? c = f.cell? m := hf.cell?_below hp (holds_of_node? ho)
    refine ⟨h.exchange hf hfacet hp hgrand (fun _ => .output ho (h.allRequested m o ho))
      (.inr hcell), fun j hj => ⟨(contains_of_contents hcontents j).trans hj.1, ?_⟩⟩
    rw [hf.cell?_exchange hfacet hp hgrand hcontents]
    split
    · rename_i hjc
      rw [← hcell, ← hjc]
      exact hj.2
    · exact hj.2
  copies {f g i m node} hf h hQ hn hm hsteps := by
    obtain ⟨o, ho, hcell⟩ := h.main_output hbase hn hm
    obtain ⟨h', hold⟩ := h.copyings hbase ho (hcell.trans hQ.2) hsteps
    refine ⟨h', fun j hj => ?_⟩
    obtain ⟨hlive, hcell'⟩ := hold j hj.1
    exact ⟨hlive, hcell'.trans hj.2⟩

/-- Optimization succeeds on every arranged forest: passes settle it, facets move down, and passes settle
it again. -/
theorem Forest.Arranged.exists_run (h : f.Arranged) (rowIds : Bool) :
    ∃ settled moved last, OptimizationRun rowIds f settled moved last ∧
      (settled.forest.Planted ∧ f.Housing settled.forest) ∧
      (moved.forest.Planted ∧ f.Housing moved.forest) ∧
      Rewrites rowIds moved.forest last.forest := by
  have hf := h.planted
  obtain ⟨settled, moved, last, hrun, hsteps, hsunk, hsteps'⟩ := (sinkInvariant_housing h).optimize
    rowIds hf fun hsteps => h.housing_purged.rewrites hf.purged hsteps
  exact ⟨settled, moved, last, hrun, ⟨hsteps.planted hf.purged,
    h.housing_purged.rewrites hf.purged hsteps⟩, ⟨hsunk.planted, hsunk.kept⟩, hsteps'⟩

theorem Forest.Arranged.optimize (h : f.Arranged) (rowIds : Bool) :
    ∃ p, Flow.optimize rowIds f = .ok p ∧ p.forest.Planted ∧ f.Housing p.forest := by
  obtain ⟨settled, moved, last, hrun, -, ⟨hplanted, hhousing⟩, hsteps⟩ := h.exists_run rowIds
  exact ⟨last, hrun.optimize_eq, hsteps.planted hplanted, hhousing.rewrites hplanted hsteps⟩

end ChartPlan.Flow
