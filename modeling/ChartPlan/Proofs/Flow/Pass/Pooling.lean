import ChartPlan.Proofs.Flow.Pass.Duplicates

/-!
# Siblings that become one

Aggregates over the same groups are pooled: the first one gives the results of all of them and takes over
what is below the others. Nobody looks at the names of the results, so a name that two of them give to
different results is given twice. Time units look at the names: a time unit joins the first one with
which it agrees, and those that are left clash with each other.

* `Rehomed`: where the nodes of a kind are after some took over others; `Rehomed.join`: a step keeps it.
* `mergeAggregates_pools`: no result is lost, and none becomes ambiguous unless names clash.
* `Grouped`: the time units below a node while they are placed; `Grouped.place`: placing one keeps it.
* `joinTimeUnits_groups`: the time units below a node are grouped without loss, and as far as possible.
-/

namespace ChartPlan

open List Option Dict

theorem Dict.get?_foldl_insertIfNew {α : Type} {key : String} (entries : List (String × α)) (d : Dict α) :
    (entries.foldl (fun acc entry => acc.insertIfNew entry.1 entry.2) d).get? key =
      (d.get? key).or (Dict.get? entries key) := by
  induction entries generalizing d with
  | nil => simp [Dict.get?]
  | cons entry rest ih =>
    rw [foldl_cons, ih]
    unfold Dict.insertIfNew Dict.has
    by_cases hkey : key = entry.1
    · cases hd : d.get? entry.1 <;> simp [Dict.get?, get?_insert, hkey, hd]
    · cases hd : d.get? entry.1 <;> simp [Dict.get?, get?_insert, hkey]

namespace Flow

open Forest

/-! ### Nodes that take over others -/

section

variable {α : Type} {kind : Node → Prop} {keeps : Node → Node → Prop} {gives : Node → α → Prop}
  {f g : Forest} {home : NodeId → NodeId}

/-- Where the nodes of a kind are after some took over others: each has a home that keeps what it was,
and what a node gives, one of those whose home it is gave. -/
structure Rehomed (kind : Node → Prop) (keeps : Node → Node → Prop) (gives : Node → α → Prop)
    (f g : Forest) (home : NodeId → NodeId) : Prop where
  linked : g.Linked
  stays : ∀ {j n}, f.node? j = some n → ¬ kind n → g.node? j = some n
  housed : ∀ {i n}, f.node? i = some n → kind n → ∃ m, g.node? (home i) = some m ∧ kind m ∧ keeps m n
  given : ∀ {i m x}, g.node? i = some m → kind m → gives m x →
    ∃ j n, f.node? j = some n ∧ kind n ∧ home j = i ∧ gives n x
  below : ∀ {i n c}, f.node? i = some n → kind n → f.parent? c = some i → g.contains c →
    g.parent? c = some (home i)

theorem Rehomed.refl (hf : f.Linked) (hkeeps : ∀ n, kind n → keeps n n) :
    Rehomed kind keeps gives f f id where
  linked := hf
  stays hn _ := hn
  housed {_ n} hi hkind := ⟨n, hi, hkind, hkeeps n hkind⟩
  given {i m _} hm hkind hgives := ⟨i, m, hm, hkind, rfl, hgives⟩
  below _ _ hc _ := hc

theorem Rehomed.join (h : Rehomed kind keeps gives f g home) {keep other : NodeId} {a b m : Node}
    {g' : Forest} (hjoined : Joined g g' keep other m) (hne : keep ≠ other)
    (hk : g.node? keep = some a) (ho : g.node? other = some b) (ha : kind a) (hb : kind b) (hm : kind m)
    (hours : ∀ n, keeps a n → keeps m n) (htheirs : ∀ n, keeps b n → keeps m n)
    (hgives : ∀ x, gives m x → gives a x ∨ gives b x) :
    Rehomed kind keeps gives f g' fun i => if home i = other then keep else home i := by
  have hnode := hjoined.node_keep hne
  refine ⟨hjoined.linked, fun {j n} hn hnot => ?_, fun {i n} hi hkind => ?_,
    fun {i n x} hn hkind hx => ?_, fun {i n c} hi hkind hc hlive => ?_⟩
  · -- A node of another kind is neither of the two.
    have hold := h.stays hn hnot
    have hother : ∀ {i x}, g.node? i = some x → kind x → j ≠ i := fun hx hkind he => by
      cases (he ▸ hold).symm.trans hx
      exact hnot hkind
    rw [hjoined.node_of_ne (hother hk ha) (hother ho hb), hold]
  · obtain ⟨y, hy, hkindy, hkeeps⟩ := h.housed hi hkind
    by_cases hio : home i = other
    · cases (hio ▸ hy).symm.trans ho
      rw [if_pos hio]
      exact ⟨m, hnode, hm, htheirs n hkeeps⟩
    · rw [if_neg hio]
      by_cases hik : home i = keep
      · cases (hik ▸ hy).symm.trans hk
        exact ⟨m, hik ▸ hnode, hm, hours n hkeeps⟩
      · exact ⟨y, (hjoined.node_of_ne hik hio).trans hy, hkindy, hkeeps⟩
  · have hio := (hjoined.contains_of_contains (contains_of_node? hk) (contains_of_node? hn)).1
    have hback : ∀ {k y}, g.node? k = some y → kind y → gives y x → (if k = other then keep else k) = i →
        ∃ j z, f.node? j = some z ∧ kind z ∧ (if home j = other then keep else home j) = i ∧
          gives z x := fun hy hkindy hx hki => by
      obtain ⟨j, z, hz, hkindz, hhome, hx⟩ := h.given hy hkindy hx
      exact ⟨j, z, hz, hkindz, hhome ▸ hki, hx⟩
    by_cases hik : i = keep
    · cases (hik ▸ hn).symm.trans hnode
      rcases hgives x hx with hx | hx
      · exact hback hk ha hx (by rw [if_neg hne, hik])
      · exact hback ho hb hx (by rw [if_pos rfl, hik])
    · exact hback ((hjoined.node_of_ne hik hio).symm.trans hn) hkind hx (if_neg hio)
  · obtain ⟨hco, hold⟩ := hjoined.contains_of_contains (contains_of_node? hk) hlive
    rw [hjoined.parent, if_neg hco, h.below hi hkind hc hold]
    split <;> simp_all

end

/-! ### Pooled aggregates -/

namespace Aggregate

variable {a b m : Aggregate} {field op name : String}

/-- Whether an operation on a field is among the results, under a name. -/
def Gives (a : Aggregate) (field op name : String) : Prop :=
  ∃ names, (field, op, names) ∈ a.results ∧ name ∈ names

/-- Whether no name stands for a result of one aggregate and for another result of the other one. -/
def Agrees (a b : Aggregate) : Prop :=
  ∀ r ∈ a.results, ∀ s ∈ b.results, ∀ name ∈ r.2.2, name ∈ s.2.2 → r.1 = s.1 ∧ r.2.1 = s.2.1

theorem mem_results {names : NameSet} : (field, op, names) ∈ a.results ↔
    ∃ ops, (field, ops) ∈ a.measures ∧ (op, names) ∈ ops := by
  simp [results]

theorem gives_of_addNames {field' op' : String} {more : List String}
    (h : (a.addNames field op more).Gives field' op' name) :
    a.Gives field' op' name ∨ field' = field ∧ op' = op ∧ name ∈ more := by
  obtain ⟨names, hmem, hname⟩ := h
  obtain ⟨ops, hops, hnames⟩ := mem_results.mp hmem
  rcases mem_of_mem_insert hops with he | hops
  · cases he
    -- The operations on the field are those that were there, and the one with new names.
    have hold : ∀ {op names}, (op, names) ∈ (a.measures.get? field).getD [] →
        (field, op, names) ∈ a.results := fun {op names} hmem => by
      cases hget : a.measures.get? field with
      | none => simp [hget] at hmem
      | some ops => exact mem_results.mpr ⟨ops, mem_of_get? hget, by simpa [hget] using hmem⟩
    rcases mem_of_mem_insert hnames with he | hnames
    · cases he
      refine (NameSet.mem_extend.mp hname).imp (fun hname => ?_) fun hname => ⟨rfl, rfl, hname⟩
      cases hget : Dict.get? ((a.measures.get? field).getD []) op with
      | none => simp [hget] at hname
      | some names => exact ⟨names, hold (mem_of_get? hget), by simpa [hget] using hname⟩
    · exact .inl ⟨names, hold hnames, hname⟩
  · exact .inl ⟨names, mem_results.mpr ⟨ops, hops, hnames⟩, hname⟩

theorem gives_of_merge? (h : a.merge? b = some m) (hname : m.Gives field op name) :
    a.Gives field op name ∨ b.Gives field op name := by
  unfold merge? at h
  split at h
  · cases h
    refine foldlRecOn b.results _ (motive := fun acc : Aggregate => acc.Gives field op name →
      a.Gives field op name ∨ b.Gives field op name) .inl (fun acc hacc r hr hname => ?_) hname
    rcases gives_of_addNames hname with hname | ⟨rfl, rfl, hmem⟩
    · exact hacc hname
    · exact .inr ⟨r.2.2, hr, hmem⟩
  · cases h

end Aggregate

section

variable {f g g' : Forest} {home : NodeId → NodeId}

/-- Whether an aggregate has the groups and the results of another one. -/
def poolKeeps (m n : Node) : Prop :=
  ∀ a, n = .aggregate a → ∃ b, m = .aggregate b ∧ b.Extends a

def poolGives (n : Node) (x : NameSet × String × String × String) : Prop :=
  ∃ a, n = .aggregate a ∧ a.dimensions = x.1 ∧ a.Gives x.2.1 x.2.2.1 x.2.2.2

/-- Where the aggregates of a forest are after some were pooled. -/
abbrev Pooled (f g : Forest) (home : NodeId → NodeId) : Prop :=
  Rehomed (fun n => n.aggregate?.isSome) poolKeeps poolGives f g home

theorem Pooled.step (h : Pooled f g home) (hpools : Pooling g g') : ∃ home, Pooled f g' home := by
  obtain @⟨keep, other, a, b, m, hk, ho, hmerge, hne, above, hkp, hop⟩ := hpools
  obtain ⟨hours, htheirs⟩ := Aggregate.merge?_extends hmerge
  have hjoined := h.linked.joined_absorb (contains_of_node? hk)
    (h.linked.not_below_sibling hkp hop hne) (.aggregate m) g.signals
  have hkeeps : ∀ {c}, m.Extends c → ∀ n, poolKeeps (.aggregate c) n → poolKeeps (.aggregate m) n := by
    intro c hext n hn x hx
    obtain ⟨_, ⟨⟩, hext'⟩ := hn x hx
    exact ⟨m, rfl, hext.trans hext'⟩
  refine ⟨_, h.join hjoined hne hk ho rfl rfl rfl (hkeeps hours) (hkeeps htheirs) ?_⟩
  rintro x ⟨_, ⟨⟩, hdims, hname⟩
  refine (Aggregate.gives_of_merge? hmerge hname).imp (fun hname => ?_) fun hname => ?_
  · exact ⟨a, rfl, hours.dimensions.symm.trans hdims, hname⟩
  · exact ⟨b, rfl, htheirs.dimensions.symm.trans hdims, hname⟩

theorem pooled_of_pools (hpools : Relation.ReflTransGen Pooling f g) (hf : f.Linked) :
    ∃ home, Pooled f g home := by
  induction hpools with
  | refl => exact ⟨id, .refl hf fun n _ a ha => ⟨a, ha, .refl a⟩⟩
  | tail _ hstep ih =>
    obtain ⟨home, h⟩ := ih
    exact h.step hstep

theorem gatherAggregates_upholds : (Climb.ofVisit gatherAggregates).Upholds fun p =>
    p.forest.Linked ∧ Relation.ReflTransGen Pooling f p.forest := by
  refine Climb.upholds_ofVisit fun p i hp _ => ?_
  obtain ⟨step, q, heq, hdoes, hlinked⟩ := gatherAggregates_pools hp.1 i
  exact ⟨step, q, heq, hlinked, hp.2.trans (hdoes.deeds False.elim)⟩

/-- After the pass, every aggregate of a forest that passes the check has a home: an aggregate over the
same groups that gives all its results, directly above its former children. A former child that is not
there any more was an aggregate itself. When aggregates over the same groups agree on the results that
their names stand for, every aggregate that is left gives a name to one result only. -/
theorem mergeAggregates_pools {f : Forest} (hgraph : f.Graph) (hcheck : f.check = .ok ())
    (hroots : ∀ i ∈ f.sources, f.contains i) :
    ∃ q, mergeAggregates f = .ok q ∧
      (∀ i a, f.node? i = some (.aggregate a) → ∃ home m, q.forest.node? home = some (.aggregate m) ∧
        m.Extends a ∧ ∀ c, f.parent? c = some i → q.forest.parent? c = some home ∨
          f.holds c (·.aggregate?.isSome) ∧ q.forest.contains c = false) ∧
      ((∀ i j a b, f.node? i = some (.aggregate a) → f.node? j = some (.aggregate b) →
          a.dimensions = b.dimensions → a.Agrees b) →
        ∀ i m, q.forest.node? i = some (.aggregate m) → m.Agrees m) := by
  have hf : f.Linked := ((hgraph.check_eq_ok_iff hroots).mp hcheck).toLinked
  obtain ⟨q, heq, -, hpools⟩ := (gatherAggregates_upholds (f := f)).run ⟨hf, .refl⟩
  obtain ⟨home, h⟩ := pooled_of_pools hpools hf
  refine ⟨q, heq, fun i a hi => ?_, fun hagree i m hm r hr s hs name hname hname' => ?_⟩
  · obtain ⟨_, hm, -, hkeeps⟩ := h.housed hi rfl
    obtain ⟨m, rfl, hext⟩ := hkeeps a rfl
    refine ⟨home i, m, hm, hext, fun c hc => ?_⟩
    cases hlive : q.forest.contains c with
    | true => exact .inl (h.below hi rfl hc hlive)
    | false =>
      obtain ⟨n, hn⟩ := exists_node (hf.live_of_parent? hc).2
      refine .inr ⟨holds_iff.mpr ⟨n, hn, ?_⟩, rfl⟩
      by_contra hnone
      rw [Forest.contains, h.stays hn hnone] at hlive
      cases hlive
  · obtain ⟨j, _, ha, -, -, a, rfl, hdims, names, hr, hname⟩ :=
      h.given (x := (m.dimensions, r.1, r.2.1, name)) hm rfl ⟨m, rfl, rfl, _, hr, hname⟩
    obtain ⟨k, _, hb, -, -, b, rfl, hdims', names', hs, hname'⟩ :=
      h.given (x := (m.dimensions, s.1, s.2.1, name)) hm rfl ⟨m, rfl, rfl, _, hs, hname'⟩
    exact hagree j k a b ha hb (hdims.trans hdims'.symm) (r.1, r.2.1, names) hr
      (s.1, s.2.1, names') hs name hname hname'

/-- Two views with aggregates over the same groups, and the names that they give to their results. -/
def twoAggregates (first second : String) : Forest where
  slots := [some (.source .empty), some (.aggregate ⟨["group"], [("size", [("mean", [first])])]⟩),
    some (.aggregate ⟨["group"], [("age", [("sum", [second])])]⟩),
    some (.output (.fresh "bars" .main 0)), some (.output (.fresh "labels" .main 0))]
  edges := [⟨2, 4, 0⟩, ⟨1, 3, 0⟩, ⟨0, 2, 1⟩, ⟨0, 1, 0⟩]
  sources := [0]
  outputs := [("bars", 3), ("labels", 4)]
  requests := [("bars", 1), ("labels", 1)]

theorem mem_twoAggregates {first second : String} {i : NodeId} {a : Aggregate}
    (hi : (twoAggregates first second).node? i = some (.aggregate a)) :
    a ∈ [⟨["group"], [("size", [("mean", [first])])]⟩, ⟨["group"], [("age", [("sum", [second])])]⟩] := by
  have hmem : some (some (Node.aggregate a)) = (twoAggregates first second).slots[i]? := by
    rw [node?, join_eq_some_iff] at hi
    exact hi.symm
  have hmem := mem_of_getElem? hmem.symm
  simpa [twoAggregates] using hmem

theorem mergeAggregates_twoAggregates : (twoAggregates "mean_size" "sum_age").check = .ok () ∧
    (mergeAggregates (twoAggregates "mean_size" "sum_age")).toOption.map
      (fun q => [3, 4].map q.forest.path) = some [[0, 1, 3], [0, 1, 4]] ∧
    ∃ q, mergeAggregates (twoAggregates "mean_size" "sum_age") = .ok q ∧
      ∀ i m, q.forest.node? i = some (.aggregate m) → m.Agrees m := by
  obtain ⟨q, heq, -, hagree⟩ := mergeAggregates_pools (f := twoAggregates "mean_size" "sum_age")
    ⟨⟨by decide, by decide⟩, by decide⟩ rfl (by decide)
  refine ⟨rfl, by decide +kernel, q, heq, hagree fun i j a b ha hb _ => ?_⟩
  revert a b
  unfold Aggregate.Agrees
  suffices h : ∀ a ∈ [_, _], ∀ b ∈ [_, _], _ from fun a b ha hb =>
    h a (mem_twoAggregates ha) b (mem_twoAggregates hb)
  decide

/-- Each of two aggregates gives a name to one result, and the one that they become gives it to two. -/
theorem mergeAggregates_mixes_results : (twoAggregates "value" "value").check = .ok () ∧
    (∀ i a, (twoAggregates "value" "value").node? i = some (.aggregate a) → a.Agrees a) ∧
    ∃ q m, mergeAggregates (twoAggregates "value" "value") = .ok q ∧
      q.forest.node? 1 = some (.aggregate m) ∧ m.Gives "size" "mean" "value" ∧
      m.Gives "age" "sum" "value" := by
  refine ⟨rfl, fun i a hi => ?_, _, _, rfl, rfl, ⟨["value"], by decide, by decide⟩,
    ⟨["value"], by decide, by decide⟩⟩
  replace hi := mem_twoAggregates hi
  unfold Aggregate.Agrees
  revert a
  decide

end

/-! ### Cuts of time units -/

namespace TimeUnits

variable {a a' b b' m : TimeUnits}

/-- Whether a name is computed from a field, cut to a unit. -/
def Computes (t : TimeUnits) (name field : String) (unit : TimeUnit) : Prop :=
  ∃ c, t.cuts.get? name = some c ∧ c.output = name ∧ c.field = field ∧ c.unit = unit

/-- Whether different things are computed under some name. -/
def Clashes (a b : TimeUnits) : Prop :=
  ∃ name c d, a.cuts.get? name = some c ∧ b.cuts.get? name = some d ∧ c.agrees d = false

theorem Clashes.symm (h : a.Clashes b) : b.Clashes a := by
  obtain ⟨name, c, d, hc, hd, hne⟩ := h
  refine ⟨name, d, c, hd, hc, ?_⟩
  rw [← hne]
  unfold TimeCut.agrees
  rw [BEq.comm, BEq.comm (a := d.unit)]

theorem Clashes.mono (h : a.Clashes b) (ha : ∀ {name c}, a.cuts.get? name = some c → a'.cuts.get? name = some c)
    (hb : ∀ {name c}, b.cuts.get? name = some c → b'.cuts.get? name = some c) : a'.Clashes b' := by
  obtain ⟨name, c, d, hc, hd, hne⟩ := h
  exact ⟨name, c, d, ha hc, hb hd, hne⟩

theorem conflicts_of_clashes (h : a.Clashes b) : a.conflicts b := by
  obtain ⟨name, c, d, hc, hd, hne⟩ := h
  refine any_eq_true.mpr ⟨(name, d), mem_of_get? hd, ?_⟩
  dsimp only
  rw [hc]
  exact congrArg not hne

theorem clashes_of_merge? (hb : b.cuts.Sorted) (h : a.merge? b = none) : a.Clashes b := by
  unfold merge? at h
  split at h
  · rename_i hconflicts
    obtain ⟨entry, hmem, hbad⟩ := any_eq_true.mp hconflicts
    dsimp only at hbad
    split at hbad
    · rename_i c hc
      exact ⟨entry.1, c, entry.2, hc, hb.get?_of_mem hmem, by simpa using hbad⟩
    · cases hbad
  · cases h

theorem get?_merge? (h : a.merge? b = some m) (name : String) :
    m.cuts.get? name = (a.cuts.get? name).or (b.cuts.get? name) := by
  unfold merge? at h
  split at h
  · cases h
  · cases h
    exact get?_foldl_insertIfNew b.cuts a.cuts

theorem computes_merge? (h : a.merge? b = some m) (ha : a.Keyed) {name field : String} {unit : TimeUnit} :
    m.Computes name field unit ↔ a.Computes name field unit ∨ b.Computes name field unit := by
  unfold Computes
  rw [get?_merge? h]
  cases hours : a.cuts.get? name with
  | none => simp
  | some c =>
    refine ⟨.inl, fun hboth => hboth.elim id ?_⟩
    rintro ⟨d, hd, -, hfield, hunit⟩
    have hagrees : c.agrees d := by
      by_contra hne
      rw [merge?, if_pos (conflicts_of_clashes ⟨name, c, d, hours, hd, by simpa using hne⟩)] at h
      cases h
    simp only [TimeCut.agrees, Bool.and_eq_true, beq_iff_eq] at hagrees
    exact ⟨c, rfl, (ha _ (mem_of_get? hours)).symm, hagrees.1.trans hfield, hagrees.2.trans hunit⟩

theorem Keyed.merge? (h : a.merge? b = some m) (ha : a.Keyed) (hb : b.Keyed) : m.Keyed := by
  unfold TimeUnits.merge? at h
  split at h
  · cases h
  · cases h
    refine foldlRecOn (motive := fun cuts => TimeUnits.Keyed ⟨cuts⟩) _ _ ha
      fun cuts hcuts entry hentry => ?_
    unfold Dict.insertIfNew
    split
    · exact hcuts
    · intro e he
      rcases mem_of_mem_insert he with rfl | he
      · exact hb entry hentry
      · exact hcuts e he

end TimeUnits

/-! ### Grouped time units -/

section

variable {f : Forest} {above i : NodeId} {rest kept : List NodeId} {p : Progress} {home : NodeId → NodeId}

/-- A time unit with each cut under the name of its result. -/
def IsCut (n : Node) : Prop :=
  ∃ t, n = .timeUnit t ∧ t.Keyed

def cutGives (n : Node) (x : String × String × TimeUnit) : Prop :=
  ∃ t, n = .timeUnit t ∧ t.Computes x.1 x.2.1 x.2.2

/-- The time units below a node while they are placed: the rest is as it was, and those that were kept
clash. -/
structure Grouped (f : Forest) (above : NodeId) (rest : List NodeId) (p : Progress) (kept : List NodeId)
    (home : NodeId → NodeId) : Prop where
  holds : p.Holds above (f.children above)
  rehomed : Rehomed IsCut (fun m n => ∀ x, cutGives n x → cutGives m x) cutGives f p.forest home
  inside : ∀ {i}, i ∈ f.children above → home i ∈ f.children above
  untouched : ∀ {i}, i ∉ f.children above ∨ i ∈ rest → home i = i ∧ p.forest.node? i = f.node? i
  keyed : ∀ {i u}, i ∈ f.children above → p.forest.node? i = some (.timeUnit u) → u.Keyed
  placed : ∀ {k}, k ∈ kept → k ∈ f.children above ∧ k ∉ rest
  left : ∀ {j u}, p.forest.parent? j = some above → p.forest.node? j = some (.timeUnit u) →
    j ∈ kept ∨ j ∈ rest
  apart : ∀ {k l u v}, k ∈ kept → l ∈ kept → k ≠ l → p.forest.node? k = some (.timeUnit u) →
    p.forest.node? l = some (.timeUnit v) → u.Clashes v

namespace Grouped

theorem start (hf : p.forest.Linked) (hkeyed : ∀ {i t}, i ∈ p.forest.children above →
    p.forest.node? i = some (.timeUnit t) → t.Keyed) :
    Grouped p.forest above (p.forest.children above) p [] id where
  holds := ⟨hf, hf.single.family_children above⟩
  rehomed := .refl hf fun _ _ _ => id
  inside := id
  untouched _ := ⟨rfl, rfl⟩
  keyed := hkeyed
  placed hk := by cases hk
  left hj _ := .inr (hf.child hj)
  apart hk := by cases hk

section

variable (h : Grouped f above (i :: rest) p kept home)

include h

theorem skip (hnot : ∀ t, p.forest.node? i ≠ some (.timeUnit t)) :
    Grouped f above rest p kept home :=
  { h with
    untouched := fun hj => h.untouched (hj.imp_right (mem_cons_of_mem _))
    placed := fun hk => (h.placed hk).imp_right not_mem_of_not_mem_cons
    left := fun {j u} hj hu => (h.left hj hu).imp_right fun hmem => (mem_cons.mp hmem).resolve_left
      fun he => hnot u (by rw [← he, hu]) }

section

variable (hi : i ∈ f.children above) (hnew : i ∉ rest)

include hi hnew

theorem keep {theirs : TimeUnits} (htheirs : p.forest.node? i = some (.timeUnit theirs))
    (hclash : ∀ k ∈ kept, ∀ ours, p.forest.node? k = some (.timeUnit ours) → ours.Clashes theirs) :
    Grouped f above rest p (kept ++ [i]) home := by
  refine
    { h with
      untouched := fun hj => h.untouched (hj.imp_right (mem_cons_of_mem _))
      placed := fun {k} hk => ?_
      left := fun {j u} hj hu => ?_
      apart := fun {k l u v} hk hl hne hu hv => ?_ }
  · rcases mem_append.mp hk with hk | hk
    · exact (h.placed hk).imp_right not_mem_of_not_mem_cons
    · exact mem_singleton.mp hk ▸ ⟨hi, hnew⟩
  · have := h.left hj hu
    simp only [mem_cons, mem_append, not_mem_nil, or_false] at this ⊢
    tauto
  · rcases mem_append.mp hk with hk | hk <;> rcases mem_append.mp hl with hl | hl
    · exact h.apart hk hl hne hu hv
    · cases mem_singleton.mp hl
      cases htheirs.symm.trans hv
      exact hclash k hk u hu
    · cases mem_singleton.mp hk
      cases htheirs.symm.trans hu
      exact (hclash l hl v hv).symm
    · exact absurd ((mem_singleton.mp hk).trans (mem_singleton.mp hl).symm) hne

theorem join {k : NodeId} {ours theirs m : TimeUnits} (hk : k ∈ kept)
    (hours : p.forest.node? k = some (.timeUnit ours))
    (htheirs : p.forest.node? i = some (.timeUnit theirs)) (hmerge : ours.merge? theirs = some m) :
    ∃ home, Grouped f above rest (p.change ((p.forest.setNode k (.timeUnit m)).absorb k i)) kept home := by
  have hki : ∀ {j}, j ∈ kept → j ≠ i := fun hj he => (h.placed hj).2 (he ▸ mem_cons_self)
  obtain ⟨-, hjoined, hfam⟩ := h.holds.2.joined h.holds.1 (h.placed hk).1 hi (hki hk)
    (contains_of_node? hours) (contains_of_node? htheirs) (.timeUnit m)
  have hkeyed := h.keyed (h.placed hk).1 hours
  have hkeyed' := hkeyed.merge? hmerge (h.keyed hi htheirs)
  have hgrows : ∀ {name c}, ours.cuts.get? name = some c → m.cuts.get? name = some c := fun hc => by
    rw [TimeUnits.get?_merge? hmerge, hc]
    rfl
  have hgives : ∀ x, cutGives (.timeUnit m) x ↔ cutGives (.timeUnit ours) x ∨ cutGives (.timeUnit theirs) x :=
    fun x => by simp [cutGives, TimeUnits.computes_merge? hmerge hkeyed]
  -- What is kept after the step was there before, perhaps with fewer cuts.
  have hback : ∀ {j u}, j ∈ kept → ((p.forest.setNode k (.timeUnit m)).absorb k i).node? j =
      some (.timeUnit u) → ∃ v, p.forest.node? j = some (.timeUnit v) ∧
        ∀ {name c}, v.cuts.get? name = some c → u.cuts.get? name = some c := by
    intro j u hj hu
    by_cases hjk : j = k
    · cases (hjk ▸ hu).symm.trans (hjoined.node_keep (hki hk))
      exact ⟨ours, hjk ▸ hours, hgrows⟩
    · exact ⟨u, (hjoined.node_of_ne hjk (hki hj)).symm.trans hu, id⟩
  refine ⟨_, ⟨hjoined.linked, hfam⟩, h.rehomed.join hjoined (hki hk) hours htheirs ⟨_, rfl, hkeyed⟩
    ⟨_, rfl, h.keyed hi htheirs⟩ ⟨_, rfl, hkeyed'⟩ (fun n hn x hx => (hgives x).mpr (.inl (hn x hx)))
    (fun n hn x hx => (hgives x).mpr (.inr (hn x hx))) fun x => (hgives x).mp, fun {j} hj => ?_,
    fun {j} hj => ?_,
    fun {j u} hj hu => ?_, fun hk => (h.placed hk).imp_right not_mem_of_not_mem_cons,
    fun {j u} hj hu => ?_, fun {j l u v} hj hl hne hu hv => ?_⟩
  · split
    · exact (h.placed hk).1
    · exact h.inside hj
  · obtain ⟨hhome, hnode⟩ := h.untouched (hj.imp_right (mem_cons_of_mem i))
    have hji : j ≠ i := fun he => hj.elim (fun hout => hout (he ▸ hi)) fun hmem => hnew (he ▸ hmem)
    have hjk : j ≠ k := fun he => hj.elim (fun hout => hout (he ▸ (h.placed hk).1)) fun hmem =>
      (h.placed hk).2 (he ▸ mem_cons_of_mem i hmem)
    rw [hhome, if_neg hji]
    exact ⟨rfl, (hjoined.node_of_ne hjk hji).trans hnode⟩
  · have hji := (hjoined.contains_of_contains (contains_of_node? hours) (contains_of_node? hu)).1
    by_cases hjk : j = k
    · cases (hjk ▸ hu).symm.trans (hjoined.node_keep (hki hk))
      exact hkeyed'
    · exact h.keyed hj ((hjoined.node_of_ne hjk hji).symm.trans hu)
  · have hlive := (hjoined.contains_of_contains (contains_of_node? hours) (contains_of_node? hu)).1
    by_cases hjk : j = k
    · exact .inl (hjk ▸ hk)
    · have hparent : p.forest.parent? j = some above := by
        have hj := hjoined.parent j ▸ hj
        rw [if_neg hlive] at hj
        split at hj
        · cases hj
          exact absurd rfl (h.holds.1.ne_parent (h.holds.2 _ (h.placed hk).1 (contains_of_node? hours)))
        · exact hj
      exact (h.left hparent ((hjoined.node_of_ne hjk hlive).symm.trans hu)).imp_right fun hmem =>
        (mem_cons.mp hmem).resolve_left hlive
  · obtain ⟨u', hu', hgrows⟩ := hback hj hu
    obtain ⟨v', hv', hgrows'⟩ := hback hl hv
    exact (h.apart hj hl hne hu' hv').mono hgrows hgrows'

theorem place (hsorted : ∀ t, f.node? i = some (.timeUnit t) → t.cuts.Sorted) :
    ∃ home, Grouped f above rest (placeTimeUnit (p, kept) i).1 (placeTimeUnit (p, kept) i).2 home := by
  have hsame := (h.untouched (.inr mem_cons_self)).2
  rcases placeTimeUnit_cases p kept i with ⟨hnot, heq⟩ | ⟨theirs, htheirs, ⟨hnone, heq⟩ |
    ⟨k, hk, ours, m, hours, hmerge, heq⟩⟩
  · rw [heq]
    exact ⟨home, h.skip hnot⟩
  · rw [heq]
    exact ⟨home, h.keep hi hnew htheirs fun k hk ours hours => TimeUnits.clashes_of_merge?
      (hsorted theirs (hsame.symm.trans htheirs)) (hnone k hk ours hours)⟩
  · rw [heq]
    exact h.join hi hnew hk hours htheirs hmerge

end

end

theorem placeAll (h : Grouped f above rest p kept home) (hnodup : rest.Nodup)
    (hrest : ∀ i ∈ rest, i ∈ f.children above ∧ ∀ t, f.node? i = some (.timeUnit t) → t.cuts.Sorted) :
    ∃ kept' home, Grouped f above [] (rest.foldl placeTimeUnit (p, kept)).1 kept' home := by
  induction rest generalizing p kept home with
  | nil => exact ⟨kept, home, h⟩
  | cons i rest ih =>
    obtain ⟨hnew, hnodup⟩ := nodup_cons.mp hnodup
    obtain ⟨hi, hsorted⟩ := hrest i mem_cons_self
    obtain ⟨home', hplaced⟩ := h.place hi hnew hsorted
    exact ih hplaced hnodup fun j hj => hrest j (mem_cons_of_mem i hj)

end Grouped

theorem foldl_placeTimeUnit_of_clashes (hclash : ∀ {k l u v}, p.forest.parent? k = some above →
      p.forest.parent? l = some above → k ≠ l → p.forest.node? k = some (.timeUnit u) →
      p.forest.node? l = some (.timeUnit v) → u.Clashes v)
    (kept rest : List NodeId) (hnodup : (kept ++ rest).Nodup)
    (hbelow : ∀ i ∈ kept ++ rest, p.forest.parent? i = some above) :
    (rest.foldl placeTimeUnit (p, kept)).1 = p := by
  induction rest generalizing kept with
  | nil => rfl
  | cons i rest ih =>
    rw [foldl_cons]
    rcases placeTimeUnit_cases p kept i with ⟨-, heq⟩ | ⟨theirs, htheirs, ⟨-, heq⟩ |
      ⟨k, hk, ours, m, hours, hmerge, -⟩⟩
    · rw [heq]
      refine ih kept ?_ fun j hj => hbelow j (by simp at hj ⊢; tauto)
      exact hnodup.sublist (List.Sublist.append_left (sublist_cons_self i rest) kept)
    · rw [heq]
      exact ih (kept ++ [i]) (by rwa [← append_cons]) (by rwa [← append_cons])
    · have hne : k ≠ i := fun he => (nodup_append.mp hnodup).2.2 k hk i (by simp) he
      have hclashes := hclash (hbelow k (mem_append_left _ hk)) (hbelow i (by simp)) hne hours htheirs
      rw [TimeUnits.merge?, if_pos (TimeUnits.conflicts_of_clashes hclashes)] at hmerge
      cases hmerge

/-- After the time units below a node were merged, every time unit that was there has a home among the
children that are left: a time unit that computes all that it did, directly above its former children.
What such a time unit computes, one of those whose home it is did; any two of them compute some name
from different fields or units, and merging them again changes nothing. -/
theorem joinTimeUnits_groups {p : Progress} (hgraph : p.forest.Graph) (hcheck : p.forest.check = .ok ())
    (hroots : ∀ i ∈ p.forest.sources, p.forest.contains i) (above : NodeId)
    (hkeyed : ∀ i ∈ p.forest.children above, ∀ t, p.forest.node? i = some (.timeUnit t) →
      t.cuts.Sorted ∧ t.Keyed) :
    ∃ (q : Progress) (home : NodeId → NodeId), joinTimeUnits p above = q ∧
      (∀ i ∈ p.forest.children above, ∀ t, p.forest.node? i = some (.timeUnit t) →
        home i ∈ q.forest.children above ∧
        (∃ u, q.forest.node? (home i) = some (.timeUnit u) ∧
          ∀ name field unit, t.Computes name field unit → u.Computes name field unit) ∧
        ∀ c, p.forest.parent? c = some i → q.forest.parent? c = some (home i)) ∧
      (∀ k ∈ q.forest.children above, ∀ u, q.forest.node? k = some (.timeUnit u) →
        ∀ name field unit, u.Computes name field unit → ∃ i ∈ p.forest.children above, ∃ t,
          p.forest.node? i = some (.timeUnit t) ∧ home i = k ∧ t.Computes name field unit) ∧
      (∀ k ∈ q.forest.children above, ∀ l ∈ q.forest.children above, k ≠ l → ∀ u v,
        q.forest.node? k = some (.timeUnit u) → q.forest.node? l = some (.timeUnit v) →
        ∃ name field unit field' unit', u.Computes name field unit ∧ v.Computes name field' unit' ∧
          (field, unit) ≠ (field', unit')) ∧
      joinTimeUnits q above = q := by
  have hf : p.forest.Linked := ((hgraph.check_eq_ok_iff hroots).mp hcheck).toLinked
  obtain ⟨kept, home, h⟩ := (Grouped.start hf fun hi ht => (hkeyed _ hi _ ht).2).placeAll
    (hf.single.nodup_children above) fun i hi => ⟨hi, fun t ht => (hkeyed i hi t ht).1⟩
  change Grouped p.forest above [] (joinTimeUnits p above) kept home at h
  generalize joinTimeUnits p above = q at h ⊢
  have hsingle := h.holds.1.single
  have hkept : ∀ {k u}, q.forest.parent? k = some above → q.forest.node? k = some (.timeUnit u) →
      k ∈ kept := fun hk hu => (h.left hk hu).resolve_right not_mem_nil
  have hclash : ∀ {k l u v}, q.forest.parent? k = some above → q.forest.parent? l = some above → k ≠ l →
      q.forest.node? k = some (.timeUnit u) → q.forest.node? l = some (.timeUnit v) → u.Clashes v :=
    fun hk hl hne hu hv => h.apart (hkept hk hu) (hkept hl hv) hne hu hv
  have houtput : ∀ {k u name c}, k ∈ kept → q.forest.node? k = some (.timeUnit u) →
      u.cuts.get? name = some c → c.output = name := fun hk hu hc => (h.keyed (h.placed hk).1 hu _ (mem_of_get? hc)).symm
  refine ⟨_, home, rfl, fun i hi t ht => ?_, fun k hk u hu name field unit hcut => ?_,
    fun k hk l hl hne u v hu hv => ?_, foldl_placeTimeUnit_of_clashes hclash [] _
      (hsingle.nodup_children above) fun i hi => hsingle.parent?_eq_some.mpr hi⟩
  · obtain ⟨_, hu, ⟨u, rfl, -⟩, hgives⟩ := h.rehomed.housed ht ⟨t, rfl, (hkeyed i hi t ht).2⟩
    refine ⟨hsingle.parent?_eq_some.mp (h.holds.2 _ (h.inside hi) (contains_of_node? hu)),
      ⟨u, hu, fun name field unit hcut => ?_⟩, fun c hc => ?_⟩
    · obtain ⟨_, ⟨⟩, hcut⟩ := hgives (name, field, unit) ⟨t, rfl, hcut⟩
      exact hcut
    · -- The child of a child is not among those that were placed.
      have hnot : c ∉ p.forest.children above := fun hmem => by
        cases hc.symm.trans (hf.parent?_of_mem hmem)
        exact hf.ne_parent (hf.parent?_of_mem hi) rfl
      refine h.rehomed.below ht ⟨t, rfl, (hkeyed i hi t ht).2⟩ hc ?_
      rw [Forest.contains, (h.untouched (.inl hnot)).2]
      exact (hf.live_of_parent? hc).2
  · have hkc := (h.placed (hkept (hsingle.parent?_eq_some.mpr hk) hu)).1
    obtain ⟨i, _, hi, ⟨t, rfl, -⟩, hhome, _, ⟨⟩, hcut⟩ := h.rehomed.given (x := (name, field, unit)) hu
      ⟨u, rfl, h.keyed hkc hu⟩ ⟨u, rfl, hcut⟩
    refine ⟨i, ?_, t, hi, hhome, hcut⟩
    by_contra hnot
    exact hnot ((h.untouched (.inl hnot)).1.symm.trans hhome ▸ hkc)
  · have hk := hsingle.parent?_eq_some.mpr hk
    have hl := hsingle.parent?_eq_some.mpr hl
    obtain ⟨name, c, d, hc, hd, hne⟩ := hclash hk hl hne hu hv
    refine ⟨name, c.field, c.unit, d.field, d.unit, ⟨c, hc, houtput (hkept hk hu) hu hc, rfl, rfl⟩,
      ⟨d, hd, houtput (hkept hl hv) hv hd, rfl, rfl⟩, fun he => ?_⟩
    rw [TimeCut.agrees, (Prod.mk.inj he).1, (Prod.mk.inj he).2] at hne
    simp at hne

/-- Dates that four views cut: to months, twice to years, and to months under the name for years. -/
def cutApart : Forest where
  slots := [some (.source .empty), some (.timeUnit (.single byYear)), some (.timeUnit (.single byMonth)),
    some (.timeUnit (.single { byMonth with output := byYear.output })),
    some (.timeUnit (.single byYear)),
    some (.output (.fresh "bars" .main 0)), some (.output (.fresh "labels" .main 0)),
    some (.output (.fresh "rules" .main 0)), some (.output (.fresh "dots" .main 0))]
  edges := [⟨4, 8, 0⟩, ⟨3, 7, 0⟩, ⟨2, 6, 0⟩, ⟨1, 5, 0⟩, ⟨0, 4, 3⟩, ⟨0, 3, 2⟩, ⟨0, 2, 1⟩, ⟨0, 1, 0⟩]
  sources := [0]
  outputs := [("bars", 5), ("labels", 6), ("rules", 7), ("dots", 8)]
  requests := [("bars", 1), ("labels", 1), ("rules", 1), ("dots", 1)]

theorem joinTimeUnits_cutApart : cutApart.check = .ok () ∧
    [5, 6, 7, 8].map (joinTimeUnits { forest := cutApart } 0).forest.path =
      [[0, 1, 5], [0, 1, 6], [0, 3, 7], [0, 1, 8]] ∧
    joinTimeUnits (joinTimeUnits { forest := cutApart } 0) 0 = joinTimeUnits { forest := cutApart } 0 := by
  have hkeyed : ∀ i ∈ cutApart.children 0, ∀ t, cutApart.node? i = some (.timeUnit t) →
      t.cuts.Sorted ∧ t.Keyed := by
    intro i hi t ht
    have hi : i ∈ [1, 2, 3, 4] := hi
    simp only [mem_cons, not_mem_nil, or_false] at hi
    rcases hi with rfl | rfl | rfl | rfl <;> cases ht <;>
      exact ⟨pairwise_singleton _ _, by simp [TimeUnits.Keyed, TimeUnits.single]⟩
  obtain ⟨q, home, rfl, -, -, -, hagain⟩ := joinTimeUnits_groups (p := { forest := cutApart })
    ⟨⟨by decide, by decide⟩, by decide⟩ rfl (by decide) 0 hkeyed
  exact ⟨rfl, by decide +kernel, hagain⟩

end

end Flow

end ChartPlan
