import Mathlib
import ChartPlan.Proofs.Flow.Grounding

/-!
# The names of the datasets that are written

The names outside of all cells come from four places: names that users give to data, numbers for roots
without a name, numbers for all other datasets, and the headers of facets. Every name is spent at most
once: what is written, together with the name that the present draft holds, never exceeds what was there
before, the numbers taken since, and the headers on the way. In a cell there are numbers and headers.

* `Writing.Spends`: the account of a part of the writing, and `Spends.trans`: of one part after the other;
* `Writing.walk_spends`, `Writing.ofForest_spends`: the account of a walk and of all roots;
* `Forest.Unshared`: the names that sources and facets bring are distinct and not numbered;
  `Unshared.nodup_ofForest`: then no two datasets outside of cells or in a cell have the same name;
* `Forest.Labelled`: the given names are apart from each other and from those that are made;
* `Forest.Labelled.nodup_top`: then all datasets outside of cells have names, and no two the same.
-/

namespace ChartPlan.Flow

open Forest Dataset List Option
open Writing (sourceName)

/-! ### Numbered names -/

def coins (low high : Nat) : Multiset String :=
  ↑((List.range' low (high - low)).map numbered)

theorem coins_self (k : Nat) : coins k k = 0 := by
  simp [coins]

theorem coins_add {low middle high : Nat} (hlow : low ≤ middle) (hhigh : middle ≤ high) :
    coins low middle + coins middle high = coins low high := by
  unfold coins
  rw [Multiset.coe_add, ← map_append]
  have hrange : List.range' low (middle - low) ++ List.range' middle (high - middle) =
      List.range' low (high - low) := by
    have hsplit := @List.range'_append_1 low (middle - low) (high - middle)
    rwa [show low + (middle - low) = middle by omega,
      show middle - low + (high - middle) = high - low by omega] at hsplit
  rw [hrange]

theorem coins_mono {low middle high : Nat} (hlow : low ≤ middle) (hhigh : middle ≤ high) :
    coins low middle ≤ coins low high := by
  rw [← coins_add hlow hhigh]
  exact Multiset.le_add_right _ _

theorem coins_succ (k : Nat) : coins k (k + 1) = {numbered k} := by
  simp [coins]

theorem mem_coins {low high : Nat} {name : String} (h : name ∈ coins low high) :
    ∃ k, name = numbered k := by
  obtain ⟨k, -, rfl⟩ := mem_map.mp (Multiset.mem_coe.mp h)
  exact ⟨k, rfl⟩

theorem nodup_coins (low high : Nat) : (coins low high).Nodup :=
  Multiset.coe_nodup.mpr ((nodup_range' 1).map fun _ _ h => numbered_injective h)

/-! ### The account of a part -/

def AllNamed (datasets : List Json) : Prop :=
  ∀ d ∈ datasets, (name? d).isSome

theorem Facet.allNamed_datasets (m : Facet) : AllNamed m.datasets := by
  intro d hd
  rcases mem_append.mp hd with hd | hd
  · obtain ⟨entry, hentry, rfl⟩ := map_eq_some_iff.mp (mem_toList.mp hd)
    rw [name?_crossed hentry]
    rfl
  · obtain ⟨entry, -, hentry⟩ := mem_filterMap.mp hd
    obtain ⟨channel, -, rfl⟩ := map_eq_some_iff.mp hentry
    rw [show name? (m.header _ channel _) = some channel.name from name?_object _ _ _]
    rfl

/-- The facets at and below a node that are in no cell below it, to a depth of `fuel` links. -/
def Forest.facetsBelow (f : Forest) : Nat → NodeId → List NodeId
  | 0, _ => []
  | fuel + 1, i => if f.holds i Node.isFacet then [i] else (f.children i).flatMap (f.facetsBelow fuel)

def Forest.headersBelow (f : Forest) (fuel : Nat) (i : NodeId) : List String :=
  (f.facetsBelow fuel i).flatMap f.headersAt

/-- The numbers below `high` and the headers below some nodes. -/
def Forest.drawn (f : Forest) (high fuel : Nat) (tops : List NodeId) : Multiset String :=
  coins 0 high + ↑(tops.flatMap (f.headersBelow fuel))

theorem exists_headersAt {f : Forest} {fuel : Nat} {tops : List NodeId} {name : String}
    (h : name ∈ tops.flatMap (f.headersBelow fuel)) : ∃ i, name ∈ f.headersAt i := by
  obtain ⟨r, -, hname⟩ := mem_flatMap.mp h
  obtain ⟨i, -, hname⟩ := mem_flatMap.mp hname
  exact ⟨i, hname⟩

namespace Writing

/-- In every cell, the datasets have the names of headers there and numbers that were used. -/
def Funded (f : Forest) (w : Writing) : Prop :=
  ∀ {name : String} {inside : CellData}, w.cells.get? name = some inside →
    ∃ i m fuel, f.node? i = some (.facet m) ∧ m.name = name ∧
      ↑(names inside.datasets) ≤ f.drawn w.count fuel (f.children i)

theorem Funded.count_le {f : Forest} {w : Writing} (h : w.Funded f) {count : Nat}
    (hcount : w.count ≤ count) : Funded f { w with count := count } := fun hinside => by
  obtain ⟨i, m, fuel, hm, hname, hle⟩ := h hinside
  exact ⟨i, m, fuel, hm, hname, hle.trans (add_le_add (coins_mono (Nat.zero_le _) hcount) le_rfl)⟩

/-- The names written so far and the one that a draft holds. -/
def held (w : Writing) (d : Draft) : Multiset String :=
  ↑(names w.written) + ↑d.name.toList

theorem held_empty_le (w : Writing) (d : Draft) : w.held {} ≤ w.held d := by
  show (↑(names w.written) : Multiset String) + 0 ≤ ↑(names w.written) + ↑d.name.toList
  gcongr
  exact Multiset.zero_le _

/-- The account of a part of the writing: from `w` with the draft `d` to `w'` with the draft `d'`, no
names were spent but numbered ones and `extra`. -/
structure Spends (f : Forest) (extra : Multiset String) (w : Writing) (d : Draft) (w' : Writing)
    (d' : Draft) : Prop where
  told : Told f w'.forest
  count : w.count ≤ w'.count
  spent : w'.held d' ≤ w.held d + coins w.count w'.count + extra
  tidy : Tidy d'.descriptor
  named : AllNamed w.written → AllNamed w'.written
  funded : w.Funded f → w'.Funded f

variable {f : Forest} {w w' w'' : Writing} {d d' d'' : Draft} {extra more : Multiset String} {i : NodeId}

namespace Spends

theorem refl (hw : Told f w.forest) (hd : Tidy d.descriptor) : Spends f 0 w d w d where
  told := hw
  count := le_rfl
  spent := by simp [coins_self]
  tidy := hd
  named := id
  funded := id

theorem trans (h : Spends f extra w d w' d') (h' : Spends f more w' d' w'' d'') :
    Spends f (extra + more) w d w'' d'' where
  told := h'.told
  count := h.count.trans h'.count
  spent := by
    calc w''.held d'' ≤ w'.held d' + coins w'.count w''.count + more := h'.spent
      _ ≤ (w.held d + coins w.count w'.count + extra) + coins w'.count w''.count + more := by
        gcongr
        exact h.spent
      _ = w.held d + (coins w.count w'.count + coins w'.count w''.count) + (extra + more) := by abel
      _ = w.held d + coins w.count w''.count + (extra + more) := by rw [coins_add h.count h'.count]
  tidy := h'.tidy
  named hw := h'.named (h.named hw)
  funded hw := h'.funded (h.funded hw)

theorem weaken (h : Spends f extra w d w' d') (hmore : extra ≤ more) : Spends f more w d w' d' :=
  { h with spent := h.spent.trans (by gcongr) }

theorem leave (h : Spends f extra w d w' d') : Spends f extra w d w' {} :=
  { h with spent := (w'.held_empty_le d').trans h.spent, tidy := .nil }

theorem again (h : Spends f extra w d w' {}) (source : String) :
    Spends f extra w d w' (.derived source) :=
  { h with tidy := .nil }

theorem setSource (h : Spends f extra w d w' d') (i : NodeId) (source : String) :
    Spends f extra w d (w'.setSource i source) d' :=
  { h with told := h.told.modify i fun n _ => by cases n <;> rfl }

end Spends

section

variable (hw : Told f w.forest) (hd : Tidy d.descriptor)

include hw hd

theorem name_spends : Spends f 0 w d (w.name d).1 (w.name d).2.1 ∧ (w.name d).2.1.name.isSome := by
  unfold Writing.name
  split
  · rename_i name hname
    exact ⟨.refl hw hd, by rw [hname]; rfl⟩
  · rename_i hname
    refine ⟨⟨hw, Nat.le_succ _, ?_, hd, id, fun hfunded => hfunded.count_le (Nat.le_succ _)⟩, rfl⟩
    show ↑(names w.written) + ↑[numbered w.count] ≤
      (↑(names w.written) + ↑d.name.toList) + coins w.count (w.count + 1) + 0
    rw [hname, coins_succ]
    simp

theorem push_spends (hname : d.name.isSome) (source : String) :
    Spends f 0 w d (w.push d) (.derived source) where
  told := hw
  count := le_rfl
  spent := by
    have hnames : names [d.toJson] = d.name.toList := by
      unfold names
      rw [filterMap_cons, Draft.name?_toJson hd]
      cases d.name <;> rfl
    have hheld : (w.push d).held (.derived source) = w.held d := by
      show (↑(names (w.written ++ [d.toJson])) : Multiset String) + 0 = w.held d
      rw [names_append, hnames, add_zero]
      rfl
    rw [hheld, add_zero]
    exact Multiset.le_add_right _ _
  tidy := .nil
  named hw v hv := by
    rcases mem_append.mp hv with hv | hv
    · exact hw v hv
    · rw [mem_singleton.mp hv, Draft.name?_toJson hd]
      exact hname
  funded := id

theorem close_spends : Spends f 0 w d (w.close d).1 (.derived (w.close d).2) := by
  unfold Writing.close
  split
  · exact ((Spends.refl hw hd).leave).again _
  · obtain ⟨hspends, hname⟩ := name_spends hw hd
    exact hspends.trans (push_spends hspends.told hspends.tidy hname _)

theorem record_spends (records : Logged (List Json)) :
    Spends f 0 w d (w.record d records).1 (w.record d records).2 :=
  ⟨hw, le_rfl, by simp [held, Writing.record, Draft.append, coins_self], hd, id, id⟩

end

/-- Taking a node spends nothing but numbers. A draft that an output leaves behind without a dataset to
refer to has a name. -/
theorem take_spends (under : Option Node) (n : Node) (hw : Told f w.forest) (hd : Tidy d.descriptor) :
    Spends f 0 w d (w.take i under n d).1 (w.take i under n d).2 ∧
      (n.isOutput → (w.take i under n d).2.reference? = none → (w.take i under n d).2.name.isSome) := by
  cases n with
  | source s =>
    refine ⟨?_, fun h => nomatch h⟩
    unfold Writing.take
    dsimp only
    split
    · exact .refl hw hd
    · obtain ⟨hspends, hname⟩ := name_spends hw hd
      exact hspends.trans (push_spends hspends.told hspends.tidy hname _)
  | parse c =>
    refine ⟨?_, fun h => nomatch h⟩
    unfold Writing.take
    dsimp only
    split
    · have hloaded : Spends f 0 w d w (d.withLoaded c.loaded) := by
        refine ⟨hw, le_rfl, by simp [held, Draft.name_withLoaded, coins_self], ?_, id, id⟩
        unfold Draft.withLoaded
        split
        · exact hd
        · exact hd.insert _ (by decide)
      exact hloaded.trans (record_spends hw hloaded.tidy _)
    · exact record_spends hw hd _
  | output o =>
    unfold Writing.take
    dsimp only
    split
    · rename_i source href
      exact ⟨(Spends.refl hw hd).setSource i source, fun _ hnone => by rw [href] at hnone; cases hnone⟩
    · obtain ⟨hspends, hname⟩ := name_spends hw hd
      split
      · exact ⟨(hspends.setSource i _).trans (push_spends (hspends.setSource i _).told hspends.tidy
          hname _), fun _ hnone => nomatch hnone⟩
      · exact ⟨hspends.setSource i _, fun _ _ => hname⟩
  | _ => exact ⟨record_spends hw hd _, fun h => nomatch h⟩

end Writing

/-! ### The account of a walk -/

namespace Writing

variable {f : Forest} {w : Writing} {d : Draft} {i : NodeId}

/-- A walk over what is at and below a node, which spends the headers found there. -/
def WalkSpends (f : Forest) (fuel : Nat) (visit : Writing → NodeId → Draft → Writing) : Prop :=
  ∀ {w : Writing} (i : NodeId) {d : Draft}, Told f w.forest → Tidy d.descriptor →
    Spends f ↑(f.headersBelow fuel i) w d (visit w i d) {}

variable {fuel : Nat} {visit : Writing → NodeId → Draft → Writing}

theorem WalkSpends.foldl (hvisit : WalkSpends f fuel visit) (source : String) (children : List NodeId)
    (hw : Told f w.forest) :
    Spends f ↑(children.flatMap (f.headersBelow fuel)) w {}
      (children.foldl (fun w child => visit w child (.derived source)) w) {} := by
  induction children generalizing w with
  | nil => exact .refl hw .nil
  | cons c rest ih =>
    have hfirst : Spends f ↑(f.headersBelow fuel c) w {} (visit w c (.derived source)) {} :=
      { hvisit c (d := .derived source) hw .nil with }
    have hall := hfirst.trans (ih hfirst.told)
    exact hall

theorem WalkSpends.descend (hvisit : WalkSpends f fuel visit) {n : Node} (hw : Told f w.forest)
    (hd : Tidy d.descriptor) (hname : n.isOutput → d.reference? = none → d.name.isSome) :
    Spends f ↑((f.children i).flatMap (f.headersBelow fuel)) w d (w.descend visit i n d) {} := by
  rw [← children_congr hw.edges i]
  unfold Writing.descend
  cases hchildren : w.forest.children i with
  | nil =>
    dsimp only
    split
    · rename_i hleaf
      rw [Bool.and_eq_true, isNone_iff_eq_none] at hleaf
      exact (push_spends hw hd (hname hleaf.1 hleaf.2) "").leave
    · exact (Spends.refl hw hd).leave
  | cons c rest =>
    cases rest with
    | nil =>
      rw [flatMap_singleton]
      exact hvisit c hw hd
    | cons c' rest =>
      have hclose := (close_spends hw hd).leave
      have hall := hclose.trans (hvisit.foldl (w.close d).2 (c :: c' :: rest) hclose.told)
      exact hall

theorem WalkSpends.splitCells (hvisit : WalkSpends f fuel visit) {m : Facet} (old : Option String)
    (hm : f.node? i = some (.facet m)) (hw : Told f w.forest) (hd : Tidy d.descriptor) :
    Spends f ↑(names m.datasets) w d (w.splitCells visit i { m with data := old } d) {} := by
  have hclose := (close_spends hw hd).leave
  unfold Writing.splitCells
  dsimp only
  generalize (w.close d).2 = data
  generalize (w.close d).1 = closed at hclose ⊢
  obtain ⟨old', hold⟩ := hclose.told.node_facet hm
  have htold : Told f (closed.openFacet i { m with data := old } data).forest :=
    hclose.told.modify i fun n hn => by
      cases hold.symm.trans hn
      rfl
  -- What is written in the cells does not count outside, but the numbers used there do.
  have hinner := hvisit.foldl m.name (f.children i)
    (w := { closed.openFacet i { m with data := old } data with written := [] }) htold
  rw [children_congr htold.edges i]
  generalize (f.children i).foldl (fun inner child => visit inner child (.derived m.name))
    { closed.openFacet i { m with data := old } data with written := [] } = inner at hinner ⊢
  have hnames : names ({ m with data := some data } : Facet).datasets = names m.datasets :=
    m.names_datasets_data _
  refine ⟨hinner.told, hclose.count.trans hinner.count, ?_, .nil, fun hnamed v hv => ?_,
    fun hfunded name inside hinside => ?_⟩
  · show (↑(names (closed.written ++ ({ m with data := some data } : Facet).datasets)) :
      Multiset String) + 0 ≤ _
    rw [names_append, hnames, ← Multiset.coe_add, add_zero]
    have hspent := hclose.spent
    rw [add_zero] at hspent
    refine add_le_add ?_ le_rfl
    calc (↑(names closed.written) : Multiset String) = closed.held {} := (add_zero _).symm
      _ ≤ w.held d + coins w.count closed.count := hspent
      _ ≤ _ := add_le_add le_rfl (coins_mono hclose.count hinner.count)
  · rcases mem_append.mp hv with hv | hv
    · exact hclose.named hnamed v hv
    · exact Facet.allNamed_datasets _ v hv
  · rw [Dict.get?_insert] at hinside
    split at hinside
    · rename_i hname
      cases hinside
      refine ⟨i, m, fuel, hm, hname.symm, ?_⟩
      have hspent := (Multiset.le_add_right _ _).trans hinner.spent
      refine hspent.trans (add_le_add ?_ le_rfl)
      rw [show held { closed.openFacet i { m with data := old } data with written := [] } {} = 0 from
        add_zero _, zero_add, ← coins_add (Nat.zero_le _) hinner.count]
      exact Multiset.le_add_left _ _
    · exact hinner.funded (hclose.funded hfunded) hinside

theorem walk_spends (f : Forest) (fuel : Nat) : WalkSpends f fuel (walk fuel) := by
  induction fuel with
  | zero =>
    intro w i d hw hd
    exact (Spends.refl hw hd).leave
  | succ fuel ih =>
    intro w i d hw hd
    cases hn : w.forest.node? i with
    | none =>
      have hleft : walk (fuel + 1) w i d = w := by
        unfold walk
        rw [hn]
      rw [hleft]
      exact ((Spends.refl hw hd).leave).weaken (Multiset.zero_le _)
    | some n =>
      by_cases hfacet : f.holds i Node.isFacet
      · obtain ⟨m, hm⟩ := exists_facet hfacet
        obtain ⟨old, hold⟩ := hw.node_facet hm
        have hheaders : f.headersBelow (fuel + 1) i = names m.datasets := by
          unfold headersBelow facetsBelow headersAt
          rw [if_pos hfacet, flatMap_singleton, hm]
          rfl
        rw [hheaders, walk_facet hold]
        exact ih.splitCells old hm hw hd
      · have hheaders : f.headersBelow (fuel + 1) i = (f.children i).flatMap (f.headersBelow fuel) := by
          unfold headersBelow
          rw [facetsBelow, if_neg hfacet, flatMap_assoc]
        have hplain : n.isFacet = false := by
          refine Bool.eq_false_iff.mpr fun hkind => hfacet ?_
          cases n with
          | facet m' =>
            obtain ⟨old, hold⟩ := hw.symm.node_facet hn
            exact holds_iff.mpr ⟨_, hold, rfl⟩
          | _ => cases hkind
        rw [hheaders, walk_node hn hplain]
        obtain ⟨htake, hname⟩ := take_spends (i := i) ((w.forest.parent? i).bind w.forest.node?) n hw hd
        have hall := htake.trans (ih.descend (i := i) htake.told htake.tidy hname)
        exact hall

/-! ### The account of all roots -/

theorem Spends.own {extra : Multiset String} {w' : Writing} {d' : Draft}
    (h : Spends f extra w d w' d') : Spends f (↑d.name.toList + extra) w {} w' d' := by
  refine { h with spent := h.spent.trans (le_of_eq ?_) }
  show ↑(names w.written) + ↑d.name.toList + coins w.count w'.count + extra =
    ↑(names w.written) + 0 + coins w.count w'.count + (↑d.name.toList + extra)
  abel

end Writing

/-- The names of roots, of which `count` counts those without a name of their own. -/
def Forest.rootNames (f : Forest) : List NodeId → Nat → List String
  | [], _ => []
  | r :: rest, count => (Writing.rootDraft f r count).1.name.toList ++
      f.rootNames rest (Writing.rootDraft f r count).2

namespace Writing

variable {f : Forest} {w : Writing} {r : NodeId}

theorem rootDraft_told (hw : Told f w.forest) (r : NodeId) (count : Nat) :
    rootDraft w.forest r count = rootDraft f r count := by
  unfold rootDraft
  cases hn : f.node? r with
  | none =>
    have hnone : w.forest.node? r = none := by
      have hsame := hw.node r
      rw [hn] at hsame
      exact map_eq_none_iff.mp hsame
    rw [hnone]
  | some n =>
    cases n with
    | output o =>
      obtain ⟨source, hsource⟩ := hw.node_output hn
      rw [hsource]
    | facet m =>
      obtain ⟨data, hdata⟩ := hw.node_facet hn
      rw [hdata]
    | _ => rw [hw.node_eq hn rfl rfl]

theorem tidy_rootDraft (htidy : ∀ i s, f.node? i = some (.source s) → Tidy s.descriptor) (r : NodeId)
    (count : Nat) : Tidy (rootDraft f r count).1.descriptor := by
  rcases rootDraft_cases f r count with ⟨s, _, hs, -, hdraft⟩ | ⟨_, hdraft, rfl | ⟨s, hs, rfl⟩⟩
  · rw [hdraft]
    exact htidy r s hs
  · rw [hdraft]
    exact .nil
  · rw [hdraft]
    exact htidy r s hs

theorem writeRoots_spends (htidy : ∀ i s, f.node? i = some (.source s) → Tidy s.descriptor)
    (roots : List NodeId) (count : Nat) (hw : Told f w.forest) :
    Spends f (↑(f.rootNames roots count) + ↑(roots.flatMap (f.headersBelow (f.slots.length + 1)))) w {}
      (roots.foldl writeRoot (w, count)).1 {} := by
  induction roots generalizing w count with
  | nil => exact (Spends.refl hw .nil).weaken (Multiset.zero_le _)
  | cons r rest ih =>
    have hwalk := (walk_spends f (f.slots.length + 1) r hw (tidy_rootDraft htidy r count)).own
    have hall := hwalk.trans (ih (rootDraft f r count).2 hwalk.told)
    have hstep : writeRoot (w, count) r =
        (walk (f.slots.length + 1) w r (rootDraft f r count).1, (rootDraft f r count).2) := by
      unfold writeRoot
      dsimp only
      rw [rootDraft_told hw, hw.length]
    rw [foldl_cons, hstep]
    refine hall.weaken (le_of_eq ?_)
    rw [rootNames, flatMap_cons, ← Multiset.coe_add, ← Multiset.coe_add]
    abel

def supply (f : Forest) (high : Nat) : Multiset String :=
  ↑(f.rootNames f.sources 0) + f.drawn high (f.slots.length + 1) f.sources

theorem ofForest_spends (htidy : ∀ i s, f.node? i = some (.source s) → Tidy s.descriptor) :
    ↑(names (ofForest f).written) ≤ supply f (ofForest f).count ∧ AllNamed (ofForest f).written ∧
      (ofForest f).Funded f := by
  have hspends := writeRoots_spends (w := { forest := f }) htidy f.sources 0 (.refl f)
  refine ⟨?_, hspends.named fun _ hnone => (nomatch hnone), hspends.funded fun hnone => nomatch hnone⟩
  calc (↑(names (ofForest f).written) : Multiset String)
      = (ofForest f).held {} := (add_zero _).symm
    _ ≤ _ := hspends.spent
    _ = supply f (ofForest f).count := by
      show 0 + coins 0 (ofForest f).count + _ = _
      unfold supply drawn
      abel

end Writing

/-! ### Names that are distinct -/

theorem Forest.exists_facet_of_mem_headersAt {f : Forest} {i : NodeId} {name : String}
    (h : name ∈ f.headersAt i) : ∃ m, f.node? i = some (.facet m) ∧ name ∈ names m.datasets := by
  unfold headersAt at h
  cases hn : f.node? i with
  | none => simp [hn] at h
  | some n =>
    rw [hn] at h
    cases n with
    | facet m => exact ⟨m, rfl, h⟩
    | _ => cases h

/-- The names that sources and facets bring are distinct, and none is a numbered one. -/
structure Forest.Unshared (f : Forest) : Prop where
  apart : ∀ {i j s t name}, f.node? i = some (.source s) → f.node? j = some (.source t) →
    s.name = some name → t.name = some name → i = j
  headers : ∀ {i}, (f.headersAt i).Nodup
  headersApart : ∀ {i j name}, name ∈ f.headersAt i → name ∈ f.headersAt j → i = j
  given : ∀ {i s name}, f.node? i = some (.source s) → s.name = some name →
    (∀ j, name ∉ f.headersAt j) ∧ ∀ k, name ≠ sourceName k ∧ name ≠ numbered k
  unnumbered : ∀ {i name}, name ∈ f.headersAt i → ∀ k, name ≠ sourceName k ∧ name ≠ numbered k

namespace Forest.Unshared

variable {f : Forest}

theorem mem_rootNames {roots : List NodeId} {count : Nat} {name : String}
    (h : name ∈ f.rootNames roots count) :
    (∃ r ∈ roots, ∃ s, f.node? r = some (.source s) ∧ s.name = some name) ∨
      ∃ k, count ≤ k ∧ name = sourceName k := by
  induction roots generalizing count with
  | nil => cases h
  | cons r rest ih =>
    unfold rootNames at h
    rcases Writing.rootDraft_cases f r count with ⟨s, own, hs, hown, hdraft⟩ | ⟨_, hdraft, -⟩
    · rw [hdraft] at h
      rcases mem_cons.mp h with rfl | h
      · exact .inl ⟨r, mem_cons_self, s, hs, hown⟩
      · exact (ih h).imp_left fun ⟨q, hq, hsource⟩ => ⟨q, mem_cons_of_mem r hq, hsource⟩
    · rw [hdraft] at h
      rcases mem_cons.mp h with rfl | h
      · exact .inr ⟨count, le_rfl, rfl⟩
      · rcases ih h with ⟨q, hq, hsource⟩ | ⟨k, hk, hname⟩
        · exact .inl ⟨q, mem_cons_of_mem r hq, hsource⟩
        · exact .inr ⟨k, Nat.le_of_succ_le hk, hname⟩

theorem nodup_rootNames (h : f.Unshared) {roots : List NodeId} (hroots : roots.Nodup) (count : Nat) :
    (f.rootNames roots count).Nodup := by
  induction roots generalizing count with
  | nil => exact nodup_nil
  | cons r rest ih =>
    obtain ⟨hr, hrest⟩ := nodup_cons.mp hroots
    unfold rootNames
    rcases Writing.rootDraft_cases f r count with ⟨s, own, hs, hown, hdraft⟩ | ⟨_, hdraft, -⟩
    · rw [hdraft]
      refine nodup_cons.mpr ⟨fun hmem => ?_, ih hrest _⟩
      rcases mem_rootNames hmem with ⟨q, hq, t, ht, hname⟩ | ⟨k, -, hname⟩
      · exact hr (h.apart hs ht hown hname ▸ hq)
      · exact ((h.given hs hown).2 k).1 hname
    · rw [hdraft]
      refine nodup_cons.mpr ⟨fun hmem => ?_, ih hrest _⟩
      rcases mem_rootNames hmem with ⟨q, hq, t, ht, hname⟩ | ⟨k, hk, hname⟩
      · exact ((h.given ht hname).2 count).1 rfl
      · have hsame := toString_injective ((String.append_right_inj _).mp hname)
        omega

theorem below_of_mem_facetsBelow {fuel : Nat} {i j : NodeId} (h : j ∈ f.facetsBelow fuel i) :
    f.Below i j := by
  induction fuel generalizing i with
  | zero => cases h
  | succ fuel ih =>
    unfold facetsBelow at h
    split at h
    · rw [mem_singleton.mp h]
      exact .refl f i
    · obtain ⟨c, hc, hj⟩ := mem_flatMap.mp h
      exact below_iff.mpr (.inr ⟨c, hc, ih hj⟩)

theorem pairwise_children (hf : f.Linked) (i : NodeId) :
    (f.children i).Pairwise fun a b => ∀ j, f.Below a j → ¬ f.Below b j :=
  (hf.single.nodup_children i).imp_of_mem fun ha hb hne _ hj hj' =>
    hf.not_below_both (hf.parent?_of_mem ha) (hf.parent?_of_mem hb) hne hj hj'

theorem nodup_facetsBelow (hf : f.Linked) (fuel : Nat) (i : NodeId) : (f.facetsBelow fuel i).Nodup := by
  induction fuel generalizing i with
  | zero => exact nodup_nil
  | succ fuel ih =>
    unfold facetsBelow
    split
    · exact nodup_singleton i
    · refine nodup_flatMap.mpr ⟨fun c _ => ih c, (pairwise_children hf i).imp fun h j hj hj' => ?_⟩
      exact h j (below_of_mem_facetsBelow hj) (below_of_mem_facetsBelow hj')

theorem nodup_drawn (h : f.Unshared) (hf : f.Linked) {tops : List NodeId}
    (htops : tops.Pairwise fun a b => ∀ j, f.Below a j → ¬ f.Below b j) (high fuel : Nat) :
    (f.drawn high fuel tops).Nodup := by
  refine Multiset.nodup_add.mpr ⟨nodup_coins _ _, Multiset.coe_nodup.mpr ?_,
    Multiset.disjoint_left.mpr fun hcoin hheader => ?_⟩
  · have hfacets : (tops.flatMap (f.facetsBelow fuel)).Nodup :=
      nodup_flatMap.mpr ⟨fun r _ => nodup_facetsBelow hf fuel r, htops.imp fun h j hj hj' =>
        h j (below_of_mem_facetsBelow hj) (below_of_mem_facetsBelow hj')⟩
    show (tops.flatMap fun r => (f.facetsBelow fuel r).flatMap f.headersAt).Nodup
    rw [← flatMap_assoc]
    exact nodup_flatMap.mpr ⟨fun i _ => h.headers, hfacets.imp fun hne name hi hj =>
      hne (h.headersApart hi hj)⟩
  · obtain ⟨k, rfl⟩ := mem_coins hcoin
    obtain ⟨i, hi⟩ := exists_headersAt hheader
    exact (h.unnumbered hi k).2 rfl

theorem nodup_supply (h : f.Unshared) (hf : f.Valid) (hsources : f.sources.Nodup) (high : Nat) :
    (Writing.supply f high).Nodup := by
  have hroots : f.sources.Pairwise fun a b => ∀ j, f.Below a j → ¬ f.Below b j :=
    hsources.imp_of_mem fun ha hb hne j hj hj' =>
      hne (hf.root_unique (hf.mem_sources.mp ha).2 (hf.mem_sources.mp hb).2 hj hj')
  refine Multiset.nodup_add.mpr ⟨Multiset.coe_nodup.mpr (h.nodup_rootNames hsources 0),
    h.nodup_drawn hf.toLinked hroots _ _, Multiset.disjoint_left.mpr fun {name} hroot hdrawn => ?_⟩
  rcases mem_rootNames hroot with ⟨r, -, s, hs, hname⟩ | ⟨k, -, rfl⟩
  · obtain ⟨hheaders, hnumbers⟩ := h.given hs hname
    rcases Multiset.mem_add.mp hdrawn with hcoin | hheader
    · obtain ⟨k, hk⟩ := mem_coins hcoin
      exact (hnumbers k).2 hk
    · obtain ⟨i, hi⟩ := exists_headersAt hheader
      exact hheaders i hi
  · rcases Multiset.mem_add.mp hdrawn with hcoin | hheader
    · obtain ⟨j, hj⟩ := mem_coins hcoin
      exact Writing.sourceName_ne_numbered k j hj
    · obtain ⟨i, hi⟩ := exists_headersAt hheader
      exact (h.unnumbered hi k).1 rfl

theorem nodup_ofForest (h : f.Unshared) (hf : f.Valid) (hsources : f.sources.Nodup)
    (htidy : ∀ i s, f.node? i = some (.source s) → Tidy s.descriptor) {cell : Option String}
    {datasets : List Json} (hfound : (Writing.ofForest f).datasetsOf none cell = some datasets) :
    (names datasets).Nodup := by
  obtain ⟨hwithin, -, hfunded⟩ := Writing.ofForest_spends htidy
  unfold Writing.datasetsOf at hfound
  split at hfound
  · cases hfound
    exact Multiset.coe_nodup.mp (Multiset.nodup_of_le hwithin (h.nodup_supply hf hsources _))
  · obtain ⟨name, -, hcell⟩ := bind_eq_some_iff.mp hfound
    obtain ⟨inside, hinside, rfl⟩ := map_eq_some_iff.mp hcell
    obtain ⟨i, m, fuel, -, -, hle⟩ := hfunded hinside
    exact Multiset.coe_nodup.mp (Multiset.nodup_of_le hle
      (h.nodup_drawn hf.toLinked (pairwise_children hf.toLinked i) _ _))

end Forest.Unshared

/-! ### Names that are apart from made ones -/

/-- The forms of the names that are made. -/
inductive Made : String → Prop
  | root (k : Nat) : Made (sourceName k)
  | numbered (k : Nat) : Made (numbered k)
  | header (s : String) : Made (s ++ "_domain")
  | store (s : String) : Made (s ++ "_store")

theorem getLast?_toString (k : Nat) : ∃ c, (toString k).toList.getLast? = some c ∧ c.isDigit := by
  have hne : (toString k).toList ≠ [] := by simp
  exact ⟨_, List.getLast?_eq_some_getLast hne, isDigit_of_mem_toString (getLast_mem hne)⟩

theorem append_toString_ne {stem s word : String} {c : Char} (k : Nat)
    (hword : word.toList.getLast? = some c) (hc : c.isDigit = false) :
    stem ++ toString k ≠ s ++ word := by
  intro he
  obtain ⟨digit, hdigit, hisDigit⟩ := getLast?_toString k
  have hlast := congrArg (fun text => text.toList.getLast?) he
  simp only [String.toList_append, List.getLast?_append, hdigit, hword, some_or] at hlast
  cases hlast
  rw [hc] at hisDigit
  cases hisDigit

theorem domain_ne_store (s t : String) : s ++ "_domain" ≠ t ++ "_store" := by
  intro he
  have hlast := congrArg (fun text => text.toList.getLast?) he
  simp only [String.toList_append, List.getLast?_append] at hlast
  exact absurd (Option.some.inj hlast) (by decide)

theorem not_made_of_getLast? {name : String} {c : Char} (h : name.toList.getLast? = some c)
    (hdigit : c.isDigit = false) (hheader : c ≠ 'n') (hstore : c ≠ 'e') : ¬ Made name := by
  have hends : ∀ {s word : String} {e : Char}, name = s ++ word → word.toList.getLast? = some e → c = e := by
    intro s word e he hword
    rw [he, String.toList_append, List.getLast?_append, hword] at h
    exact (Option.some.inj h).symm
  intro hmade
  cases hmade with
  | root k | numbered k =>
    obtain ⟨digit, hlast, hisDigit⟩ := getLast?_toString k
    rw [← hends rfl hlast, hdigit] at hisDigit
    cases hisDigit
  | header s => exact hheader (hends (e := 'n') rfl (by decide))
  | store s => exact hstore (hends (e := 'e') rfl (by decide))

/-- The names that a forest brings along are apart: those of sources from each other and from all that
are made, and those of headers from each other. -/
structure Forest.Labelled (f : Forest) : Prop where
  valid : f.Valid
  sources : f.sources.Nodup
  tidy : ∀ i s, f.node? i = some (.source s) → Tidy s.descriptor
  given : ∀ {i s name}, f.node? i = some (.source s) → s.name = some name → ¬ Made name
  apart : ∀ {i j s t name}, f.node? i = some (.source s) → f.node? j = some (.source t) →
    s.name = some name → t.name = some name → i = j
  headers : ∀ {i m}, f.node? i = some (.facet m) →
    (names m.datasets).Nodup ∧ ∀ name ∈ names m.datasets, ∃ s, name = s ++ "_domain"
  headersApart : ∀ {i j name}, name ∈ f.headersAt i → name ∈ f.headersAt j → i = j

namespace Forest.Labelled

variable {f : Forest}

theorem exists_domain_of_mem (h : f.Labelled) {i : NodeId} {name : String}
    (hname : name ∈ f.headersAt i) : ∃ s, name = s ++ "_domain" := by
  obtain ⟨m, hm, hname⟩ := exists_facet_of_mem_headersAt hname
  exact (h.headers hm).2 name hname

theorem unshared (h : f.Labelled) : f.Unshared where
  apart := h.apart
  headers {i} := by
    unfold headersAt
    cases hn : f.node? i with
    | none => exact nodup_nil
    | some n =>
      cases n with
      | facet m => exact (h.headers hn).1
      | _ => exact nodup_nil
  headersApart := h.headersApart
  given hs hname := by
    refine ⟨fun j hj => ?_, fun k => ⟨fun he => ?_, fun he => ?_⟩⟩
    · obtain ⟨t, rfl⟩ := h.exists_domain_of_mem hj
      exact h.given hs hname (.header t)
    · exact h.given hs hname (he ▸ .root k)
    · exact h.given hs hname (he ▸ .numbered k)
  unnumbered hi k := by
    obtain ⟨s, rfl⟩ := h.exists_domain_of_mem hi
    exact ⟨(append_toString_ne (c := 'n') k (by decide) (by decide)).symm,
      (append_toString_ne (c := 'n') k (by decide) (by decide)).symm⟩

theorem ne_store_of_mem_supply (h : f.Labelled) {high : Nat} {name : String}
    (hname : name ∈ Writing.supply f high) (s : String) : name ≠ s ++ "_store" := by
  rintro rfl
  rcases Multiset.mem_add.mp hname with hroot | hdrawn
  · rcases Unshared.mem_rootNames hroot with ⟨r, -, t, ht, hown⟩ | ⟨k, -, he⟩
    · exact h.given ht hown (.store s)
    · exact append_toString_ne (c := 'e') k (by decide) (by decide) he.symm
  · rcases Multiset.mem_add.mp hdrawn with hcoin | hheader
    · obtain ⟨k, hk⟩ := mem_coins hcoin
      exact append_toString_ne (c := 'e') k (by decide) (by decide) hk.symm
    · obtain ⟨i, hi⟩ := exists_headersAt hheader
      obtain ⟨t, ht⟩ := h.exists_domain_of_mem hi
      exact domain_ne_store t s ht.symm

theorem nodup_top (h : f.Labelled) : AllNamed f.datasets.value.2.top ∧
    (names f.datasets.value.2.top).Nodup ∧
    ∀ name ∈ names f.datasets.value.2.top, ∀ s, name ≠ s ++ "_store" := by
  obtain ⟨hwithin, hnamed, -⟩ := Writing.ofForest_spends h.tidy
  have hperm : (names (Writing.ofForest f).written).Perm (names f.datasets.value.2.top) := by
    have hnames := names_resolveLookups f.datasets.value.1 (Writing.ofForest f).written
    rw [← hnames]
    exact ((filter_append_perm _ _).symm.map _).filterMap name?
  refine ⟨?_, ?_, ?_⟩
  · intro d hd
    obtain ⟨e, he, rfl⟩ := mem_map.mp hd
    rw [name?_resolveLookups]
    have hwritten : e ∈ (Writing.ofForest f).written :=
      (filter_append_perm isPlain (Writing.ofForest f).written).mem_iff.mp he
    exact hnamed e hwritten
  · exact hperm.nodup_iff.mp (Multiset.coe_nodup.mp (Multiset.nodup_of_le hwithin (h.unshared.nodup_supply h.valid
      h.sources _)))
  · intro name hname
    exact h.ne_store_of_mem_supply (Multiset.mem_of_le hwithin (hperm.mem_iff.mpr hname))

end Forest.Labelled

end ChartPlan.Flow
