import ChartPlan.Proofs.Flow.Ledger

/-!
# Datasets are faithful

In the end every output knows the dataset that holds its rows, and the transforms on the way back from
that dataset are those of the nodes on the track of the output, in order, with lookups pointed at the
datasets in which they search. When names are apart there is only one such way.

* `exists_lineage`: the way back from the dataset of an output.
* `datasets_faithful`: what every output is told.
-/

namespace ChartPlan.Flow

open Forest Dataset List Option

variable {f : Forest} {i j p : NodeId}

/-! ### Names -/

namespace Forest.NamesApart

theorem unshared (h : f.NamesApart) : f.Unshared where
  apart hs ht hname hname' := h.eq_of_mem ((mem_givenAt hs).mpr (mem_toList.mpr hname))
    ((mem_givenAt ht).mpr (mem_toList.mpr hname'))
  headers {i} := by
    cases hn : f.node? i with
    | none =>
      unfold headersAt
      rw [hn]
      exact nodup_nil
    | some n =>
      have hgiven := h.nodup_givenAt (contains_of_node? hn)
      unfold givenAt at hgiven
      unfold headersAt
      rw [hn] at hgiven ⊢
      cases n with
      | facet m => exact (nodup_cons.mp hgiven).2
      | _ => exact nodup_nil
  headersApart hi hj := h.eq_of_mem (givenAt_of_headersAt hi) (givenAt_of_headersAt hj)
  given hs hname := by
    have hgiven := (mem_givenAt hs).mpr (mem_toList.mpr hname)
    refine ⟨fun j hj => ?_, h.ne_numbered hgiven⟩
    cases h.eq_of_mem hgiven (givenAt_of_headersAt hj)
    rw [mem_headersAt hs] at hj
    cases hj
  unnumbered hi := h.ne_numbered (givenAt_of_headersAt hi)

theorem outside_ofForest (h : f.NamesApart)
    (htidy : ∀ i s, f.node? i = some (.source s) → Tidy s.descriptor) {cell : Option String}
    {datasets : List Json} (hfound : (Writing.ofForest f).datasetsOf none cell = some datasets) :
    ∀ name ∈ names datasets, cell ≠ some name := by
  rintro name hname rfl
  obtain ⟨inside, hinside, rfl⟩ := map_eq_some_iff.mp hfound
  obtain ⟨i, m, fuel, hm, rfl, hle⟩ := (Writing.ofForest_spends htidy).2.2 hinside
  have hgiven : m.name ∈ f.givenAt i := (mem_givenAt hm).mpr mem_cons_self
  rcases Multiset.mem_add.mp (Multiset.mem_of_le hle hname) with hcoin | hheader
  · obtain ⟨k, hk⟩ := mem_coins hcoin
    exact (h.ne_numbered hgiven k).2 hk
  · obtain ⟨j, hj⟩ := exists_headersAt hheader
    cases h.eq_of_mem hgiven (givenAt_of_headersAt hj)
    have hnodup := h.nodup_givenAt (contains_of_node? hm)
    unfold givenAt at hnodup
    rw [hm] at hnodup
    exact (nodup_cons.mp hnodup).1 ((mem_headersAt hm).mp hj)

end Forest.NamesApart

theorem exists_lineage (hf : f.Valid) (hsources : f.sources.Nodup) (hnames : f.NamesApart)
    (htidy : ∀ i s, f.node? i = some (.source s) → Tidy s.descriptor) {o : Output}
    (ho : f.node? i = some (.output o)) : ∃ source datasets origin,
      f.datasets.value.1.node? i = some (.output { o with source := source }) ∧
      f.datasets.value.2.within? (f.cell? i) = some datasets ∧ (names datasets).Nodup ∧
      Lineage datasets (f.cell? i) source origin
        ((f.recordsTo i).map (resolveLookup f.datasets.value.1)) ∧ Loads origin (f.loadedTo i) := by
  obtain ⟨written, hg⟩ :=
    (Writing.ofForest_writes hf hnames.facetsApart htidy).grounds_of_node? hf ho rfl
  obtain ⟨source, hsource, origin, hdescent, hloads⟩ := hg.output o ho
  obtain ⟨finished, hfinished, hperm⟩ := within?_datasets f hg.found
  have hsame : (names written).Perm (names finished) := by
    rw [← names_resolveLookups f.datasets.value.1]
    exact hperm.filterMap name?
  have hnodup := hsame.nodup_iff.mp (hnames.unshared.nodup_ofForest hf hsources htidy hg.found)
  refine ⟨source, finished, _, hsource, hfinished, hnodup, Descent.lineage ?_ hnodup fun name hname =>
    hnames.outside_ofForest htidy hg.found name (hsame.mem_iff.mpr hname),
    hloads.resolveLookups f.datasets.value.1⟩
  exact hdescent.transport (fun d hd => hperm.mem_iff.mp (mem_map_of_mem hd))
    (name?_resolveLookups _) (source?_resolveLookups _) (transforms_resolveLookups _)

/-! ### Loaders at the roots -/

namespace Forest

theorem Linked.below_of_mem_track (hf : f.Linked) (h : j ∈ f.track i) : f.Below j i := by
  refine hf.down (P := fun i => j ∈ f.track i → f.Below j i) (fun i hp h => ?_)
    (fun i p hp ih h => ?_) i h
  all_goals
    rcases mem_append.mp h with hlead | hj
  · rw [lead_of_root hp] at hlead
    cases hlead
  · exact mem_singleton.mp hj ▸ .refl f _
  · refine (ih ?_).step (hf.child hp)
    cases hfacet : f.holds p Node.isFacet with
    | false => rwa [← hf.lead_below hp hfacet]
    | true =>
      obtain ⟨m, hm⟩ := exists_facet hfacet
      rw [hf.lead_below_facet hp hm] at hlead
      cases hlead
  · exact mem_singleton.mp hj ▸ .refl f _

section

variable (hf : f.Valid) (hroots : ∀ i, f.holds i Node.isDataSource → i ∈ f.sources)

include hf hroots

theorem root_of_isSource (h : f.holds p Node.isSource) : f.parent? p = none := by
  obtain ⟨s, hs⟩ := exists_source h
  exact (hf.mem_sources.mp (hroots p (holds_of_node? hs))).2

theorem atLoader_iff (hp : f.parent? i = some p) :
    f.atLoader i ↔ f.holds p Node.isRemote ∧ f.children p = [i] := by
  have hchild : i ∈ f.children p := hf.child hp
  unfold atLoader
  rw [hp, hf.unbroken_below hp]
  constructor
  · intro h
    simp only [any_some, Bool.and_eq_true, beq_iff_eq] at h
    obtain ⟨hsource, ⟨hlength, hcarries⟩, -⟩ := h
    refine ⟨?_, ?_⟩
    · obtain ⟨s, hs⟩ := exists_source hsource
      rw [holds_of_node? hs] at hcarries ⊢
      exact hcarries
    · obtain ⟨c, hc⟩ := length_eq_one_iff.mp hlength
      rw [hc, mem_singleton] at hchild
      rw [hc, hchild]
  · rintro ⟨hremote, hc⟩
    obtain ⟨n, hn, hkind⟩ := holds_iff.mp hremote
    cases n with
    | source s =>
      have hsource : f.holds p Node.isSource := holds_of_node? hn
      have hcarries : f.holds p Node.carries := (holds_of_node? hn).trans hkind
      simp [hsource, hcarries, hc, unbroken_of_root (root_of_isSource hf hroots hsource)]
    | _ => cases hkind

end

theorem atLoader_of_loadedAt (h : f.loadedAt i ≠ []) : f.atLoader i := by
  unfold loadedAt at h
  split at h
  · split at h
    · assumption
    · exact absurd rfl h
  · exact absurd rfl h

theorem foldl_reload {l : List NodeId} {kinds : Dict String} (hne : f.loadedAt j ≠ [])
    (honly : ∀ k ∈ l, f.loadedAt k ≠ [] → k = j) (h : j ∈ l ∨ kinds = f.loadedAt j) :
    l.foldl f.reload kinds = f.loadedAt j := by
  induction l generalizing kinds with
  | nil => exact h.resolve_left (by simp)
  | cons k rest ih =>
    refine ih (fun k hk => honly k (mem_cons_of_mem _ hk)) ?_
    cases hk : f.loadedAt k with
    | nil =>
      have hreload : f.reload kinds k = kinds := by simp [reload, hk]
      rw [hreload]
      refine h.imp_left fun hj => (mem_cons.mp hj).resolve_left fun he => hne ?_
      rw [he, hk]
    | cons entry more =>
      have hj : k = j := honly k mem_cons_self (by simp [hk])
      exact .inr (by simp [reload, ← hj, hk])

theorem loadedTo_eq_loadedAt (hf : f.Valid)
    (hroots : ∀ i, f.holds i Node.isDataSource → i ∈ f.sources) (hj : j ∈ f.track i)
    (hne : f.loadedAt j ≠ []) : f.loadedTo i = f.loadedAt j := by
  have hunder : ∀ {k}, f.loadedAt k ≠ [] → ∃ p, f.parent? k = some p ∧ f.parent? p = none := by
    intro k hk
    obtain ⟨hsource, -⟩ := Bool.and_eq_true_iff.mp (atLoader_of_loadedAt hk)
    obtain ⟨p, hp, hholds⟩ := (any_eq_true _ _).mp hsource
    exact ⟨p, hp, root_of_isSource hf hroots hholds⟩
  -- a node on the way that is right below a root has no other such node below it
  have hbelow : ∀ {a b}, f.loadedAt a ≠ [] → f.loadedAt b ≠ [] → f.Below a b → b = a := by
    intro a b ha hb hab
    obtain ⟨p, hp, -⟩ := hunder ha
    obtain ⟨q, hq, hroot⟩ := hunder hb
    by_contra hne
    cases hf.eq_of_below_root hroot (hf.below_parent hab (Ne.symm hne) hq)
    cases hp.symm.trans hroot
  have honly : ∀ k ∈ f.track i, f.loadedAt k ≠ [] → k = j := by
    intro k hk hk'
    have hki := hf.below_of_mem_track hk
    have hji := hf.below_of_mem_track hj
    rcases hf.below_total hki hji with hb | hb
    · exact (hbelow hk' hne hb).symm
    · exact hbelow hne hk' hb
  exact foldl_reload hne honly (.inl hj)

theorem namesApart_of_initials (hnodup : (f.liveIds.flatMap f.givenAt).Nodup)
    (h : ∀ n ∈ f.liveIds.flatMap f.givenAt, n.toList.head? ≠ some 's' ∧ n.toList.head? ≠ some 'd') :
    f.NamesApart where
  nodup := hnodup
  unnumbered n hn k := by
    obtain ⟨hsource, hdata⟩ := h n hn
    refine ⟨fun he => hsource ?_, fun he => hdata ?_⟩ <;>
    · rw [he]
      simp

end Forest

/-! ### What every output is told -/

/-- Take a forest that passes the check, whose roots are data sources and whose names are apart. Every
output is told a dataset that is found, under a name of its own, in the cell of the output or outside
of all cells. There is one way back from it, and the transforms on the way are those of the nodes on
the track of the output, with lookups pointed at datasets; where a loader does coercions, the dataset
at the end of the way has them in its format. When all data sources are roots, a loader does the
coercions of the only child of a source with an address, and no others. -/
theorem datasets_faithful {f : Forest} (hgraph : f.Graph) (hcheck : f.check = .ok ())
    (hroots : ∀ i ∈ f.sources, f.holds i Node.isDataSource) (hsources : f.sources.Nodup)
    (htidy : ∀ i s, f.node? i = some (.source s) → Tidy s.descriptor) (hnames : f.NamesApart) :
    (∀ i o, f.node? i = some (.output o) → ∃ source datasets origin,
      f.datasets.value.1.node? i = some (.output { o with source := source }) ∧
      f.datasets.value.2.within? (f.cell? i) = some datasets ∧ (names datasets).Nodup ∧
      (∀ last records, Lineage datasets (f.cell? i) source last records ↔
        last = origin ∧ records = (f.recordsTo i).map (resolveLookup f.datasets.value.1)) ∧
      Loads origin (f.loadedTo i)) ∧
    ((∀ i, f.holds i Node.isDataSource → i ∈ f.sources) →
      (∀ i p, f.parent? i = some p →
        (f.atLoader i ↔ f.holds p Node.isRemote ∧ f.children p = [i])) ∧
      ∀ i, ∀ j ∈ f.track i, f.loadedAt j ≠ [] → f.loadedTo i = f.loadedAt j) := by
  have hf : f.Valid :=
    (hgraph.check_eq_ok_iff fun i hi => contains_of_holds (hroots i hi)).mp hcheck
  refine ⟨fun i o ho => ?_, fun hall => ⟨fun i p => atLoader_iff hf hall, fun i j =>
    loadedTo_eq_loadedAt hf hall⟩⟩
  obtain ⟨source, datasets, origin, hnode, hwithin, hnodup, hlineage, hloads⟩ :=
    exists_lineage hf hsources hnames htidy ho
  refine ⟨source, datasets, origin, hnode, hwithin, hnodup, fun last records => ?_, hloads⟩
  constructor
  · exact hlineage.unique
  · rintro ⟨rfl, rfl⟩
    exact hlineage

/-- Rows from an address, coerced, with an output for all of them and one in every cell of a facet;
those in the cells are joined with the rows of a second source. -/
def splitAndJoined : Forest where
  slots := [some (.source ⟨[("url", .str "cars.csv")], some "cars"⟩),
    some (.parse ⟨[("miles", "number"), ("motor.power", "number")]⟩),
    some (.output (.fresh "all" .main 0)),
    some (.facet {
      id := 1, main := "all", name := "cell"
      column := some ⟨"column_domain", ["maker"], none⟩ }),
    some (.lookup ⟨"maker", "places", "name", some ["city"], none, none⟩),
    some (.output (.fresh "joined" .main 2)),
    some (.source ⟨[("values", .arr [])], none⟩),
    some (.output (.fresh "places" .raw 3))]
  edges := [⟨6, 7, 0⟩, ⟨4, 5, 0⟩, ⟨3, 4, 0⟩, ⟨1, 3, 1⟩, ⟨1, 2, 0⟩, ⟨0, 1, 0⟩]
  sources := [0, 6]
  outputs := [("all", 2), ("joined", 5), ("places", 7)]

theorem datasets_splitAndJoined : splitAndJoined.check = .ok () ∧ splitAndJoined.NamesApart ∧
    splitAndJoined.cell? 5 = some "cell" ∧ splitAndJoined.loadedTo 2 = [("miles", "number")] ∧
    ∃ source datasets origin,
      splitAndJoined.datasets.value.1.node? 5 =
        some (.output { Output.fresh "joined" .main 2 with source := source }) ∧
      splitAndJoined.datasets.value.2.within? (splitAndJoined.cell? 5) = some datasets ∧
      (names datasets).Nodup ∧
      (∀ last records, Lineage datasets (splitAndJoined.cell? 5) source last records ↔
        last = origin ∧ records = (splitAndJoined.recordsTo 5).map
          (resolveLookup splitAndJoined.datasets.value.1)) ∧
      Loads origin (splitAndJoined.loadedTo 5) := by
  have hcheck : splitAndJoined.check = .ok () := by rfl
  have hgraph : splitAndJoined.Graph := ⟨⟨by decide, by decide⟩, by decide⟩
  have htidy : ∀ i s, splitAndJoined.node? i = some (.source s) → Tidy s.descriptor := by
    intro i s hs
    have hmem : some (Node.source s) ∈ splitAndJoined.slots :=
      mem_of_getElem? (join_eq_some_iff.mp hs)
    simp only [splitAndJoined, mem_cons, Option.some.injEq, Node.source.injEq, reduceCtorEq,
      false_or, not_mem_nil, or_false] at hmem
    rcases hmem with rfl | rfl <;> exact .single _ (by decide)
  have hnames : splitAndJoined.NamesApart := namesApart_of_initials (by decide) (by decide)
  have hfaithful := datasets_faithful hgraph hcheck (by decide) (by decide) htidy hnames
  have hslots : ∀ i < 8, splitAndJoined.holds i Node.isDataSource → i ∈ splitAndJoined.sources := by
    decide
  have hdata : ∀ i, splitAndJoined.holds i Node.isDataSource → i ∈ splitAndJoined.sources :=
    fun i hi => hslots i (lt_of_contains (contains_of_holds hi)) hi
  have hloaded : splitAndJoined.loadedTo 2 = splitAndJoined.loadedAt 1 :=
    (hfaithful.2 hdata).2 2 1 (by decide) (by decide)
  exact ⟨hcheck, hnames, by rfl, hloaded.trans (by decide), hfaithful.1 5 _ rfl⟩

end ChartPlan.Flow
