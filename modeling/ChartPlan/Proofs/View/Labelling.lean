import ChartPlan.Proofs.Flow.Pass.Labels
import ChartPlan.Proofs.Json.Equality
import ChartPlan.Proofs.View.Scoping

/-!
# The names of datasets

Users give names to data blocks, and views give them to the headers of facets; all other datasets get
names that are made. A root that has no name takes the one of the first block that it serves, so roots
that load the same rows end up with different names. Hence no two datasets of a compiled chart have the
same name, as long as a name always stands for the same rows, is none that are made, and no two faceted
views have the same name.

* `Facet.IsOf`: the facet of a view, which calls its headers after the view;
* `Forest.Sourced`: what is known of sources and facets while views are added;
* `compile_names_nodup`: the datasets outside of cells have different names.
-/

namespace ChartPlan

open ChartPlan.Flow ChartPlan.Flow.Forest ChartPlan.Flow.Dataset ChartPlan.Checked List Option

/-! ### Headers -/

/-- The directions in which a facet has headers. -/
inductive Direction where
  | row
  | column
  | facet
deriving DecidableEq

namespace Direction

def domain : Direction → String
  | row => "row_domain"
  | column => "column_domain"
  | facet => "facet_domain"

def word : Direction → List Char
  | row => "row".toList
  | column => "column".toList
  | facet => "facet".toList

theorem word_injective {d e : Direction} (h : d.word = e.word) : d = e := by
  revert h
  cases d <;> cases e <;> decide

theorem isName_domain (d : Direction) : IsName d.domain := by
  cases d <;> exact isName_of_all (by decide) (by decide)

theorem domain_ne_empty (d : Direction) : d.domain ≠ "" := by
  cases d <;> decide

theorem pieces_domain (d : Direction) : pieces d.domain = [d.word, "domain".toList] := by
  cases d <;> decide

theorem exists_domain (d : Direction) : ∃ s, d.domain = s ++ "_domain" :=
  ⟨String.ofList d.word, by cases d <;> decide⟩

end Direction

def headerIn (view : String) (d : Direction) : String :=
  nameIn view d.domain

def crossedIn (view : String) : String :=
  "cross_" ++ headerIn view .column ++ "_" ++ headerIn view .row

/-- The facet of a view, which calls its headers after the view. -/
structure Flow.Facet.IsOf (m : Facet) (view : String) : Prop where
  isName : IsName view
  name : m.name = nameIn view Slot.facet.text
  row : ∀ c ∈ m.row, c.name = headerIn view .row
  column : ∀ c ∈ m.column, c.name = headerIn view .column
  facet : ∀ c ∈ m.facet, c.name = headerIn view .facet

theorem Flow.Facet.IsOf.unique {m : Facet} {a b : String} (ha : m.IsOf a) (hb : m.IsOf b) : a = b :=
  (nameIn_slot_inj ha.isName hb.isName (ha.name.symm.trans hb.name)).1

/-- The names of the headers of a view. -/
inductive HeaderName (view : String) : String → Prop
  | direction (d : Direction) : HeaderName view (headerIn view d)
  | crossed : HeaderName view (crossedIn view)

/-- A view whose name does not begin like that of a crossed header. -/
structure Uncrossed (view : String) : Prop where
  isName : IsName view
  stem : ∀ rest, view ≠ "cross_" ++ rest

section

variable {a b view name : String} {d e : Direction}

theorem pieces_headerIn (h : IsName view) (d : Direction) :
    pieces (headerIn view d) = pieces view ++ [d.word, "domain".toList] := by
  rw [headerIn, pieces_nameIn h d.isName_domain d.domain_ne_empty, d.pieces_domain]

theorem headerIn_ne_empty (h : IsName view) (d : Direction) : headerIn view d ≠ "" := by
  intro he
  have hpieces := pieces_headerIn h d
  rw [he] at hpieces
  simp [pieces] at hpieces

theorem headerIn_inj (ha : IsName a) (hb : IsName b) (h : headerIn a d = headerIn b e) :
    a = b ∧ d = e := by
  have hpieces := congrArg pieces h
  rw [pieces_headerIn ha, pieces_headerIn hb] at hpieces
  obtain ⟨hview, hwords⟩ := append_inj' hpieces rfl
  exact ⟨pieces_injective hview, Direction.word_injective (cons_eq_cons.mp hwords).1⟩

theorem pieces_cross {s : String} (hs : s ≠ "") : pieces ("cross_" ++ s) = "cross".toList :: pieces s := by
  have hsplit : "cross_" ++ s = "cross" ++ "_" ++ s := rfl
  rw [hsplit, pieces_append (by decide) hs, show pieces "cross" = ["cross".toList] by decide]
  rfl

theorem pieces_crossedIn (h : IsName view) : pieces (crossedIn view) =
    "cross".toList :: (pieces view ++ [Direction.column.word, "domain".toList]) ++
      (pieces view ++ [Direction.row.word, "domain".toList]) := by
  have hne : "cross_" ++ headerIn view .column ≠ "" := fun he => by
    have := congrArg String.toList he
    simp at this
  rw [crossedIn, pieces_append hne (headerIn_ne_empty h .row), pieces_cross (headerIn_ne_empty h .column),
    pieces_headerIn h, pieces_headerIn h]

theorem crossedIn_ne_headerIn (ha : IsName a) (hb : Uncrossed b) (d : Direction) :
    crossedIn a ≠ headerIn b d := by
  intro he
  have hpieces := congrArg pieces he
  rw [pieces_crossedIn ha, pieces_headerIn hb.isName, ← append_assoc] at hpieces
  obtain ⟨hview, -⟩ := append_inj' hpieces rfl
  by_cases hempty : a = ""
  · refine hb.stem (headerIn a .column) (pieces_injective ?_)
    rw [pieces_cross (headerIn_ne_empty ha _), pieces_headerIn ha, ← hview, hempty]
    rfl
  · have hne : headerIn a .column ++ "_" ++ a ≠ "" := fun he => by
      have := congrArg String.toList he
      simp at this
    refine hb.stem (headerIn a .column ++ "_" ++ a) (pieces_injective ?_)
    rw [pieces_cross hne, pieces_append (headerIn_ne_empty ha _) hempty, pieces_headerIn ha, ← hview]
    rfl

theorem HeaderName.unique (ha : Uncrossed a) (hb : Uncrossed b) (h : HeaderName a name)
    (h' : HeaderName b name) : a = b := by
  cases h with
  | direction d =>
    generalize he : headerIn a d = name at h'
    cases h' with
    | direction e => exact (headerIn_inj ha.isName hb.isName he).1
    | crossed => exact absurd he.symm (crossedIn_ne_headerIn hb.isName ha d)
  | crossed =>
    generalize he : crossedIn a = name at h'
    cases h' with
    | direction e => exact absurd he (crossedIn_ne_headerIn ha.isName hb e)
    | crossed =>
      have hpieces := congrArg pieces he
      rw [pieces_crossedIn ha.isName, pieces_crossedIn hb.isName] at hpieces
      have hlength := congrArg List.length hpieces
      simp only [length_append, length_cons, length_nil] at hlength
      obtain ⟨hfirst, -⟩ := append_inj (cons_eq_cons.mp hpieces).2 (by
        simp only [length_append, length_cons, length_nil]
        omega)
      exact pieces_injective (append_cancel_right hfirst)

theorem exists_domain_headerIn (h : IsName view) (d : Direction) :
    ∃ s, headerIn view d = s ++ "_domain" := by
  obtain ⟨s, hs⟩ := d.exists_domain
  by_cases hempty : view = ""
  · exact ⟨s, by rw [headerIn, hempty, nameIn_empty d.isName_domain, hs]⟩
  · refine ⟨view ++ "_" ++ s, ?_⟩
    rw [headerIn, h.nameIn_eq hempty d.isName_domain, hs]
    simp only [String.append_assoc]

theorem HeaderName.exists_domain (h : HeaderName view name) (hview : IsName view) :
    ∃ s, name = s ++ "_domain" := by
  cases h with
  | direction d => exact exists_domain_headerIn hview d
  | crossed =>
    obtain ⟨s, hs⟩ := exists_domain_headerIn hview .row
    refine ⟨"cross_" ++ headerIn view .column ++ "_" ++ s, ?_⟩
    simp only [crossedIn, hs, String.append_assoc]

end

namespace Flow.Facet.IsOf

variable {m : Facet} {view name : String}

theorem crossed?_eq (h : m.IsOf view) {entry : String × Json} (hentry : m.crossed? = some entry) :
    entry.1 = crossedIn view := by
  unfold crossed? at hentry
  split at hentry
  · rename_i column row hcolumn hrow
    split at hentry
    · cases hentry
    · cases hentry
      rw [crossedIn, h.column column hcolumn, h.row row hrow]
  · cases hentry

theorem directions_eq (h : m.IsOf view) :
    ∃ ds : List Direction, ds.Nodup ∧ ([m.column, m.row, m.facet].filterMap fun c =>
      c.map FacetChannel.name) = ds.map (headerIn view) := by
  have hcolumn := h.column
  have hrow := h.row
  have hfacet := h.facet
  refine ⟨(m.column.map fun _ => Direction.column).toList ++
    (m.row.map fun _ => Direction.row).toList ++ (m.facet.map fun _ => Direction.facet).toList, ?_, ?_⟩
  · cases m.column <;> cases m.row <;> cases m.facet <;> simp
  · generalize m.column = column at *
    generalize m.row = row at *
    generalize m.facet = facet at *
    cases column <;> cases row <;> cases facet <;> simp_all

theorem headerName (h : m.IsOf view) (hname : name ∈ names m.datasets) : HeaderName view name := by
  obtain ⟨ds, -, hds⟩ := h.directions_eq
  rw [names_datasets, hds] at hname
  rcases mem_append.mp hname with hname | hname
  · obtain ⟨entry, hentry, rfl⟩ := map_eq_some_iff.mp (mem_toList.mp hname)
    rw [h.crossed?_eq hentry]
    exact .crossed
  · obtain ⟨d, -, rfl⟩ := mem_map.mp hname
    exact .direction d

theorem nodup_headers (h : m.IsOf view) (hview : Uncrossed view) : (names m.datasets).Nodup := by
  obtain ⟨ds, hnodup, hds⟩ := h.directions_eq
  rw [names_datasets, hds]
  refine List.Nodup.append ?_ ?_ fun name hname hname' => ?_
  · cases m.crossed? with
    | none => exact nodup_nil
    | some entry => exact nodup_singleton _
  · exact hnodup.map fun _ _ he => (headerIn_inj h.isName h.isName he).2
  · obtain ⟨entry, hentry, rfl⟩ := map_eq_some_iff.mp (mem_toList.mp hname)
    obtain ⟨d, -, hd⟩ := mem_map.mp hname'
    rw [h.crossed?_eq hentry] at hd
    exact crossedIn_ne_headerIn h.isName hview d hd.symm

end Flow.Facet.IsOf

/-! ### Sources -/

def Flow.Source.rows (s : Source) : Dict Json :=
  Json.unsignedFields s.descriptor

theorem Flow.Source.rows_eq_iff {s t : Source} : s.rows = t.rows ↔ s.descriptor == t.descriptor :=
  (Json.fields_beq_iff _ _).symm

theorem Flow.Source.rows_eq_of_agrees {s t : Source} (h : s.agrees t) : s.rows = t.rows := by
  unfold agrees at h
  rw [Bool.and_eq_true] at h
  exact rows_eq_iff.mpr h.1

theorem Flow.Source.ne_of_not_agrees {s t : Source} (hrows : s.rows = t.rows) (h : s.agrees t = false)
    {name : String} (hname : t.name = some name) : ∃ other, s.name = some other ∧ other ≠ name := by
  unfold agrees at h
  rw [rows_eq_iff.mp hrows, hname] at h
  cases hother : s.name with
  | none => simp [hother] at h
  | some other =>
    refine ⟨other, rfl, fun he => ?_⟩
    simp [hother, he] at h

theorem pairwise_of_change {α : Type} {R R' : α → α → Prop} {front back : List α} {i : α}
    (h : (front ++ i :: back).Pairwise R) (hnodup : (front ++ i :: back).Nodup)
    (hother : ∀ j k, j ≠ i → k ≠ i → R j k → R' j k)
    (hafter : ∀ k ∈ back, k ≠ i → R i k → R' i k)
    (hbefore : ∀ j ∈ front, j ≠ i → R j i → R' j i) : (front ++ i :: back).Pairwise R' := by
  rw [nodup_append, nodup_cons] at hnodup
  obtain ⟨-, ⟨hback, -⟩, hapart⟩ := hnodup
  have hfrontNe : ∀ j ∈ front, j ≠ i := fun j hj => hapart j hj i mem_cons_self
  have hbackNe : ∀ k ∈ back, k ≠ i := fun k hk he => hback (he ▸ hk)
  rw [pairwise_append, pairwise_cons] at h ⊢
  obtain ⟨hF, ⟨hi, hB⟩, hFB⟩ := h
  refine ⟨hF.imp_of_mem fun hj hk => hother _ _ (hfrontNe _ hj) (hfrontNe _ hk),
    ⟨fun k hk => hafter k hk (hbackNe k hk) (hi k hk),
      hB.imp_of_mem fun hj hk => hother _ _ (hbackNe _ hj) (hbackNe _ hk)⟩, fun j hj k hk => ?_⟩
  rcases mem_cons.mp hk with rfl | hk'
  · exact hbefore j hj (hfrontNe j hj) (hFB j hj k hk)
  · exact hother j k (hfrontNe j hj) (hbackNe k hk') (hFB j hj k hk)

namespace Flow.Forest

variable {f g : Forest} {i j p : NodeId} {n : Node} {asks : Source → Prop} {hosts : String → Prop}

/-- Whether of two roots that load the same rows the first one was named before the second one, and
differently. -/
def Precedes (f : Forest) (i j : NodeId) : Prop :=
  ∀ s t, f.node? i = some (.source s) → f.node? j = some (.source t) → s.rows = t.rows →
    ∀ name, t.name = some name → ∃ other, s.name = some other ∧ other ≠ name

/-- What is known of sources and facets while views are added: a named source was asked for, roots that
load the same rows have different names, and facets are those of different views. -/
structure Sourced (asks : Source → Prop) (hosts : String → Prop) (f : Forest) : Prop where
  planted : f.Planted
  nodup : f.sources.Nodup
  tidy : ∀ i s, f.node? i = some (.source s) → Tidy s.descriptor
  asked : ∀ {i s}, f.node? i = some (.source s) → s.name.isSome →
    ∃ t, asks t ∧ t.name = s.name ∧ t.rows = s.rows
  ranked : f.sources.Pairwise f.Precedes
  facet : ∀ {i m}, f.node? i = some (.facet m) → ∃ view, hosts view ∧ m.IsOf view
  single : ∀ {i j m m' view}, f.node? i = some (.facet m) → f.node? j = some (.facet m') →
    m.IsOf view → m'.IsOf view → i = j

theorem sources_add_sublist (f : Forest) (n : Node) (p : NodeId) :
    (f.add n (some p)).1.sources.Sublist f.sources := by
  show ((f.store n).1.sources.filter _).Sublist f.sources
  rw [sources_store]
  exact filter_sublist

namespace Sourced

theorem empty : Sourced asks hosts {} where
  planted := planted_empty
  nodup := nodup_nil
  tidy i s hs := by simp [node?] at hs
  asked hs := by simp [node?] at hs
  ranked := .nil
  facet hm := by simp [node?] at hm
  single hm := by simp [node?] at hm

section

variable (h : f.Sourced asks hosts)

include h

theorem weaken {hosts' : String → Prop} (himp : ∀ a, hosts a → hosts' a) : f.Sourced asks hosts' :=
  { h with facet := fun hm => (h.facet hm).imp fun a ha => ⟨himp a ha.1, ha.2⟩ }

theorem mono (hg : g.Planted) (hsources : g.sources.Sublist f.sources)
    (hnode : ∀ {i n}, g.node? i = some n → n.bearsNames → f.node? i = some n) :
    g.Sourced asks hosts where
  planted := hg
  nodup := h.nodup.sublist hsources
  tidy i s hs := h.tidy i s (hnode hs rfl)
  asked hs := h.asked (hnode hs rfl)
  ranked := (h.ranked.sublist hsources).imp fun hij s t hs ht => hij s t (hnode hs rfl) (hnode ht rfl)
  facet hm := h.facet (hnode hm rfl)
  single hm hm' := h.single (hnode hm rfl) (hnode hm' rfl)

theorem add (hp : f.contains p) (hn : n.bearsNames = false) :
    (f.add n (some p)).1.Sourced asks hosts := by
  refine h.mono (h.planted.add (Bool.or_eq_false_iff.mp hn).1 hp) (sources_add_sublist f n p)
    fun hm hbears => (h.planted.arena.node?_of_add hm).resolve_left ?_
  rintro ⟨-, rfl⟩
  cases hn.symm.trans hbears

/-- One node changes, which is no facet. -/
theorem change (hg : g.Planted) (hnodup : g.sources.Nodup) (hranked : g.sources.Pairwise g.Precedes)
    (hnode : ∀ {j m}, g.node? j = some m → j = i ∧ m = n ∨ f.node? j = some m)
    (htidy : ∀ s, n = .source s → Tidy s.descriptor)
    (hasked : ∀ s, n = .source s → s.name.isSome → ∃ t, asks t ∧ t.name = s.name ∧ t.rows = s.rows)
    (hn : n.isFacet = false) : g.Sourced asks hosts := by
  have hfacet : ∀ {j m}, g.node? j = some (.facet m) → f.node? j = some (.facet m) := fun hm =>
    (hnode hm).resolve_left fun ⟨_, he⟩ => by
      rw [← he] at hn
      cases hn
  exact { planted := hg, nodup := hnodup, ranked := hranked
          tidy := fun j s hs => (hnode hs).elim (fun ⟨_, he⟩ => htidy s he.symm) (h.tidy j s)
          asked := fun {_ s} hs hname => (hnode hs).elim (fun ⟨_, he⟩ => hasked s he.symm hname) fun hs =>
            h.asked hs hname
          facet := fun hm => h.facet (hfacet hm)
          single := fun hm hm' => h.single (hfacet hm) (hfacet hm') }

theorem addRoot (hn : n.isDataSource) (htidy : ∀ s, n = .source s → Tidy s.descriptor)
    (hasked : ∀ s, n = .source s → s.name.isSome → asks s)
    (hlast : ∀ i ∈ f.sources, ∀ s t, f.node? i = some (.source s) → n = .source t → s.rows = t.rows → ∀ name, t.name = some name → ∃ other, s.name = some other ∧ other ≠ name) :
    (f.add n none).1.Sourced asks hosts := by
  have hold : ∀ {j}, j ∈ f.sources → (f.add n none).1.node? j = f.node? j := fun hj =>
    h.planted.arena.node?_add_of_contains n none (h.planted.roots.mp hj).1
  refine h.change (h.planted.addRoot hn) (h.planted.nodup_sources_add h.nodup n none) ?_
    h.planted.arena.node?_of_add htidy (fun s hs hname => ⟨s, hasked s hs hname, rfl, rfl⟩)
    (Node.isFacet_of_isDataSource hn)
  have hsources : (f.add n none).1.sources = f.sources ++ [(f.add n none).2] := by
    show (f.store n).1.sources ++ [(f.store n).2] = _
    rw [sources_store, snd_add]
  rw [hsources]
  refine pairwise_append.mpr ⟨?_, pairwise_singleton _ _, fun i hi j hj s t hs ht => ?_⟩
  · exact h.ranked.imp_of_mem fun hi hj hij s t hs ht =>
      hij s t ((hold hi).symm.trans hs) ((hold hj).symm.trans ht)
  · rw [mem_singleton.mp hj, h.planted.arena.node?_add_self] at ht
    exact hlast i hi s t ((hold hi).symm.trans hs) (some.inj ht)

end

theorem node?_adopt {s t : Source} (hs : f.node? i = some (.source s)) (j : NodeId) :
    (f.modify i fun existing => existing.adoptName (.source t)).node? j =
      if j = i then some (.source { s with name := s.name.or t.name }) else f.node? j := by
  rw [node?_modify]
  split
  · rename_i hj
    rw [hj, hs]
    rfl
  · rfl

section

variable (h : f.Sourced asks hosts)

include h

theorem ranked_adopt {s t : Source} {front back : List NodeId} (hs : f.node? i = some (.source s))
    (hrows : s.rows = t.rows) (hsources : f.sources = front ++ i :: back)
    (hfront : ∀ j ∈ front, f.holds j (fun existing => existing.serves (.source t)) = false) :
    f.sources.Pairwise (f.modify i fun existing => existing.adoptName (.source t)).Precedes := by
  have hnode := @node?_adopt f i s t hs
  have hnodup := h.nodup
  have hranked := h.ranked
  rw [hsources] at hnodup hranked ⊢
  refine pairwise_of_change hranked hnodup (fun j k hj hk hjk a b ha hb => ?_)
    (fun k hk hki hik a b ha hb hrows' name hname => ?_) fun j hj hji hjk a b ha hb hrows' name hname => ?_
  · rw [hnode, if_neg hj] at ha
    rw [hnode, if_neg hk] at hb
    exact hjk a b ha hb
  · rw [hnode, if_pos rfl] at ha
    rw [hnode, if_neg hki] at hb
    cases ha
    obtain ⟨other, hother, hdiffers⟩ := hik s b hs hb hrows' name hname
    exact ⟨other, by rw [hother, some_or], hdiffers⟩
  · rw [hnode, if_neg hji] at ha
    rw [hnode, if_pos rfl] at hb
    cases hb
    cases hown : s.name with
    | some own =>
      rw [hown, some_or] at hname
      exact hjk a s ha hs hrows' name (hown.trans hname)
    | none =>
      rw [hown, none_or] at hname
      have hnot := hfront j hj
      rw [holds_of_node? ha] at hnot
      exact Source.ne_of_not_agrees (hrows'.trans hrows) hnot hname

theorem adopt {t : Source} (hasked : t.name.isSome → asks t)
    (hfound : (f.sources.find? fun i => f.holds i fun existing => existing.serves (.source t)) = some i) :
    (f.modify i fun existing => existing.adoptName (.source t)).Sourced asks hosts := by
  obtain ⟨hserves, front, back, hsources, hfront⟩ := List.find?_eq_some_iff_append.mp hfound
  obtain ⟨s, hs, hagrees⟩ : ∃ s, f.node? i = some (.source s) ∧ s.agrees t := by
    obtain ⟨e, he, hserves⟩ := holds_iff.mp hserves
    cases e with
    | source s => exact ⟨s, he, hserves⟩
    | _ => cases hserves
  have hrows := Source.rows_eq_of_agrees hagrees
  refine h.change (i := i) (n := .source { s with name := s.name.or t.name })
    (h.planted.modify i fun m _ => Node.isDataSource_adoptName m _) h.nodup
    (h.ranked_adopt hs hrows hsources fun j hj => by simpa using hfront j hj) (fun {j m} hm => ?_)
    (fun r hr => ?_) (fun r hr hname => ?_) rfl
  · rw [node?_adopt hs] at hm
    split at hm
    · exact .inl ⟨‹_›, (some.inj hm).symm⟩
    · exact .inr hm
  · cases hr
    exact h.tidy i s hs
  · cases hr
    cases hown : s.name with
    | some own =>
      obtain ⟨r, hr, hname', hrows'⟩ := h.asked hs (by rw [hown]; rfl)
      exact ⟨r, hr, by rw [some_or, hname', hown], hrows'⟩
    | none =>
      rw [hown, none_or] at hname
      exact ⟨t, hasked hname, by rw [none_or], hrows.symm⟩

theorem root (hn : n.isDataSource) (htidy : ∀ s, n = .source s → Tidy s.descriptor)
    (hasked : ∀ s, n = .source s → s.name.isSome → asks s) : (f.root n).1.Sourced asks hosts := by
  unfold Forest.root
  split
  · rename_i i hfound
    cases n with
    | source t => exact h.adopt (hasked t rfl) hfound
    | sequence _ | graticule _ =>
      refine h.mono (h.planted.modify i fun m _ => Node.isDataSource_adoptName m _) (.refl _)
        fun {j m} hm _ => ?_
      rw [node?_modify] at hm
      split at hm
      · obtain ⟨e, he, rfl⟩ := map_eq_some_iff.mp hm
        cases e <;> exact he
      · exact hm
    | _ => exact Bool.noConfusion hn
  · rename_i hnone
    refine h.addRoot hn htidy hasked fun i hi s t hs ht hrows name hname => ?_
    have hnot := List.find?_eq_none.mp hnone i hi
    rw [holds_of_node? hs, ht] at hnot
    exact Source.ne_of_not_agrees hrows (Bool.not_eq_true _ ▸ hnot) hname

theorem addFacet (hp : f.contains p) {m : Facet} {view : String} (hm : m.IsOf view)
    (hview : ¬ hosts view) :
    (f.add (.facet m) (some p)).1.Sourced asks fun a => hosts a ∨ a = view := by
  have hcases := fun {j k} => @Arena.node?_of_add f j h.planted.arena (.facet m) (some p) k
  have hsource : ∀ {j s}, (f.add (.facet m) (some p)).1.node? j = some (.source s) →
      f.node? j = some (.source s) := fun hs => (hcases hs).resolve_left fun ⟨_, he⟩ => nomatch he
  have hsub := sources_add_sublist f (.facet m) p
  -- An old facet is of one of the views before.
  have hold : ∀ {j m' a}, f.node? j = some (.facet m') → m'.IsOf a → a ≠ view := by
    rintro j m' a hm' ha rfl
    obtain ⟨b, hb, hm''⟩ := h.facet hm'
    exact hview (ha.unique hm'' ▸ hb)
  refine { planted := h.planted.add rfl hp, nodup := h.nodup.sublist hsub,
           tidy := fun i s hs => h.tidy i s (hsource hs), asked := fun hs => h.asked (hsource hs),
           ranked := (h.ranked.sublist hsub).imp fun hij s t hs ht => hij s t (hsource hs) (hsource ht),
           facet := fun {i m'} hm' => ?_, single := fun {i j m' m'' a} hm' hm'' ha ha' => ?_ }
  · rcases hcases hm' with ⟨-, he⟩ | hm'
    · cases he
      exact ⟨view, .inr rfl, hm⟩
    · obtain ⟨a, ha, hm''⟩ := h.facet hm'
      exact ⟨a, .inl ha, hm''⟩
  · rcases hcases hm' with ⟨hi, he⟩ | hm' <;> rcases hcases hm'' with ⟨hj, he'⟩ | hm''
    · exact hi.trans hj.symm
    · cases he
      exact absurd (ha.unique hm) (hold hm'' ha')
    · cases he'
      exact absurd (ha'.unique hm) (hold hm' ha)
    · exact h.single hm' hm'' ha ha'

theorem eq_of_rows {s t : Source} {name : String} (hs : f.node? i = some (.source s))
    (ht : f.node? j = some (.source t)) (hrows : s.rows = t.rows) (hname : s.name = some name)
    (hname' : t.name = some name) : i = j := by
  by_contra hne
  have hpairs : f.sources.Pairwise fun i j => f.Precedes i j ∨ f.Precedes j i :=
    h.ranked.imp fun hij => .inl hij
  have : Std.Symm fun i j => f.Precedes i j ∨ f.Precedes j i := ⟨fun _ _ hij => hij.symm⟩
  rcases hpairs.forall (h.planted.sourced.mpr (holds_of_node? hs))
    (h.planted.sourced.mpr (holds_of_node? ht)) hne with hij | hji
  · obtain ⟨other, hother, hdiffers⟩ := hij s t hs ht hrows name hname'
    exact hdiffers (Option.some.inj (hother.symm.trans hname))
  · obtain ⟨other, hother, hdiffers⟩ := hji t s ht hs hrows.symm name hname
    exact hdiffers (Option.some.inj (hother.symm.trans hname'))

end

end Sourced

end Flow.Forest

/-- `f` grew to the forest `g`, in which node `i` is, and what is known of sources and facets still
holds. -/
structure Flow.Grafts (asks : Source → Prop) (hosts : String → Prop) (f g : Forest) (i : NodeId) : Prop
    extends Sprouts f g i where
  sourced : g.Sourced asks hosts

namespace Flow.Grafts

variable {asks : Source → Prop} {hosts : String → Prop} {f g : Forest} {i : NodeId} {n : Node}

section

variable (h : Grafts asks hosts f g i)

include h

theorem add (hn : n.bearsNames = false) :
    Grafts asks hosts f (g.add n (some i)).1 (g.add n (some i)).2 :=
  ⟨h.toSprouts.add (Bool.or_eq_false_iff.mp hn).1, h.sourced.add h.live hn⟩

theorem register (name : String) : Grafts asks hosts f (g.register name i) i :=
  ⟨h.toSprouts.register name, h.sourced.mono (h.toSprouts.register name).planted (.refl _) fun hn _ => hn⟩

theorem freshId : Grafts asks hosts f g.freshId.1 i :=
  ⟨h.toSprouts.freshId, h.sourced.mono h.toSprouts.freshId.planted (.refl _) fun hn _ => hn⟩

theorem request (name : String) : Grafts asks hosts f (g.request name) i :=
  ⟨h.toSprouts.request name, h.sourced.mono (h.toSprouts.request name).planted (.refl _) fun hn _ => hn⟩

end

theorem root (hf : f.Sourced asks hosts) (hn : n.isDataSource)
    (htidy : ∀ s, n = .source s → Tidy s.descriptor)
    (hasked : ∀ s, n = .source s → s.name.isSome → asks s) :
    Grafts asks hosts f (f.root n).1 (f.root n).2 :=
  ⟨(hf.planted.rooted_root hn).toSprouts, hf.root hn htidy hasked⟩

end Flow.Grafts

/-! ### What views ask for -/

/-- The source that a view asks for; generated rows have none. -/
def DataSetting.source? : DataSetting → Option Source
  | .block data => if data.isGenerator then none else some (.ofBlock data)
  | _ => none

theorem DataSetting.source?_block {data : DataBlock} {s : Source} (hs : Node.ofBlock data = .source s) :
    DataSetting.source? (.block data) = some s := by
  unfold Node.ofBlock at hs
  unfold DataSetting.source? DataBlock.isGenerator
  cases horigin : data.origin <;> simp_all

def Transform.source? (t : Transform) : Option Source :=
  t.block?.bind fun data => (DataSetting.read (some data)).toOption.bind DataSetting.source?

namespace View

def sources (v : View) : List Source :=
  v.data.source?.toList ++ v.transforms.filterMap Transform.source?

def inheritsData (v : View) : Bool :=
  match v.data with
  | .inherit => true
  | _ => false

/-- The sources of all views; without data of its own, the outermost one asks for a dataset that is
called like this. -/
def allSources (t : Tree View) : List Source :=
  (if t.value.inheritsData then [.named "source"] else []) ++ t.preorder.flatMap sources

def hosts (views : List View) : List String :=
  (views.filter isFacet).map name

end View

/-! ### Branches -/

namespace Branch

variable {asks : Source → Prop} {hosts : String → Prop} {f : Forest} {b b' : Branch} {k k' : Nat}
  {context : DataContext} {v : View} {n : Node}

/-- The branch grew out of a forest, and what is known of sources and facets still holds. -/
abbrev Grafted (asks : Source → Prop) (hosts : String → Prop) (f : Forest) (b : Branch) : Prop :=
  Grafts asks hosts f b.forest b.tip

theorem Grafted.output (h : b.Grafted asks hosts f) (name : String) (kind : OutputKind) :
    (b.output name kind).Grafted asks hosts f :=
  (h.freshId.add rfl).register name

theorem isNameless_of_isPlain (hn : n.isPlain) : n.bearsNames = false := by
  cases n <;> first | rfl | exact Bool.noConfusion hn

theorem Grafted.ofBlock (hf : f.Sourced asks hosts) {data : DataBlock}
    (hasked : ∀ s, Node.ofBlock data = .source s → asks s) :
    Grafts asks hosts f (f.root (.ofBlock data)).1 (f.root (.ofBlock data)).2 := by
  refine .root hf (Node.isDataSource_ofBlock data) (fun s hs => ?_) fun s hs _ => hasked s hs
  unfold Node.ofBlock at hs
  split at hs
  · cases hs
  · cases hs
  · cases hs
    exact (Source.tidy_made data .null "").1

theorem Grafted.lookupSource (h : b.Grafted asks hosts f) {data : Json} {name : String}
    (hb : b.lookupSource data name = .ok b')
    (hasked : ∀ block, DataSetting.read (some data) = .ok (.block block) →
      ∀ s, Node.ofBlock block = .source s → asks s) : b'.Grafted asks hosts f := by
  obtain ⟨block, side, hread, hcases, rfl⟩ := lookupSource_cases hb
  have hroot := Grafted.ofBlock h.sourced (hasked block hread)
  have hside : side.Grafted asks hosts b.forest := by
    rcases hcases with rfl | ⟨c, rfl⟩
    · exact hroot
    · exact hroot.add rfl
  have hdone := Grafts.request (hside.output name .lookup) name
  exact ⟨h.toSprouts.trans hdone.toSprouts, hdone.sourced⟩

theorem Grows.grafted {x y : Branch × Nat} (hstep : Grows context v x y)
    (hasked : ∀ s ∈ v.sources, asks s) (h : x.1.Grafted asks hosts f) : y.1.Grafted asks hosts f := by
  cases hstep with
  | learn _ => exact h
  | push hn _ => exact h.add (isNameless_of_isPlain hn)
  | aggregate _ =>
    split
    · exact (h.add rfl).add rfl
    · exact h.add rfl
  | search _ _ _ => exact h.add rfl
  | @join _ _ _ _ _ t data ht hdata hside _ _ =>
    refine Grafts.add (Grafted.lookupSource h hside fun block hread s hs => hasked s ?_) rfl
    refine mem_append_right _ (mem_filterMap.mpr ⟨t, ht, ?_⟩)
    unfold Transform.source?
    rw [hdata, bind_some, hread]
    exact DataSetting.source?_block hs

end Branch

/-! ### Views -/

namespace View

open Branch

variable {asks : Source → Prop} {done : String → Prop} {f : Forest} {b : Branch} {v : View}
  {context : DataContext} {above : Option Above}

theorem rootOf_grafts (hf : f.Sourced asks done) (habove : ∀ a, above = some a → Reaches f a.part)
    (hasked : ∀ s ∈ v.sources, asks s) (htop : above = none → v.inheritsData → asks (.named "source")) :
    Grafts asks done f (v.rootOf above f).1 (v.rootOf above f).2 := by
  refine ⟨v.rootOf_sprouts hf.planted habove, ?_⟩
  unfold rootOf
  split
  · refine hf.addRoot rfl (fun s hs => ?_) (fun s hs hname => ?_) fun i _ s t _ ht _ name hname => ?_
    · cases hs
      exact (Source.tidy_made ⟨.named, none, [], .off⟩ (.arr []) "").2.1
    · cases hs
      cases hname
    · cases ht
      cases hname
  · rename_i data hdata
    refine (Grafted.ofBlock hf fun s hs => hasked s (mem_append_left _ ?_)).sourced
    rw [hdata, DataSetting.source?_block hs]
    exact mem_singleton.mpr rfl
  · exact hf
  · rename_i hdata
    refine hf.root rfl (fun s hs => ?_) fun s hs _ => ?_
    · cases hs
      exact .nil
    · cases hs
      exact htop rfl (by unfold inheritsData; rw [hdata])

theorem Grew.grafted (h : v.Grew context above f b) (hf : f.Sourced asks done)
    (habove : ∀ a, above = some a → Reaches f a.part) (hasked : ∀ s ∈ v.sources, asks s)
    (htop : above = none → v.inheritsData → asks (.named "source")) : b.Grafted asks done f := by
  have hroot := rootOf_grafts (v := v) hf habove hasked htop
  refine h.keeps (P := fun b : Branch => b.Grafted asks done f) (fun hstart => ?_)
    (fun hstep => hstep.grafted hasked) (fun name kind hb => hb.output name kind)
    fun name hb => Grafts.request hb name
  cases hstart with
  | root _ => exact hroot.add rfl
  | parse _ => exact (hroot.add rfl).add rfl

theorem isOf_facetNode (hname : IsName v.name) (mapping : FacetMapping) (child : Option View) (id : Nat) :
    (v.facetNode mapping child id).value.IsOf v.name := by
  have hheader : ∀ {o : Option ChannelDef} {channel : String} {d : Direction},
      channel ++ "_domain" = d.domain → ∀ c ∈ o.map (ChannelDef.facetChannel v channel),
        c.name = headerIn v.name d := by
    intro o channel d hd c hc
    obtain ⟨def_, -, rfl⟩ := map_eq_some_iff.mp hc
    exact congrArg (nameIn v.name) hd
  unfold facetNode
  simp only [Logged.value_bind, Logged.value_pure]
  exact ⟨hname, rfl, hheader (by decide), hheader (by decide), hheader (by decide)⟩

theorem mem_hosts_singleton {a : String} : a ∈ hosts [v] ↔ v.isFacet ∧ a = v.name := by
  unfold hosts
  simp only [List.mem_map, List.mem_filter, List.mem_singleton]
  exact ⟨fun ⟨_, ⟨hw, hfacet⟩, ha⟩ => ⟨hw ▸ hfacet, hw ▸ ha.symm⟩, fun ⟨hfacet, ha⟩ =>
    ⟨v, ⟨rfl, hfacet⟩, ha.symm⟩⟩

theorem addFacet_sourced (child : Option View) (h : b.Grafted asks done f) (hname : IsName v.name)
    (hnew : v.isFacet → ¬ done v.name) :
    (v.addFacet child b).value.1.Sourced asks fun a => done a ∨ a ∈ hosts [v] := by
  rcases v.addFacet_cases child b with ⟨-, heq⟩ | ⟨mapping, hbody, heq⟩
  · rw [heq]
    exact h.sourced.weaken fun a ha => .inl ha
  · have hfacet : v.isFacet := by
      unfold isFacet
      rw [hbody]
    have hm := isOf_facetNode hname mapping child b.forest.freshId.2
    have hfresh := h.freshId
    have hsourced := hfresh.sourced.addFacet hfresh.live hm (hnew hfacet)
    rw [heq]
    refine (hsourced.mono (Branch.GrewFrom.split h.toSprouts _ _).planted (.refl _) fun hn _ => hn).weaken
      fun a ha => ha.imp_right fun ha => mem_hosts_singleton.mpr ⟨hfacet, ha⟩

theorem hosts_append (us vs : List View) : hosts (us ++ vs) = hosts us ++ hosts vs := by
  unfold hosts
  rw [filter_append, map_append]

/-- What the views to come need: they ask for sources that are known, and their facets are new. -/
structure Sourcing (asks : Source → Prop) (all done : String → Prop) (views : List View) : Prop where
  asked : ∀ v ∈ views, ∀ s ∈ v.sources, asks s
  names : ∀ v ∈ views, IsName v.name
  old : ∀ a, done a → all a
  new : ∀ a ∈ hosts views, all a ∧ ¬ done a
  nodup : (hosts views).Nodup

theorem Sourcing.tail {all : String → Prop} {views : List View} (h : Sourcing asks all done (v :: views)) :
    Sourcing asks all (fun a => done a ∨ a ∈ hosts [v]) views := by
  obtain ⟨hasked, hnames, hold, hnew, hnodup⟩ := h
  rw [← singleton_append, hosts_append] at hnew hnodup
  obtain ⟨-, hrest, hapart⟩ := nodup_append.mp hnodup
  refine ⟨fun w hw => hasked w (mem_cons_of_mem v hw),
    fun w hw => hnames w (mem_cons_of_mem v hw), fun a ha => ha.elim (hold a) fun ha => ?_,
    fun a ha => ?_, hrest⟩
  · exact (hnew a (mem_append_left _ ha)).1
  · obtain ⟨hall, hdone⟩ := hnew a (mem_append_right _ ha)
    exact ⟨hall, fun h => h.elim hdone fun h => hapart a h a ha rfl⟩

theorem Sourcing.addData_sourced {all : String → Prop} {views : List View}
    (h : Sourcing asks all done (v :: views)) (child : Option View) (hf : f.Sourced asks done)
    (habove : ∀ a, above = some a → Reaches f a.part)
    (htop : above = none → v.inheritsData → asks (.named "source")) :
    Delivers (fun r : DataPart × Forest => r.2.Sourced asks (fun a => done a ∨ a ∈ hosts [v]) ∧
      f.StaysIn r.2 ∧ Reaches r.2 r.1) (v.addData context child above f).outcome := by
  refine delivers_bind (v.grow_grew context above f) fun b hb => ?_
  have hgrafted := hb.grafted hf habove (h.asked v mem_cons_self) htop
  obtain ⟨-, hstays, hreaches⟩ := v.addFacet_sprouts child hgrafted.toSprouts
  refine ⟨addFacet_sourced child hgrafted (h.names v mem_cons_self) fun hfacet => ?_,
    hgrafted.stays.trans hstays, hreaches⟩
  refine (h.new v.name ?_).2
  rw [← singleton_append, hosts_append]
  exact mem_append_left _ (mem_hosts_singleton.mpr ⟨hfacet, rfl⟩)

/-- The views below one that has its data. -/
theorem builds_sourced (context : DataContext) (asks : Source → Prop) (all : String → Prop) :
    Builds (σ := Unit) context
      (fun ts f => ∃ done, f.Sourced asks done ∧ Sourcing asks all done (Tree.preorders ts)) StaysIn
      (fun f _ above => ∃ a, above = some a ∧ Reaches f a.part) fun _ _ _ _ => True where
  refl _ := .refl _
  trans := .trans
  hands hstays h := h.imp fun _ ha => ⟨ha.1, ha.2.mono hstays.contains⟩
  tells _ := id
  add {v children rest f s above} h habove := by
    obtain ⟨done, hf, hneeds⟩ := h
    obtain ⟨a, rfl, ha⟩ := habove
    rw [Tree.preorders_node] at hneeds
    refine (hneeds.addData_sourced _ hf (fun b hb => Option.some.inj hb ▸ ha) nofun).mono fun r hr => ?_
    exact ⟨⟨_, hr.1, hneeds.tail⟩, hr.2.1, (), fun _ => ⟨_, rfl, hr.2.2⟩, fun _ _ _ _ => True.intro⟩

theorem withData_sourced (context : DataContext) {t : Tree View}
    (h : Sourcing asks (· ∈ hosts t.preorder) (fun _ => False) t.preorder)
    (htop : t.value.inheritsData → asks (.named "source")) :
    Delivers (fun r : Tree View × Forest => r.2.Sourced asks (· ∈ hosts t.preorder))
      (withData context t).outcome := by
  cases t with
  | node v children =>
    unfold withData buildData
    refine delivers_bind (h.addData_sourced _ .empty nofun fun _ => htop) fun r hr => ?_
    have hrest := h.tail
    rw [← append_nil (Tree.preorders children), ← Tree.preorders, ← Tree.preorders_append] at hrest
    refine delivers_bind (Builds.trees (builds_sourced context asks _) children (s := ())
      ⟨_, hr.1, hrest⟩ fun _ => ⟨_, rfl, hr.2.2⟩) fun r' hr' => ?_
    obtain ⟨⟨done, hsourced, hneeds⟩, -⟩ := hr'
    exact hsourced.weaken hneeds.old

/-- Whether users name data so that no two datasets get the same name: a name stands for the same rows
wherever it is asked for, no name is one that is made, and faceted views have names of their own, none
of which begins like that of a crossed header. -/
structure Discerned (t : Tree View) : Prop where
  agree : ∀ a ∈ allSources t, ∀ b ∈ allSources t, a.name.isSome → a.name = b.name →
    a.descriptor == b.descriptor
  given : ∀ a ∈ allSources t, ∀ name, a.name = some name → ¬ Made name
  hosts : (hosts t.preorder).Nodup
  uncrossed : ∀ a ∈ View.hosts t.preorder, ∀ rest, a ≠ "cross_" ++ rest

theorem Discerned.withData_labelled {t : Tree View} (h : Discerned t)
    (hnames : ∀ v ∈ t.preorder, IsName v.name) (context : DataContext) :
    Delivers (fun r : Tree View × Forest => r.2.Planted ∧ r.2.Labelled) (withData context t).outcome := by
  have hneeds : Sourcing (· ∈ allSources t) (· ∈ View.hosts t.preorder) (fun _ => False) t.preorder :=
    ⟨fun v hv s hs => mem_append_right _ (mem_flatMap.mpr ⟨v, hv, hs⟩), hnames,
      fun _ => False.elim, fun _ ha => ⟨ha, id⟩, h.hosts⟩
  refine (withData_sourced context hneeds fun htop => ?_).mono fun r hsourced => ?_
  · refine mem_append_left _ ?_
    rw [if_pos htop]
    exact mem_singleton.mpr rfl
  refine ⟨hsourced.planted, ?_⟩
  -- The facets are those of views whose names are discerned.
  have hfacet : ∀ {i m}, r.2.node? i = some (.facet m) → ∃ view, Uncrossed view ∧ m.IsOf view := by
    intro i m hm
    obtain ⟨view, hview, hisOf⟩ := hsourced.facet hm
    exact ⟨view, ⟨hisOf.isName, h.uncrossed view hview⟩, hisOf⟩
  refine { valid := hsourced.planted.toValidBut, sources := hsourced.nodup, tidy := hsourced.tidy,
           given := fun {i s name} hs hname => ?_, apart := fun {i j s t name} hs ht hname hname' => ?_,
           headers := fun {i m} hm => ?_, headersApart := fun {i j name} hi hj => ?_ }
  · obtain ⟨a, ha, hsame, -⟩ := hsourced.asked hs (by rw [hname]; rfl)
    exact h.given a ha name (hsame.trans hname)
  · -- Both are asked for by one name, so they load the same rows and are ranked.
    obtain ⟨a, ha, hsame, hrows⟩ := hsourced.asked hs (by rw [hname]; rfl)
    obtain ⟨b, hb, hsame', hrows'⟩ := hsourced.asked ht (by rw [hname']; rfl)
    have hagree : a.rows = b.rows := Source.rows_eq_iff.mpr
      (h.agree a ha b hb (by rw [hsame, hname]; rfl) (by rw [hsame, hsame', hname, hname']))
    have heq : s.rows = t.rows := hrows.symm.trans (hagree.trans hrows')
    exact hsourced.eq_of_rows hs ht heq hname hname'
  · obtain ⟨view, hview, hisOf⟩ := hfacet hm
    exact ⟨hisOf.nodup_headers hview, fun name hname =>
      (hisOf.headerName hname).exists_domain hisOf.isName⟩
  · obtain ⟨m, hm, hname⟩ := exists_facet_of_mem_headersAt hi
    obtain ⟨m', hm', hname'⟩ := exists_facet_of_mem_headersAt hj
    obtain ⟨view, hview, hisOf⟩ := hfacet hm
    obtain ⟨view', hview', hisOf'⟩ := hfacet hm'
    have hsame := (hisOf.headerName hname).unique hview hview' (hisOf'.headerName hname')
    exact hsourced.single hm hm' hisOf (hsame ▸ hisOf')

end View

/-! ### Compiled charts -/

theorem View.names_storeDatasets (t : Tree View) :
    names (View.storeDatasets t) = (View.distinctSelections t).map SelectionPart.store := by
  unfold names View.storeDatasets
  rw [filterMap_map, ← filterMap_eq_map]
  exact filterMap_congr fun s _ => Compilation.name?_storeDataset s

namespace Compilation

variable {given : Config} {spec : Json} (c : Compilation given spec)

theorem discerned_projected (h : View.Discerned c.named) : View.Discerned c.projected.1 := by
  have hpre : ∀ {β : Type} {see : View → β}, (∀ v selections scales resolve projectionPart,
      see { v with selections, scales, resolve, projectionPart } = see v) →
      c.projected.1.preorder.map see = c.named.preorder.map see := fun hsee => by
    rw [← Tree.preorder_map, ← Tree.preorder_map, c.map_projected hsee]
  have htop : c.projected.1.value.inheritsData = c.named.value.inheritsData := by
    have hvalue : ∀ t : Tree View, (t.map View.inheritsData).value = t.value.inheritsData := fun t => by
      cases t
      rfl
    rw [← hvalue, ← hvalue, c.map_projected fun _ _ _ _ _ => rfl]
  have hsources : View.allSources c.projected.1 = View.allSources c.named := by
    unfold View.allSources
    rw [htop, flatMap_def, flatMap_def, hpre fun _ _ _ _ _ => rfl]
  have hhosts : View.hosts c.projected.1.preorder = View.hosts c.named.preorder := by
    have hboth : ∀ views : List View, View.hosts views =
        ((views.map fun v => (v.isFacet, v.name)).filter Prod.fst).map Prod.snd := fun views => by
      unfold View.hosts
      rw [List.filter_map, List.map_map]
      rfl
    rw [hboth, hboth, hpre fun _ _ _ _ _ => rfl]
  exact ⟨hsources ▸ h.agree, hsources ▸ h.given, hhosts ▸ h.hosts, hhosts ▸ h.uncrossed⟩

theorem nodup_data (h : View.Discerned c.named) : AllNamed (c.compiled.spec.itemsField "data") ∧
    (names (c.compiled.spec.itemsField "data")).Nodup := by
  have hisName : ∀ v ∈ c.projected.1.preorder, IsName v.name := by
    intro v hv
    have hmem : v.name ∈ c.named.preorder.map View.name :=
      c.names_projected ▸ mem_map_of_mem hv
    obtain ⟨w, hw, he⟩ := mem_map.mp hmem
    exact he ▸ (View.isName_build c.chart).of_eq_ok c.named_eq w hw
  obtain ⟨hplanted, hlabelled⟩ :=
    ((c.discerned_projected h).withData_labelled hisName c.context).of_eq_ok c.grown_eq
  obtain ⟨p, hp, hlast⟩ := hlabelled.optimize hplanted c.context.rowIds
  cases c.optimized_eq.symm.trans hp
  obtain ⟨hnamed, hnodup, hstores⟩ := hlast.nodup_top
  rw [c.itemsField_data]
  constructor
  · intro d hd
    rcases mem_append.mp hd with hd | hd
    · obtain ⟨s, -, rfl⟩ := mem_map.mp hd
      rw [name?_storeDataset]
      rfl
    · exact hnamed d hd
  · rw [names_append, View.names_storeDatasets]
    refine List.Nodup.append ?_ hnodup fun name hname htop => ?_
    · have hsuffix : (View.distinctSelections c.views).map SelectionPart.store =
          ((View.distinctSelections c.views).map SelectionPart.name).map (· ++ "_store") := by
        rw [List.map_map]
        rfl
      rw [hsuffix]
      exact (names_distinctSelections c.views).1.map fun a b he => (String.append_left_inj _).mp he
    · obtain ⟨s, -, rfl⟩ := mem_map.mp hname
      exact hstores _ htop s.name rfl

end Compilation

/-- No two datasets of a compiled chart have the same name. Names that users give to data must stand for
the same rows wherever they are used, also where they only refer to rows that are given elsewhere, must
not look like names that are made, and faceted views must have names of their own. -/
theorem compile_names_nodup {given : Config} {spec : Json} {compiled : Compiled} {views : Tree View}
    (hcompile : (compile given spec).outcome = .ok compiled)
    (hviews : (Chart.read spec >>= View.build).outcome = .ok views) (hdiscerned : View.Discerned views) :
    AllNamed (compiled.spec.itemsField "data") ∧ (names (compiled.spec.itemsField "data")).Nodup := by
  obtain ⟨c, rfl, hnamed⟩ := exists_compilation hcompile hviews
  exact c.nodup_data (hnamed ▸ hdiscerned)

/-- Cells in rows and columns over rows that are named where they are used again, beside a view that
searches in loaded rows, with a selection. -/
def namedCells : Json :=
  let rows : Json := .arr [.object [("a", .nat 1), ("c", .str "u"), ("d", .str "v")]]
  let field (name type : String) : Json := .object [("field", .str name), ("type", .str type)]
  .object [("data", .object [("values", rows)]),
    ("params", .arr [.object [("name", .str "p"), ("select", .str "point")]]),
    ("hconcat", .arr [
      .object [("data", .object [("name", .str "cars"), ("values", rows)]),
        ("facet", .object [("row", field "c" "nominal"), ("column", field "d" "nominal")]),
        ("spec", .object [("mark", .str "point"), ("encoding", .object [("x", field "a" "nominal")])]),
        ("resolve", .object [("scale", .object [("x", .str "independent")])])],
      .object [("mark", .str "point"), ("encoding", .object [("x", field "a" "quantitative")]),
        ("transform", .arr [.object [("lookup", .str "a"), ("from", .object [
          ("data", .object [("name", .str "lots"), ("url", .str "lots.csv")]), ("key", .str "a"),
          ("fields", .texts ["d"])])]])]])]

theorem compile_namedCells : ∃ compiled views, (compile {} namedCells).outcome = .ok compiled ∧
    (Chart.read namedCells >>= View.build).outcome = .ok views ∧ View.Discerned views ∧
    names (compiled.spec.itemsField "data") = ["p_store", "cars", "lots", "data_0",
      "cross_concat_0_column_domain_concat_0_row_domain", "concat_0_column_domain",
      "concat_0_row_domain", "data_1"] ∧
    AllNamed (compiled.spec.itemsField "data") ∧ (names (compiled.spec.itemsField "data")).Nodup := by
  have hcompile : (compile {} namedCells).outcome.toOption.map
      (fun compiled => names (compiled.spec.itemsField "data")) = some ["p_store", "cars", "lots",
        "data_0", "cross_concat_0_column_domain_concat_0_row_domain", "concat_0_column_domain",
        "concat_0_row_domain", "data_1"] := by decide +kernel
  have hviews : (Chart.read namedCells >>= View.build).outcome.toOption.map (fun views =>
      ((View.allSources views).all fun a => (View.allSources views).all fun b =>
        !a.name.isSome || a.name != b.name || a.descriptor == b.descriptor,
      (View.allSources views).filterMap Source.name, View.hosts views.preorder)) =
      some (true, ["cars", "lots"], ["concat_0"]) := by decide +kernel
  obtain ⟨compiled, hcompiled, hnames⟩ := exists_ok_of_map hcompile
  obtain ⟨views, hviews, hfacts⟩ := exists_ok_of_map hviews
  simp only [Prod.mk.injEq] at hfacts
  obtain ⟨hagree, hgiven, hhosts⟩ := hfacts
  have hdiscerned : View.Discerned views := by
    refine ⟨fun a ha b hb hname hsame => ?_, fun a ha name hname => ?_, by rw [hhosts]; decide,
      fun a ha rest he => ?_⟩
    · have hpair := all_eq_true.mp (all_eq_true.mp hagree a ha) b hb
      simpa [hname, hsame ▸ hname, hsame] using hpair
    · have hmem : name ∈ (View.allSources views).filterMap Source.name :=
        mem_filterMap.mpr ⟨a, ha, hname⟩
      rw [hgiven] at hmem
      simp only [mem_cons, not_mem_nil, or_false] at hmem
      rcases hmem with rfl | rfl
      all_goals exact not_made_of_getLast? (c := 's') (by decide) (by decide) (by decide) (by decide)
    · rw [hhosts] at ha
      cases mem_singleton.mp ha
      have hchars := congrArg (fun text => text.toList[1]?) he
      simp at hchars
  exact ⟨compiled, views, hcompiled, hviews, hdiscerned, hnames,
    compile_names_nodup hcompiled hviews hdiscerned⟩

/-- Two layers over one named dataset: the first one gives its rows, and the second one refers to it. -/
def referredRows : Json :=
  let layer (data : List (String × Json)) : Json := .object [("data", .object (("name", .str "t") :: data)),
    ("mark", .str "point"), ("encoding", .object [("x", .object [("field", .str "a"),
      ("type", .str "quantitative")])])]
  .object [("layer", .arr [layer [("values", .arr [.object [("a", .nat 1)]])], layer []])]

/-- A name that refers to rows that are given elsewhere is taken for other rows: two datasets are called
like this, and only one of them has rows. -/
theorem compile_referredRows : ∃ compiled views, (compile {} referredRows).outcome = .ok compiled ∧
    (Chart.read referredRows >>= View.build).outcome = .ok views ∧
    ((View.allSources views).map fun s => (s.name, Dict.keys s.descriptor)) =
      [(some "source", []), (some "t", ["values"]), (some "t", [])] ∧
    names (compiled.spec.itemsField "data") = ["t", "t", "data_0", "data_1"] ∧
    ¬ (names (compiled.spec.itemsField "data")).Nodup := by
  have hcompile : (compile {} referredRows).outcome.toOption.map
      (fun compiled => names (compiled.spec.itemsField "data")) = some ["t", "t", "data_0", "data_1"] := by
    decide +kernel
  have hviews : (Chart.read referredRows >>= View.build).outcome.toOption.map (fun views =>
      (View.allSources views).map fun s => (s.name, Dict.keys s.descriptor)) =
      some [(some "source", []), (some "t", ["values"]), (some "t", [])] := by decide +kernel
  obtain ⟨compiled, hcompiled, hnames⟩ := exists_ok_of_map hcompile
  obtain ⟨views, hviews, hsources⟩ := exists_ok_of_map hviews
  exact ⟨compiled, views, hcompiled, hviews, hsources, hnames,
    by rw [hnames]; decide⟩

end ChartPlan
