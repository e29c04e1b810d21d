import ChartPlan.Proofs.Flow.Dataset

/-!
# Written datasets start from written datasets

The datasets of a forest are written root by root. Whatever names the user gives, in the end every
dataset starts from one in its own cell, and outputs and facets know datasets there.

* `Writing.ofForest_writes`: what is written for all roots.
* `Forest.Grounded`: what is known in the end; `datasets_grounded`: it is so for every valid forest.
-/

namespace ChartPlan.Flow

open Forest Dataset

/-! ### Sources -/

theorem Source.tidy_made (data : DataBlock) (rows : Json) (name : String) :
    Tidy (ofBlock data).descriptor ∧ Tidy (ofRows rows).descriptor ∧ Tidy (named name).descriptor := by
  have hformat : ∀ {d : Dict Json}, Tidy d → Tidy (if (formatOf data).isEmpty then d
      else d.insert "format" (.obj (formatOf data))) := by
    intro d hd
    split
    · exact hd
    · exact hd.insert _ (by decide)
  refine ⟨?_, .single rows (by decide), .nil⟩
  refine hformat ?_
  split
  · exact .single _ (by decide)
  · exact .single _ (by decide)
  · exact .nil

/-! ### Root after root -/

namespace Writing

variable {f : Forest}

def sourceName (k : Nat) : String :=
  "source_" ++ toString k

theorem sourceName_ne_numbered (j k : Nat) : sourceName j ≠ numbered k := by
  intro h
  have hhead := congrArg (fun s => s.toList.head?) h
  simp [sourceName, numbered] at hhead

theorem rootDraft_cases (f : Forest) (r : NodeId) (count : Nat) :
    (∃ s name, f.node? r = some (.source s) ∧ s.name = some name ∧
      rootDraft f r count = (⟨some name, none, s.descriptor, []⟩, count)) ∨
    ∃ descriptor, rootDraft f r count = (⟨some (sourceName count), none, descriptor, []⟩, count + 1) ∧
      (descriptor = [] ∨ ∃ s, f.node? r = some (.source s) ∧ s.descriptor = descriptor) := by
  unfold rootDraft
  split
  · rename_i s hs
    cases hname : s.name with
    | some name => exact .inl ⟨s, name, hs, hname, rfl⟩
    | none => exact .inr ⟨s.descriptor, rfl, .inr ⟨s, hs, rfl⟩⟩
  · exact .inr ⟨[], rfl, .inl rfl⟩

theorem stands_rootDraft (r : NodeId) (count : Nat)
    (htidy : ∀ s, f.node? r = some (.source s) → Tidy s.descriptor) (written : List Json) :
    (rootDraft f r count).1.Stands written none [] [] ∧ (rootDraft f r count).1.source = none := by
  have hstands : ∀ {name descriptor}, Tidy descriptor →
      (Draft.mk (some name) none descriptor []).Stands written none [] [] := fun hdescriptor =>
    .root hdescriptor fun hne => absurd rfl hne
  rcases rootDraft_cases f r count with ⟨s, name, hs, -, heq⟩ | ⟨descriptor, heq, rfl | ⟨s, hs, rfl⟩⟩
  · rw [heq]
    exact ⟨hstands (htidy s hs), rfl⟩
  · rw [heq]
    exact ⟨hstands .nil, rfl⟩
  · rw [heq]
    exact ⟨hstands (htidy s hs), rfl⟩

theorem Sound.writeRoots (hf : f.Valid) (hapart : f.FacetsApart)
    (htidy : ∀ i s, f.node? i = some (.source s) → Tidy s.descriptor) {roots : List NodeId}
    (hroots : ∀ r ∈ roots, r ∈ f.sources) {state : Writing × Nat} (h : state.1.Sound f none) :
    Writes f none (fun j => ∃ r ∈ roots, f.Below r j) state.1 (roots.foldl writeRoot state).1 := by
  induction roots generalizing state with
  | nil => exact h.stay rfl rfl rfl (by simp)
  | cons r rest ih =>
    obtain ⟨w, count⟩ := state
    obtain ⟨hlive, hroot⟩ := hf.mem_sources.mp (hroots r List.mem_cons_self)
    have hcell : f.cell? r = none := cell?_of_root hroot
    obtain ⟨hstands, hsource⟩ := stands_rootDraft r count
      (fun s hs => htidy r s (h.told.symm.node_eq hs rfl rfl)) w.written
    have hfirst : Writes f none (f.Below r) w (writeRoot (w, count) r).1 := by
      have hfits : f.Fits (w.forest.slots.length + 1) r := by
        rw [h.told.length]
        exact hf.fits r
      have hwalk := walk_writes hf.toLinked hapart _ w r (rootDraft w.forest r count).1 hfits
        ⟨hlive, hcell ▸ h, by rw [hcell, lead_of_root hroot]; exact hstands,
          by simp [hsource, unbroken_of_root hroot], fun p hp => nomatch hroot.symm.trans hp⟩
      rwa [hcell] at hwalk
    exact hfirst.cons (ih (fun q hq => hroots q (List.mem_cons_of_mem r hq)) hfirst.sound)
      hf.toLinked hapart

theorem ofForest_writes (hf : f.Valid) (hapart : f.FacetsApart)
    (htidy : ∀ i s, f.node? i = some (.source s) → Tidy s.descriptor) :
    Writes f none (fun j => ∃ r ∈ f.sources, f.Below r j) { forest := f } (ofForest f) := by
  have hstart : Sound f none (({ forest := f }, 0) : Writing × Nat).1 := ⟨.refl f, nofun⟩
  exact hstart.writeRoots hf hapart htidy fun _ hr => hr

theorem Writes.grounds_of_node? {w : Writing} (hf : f.Valid)
    (h : Writes f none (fun j => ∃ r ∈ f.sources, f.Below r j) w (ofForest f)) {i : NodeId} {n : Node}
    (hn : f.node? i = some n) (hends : endsBranch n) :
    ∃ written, (ofForest f).Grounds f none i written := by
  obtain ⟨r, hr, hb⟩ := hf.exists_root (contains_of_node? hn)
  exact h.grounds i ⟨r, hr, hb⟩ ((holds_of_node? hn).trans hends)

end Writing

/-! ### Finished datasets -/

/-- The datasets of a cell, or those outside of all cells. -/
def Datasets.within? (d : Datasets) : Option String → Option (List Json)
  | none => some d.top
  | some cell => (d.cells.get? cell).map CellData.datasets

theorem names_resolveLookups (f : Forest) (datasets : List Json) :
    names (datasets.map (resolveLookups f)) = names datasets := by
  unfold names
  rw [List.filterMap_map]
  exact List.filterMap_congr fun d _ => name?_resolveLookups f d

theorem Loads.resolveLookups {origin : Option Json} {kinds : Dict String} (h : Loads origin kinds)
    (f : Forest) : Loads (origin.map (resolveLookups f)) kinds := by
  intro hne
  rw [← h hne]
  cases origin with
  | none => rfl
  | some d => exact loaded?_resolveLookups f d

theorem within?_datasets (f : Forest) {cell : Option String} {datasets : List Json}
    (h : (Writing.ofForest f).datasetsOf none cell = some datasets) :
    ∃ finished, f.datasets.value.2.within? cell = some finished ∧
      (datasets.map (resolveLookups f.datasets.value.1)).Perm finished := by
  unfold Writing.datasetsOf at h
  split at h
  · rename_i hcell
    cases h
    rw [hcell]
    exact ⟨_, rfl, (List.filter_append_perm _ _).symm.map _⟩
  · obtain ⟨name, rfl, hget⟩ := Option.bind_eq_some_iff.mp h
    obtain ⟨data, hdata, rfl⟩ := Option.map_eq_some_iff.mp hget
    refine ⟨_, ?_, .refl _⟩
    simp only [Datasets.within?, Forest.datasets, Dict.get?_mapValues, hdata]
    rfl

namespace Dataset

variable {datasets finished : List Json} {cell : Option String} {name : String}

theorem Visible.resolved (g : Forest) (h : Visible datasets cell name)
    (hperm : (datasets.map (resolveLookups g)).Perm finished) : Visible finished cell name := by
  refine h.imp_left fun hname => ?_
  rw [← names_resolveLookups g] at hname
  exact (hperm.filterMap name?).mem_iff.mp hname

theorem Closed.resolved (g : Forest) (h : Closed datasets cell)
    (hperm : (datasets.map (resolveLookups g)).Perm finished) : Closed finished cell := by
  intro d hd v hv
  obtain ⟨e, he, rfl⟩ := List.mem_map.mp (hperm.mem_iff.mpr hd)
  rw [field?_resolveLookups g e (by decide)] at hv
  obtain ⟨source, rfl, hvisible⟩ := h e he v hv
  exact ⟨source, rfl, hvisible.resolved g hperm⟩

end Dataset

/-- The datasets of a forest are closed, and what outputs and facets are told is visible where they
are. -/
structure Forest.Grounded (f : Forest) : Prop where
  told : Told f f.datasets.value.1
  top : Closed f.datasets.value.2.top none
  output : ∀ i o, f.node? i = some (.output o) → ∃ source datasets,
    f.datasets.value.1.node? i = some (.output { o with source := source }) ∧
      f.datasets.value.2.within? (f.cell? i) = some datasets ∧
      Visible datasets (f.cell? i) source
  facet : ∀ i m, f.node? i = some (.facet m) → ∃ data inside datasets,
    f.datasets.value.1.node? i = some (.facet { m with data := some data }) ∧
      f.datasets.value.2.within? (f.cell? i) = some datasets ∧
      Visible datasets (f.cell? i) data ∧ (∀ name ∈ names m.datasets, name ∈ names datasets) ∧
      f.datasets.value.2.cells.get? m.name = some ⟨data, inside⟩ ∧ Closed inside (some m.name)

theorem datasets_grounded {f : Forest} (hf : f.Valid) (hapart : f.FacetsApart)
    (htidy : ∀ i s, f.node? i = some (.source s) → Tidy s.descriptor) : f.Grounded := by
  have h := Writing.ofForest_writes hf hapart htidy
  refine ⟨h.sound.told, ?_, fun i o ho => ?_, fun i m hm => ?_⟩
  · have htop : (Writing.ofForest f).datasetsOf none none = some _ := if_pos rfl
    obtain ⟨top, htop, hperm⟩ := within?_datasets f htop
    cases htop
    exact h.sound.closed.resolved _ hperm
  · obtain ⟨written, hg⟩ := h.grounds_of_node? hf ho rfl
    obtain ⟨source, hsource, hoffers⟩ := hg.output o ho
    obtain ⟨finished, hfinished, hperm⟩ := within?_datasets f hg.found
    exact ⟨source, finished, hsource, hfinished, hoffers.visible.resolved _ hperm⟩
  · obtain ⟨written, hg⟩ := h.grounds_of_node? hf hm rfl
    obtain ⟨data, inside, hdata, hvisible, hheaders, hcells, hclosed⟩ := hg.facet m hm
    obtain ⟨finished, hfinished, hperm⟩ := within?_datasets f hg.found
    refine ⟨data, inside.map (resolveLookups f.datasets.value.1), finished, hdata, hfinished,
      hvisible.resolved _ hperm, fun name hname => ?_, ?_, hclosed.resolved _ (.refl _)⟩
    · have hmem := hheaders name hname
      rw [← names_resolveLookups f.datasets.value.1] at hmem
      exact (hperm.filterMap name?).mem_iff.mp hmem
    · simp only [Forest.datasets, Dict.get?_mapValues, hcells]
      rfl

end ChartPlan.Flow
