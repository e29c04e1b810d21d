import ChartPlan.Flow.Dataset
import ChartPlan.Proofs.Json.Fields

/-!
# Where the rows of a dataset come from

A dataset names the one that it starts from, which is found by name in the same list. The lineage of a
name is the way back to a dataset that starts from none, or to the cell of the facet around the list,
with all transforms on the way, the first ones first.

* `Lineage`: the way back from a name.
* `Descent`: a way back, when there may be several; `Descent.lineage`: there is only one when names are
  distinct.
-/

namespace ChartPlan.Flow

open List

/-! ### Written datasets -/

namespace Dataset

def name? (d : Json) : Option String :=
  d.textField? "name"

def source? (d : Json) : Option String :=
  d.textField? "source"

def transforms (d : Json) : List Json :=
  ((d.field? "transform").bind Json.items?).getD []

def loaded? (d : Json) : Option Json :=
  (d.field? "format").bind fun format => format.field? "parse"

def names (datasets : List Json) : List String :=
  datasets.filterMap name?

def find? (datasets : List Json) (name : String) : Option Json :=
  datasets.find? fun d => name? d == some name

variable {datasets more : List Json} {d : Json} {name : String}

theorem mem_names : name ∈ names datasets ↔ ∃ d ∈ datasets, name? d = some name :=
  mem_filterMap

theorem names_append : names (datasets ++ more) = names datasets ++ names more :=
  filterMap_append

theorem find?_eq_some (hnodup : (names datasets).Nodup) :
    find? datasets name = some d ↔ d ∈ datasets ∧ name? d = some name := by
  refine ⟨fun h => ⟨mem_of_find?_eq_some h, by simpa using List.find?_some h⟩, ?_⟩
  rintro ⟨hd, hname⟩
  induction datasets with
  | nil => cases hd
  | cons e rest ih =>
    unfold find?
    rcases mem_cons.mp hd with rfl | hd
    · simp [hname]
    · have hrest : (names rest).Nodup := by
        unfold names at hnodup
        rw [filterMap_cons] at hnodup
        split at hnodup
        · exact hnodup
        · exact (nodup_cons.mp hnodup).2
      have hne : name? e ≠ some name := fun he => by
        unfold names at hnodup
        rw [filterMap_cons_some he] at hnodup
        exact (nodup_cons.mp hnodup).1 (mem_names.mpr ⟨d, hd, hname⟩)
      rw [List.find?_cons_of_neg (by simpa using hne)]
      exact ih hrest hd

end Dataset

/-! ### Lineage -/

open Dataset

/-- The way back from a name in the datasets of a cell, or of no cell: the dataset that starts from
none, unless the way ends at the cell, and all transforms on the way. -/
inductive Lineage (datasets : List Json) (cell : Option String) :
    String → Option Json → List Json → Prop
  | boundary {name} : cell = some name → Lineage datasets cell name none []
  | origin {name d} : cell ≠ some name → find? datasets name = some d → source? d = none →
      Lineage datasets cell name (some d) (transforms d)
  | derived {name d source origin records} : cell ≠ some name → find? datasets name = some d →
      source? d = some source → Lineage datasets cell source origin records →
      Lineage datasets cell name origin (records ++ transforms d)

namespace Lineage

variable {datasets other : List Json} {cell : Option String} {name : String} {origin : Option Json}
  {records : List Json}

theorem unique {origin' : Option Json} {records' : List Json}
    (h : Lineage datasets cell name origin records)
    (h' : Lineage datasets cell name origin' records') : origin' = origin ∧ records' = records := by
  induction h generalizing origin' records' with
  | boundary hcell =>
    cases h' with
    | boundary _ => exact ⟨rfl, rfl⟩
    | origin hne _ _ | derived hne _ _ _ => exact absurd hcell hne
  | origin hne hfind hsource =>
    cases h' with
    | boundary hcell => exact absurd hcell hne
    | origin _ hfind' _ =>
      cases hfind.symm.trans hfind'
      exact ⟨rfl, rfl⟩
    | derived _ hfind' hsource' _ =>
      cases hfind.symm.trans hfind'
      cases hsource.symm.trans hsource'
  | derived hne hfind hsource _ ih =>
    cases h' with
    | boundary hcell => exact absurd hcell hne
    | origin _ hfind' hsource' =>
      cases hfind.symm.trans hfind'
      cases hsource.symm.trans hsource'
    | derived _ hfind' hsource' hrest =>
      cases hfind.symm.trans hfind'
      cases hsource.symm.trans hsource'
      obtain ⟨rfl, rfl⟩ := ih hrest
      exact ⟨rfl, rfl⟩

end Lineage

/-- A way back as in `Lineage`, whose steps lead to any dataset of the name asked for. -/
inductive Descent (datasets : List Json) (cell : Option String) :
    String → Option Json → List Json → Prop
  | boundary {name} : cell = some name → Descent datasets cell name none []
  | origin {name d} : d ∈ datasets → name? d = some name → source? d = none →
      Descent datasets cell name (some d) (transforms d)
  | derived {name d source origin records} : d ∈ datasets → name? d = some name →
      source? d = some source → Descent datasets cell source origin records →
      Descent datasets cell name origin (records ++ transforms d)

namespace Descent

variable {datasets other : List Json} {cell : Option String} {name : String} {origin : Option Json}
  {records : List Json}

variable (h : Descent datasets cell name origin records)

include h

theorem append (more : List Json) : Descent (datasets ++ more) cell name origin records := by
  induction h with
  | boundary hcell => exact .boundary hcell
  | origin hd hname hnone => exact .origin (mem_append_left _ hd) hname hnone
  | derived hd hname hsome _ ih => exact .derived (mem_append_left _ hd) hname hsome ih

theorem transport {change changeRecord : Json → Json} (hmem : ∀ d ∈ datasets, change d ∈ other)
    (hname : ∀ d, name? (change d) = name? d) (hsource : ∀ d, source? (change d) = source? d)
    (htransforms : ∀ d, transforms (change d) = (transforms d).map changeRecord) :
    Descent other cell name (origin.map change) (records.map changeRecord) := by
  induction h with
  | boundary hcell => exact .boundary hcell
  | @origin name d hd hnamed hnone =>
    rw [← htransforms]
    exact .origin (hmem d hd) ((hname d).trans hnamed) ((hsource d).trans hnone)
  | @derived name d source origin records hd hnamed hsome _ ih =>
    rw [map_append, ← htransforms]
    exact .derived (hmem d hd) ((hname d).trans hnamed) ((hsource d).trans hsome) ih

/-- Where names are distinct there is one way back. -/
theorem lineage (hnodup : (names datasets).Nodup)
    (hcell : ∀ name ∈ names datasets, cell ≠ some name) :
    Lineage datasets cell name origin records := by
  induction h with
  | boundary hcell => exact .boundary hcell
  | origin hd hname hnone =>
    exact .origin (hcell _ (mem_names.mpr ⟨_, hd, hname⟩)) ((find?_eq_some hnodup).mpr ⟨hd, hname⟩) hnone
  | derived hd hname hsome _ ih =>
    exact .derived (hcell _ (mem_names.mpr ⟨_, hd, hname⟩)) ((find?_eq_some hnodup).mpr ⟨hd, hname⟩)
      hsome ih

end Descent

/-! ### Drafts as datasets -/

/-- A description of a dataset that leaves its name, where it starts and its transforms open. -/
structure Tidy (descriptor : Dict Json) : Prop where
  sorted : descriptor.Sorted
  unreserved : ∀ key ∈ ["name", "source", "transform"], descriptor.get? key = none

theorem Tidy.nil : Tidy [] :=
  ⟨List.Pairwise.nil, fun _ _ => rfl⟩

theorem Tidy.insert {descriptor : Dict Json} (h : Tidy descriptor) {key : String} (v : Json)
    (hkey : key ∉ ["name", "source", "transform"]) : Tidy (descriptor.insert key v) where
  sorted := h.sorted.insert key v
  unreserved other hother := by
    have hne : other ≠ key := fun he => hkey (he ▸ hother)
    rw [Dict.get?_insert, if_neg hne]
    exact h.unreserved other hother

theorem Tidy.single {key : String} (v : Json) (hkey : key ∉ ["name", "source", "transform"]) :
    Tidy [(key, v)] :=
  Tidy.nil.insert v hkey

namespace Draft

variable {d : Draft}

variable (h : Tidy d.descriptor)

include h

theorem field?_toJson (key : String) :
    d.toJson.field? key =
      if key = "transform" ∧ d.transforms ≠ [] then some (.arr d.transforms)
      else if key = "source" ∧ d.source.isSome then d.source.map .str
      else (d.descriptor.get? key).or (if key = "name" then d.name.map .str else none) := by
  have hnamed : Dict.get? (Dict.extend (d.name.map fun n => ("name", Json.str n)).toList d.descriptor)
      key = (d.descriptor.get? key).or (if key = "name" then d.name.map .str else none) := by
    rw [Dict.get?_extend h.sorted]
    cases d.name with
    | none => simp
    | some n => simp [Dict.get?]
  unfold toJson
  cases hsource : d.source <;> cases htransforms : d.transforms <;>
    by_cases htransform : key = "transform" <;> by_cases hkey : key = "source" <;>
    simp_all [Json.withField?, Json.withField, Json.field?_obj, Dict.get?_insert]

theorem name?_toJson : name? d.toJson = d.name := by
  unfold name? Json.textField?
  rw [field?_toJson h, h.unreserved "name" (by simp)]
  cases d.name <;> simp [Json.text?]

theorem source_toJson : d.toJson.field? "source" = d.source.map .str := by
  rw [field?_toJson h, h.unreserved "source" (by simp)]
  cases d.source <;> simp

theorem source?_toJson : source? d.toJson = d.source := by
  unfold source? Json.textField?
  rw [source_toJson h]
  cases d.source <;> rfl

theorem transforms_toJson : Dataset.transforms d.toJson = d.transforms := by
  unfold Dataset.transforms
  rw [field?_toJson h, h.unreserved "transform" (by simp)]
  cases d.transforms <;> simp [Json.items?]

theorem loaded?_toJson : loaded? d.toJson =
    (d.descriptor.get? "format").bind fun format => format.field? "parse" := by
  unfold loaded?
  rw [field?_toJson h]
  simp

end Draft

/-! ### Lookups -/

section

variable (f : Forest) (d : Json)

theorem field?_resolveLookups {key : String} (h : key ≠ "transform") :
    (resolveLookups f d).field? key = d.field? key := by
  unfold resolveLookups
  split
  · exact Json.field?_withField_ne _ h
  · rfl

theorem name?_resolveLookups : name? (resolveLookups f d) = name? d := by
  unfold name? Json.textField?
  rw [field?_resolveLookups f d (by decide)]

theorem source?_resolveLookups : source? (resolveLookups f d) = source? d := by
  unfold source? Json.textField?
  rw [field?_resolveLookups f d (by decide)]

theorem loaded?_resolveLookups : loaded? (resolveLookups f d) = loaded? d := by
  unfold loaded?
  rw [field?_resolveLookups f d (by decide)]

theorem transforms_resolveLookups :
    Dataset.transforms (resolveLookups f d) = (Dataset.transforms d).map (resolveLookup f) := by
  unfold resolveLookups
  split
  · rename_i records hrecords
    obtain ⟨v, hv, -⟩ := Option.bind_eq_some_iff.mp hrecords
    unfold Dataset.transforms
    rw [Json.field?_withField_self _ (by rw [hv]; rfl), hrecords]
    rfl
  · rename_i hnone
    unfold Dataset.transforms
    rw [hnone]
    rfl

end

end ChartPlan.Flow
