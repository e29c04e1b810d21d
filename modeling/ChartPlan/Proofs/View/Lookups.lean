import ChartPlan.Proofs.View.Scoping

/-!
# Datasets in which lookups search

Stores and datasets that only load rows stand before all others, so a lookup finds such rows before it.
Rows that need a transform are not moved, and may come after the lookup.

* `compile_lookups_follow`: the datasets of lookups come after the loaded rows in which they search.
-/

namespace ChartPlan

open ChartPlan.Flow ChartPlan.Flow.Dataset List Option

theorem Flow.isPlain_iff {d : Json} :
    isPlain d ↔ d.field? "source" = none ∧ d.field? "transform" = none := by
  rw [isPlain, Bool.and_eq_true, isNone_iff_eq_none, isNone_iff_eq_none]

theorem Flow.isPlain_resolveLookups (f : Forest) (d : Json) : isPlain (resolveLookups f d) = isPlain d := by
  have htransform : (resolveLookups f d).field? "transform" = none ↔ d.field? "transform" = none := by
    unfold resolveLookups
    split
    · rename_i records hrecords
      obtain ⟨v, hv, -⟩ := bind_eq_some_iff.mp hrecords
      rw [Json.field?_withField_self _ (by rw [hv]; rfl), hv]
      exact ⟨nofun, nofun⟩
    · rfl
  rw [Bool.eq_iff_iff, isPlain_iff, isPlain_iff, htransform, field?_resolveLookups f d (by decide)]

theorem Flow.Dataset.transforms_of_isPlain {d : Json} (h : isPlain d) : transforms d = [] := by
  rw [transforms, (isPlain_iff.mp h).2]
  rfl

namespace Compilation

variable {given : Config} {spec : Json}

/-- Stores and datasets that only load rows come first, and nothing behind them only loads rows. -/
theorem exists_front (c : Compilation given spec) : ∃ front rest,
    View.storeDatasets c.views ++ c.layout.datasets.top = front ++ rest ∧
      (∀ d ∈ front, transforms d = []) ∧ ∀ d ∈ rest, isPlain d = false := by
  refine ⟨View.storeDatasets c.views ++ ((Writing.ofForest c.forest).written.filter isPlain).map
    (resolveLookups c.layout.forest), ((Writing.ofForest c.forest).written.filter fun d =>
      !isPlain d).map (resolveLookups c.layout.forest), ?_, fun d hd => ?_, fun d hd => ?_⟩
  · rw [append_assoc, ← map_append]
    rfl
  · rcases mem_append.mp hd with hd | hd
    · obtain ⟨s, -, rfl⟩ := mem_map.mp hd
      unfold transforms
      rw [field?_storeDataset]
      simp
    · obtain ⟨e, he, rfl⟩ := mem_map.mp hd
      refine transforms_of_isPlain ?_
      rw [isPlain_resolveLookups]
      exact (mem_filter.mp he).2
  · obtain ⟨e, he, rfl⟩ := mem_map.mp hd
    simpa [isPlain_resolveLookups] using (mem_filter.mp he).2

/-- Every lookup that is written among some datasets searches in one of them. When that one has neither a
source nor a transform, it comes before the dataset of the lookup. -/
def LookupsFollow (c : Compilation given spec) (data : List Json) : Prop :=
  ∀ before d after, data = before ++ d :: after → ∀ record ∈ transforms d, c.IsSearch record →
    ∃ target, record.field? "from" = some (.str target) ∧ target ∈ names data ∧
      ∀ e ∈ data, name? e = some target → isPlain e → e ∈ before

end Compilation

theorem compile_lookups_follow {given : Config} {spec : Json} {compiled : Compiled}
    {views : Tree View} (hcompile : (compile given spec).outcome = .ok compiled)
    (hviews : (Chart.read spec >>= View.build).outcome = .ok views) (hapart : View.Apart views) :
    ∃ c : Compilation given spec, c.compiled = compiled ∧
      ∃ data, compiled.spec.field? "data" = some (.arr data) ∧ c.LookupsFollow data := by
  obtain ⟨c, rfl, rfl⟩ := exists_compilation hcompile hviews
  refine ⟨c, rfl, _, (Compilation.field?_write c.views c.layout).1,
    fun before d after hdata record hrecord hsearch => ?_⟩
  obtain ⟨target, htarget, hmem⟩ := (Compilation.Orderly.of_apart hapart).searched hsearch
  refine ⟨target, htarget, hmem, fun e he _ hplain => ?_⟩
  obtain ⟨front, rest, hparts, hfront, hrest⟩ := c.exists_front
  rw [hparts] at hdata he
  have hefront : e ∈ front := (mem_append.mp he).resolve_right fun he => by
    rw [hrest e he] at hplain
    cases hplain
  -- The dataset of the lookup has a transform, so it is behind the front.
  rcases append_eq_append_iff.mp hdata with ⟨more, rfl, -⟩ | ⟨more, rfl, hmore⟩
  · exact mem_append_left _ hefront
  · cases more with
    | nil => rwa [append_nil] at hefront
    | cons first others =>
      cases hmore
      rw [hfront d (by simp)] at hrecord
      cases hrecord

/-- A chart that searches in rows of its own, which are loaded in some format. -/
def searchingChart (format : List (String × Json)) : Json :=
  let rows (fields : List (String × Json)) : String × Json := ("values", .arr [.object fields])
  .object [("data", .object [rows [("id", .nat 1)]]), ("mark", .str "point"),
    ("transform", .arr [.object [("lookup", .str "id"), ("from", .object [
      ("data", .object (rows [("id", .str "1"), ("v", .nat 2)] :: format)),
      ("key", .str "id"), ("fields", .texts ["v"])])]]),
    ("encoding", .object [("x", .object [("field", .str "v"), ("type", .str "quantitative")])])]

/-- The names of the datasets of a compiled chart, each with those in which its lookups search. -/
def Compiled.searches (compiled : Compiled) : List (Option String × List String) :=
  (compiled.spec.itemsField "data").map fun d =>
    (name? d, (transforms d).filterMap fun record => record.textField? "from")

theorem compile_searchingChart : ∃ compiled, compiled.searches =
      [(some "source_0", []), (some "source_1", []), (some "data_0", ["source_1"])] ∧
    ∃ c : Compilation {} (searchingChart []), c.compiled = compiled ∧
      ∃ data, compiled.spec.field? "data" = some (.arr data) ∧ c.LookupsFollow data := by
  have hcompile : (compile {} (searchingChart [])).outcome.toOption.map Compiled.searches = some
      [(some "source_0", []), (some "source_1", []), (some "data_0", ["source_1"])] := by decide +kernel
  have hviews : (Chart.read (searchingChart []) >>= View.build).outcome.toOption.map
      (fun views => views.preorder.map View.name) = some [""] := by decide +kernel
  obtain ⟨compiled, hcompiled, hsearches⟩ := exists_ok_of_map hcompile
  obtain ⟨views, hviews, hnames⟩ := exists_ok_of_map hviews
  exact ⟨compiled, hsearches, compile_lookups_follow hcompiled
    hviews ⟨by rw [hnames]; decide, by rw [hnames]; decide⟩⟩

/-- Numbers that were written as texts are parsed by a transform, so they come after the lookup. -/
theorem compile_parsed_searchingChart : (compile {} (searchingChart
    [("format", .object [("parse", .object [("id", .str "number")])])])).outcome.toOption.map
      Compiled.searches = some [(some "source_0", []), (some "source_1", []), (some "data_0", ["data_1"]),
        (some "data_1", [])] := by
  decide +kernel

end ChartPlan
