import ChartPlan.Flow.Node
import ChartPlan.Proofs.Json.Fields

/-!
# Fields that transforms write

Passes and records of kinds rely on the fields that a node tells it writes. The transforms that are
emitted for the node list the names of their results; each of these is among the fields told, but for
a few that a node keeps to itself.

* `outputNames`: the names that a transform lists for its results.
* `Node.Untold`: the names that a node writes and does not tell.
-/

namespace ChartPlan

open List

theorem Logged.value_mapM {α β : Type} (f : α → Logged β) (as : List α) :
    (as.mapM f).value = as.map fun a => (f a).value := by
  suffices hloop : ∀ done, (List.mapM.loop f as done).value = done.reverse ++ as.map fun a => (f a).value
    from hloop []
  induction as with
  | nil => exact fun done => (append_nil _).symm
  | cons a rest ih =>
    intro done
    unfold List.mapM.loop
    rw [Logged.value_bind, ih]
    simp

namespace Flow

/-- The names that a value lists: a text, or the texts of an array. -/
def listedNames (v : Json) : List String :=
  v.text?.toList ++ v.textItems

@[simp] theorem listedNames_str (name : String) : listedNames (.str name) = [name] :=
  rfl

@[simp] theorem listedNames_texts (names : List String) : listedNames (.texts names) = names := by
  simp [listedNames, Json.textItems, Json.texts, Json.items?, filterMap_map, Function.comp_def,
    Json.text?]

def outputNames (record : Json) : List String :=
  ((record.field? "as").map listedNames).getD []

section

variable {record value : Json} {key : String}

@[simp] theorem outputNames_obj (fields : Dict Json) :
    outputNames (.obj fields) = ((fields.get? "as").map listedNames).getD [] :=
  rfl

@[simp] theorem outputNames_object (fields : List (String × Json)) :
    outputNames (.object fields) = (((Dict.ofList fields).get? "as").map listedNames).getD [] :=
  rfl

@[simp] theorem outputNames_withField (h : "as" ≠ key) :
    outputNames (record.withField key value) = outputNames record := by
  unfold outputNames
  rw [Json.field?_withField_ne value h]

@[simp] theorem outputNames_withField? (value : Option Json) (h : "as" ≠ key) :
    outputNames (record.withField? key value) = outputNames record := by
  cases value with
  | none => rfl
  | some value => exact outputNames_withField h

@[simp] theorem outputNames_withGroups (groupby : List String) :
    outputNames (withGroups record groupby) = outputNames record := by
  unfold withGroups
  split
  · rfl
  · exact outputNames_withField (by decide)

end

/-- The names that a node writes and does not tell: the default name of rows that are looked up, the
helper with the statistic that is imputed, the plain path of a field that is coerced, and what the
parameters of a graticule or a binning ask for. -/
inductive Node.Untold : Node → String → Prop
  | wholeRow {l : Lookup} : l.fields = none → l.outputs = none → Untold (.lookup l) "_lookup"
  | statistic {i : Impute} : i.byValue = false →
      Untold (.impute i) ("imputed_" ++ i.spec.field ++ "_value")
  | path {c : Coercion} {field : String} : field ∈ c.fields →
      Untold (.parse c) (".".intercalate (Path.segments field))
  | lines {g : Graticule} {name : String} : name ∈ outputNames (.object (g.params.fields?.getD [])) →
      Untold (.graticule g) name
  | steps {node : Bins} {b : Binning} {name : String} : b ∈ node.bins.values →
      name ∈ outputNames (.object b.params) → Untold (.bin node) name

variable {name : String} {r : Json}

theorem Coercion.path_of_mem_records {c : Coercion} (hr : r ∈ c.records.value)
    (hname : name ∈ outputNames r) : ∃ field ∈ c.fields, name = ".".intercalate (Path.segments field) := by
  simp only [records, Logged.value_bind, Logged.value_pure, Logged.value_mapM, mem_filterMap,
    mem_map, id] at hr
  obtain ⟨_, ⟨⟨field, kind⟩, hmem, rfl⟩, hr⟩ := hr
  refine ⟨field, mem_map_of_mem hmem, ?_⟩
  unfold record? at hr
  split at hr
  · cases hr
    simpa using hname
  · cases hr

theorem Binning.mem_records {b : Binning} {signals : Renames} (hr : r ∈ b.records signals)
    (hname : name ∈ outputNames r) : name ∈ b.produced ∨ name ∈ outputNames (.object b.params) := by
  simp only [records, mem_append, mem_flatMap, Option.mem_toList, Option.map_eq_some_iff] at hr
  simp only [produced, outputs, mem_append, mem_flatMap]
  rcases hr with (hr | ⟨pair, hpair, hr⟩) | ⟨label, hlabel, rfl⟩
  · refine Or.imp_left (fun h => .inl ⟨b.output, mem_cons_self, h⟩) ?_
    unfold binRecords at hr
    dsimp only at hr
    split at hr
    · obtain rfl := mem_singleton.mp hr
      cases has : (Dict.ofList b.params).get? "as" <;> simp_all [Dict.get?_extend_or]
    · rcases mem_pair.mp hr with rfl | rfl
      · simp at hname
      · cases has : (Dict.ofList b.params).get? "as" <;> simp_all [Dict.get?_insert, Dict.get?_extend_or]
  · refine .inl (.inl ⟨pair, mem_cons_of_mem _ hpair, ?_⟩)
    rcases mem_pair.mp hr with rfl | rfl <;> simp_all [copyRecord]
  · simp_all

theorem Lookup.mem_record {l : Lookup} (hname : name ∈ outputNames l.record.value) :
    name ∈ l.produced ∨ l.fields = none ∧ l.outputs = none ∧ name = "_lookup" := by
  obtain ⟨field, secondary, key, fields, outputs, default⟩ := l
  unfold record at hname
  cases fields <;> cases outputs <;> cases default <;>
    simp_all [Logged.value_bind, produced, Json.withField?, Json.withField, Json.object, outputNames,
      Json.field?_obj, Dict.get?_insert, NameSet.mem_ofList]

theorem Impute.mem_records {i : Impute} (hr : r ∈ i.records) (hname : name ∈ outputNames r) :
    name = i.spec.field ∨ i.byValue = false ∧ name = "imputed_" ++ i.spec.field ++ "_value" := by
  have hfill : outputNames i.fill = [] := by simp [fill]
  unfold records at hr
  split at hr
  · rw [mem_singleton.mp hr, hfill] at hname
    cases hname
  · rename_i hvalue
    simp only [mem_cons, not_mem_nil, or_false] at hr
    rcases hr with rfl | rfl | rfl
    · rw [hfill] at hname
      cases hname
    · exact .inr ⟨by simpa using hvalue, by simpa using hname⟩
    · exact .inl (by simpa using hname)

/-- Every name that a transform of a node lists for its results is among the fields that the node tells
it writes, or is one that it does not tell. -/
theorem Node.outputNames_told {n : Node} {told : NameSet} (htold : n.produced? = some told)
    (signals : Renames) : ∀ r ∈ (n.records signals).value, ∀ name ∈ outputNames r,
      name ∈ told ∨ n.Untold name := by
  intro r hr name hname
  cases n with
  | source _ | output _ | facet _ => cases hr
  | pivot _ => cases htold
  | parse c =>
    obtain ⟨field, hfield, rfl⟩ := Coercion.path_of_mem_records hr hname
    exact .inr (.path hfield)
  | bin node =>
    cases htold
    obtain ⟨b, hb, hr⟩ := mem_flatMap.mp hr
    refine (Binning.mem_records hr hname).imp (fun hmem => ?_) (.steps hb)
    exact NameSet.mem_ofList.mpr (mem_flatMap.mpr ⟨b, hb, hmem⟩)
  | lookup l =>
    cases htold
    obtain rfl : r = l.record.value := mem_singleton.mp hr
    refine (Lookup.mem_record hname).imp_right ?_
    rintro ⟨hfields, houtputs, rfl⟩
    exact .wholeRow hfields houtputs
  | impute i =>
    cases htold
    rcases Impute.mem_records hr hname with rfl | ⟨hvalue, rfl⟩
    · exact .inl mem_cons_self
    · exact .inr (.statistic hvalue)
  | graticule g =>
    obtain rfl := mem_singleton.mp hr
    refine .inr (.lines ?_)
    simpa [Graticule.record, Dict.get?_extend_or, Dict.get?] using hname
  | timeUnit t =>
    cases htold
    obtain ⟨c, hc, rfl⟩ := mem_map.mp hr
    refine .inl (NameSet.mem_ofList.mpr (mem_flatMap.mpr ⟨c, hc, ?_⟩))
    unfold TimeCut.record at hname
    dsimp only at hname
    split at hname <;> simpa using hname
  | window w =>
    cases htold
    obtain rfl := mem_singleton.mp hr
    refine .inl (NameSet.mem_ofList.mpr ?_)
    unfold Window.record at hname
    dsimp only at hname
    split at hname <;> simpa using hname
  | estimation e =>
    cases htold
    obtain rfl := mem_singleton.mp hr
    refine .inl (NameSet.mem_ofList.mpr ?_)
    simpa [Estimation.record, outputNames, Json.withField, Json.field?_obj, Dict.get?_insert] using hname
  | filterInvalid f =>
    simp only [records, Logged.value_pure, ValidFilter.records] at hr
    split at hr
    · cases hr
    · obtain rfl := mem_singleton.mp hr
      simp at hname
  | aggregate a =>
    cases htold
    obtain rfl := mem_singleton.mp hr
    refine .inl (NameSet.mem_ofList.mpr ?_)
    simpa [Aggregate.record, Aggregate.columns, map_flatMap, Function.comp_def] using hname
  | _ =>
    cases htold
    obtain rfl := mem_singleton.mp hr
    simp_all [Sequence.record, Formula.record, Filter.record, JoinAggregate.record, Stack.record,
      Fold.record, Flatten.record, Sample.record, Extent.record, GeoPoint.record, GeoJson.record,
      NameSet.mem_ofList, JoinAggregate.produced, Stack.produced]

def meanPrice : Node :=
  .impute ⟨⟨"price", "day", none, [], none, some "mean", none⟩⟩

theorem Node.outputNames_meanPrice :
    (meanPrice.records {}).value.flatMap outputNames = ["imputed_price_value", "price"] ∧
    ∀ r ∈ (meanPrice.records {}).value, ∀ name ∈ outputNames r, name ∈ ["price"] ∨ meanPrice.Untold name :=
  ⟨by decide, Node.outputNames_told rfl {}⟩

/-- Rows that are looked up as a whole, a path in brackets that is coerced and a name that parameters
ask for are written and not told. -/
theorem Node.outputNames_untold : [Node.lookup ⟨"id", "people", "key", none, none, none⟩,
    .parse ⟨[("a[b]", "number")]⟩, .graticule ⟨.object [("as", .str "line")]⟩].map
      (fun n => (n.produced?, (n.records {}).value.flatMap outputNames)) =
    [(some [], ["_lookup"]), (some ["a[b]"], ["a.b"]), (some [], ["line"])] := by
  decide

end Flow

end ChartPlan
