import ChartPlan.Proofs.Chart.Repetition
import ChartPlan.Proofs.Json.Text

/-!
# Where repeated fields are bound

Every repetition binds the references of the whole view inside it before that view is read, so inner
repetitions find what the outer ones left. A reference is bound by the outermost repetition around it
that has its direction.

* `readScoped`: reads a view with the bindings of the repetitions around it, the outermost ones first.
* `read_scopes`: this is how every chart is read.
-/

namespace ChartPlan

open List Option

theorem Dict.get?_append {α : Type} (d other : Dict α) (key : String) :
    Dict.get? (d ++ other) key = (d.get? key).or (other.get? key) := by
  induction d with
  | nil => rfl
  | cons entry rest ih =>
    show (if key = entry.1 then some entry.2 else get? (rest ++ other) key) =
      (if key = entry.1 then some entry.2 else get? rest key).or _
    rw [ih]
    split <;> rfl

theorem Checked.mapM_map {α β γ : Type} (f : β → Checked γ) (g : α → β) (l : List α) :
    (l.map g).mapM f = l.mapM fun a => f (g a) := by
  unfold List.mapM
  generalize ([] : List γ) = read
  induction l generalizing read with
  | nil => rfl
  | cons a l ih => exact congrArg (f (g a) >>= ·) (funext fun c => ih (c :: read))

namespace Chart

/-! ### Bindings one after the other -/

def bindField (binding : Dict String) (field : String × Json) : String × Json :=
  (field.1, ((boundField? binding field.1 field.2).map .str).getD (bindRefs binding field.2))

theorem bindFields_eq (binding : Dict String) (fields : Dict Json) :
    bindFields binding fields = fields.map (bindField binding) := by
  induction fields with
  | nil => rfl
  | cons field rest ih =>
    rw [bindFields, map_cons, ← ih, bindField]
    split <;> simp [*]

theorem repeatRef?_bindRefs (binding : Dict String) (v : Json) :
    repeatRef? (bindRefs binding v) = repeatRef? v := by
  unfold repeatRef? Json.textField?
  rw [field?_bindRefs binding v (by decide), bind_map]
  exact congrArg _ (funext (text?_bindRefs binding))

theorem bindRefs_bindRefs {a b c : Dict String} (h : ∀ d, c.get? d = (a.get? d).or (b.get? d))
    (v : Json) : bindRefs b (bindRefs a v) = bindRefs c v := by
  induction v using Json.induction with
  | hleaf v hitems hfields =>
    cases v with
    | arr items => cases hitems
    | obj fields => cases hfields
    | _ => rfl
  | harr items ih =>
    simp only [bindRefs, bindItems_eq, List.map_map]
    exact congrArg Json.arr (List.map_congr_left ih)
  | hobj fields ih =>
    simp only [bindRefs, bindFields_eq, List.map_map]
    refine congrArg Json.obj (List.map_congr_left fun field hfield => Prod.ext rfl ?_)
    have hvalue := ih field hfield
    simp only [Function.comp, bindField, boundField?]
    by_cases hkey : field.1 = "field"
    · cases href : repeatRef? field.2 with
      | none => simp [hkey, href, hvalue, repeatRef?_bindRefs]
      | some d =>
        cases ha : a.get? d <;> simp [hkey, href, hvalue, repeatRef?_bindRefs, h, ha]
        rfl
    · simp [hkey, hvalue]

theorem bindRefs_nil (v : Json) : bindRefs [] v = v := by
  induction v using Json.induction with
  | hleaf v hitems hfields =>
    cases v with
    | arr items => cases hitems
    | obj fields => cases hfields
    | _ => rfl
  | harr items ih => rw [bindRefs, bindItems_eq, List.map_congr_left ih, List.map_id']
  | hobj fields ih =>
    rw [bindRefs, bindFields_eq]
    have hfield : ∀ field ∈ fields, bindField [] field = field := fun field hfield => by
      simp [bindField, boundField?, ih field hfield]
    rw [List.map_congr_left hfield, List.map_id']

/-! ### Scopes -/

/-- Names a copy of a repeated view after its binding, unless it has a name. -/
def named (binding : Dict String) : Json → Json
  | .obj fields => .obj (Dict.insertIfNew fields "name" (.str (copyName binding)))
  | other => other

def copiesScoped (readChild : Dict String → String → Json → Checked Chart) (scope : Dict String)
    (path : String) (layout spec : Json) : Checked (List Chart) :=
  match bindings? layout with
  | some bindings => bindings.mapM fun binding =>
    readChild (scope ++ binding) (path ++ ".spec") (named binding spec)
  | none => Checked.fail (.invalidSpec (path ++ ".repeat") "expected an array or object")

def bodyScoped (readChild : Dict String → String → Json → Checked Chart) (scope : Dict String)
    (path : String) (fields : Dict Json) : Checked (Body × List Chart) :=
  match fields.get? "layer", fields.get? "repeat", fields.get? "facet", fields.get? "spec",
      concatKeys.find? fun key => fields.has key with
  | some v, _, _, _, _ => do return (.layer, ← readViews (readChild scope) path "layer" v)
  | none, some layout, _, some spec, _ => do
    return (.concat, ← copiesScoped readChild scope path layout spec)
  | none, none, some facet, some spec, _ => do
    let mapping ← FacetMapping.read (bindRefs scope facet)
    return (.facet mapping, [← readChild scope (path ++ ".spec") spec])
  | _, _, _, _, some key => do
    return (.concat, ← readViews (readChild scope) path key ((fields.get? key).getD .null))
  | _, _, _, _, none => readUnit path (bindFields scope fields)

/-- Reads a view in a scope, the list of all bindings around it with the outermost ones first. Each
copy of a repeated view is read in the scope that its own binding ends; wherever a reference stands,
the first binding of its direction counts. -/
def readScoped : Nat → Dict String → String → Json → Checked Chart
  | fuel + 1, scope, path, .obj fields => do
    let (body, views) ← bodyScoped (readScoped fuel) scope path fields
    let view ← Checked.ofExcept (readView path (bindFields scope fields) body)
    return .node view views
  | _, _, path, _ => Checked.fail (.invalidSpec path "expected an object")

theorem has_bindFields (scope : Dict String) (fields : Dict Json) (key : String) (hkey : key ≠ "field") :
    Dict.has (bindFields scope fields) key = fields.has key := by
  unfold Dict.has
  rw [get?_bindFields scope fields hkey, isSome_map]

theorem copy_bindRefs (scope binding : Dict String) (v : Json) :
    copy binding (bindRefs scope v) = bindRefs (scope ++ binding) (named binding v) := by
  have hcopy : copy binding (bindRefs scope v) = named binding (bindRefs (scope ++ binding) v) := by
    rw [copy, bindRefs_bindRefs (Dict.get?_append scope binding)]
    rfl
  rw [hcopy]
  cases v with
  | obj fields =>
    simp only [bindRefs, named, Dict.insertIfNew, has_bindFields _ fields "name" (by decide)]
    split
    · rfl
    · rw [bindFields_eq, bindFields_eq]
      exact congrArg Json.obj
        (Dict.insert_map (g := bindField (scope ++ binding)) (fun _ => rfl) fields "name" (.str _))
  | _ => rfl

theorem textItems_bindRefs (scope : Dict String) (v : Json) :
    (bindRefs scope v).textItems = v.textItems := by
  unfold Json.textItems
  rw [items?_bindRefs]
  cases v.items? with
  | none => rfl
  | some items =>
    rw [map_some, getD_some, getD_some, filterMap_map]
    exact congrArg (List.filterMap · items) (funext (text?_bindRefs scope))

theorem bindings?_bindRefs (scope : Dict String) (layout : Json) :
    bindings? (bindRefs scope layout) = bindings? layout := by
  have hvalues : ∀ v : Option Json, directionValues (v.map (bindRefs scope)) = directionValues v := by
    intro v
    cases v with
    | none => rfl
    | some v => simp only [directionValues, map_some, textItems_bindRefs]
  cases layout with
  | arr items =>
    have hitems := textItems_bindRefs scope (.arr items)
    rw [bindRefs] at hitems ⊢
    rw [bindings?, hitems, bindings?]
  | obj fields =>
    have hget : ∀ key, key ≠ "field" → Dict.get? (bindFields scope fields) key =
        (Dict.get? fields key).map (bindRefs scope) := fun _ => get?_bindFields scope fields
    simp only [bindRefs, bindings?, hget "row" (by decide), hget "column" (by decide), hvalues]
  | _ => rfl

theorem readBody_bindFields {readChild : String → Json → Checked Chart}
    {readIn : Dict String → String → Json → Checked Chart}
    (h : ∀ scope path v, readChild path (bindRefs scope v) = readIn scope path v)
    (scope : Dict String) (path : String) (fields : Dict Json) :
    readBody readChild path (bindFields scope fields) = bodyScoped readIn scope path fields := by
  have hviews : ∀ key v, readViews readChild path key (bindRefs scope v) =
      readViews (readIn scope) path key v := by
    intro key v
    cases v with
    | arr items =>
      simp only [bindRefs, bindItems_eq, readViews, zipIdx_map, ← h]
      exact Checked.mapM_map _ _ _
    | _ => rfl
  have hcopies : ∀ layout spec, readCopies readChild path (bindRefs scope layout) (bindRefs scope spec) =
      copiesScoped readIn scope path layout spec := by
    intro layout spec
    unfold readCopies copiesScoped
    rw [bindings?_bindRefs]
    cases bindings? layout with
    | none => rfl
    | some bindings => simp only [copy_bindRefs, h]
  have hget : ∀ key ∈ viewKeys, Dict.get? (bindFields scope fields) key =
      (fields.get? key).map (bindRefs scope) :=
    fun key hkey => get?_bindFields scope fields fun he => absurd (he ▸ hkey) (by decide)
  have hfind : concatKeys.find? (fun key => Dict.has (bindFields scope fields) key) =
      concatKeys.find? fun key => fields.has key := by
    unfold concatKeys
    simp only [List.find?_cons, List.find?_nil, has_bindFields scope fields "concat" (by decide),
      has_bindFields scope fields "hconcat" (by decide),
      has_bindFields scope fields "vconcat" (by decide)]
  unfold readBody bodyScoped
  rw [hfind, hget "layer" (by decide), hget "repeat" (by decide), hget "facet" (by decide),
    hget "spec" (by decide)]
  cases fields.get? "layer" with
  | some v => simp only [map_some, hviews]
  | none =>
    cases hconcat : concatKeys.find? (fun key => fields.has key) with
    | none =>
      cases fields.get? "repeat" <;> cases fields.get? "facet" <;> cases fields.get? "spec" <;>
        simp only [map_some, map_none, hcopies, h]
    | some key =>
      have hkey : (Dict.get? (bindFields scope fields) key).getD .null =
          bindRefs scope ((fields.get? key).getD .null) := by
        rw [hget key (mem_append_right _ (mem_of_find?_eq_some hconcat))]
        cases fields.get? key <;> rfl
      cases fields.get? "repeat" <;> cases fields.get? "facet" <;> cases fields.get? "spec" <;>
        simp only [map_some, map_none, hcopies, h, hkey, hviews]

theorem readDeep_bindRefs (fuel : Nat) (scope : Dict String) (path : String) (v : Json) :
    readDeep fuel path (bindRefs scope v) = readScoped fuel scope path v := by
  induction fuel generalizing scope path v with
  | zero => rfl
  | succ fuel ih =>
    cases v with
    | obj fields =>
      rw [bindRefs, readDeep, readScoped, readBody_bindFields fun scope path v => ih scope path v]
    | _ => rfl

/-- Every chart is read with the bindings of the repetitions around each view at hand, so the
outermost one that has the direction of a reference binds it. A repetition has one copy for each field
of a list, or for each pair of a row and a column, row by row. Where a repetition has no direction of
those around it, the order of bindings does not matter, and the innermost one counts. -/
theorem read_scopes (v : Json) : read v = readScoped (v.depth + 1) [] "$" v ∧
    (∀ items, bindings? (.arr items) =
      some ((Json.arr items).textItems.map fun name => [("repeat", name)])) ∧
    (∀ layout : Dict Json, bindings? (.obj layout) =
      some ((directionValues (layout.get? "row") ×ˢ directionValues (layout.get? "column")).map fun p =>
        Dict.ofList ((p.1.map ("row", ·)).toList ++ (p.2.map ("column", ·)).toList))) ∧
    ∀ scope binding : Dict String, (∀ d, scope.has d → binding.get? d = none) →
      ∀ w, bindRefs (scope ++ binding) w = bindRefs (binding ++ scope) w := by
  refine ⟨?_, fun _ => rfl, fun layout => ?_, fun scope binding h w => ?_⟩
  · rw [← readDeep_bindRefs, bindRefs_nil]
    rfl
  · simp [bindings?, SProd.sprod, List.product, map_flatMap, Function.comp_def]
  · rw [← bindRefs_bindRefs (Dict.get?_append binding scope)]
    refine (bindRefs_bindRefs (fun d => ?_) w).symm
    rw [Dict.get?_append]
    have hd := h d
    unfold Dict.has at hd
    cases hs : scope.get? d with
    | none => simp
    | some name => simp [hd (by rw [hs]; rfl)]

/-- A repetition inside of another one, with references of two directions on the axes. -/
def nested (outer inner : Json) (x y : String) : Json :=
  let ref (direction : String) : Json := .object [("type", .str "quantitative"),
    ("field", .object [("repeat", .str direction)])]
  .object [("repeat", outer), ("spec", .object [("repeat", inner), ("spec", .object [
    ("mark", .str "point"), ("encoding", .object [("x", ref x), ("y", ref y)])])])]

/-- The fields on the axes of the unit views of a chart. -/
def shownFields (v : Json) : Option (List (List (Option String))) :=
  (read v).outcome.toOption.map fun chart => chart.preorder.filterMap fun s =>
    match s.body with
    | .unit _ e => some (e.defs.map ChannelDef.field)
    | _ => none

def rowsOfColumns : Json :=
  nested (.object [("row", .texts ["a", "b"])]) (.object [("column", .texts ["c"])]) "column" "row"

theorem read_rowsOfColumns :
    shownFields rowsOfColumns = some [[some "c", some "a"], [some "c", some "b"]] ∧
      read rowsOfColumns = readScoped (rowsOfColumns.depth + 1) [] "$" rowsOfColumns ∧
      bindRefs [("row", "a"), ("column", "c")] rowsOfColumns =
        bindRefs [("column", "c"), ("row", "a")] rowsOfColumns := by
  obtain ⟨hread, -, -, horder⟩ := read_scopes rowsOfColumns
  refine ⟨by decide +kernel, hread, horder [("row", "a")] [("column", "c")] (fun d hd => ?_) _⟩
  by_cases h : d = "row" <;> simp_all [Dict.has, Dict.get?]

theorem read_listsOfLists :
    shownFields (nested (.texts ["a", "b"]) (.texts ["c"]) "repeat" "repeat") =
      some [[some "a", some "a"], [some "b", some "b"]] := by
  decide +kernel

end Chart

end ChartPlan
