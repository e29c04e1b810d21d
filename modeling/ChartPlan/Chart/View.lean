import ChartPlan.Chart.Data
import ChartPlan.Chart.Encoding
import ChartPlan.Chart.Transform
import ChartPlan.Tree

/-!
# The views of a chart

A chart is a tree of views: a unit shows one mark, a layer and a concatenation hold several views,
and a facet holds one view that is shown for every part of the data. A repeated view is a
concatenation of copies in which references to the repeated fields are bound.

* `ViewSpec`: what the input tells about one view.
* `Chart.read`: the view tree of an input.
-/

namespace ChartPlan

/-- Whether views share a component of a channel. -/
inductive Sharing where
  | shared
  | independent
deriving DecidableEq

/-- The `resolve` block: the kind of component, then the channel. -/
structure Resolve where
  modes : Dict (Dict Sharing) := []

namespace Resolve

def readSharing? (v : Json) : Option Sharing :=
  match v with
  | .str "independent" => some .independent
  | .str "shared" => some .shared
  | _ => none

def read : Option Json → Resolve
  | some (.obj fields) =>
    ⟨fields.filterMap fun (kind, channels) => channels.fields?.map fun channels =>
      (kind, channels.filterMap fun (channel, v) => (readSharing? v).map (channel, ·))⟩
  | _ => {}

def get? (r : Resolve) (kind channel : String) : Option Sharing :=
  (r.modes.get? kind).bind fun channels => channels.get? channel

def set (r : Resolve) (kind channel : String) (sharing : Sharing) : Resolve :=
  ⟨r.modes.insert kind (((r.modes.get? kind).getD []).insert channel sharing)⟩

end Resolve

/-- How the rows of a selection are chosen. -/
inductive SelectionType where
  | point
  | interval
deriving DecidableEq

def SelectionType.name : SelectionType → String
  | .point => "point"
  | .interval => "interval"

/-- What a selection parameter selects by. -/
structure Selection where
  type : SelectionType
  fields : List String
  encodings : List String

/-- A parameter of a view, which may be a selection. -/
structure Param where
  name : String
  value : Option Json
  select : Option Selection

namespace Param

def readSelection (name : String) (v : Json) : Except Error Selection :=
  let typeName := match v with
    | .str s => s
    | other => (other.textField? "type").getD ""
  let texts (key : String) : List String := ((v.field? key).map Json.textItems).getD []
  let withType (type : SelectionType) : Selection := ⟨type, texts "fields", texts "encodings"⟩
  match typeName with
  | "point" => .ok (withType .point)
  | "interval" => .ok (withType .interval)
  | other =>
    .error (.invalidSpec ("params." ++ name ++ ".select")
      ("unknown selection type \"" ++ other ++ "\""))

def read (v : Json) : Except Error Param := do
  match v.textField? "name" with
  | none => .error (.invalidSpec "params" "parameter requires a name")
  | some name =>
    let select ← match v.field? "select" with
      | none => pure none
      | some s => (readSelection name s).map some
    return { name, value := v.field? "value", select }

end Param

/-- The definitions that split a facet into rows, columns or wrapped cells. -/
structure FacetMapping where
  row : Option ChannelDef := none
  column : Option ChannelDef := none
  facet : Option ChannelDef := none

namespace FacetMapping

def channels (m : FacetMapping) : List (String × ChannelDef) :=
  [("row", m.row), ("column", m.column), ("facet", m.facet)].filterMap fun (channel, d) =>
    d.map (channel, ·)

/-- Reads a `facet` block: one definition, or one for rows and one for columns. -/
def read (v : Json) : Checked FacetMapping :=
  match v with
  | .obj fields =>
    if Dict.has fields "field" then do
      let e ← Encoding.read (some (.object [("facet", v)]))
      return { facet := e.get? "facet" }
    else do
      let e ← Encoding.read (some v)
      return { row := e.get? "row", column := e.get? "column" }
  | _ => Checked.fail (.invalidSpec "facet" "expected an object")

end FacetMapping

/-- The mark of a unit view and its properties. -/
structure Mark where
  type : String
  props : Dict Json

/-- What kind of view it is. -/
inductive Body where
  | unit (mark : Mark) (encoding : Encoding)
  | layer
  | facet (mapping : FacetMapping)
  | concat

/-- What the input tells about one view. -/
structure ViewSpec where
  name : Option String
  data : DataSetting
  transforms : List Transform
  params : List Param
  resolve : Resolve
  projection : Option Json
  title : Option Json
  body : Body

abbrev Chart := Tree ViewSpec

namespace Chart

/-! ### Repetition -/

def repeatRef? (v : Json) : Option String :=
  v.textField? "repeat"

def boundField? (binding : Dict String) (key : String) (v : Json) : Option String :=
  if key = "field" then (repeatRef? v).bind fun direction => binding.get? direction else none

mutual

def bindRefs (binding : Dict String) : Json → Json
  | .arr items => .arr (bindItems binding items)
  | .obj fields => .obj (bindFields binding fields)
  | other => other

def bindItems (binding : Dict String) : List Json → List Json
  | [] => []
  | v :: rest => bindRefs binding v :: bindItems binding rest

def bindFields (binding : Dict String) : List (String × Json) → List (String × Json)
  | [] => []
  | (key, v) :: rest =>
    match boundField? binding key v with
    | some name => (key, .str name) :: bindFields binding rest
    | none => (key, bindRefs binding v) :: bindFields binding rest

end

def directionValues (v : Option Json) : List (Option String) :=
  match (v.map Json.textItems).getD [] with
  | [] => [none]
  | names => names.map some

/-- The bindings of a repetition: one for each listed field, or for each row and column, row by
row. -/
def bindings? : Json → Option (List (Dict String))
  | .arr items => some ((Json.arr items).textItems.map fun name => [("repeat", name)])
  | .obj layout =>
    some ((directionValues (Dict.get? layout "row")).flatMap fun row =>
      (directionValues (Dict.get? layout "column")).map fun column =>
        Dict.ofList ((row.map ("row", ·)).toList ++ (column.map ("column", ·)).toList))
  | _ => none

def copyName (binding : Dict String) : String :=
  "child_" ++ String.join (binding.map fun (direction, field) => "_" ++ direction ++ "_" ++ nameOf field)

/-- The copy of a view under a binding; a copy without a name is named after the binding. -/
def copy (binding : Dict String) (v : Json) : Json :=
  match bindRefs binding v with
  | .obj fields => .obj (Dict.insertIfNew fields "name" (.str (copyName binding)))
  | other => other

/-! ### Reading views -/

def readMark (path : String) : Json → Except Error Mark
  | .str type => .ok ⟨type, []⟩
  | .obj props =>
    match (Dict.get? props "type").bind Json.text? with
    | some type => .ok ⟨type, props⟩
    | none => .error (.invalidSpec (path ++ ".mark") "mark requires a type")
  | _ => .error (.invalidSpec (path ++ ".mark") "expected a string or object")

def readTransforms (path : String) : Option Json → Except Error (List Transform)
  | none => .ok []
  | some (.arr items) => items.mapM Transform.read
  | some _ => .error (.invalidSpec (path ++ ".transform") "expected an array")

def readParams : Option Json → Except Error (List Param)
  | some (.arr items) => items.mapM Param.read
  | _ => .ok []

def readView (path : String) (fields : Dict Json) (body : Body) : Except Error ViewSpec := do
  let transforms ← readTransforms path (fields.get? "transform")
  let params ← readParams (fields.get? "params")
  let data ← DataSetting.read (fields.get? "data")
  return {
    name := (fields.get? "name").bind Json.text?
    data, transforms, params
    resolve := Resolve.read (fields.get? "resolve")
    projection := fields.get? "projection"
    title := fields.get? "title"
    body
  }

def concatKeys : List String :=
  ["concat", "hconcat", "vconcat"]

def readViews (readChild : String → Json → Checked Chart) (path key : String) :
    Json → Checked (List Chart)
  | .arr items =>
    items.zipIdx.mapM fun (child, i) =>
      readChild (path ++ "." ++ key ++ "[" ++ toString i ++ "]") child
  | _ => Checked.fail (.invalidSpec (path ++ "." ++ key) "expected an array")

def readCopies (readChild : String → Json → Checked Chart) (path : String) (layout spec : Json) :
    Checked (List Chart) :=
  match bindings? layout with
  | some bindings => bindings.mapM fun binding => readChild (path ++ ".spec") (copy binding spec)
  | none => Checked.fail (.invalidSpec (path ++ ".repeat") "expected an array or object")

def readUnit (path : String) (fields : Dict Json) : Checked (Body × List Chart) :=
  match fields.get? "mark" with
  | some v => do
    let mark ← Checked.ofExcept (readMark path v)
    let encoding ← Encoding.read (fields.get? "encoding")
    return (.unit mark encoding, [])
  | none =>
    Checked.fail (.invalidSpec path
      "expected one of mark, layer, facet, repeat, concat, hconcat or vconcat")

def readBody (readChild : String → Json → Checked Chart) (path : String) (fields : Dict Json) :
    Checked (Body × List Chart) :=
  match fields.get? "layer", fields.get? "repeat", fields.get? "facet", fields.get? "spec",
      concatKeys.find? fun key => fields.has key with
  | some v, _, _, _, _ => do return (.layer, ← readViews readChild path "layer" v)
  | none, some layout, _, some spec, _ => do
    return (.concat, ← readCopies readChild path layout spec)
  | none, none, some facet, some spec, _ => do
    let mapping ← FacetMapping.read facet
    return (.facet mapping, [← readChild (path ++ ".spec") spec])
  | _, _, _, _, some key => do
    return (.concat, ← readViews readChild path key ((fields.get? key).getD .null))
  | _, _, _, _, none => readUnit path fields

def readDeep : Nat → String → Json → Checked Chart
  | fuel + 1, path, .obj fields => do
    let (body, views) ← readBody (readDeep fuel) path fields
    let view ← Checked.ofExcept (readView path fields body)
    return .node view views
  | _, path, _ => Checked.fail (.invalidSpec path "expected an object")

def read (v : Json) : Checked Chart :=
  readDeep (v.depth + 1) "$" v

end Chart

end ChartPlan
