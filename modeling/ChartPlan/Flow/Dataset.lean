import ChartPlan.Flow.Traversal

/-!
# Writing datasets

The nodes of a chain share a dataset. A new dataset starts at a fork, behind an output that others
read, and below a facet. Roots keep the names given by the user or are called `source_0`,
`source_1`, …; all other datasets are called `data_0`, `data_1`, ….

* `Forest.datasets`: the datasets of a forest, and the forest in which every output knows its
  dataset.
-/

namespace ChartPlan.Flow

/-- The datasets that are evaluated for each cell of a facet. -/
structure CellData where
  /-- The dataset that is split into cells. -/
  data : String
  datasets : List Json

/-- The datasets of a forest. -/
structure Datasets where
  top : List Json := []
  /-- The datasets inside the cells, by the name of the facet. -/
  cells : Dict CellData := []

def Datasets.names (d : Datasets) : List String :=
  let named (datasets : List Json) : List String := datasets.filterMap fun v => v.textField? "name"
  named d.top ++ d.cells.flatMap fun (facet, cell) => facet :: named cell.datasets

/-- A dataset whose transforms are being collected. -/
structure Draft where
  name : Option String := none
  source : Option String := none
  descriptor : Dict Json := []
  transforms : List Json := []

namespace Draft

def derived (source : String) : Draft :=
  { source := some source }

def reference? (d : Draft) : Option String :=
  if d.transforms.isEmpty then d.source else none

def append (d : Draft) (records : List Json) : Draft :=
  { d with transforms := d.transforms ++ records }

def withLoaded (d : Draft) (kinds : Dict String) : Draft :=
  if kinds.isEmpty then d
  else
    let format := ((d.descriptor.get? "format").bind Json.fields?).getD []
    { d with descriptor :=
        d.descriptor.insert "format" (.obj (format.insert "parse" (.textFields kinds))) }

def toJson (d : Draft) : Json :=
  let named := Dict.extend ((d.name.map fun n => ("name", Json.str n)).toList) d.descriptor
  ((Json.obj named).withField? "source" (d.source.map .str)).withField?
    "transform" (if d.transforms.isEmpty then none else some (.arr d.transforms))

end Draft

/-- The state of writing. -/
structure Writing where
  forest : Forest
  /-- How many datasets were called `data_…`. -/
  count : Nat := 0
  /-- The datasets written so far in the present scope. -/
  written : List Json := []
  cells : Dict CellData := []
  notes : List Note := []

namespace Writing

def name (w : Writing) (d : Draft) : Writing × Draft × String :=
  match d.name with
  | some name => (w, d, name)
  | none =>
    let name := "data_" ++ toString w.count
    ({ w with count := w.count + 1 }, { d with name := some name }, name)

def push (w : Writing) (d : Draft) : Writing :=
  { w with written := w.written ++ [d.toJson] }

/-- The dataset from which others can start: the one that the draft refers to, or the draft itself,
which is written. -/
def close (w : Writing) (d : Draft) : Writing × String :=
  match d.reference? with
  | some source => (w, source)
  | none =>
    let (w, d, name) := w.name d
    (w.push d, name)

def setSource (w : Writing) (i : NodeId) (source : String) : Writing :=
  { w with forest := w.forest.modify i fun n =>
      match n with
      | .output o => .output { o with source := source }
      | other => other }

def record (w : Writing) (d : Draft) (records : Logged (List Json)) : Writing × Draft :=
  ({ w with notes := w.notes ++ records.notes }, d.append records.value)

def take (w : Writing) (i : NodeId) (under : Option Node) (n : Node) (d : Draft) : Writing × Draft :=
  match n with
  | .source s =>
    if s.isRemote then (w, d)
    else
      let (w, d, name) := w.name d
      (w.push d, .derived name)
  | .parse c =>
    match under, d.source with
    | some (.source _), none => w.record (d.withLoaded c.loaded) c.nested.records
    | _, _ => w.record d c.records
  | .output _ =>
    match d.reference? with
    | some source => (w.setSource i source, d)
    | none =>
      let (w, d, name) := w.name d
      let w := w.setSource i name
      if !(under.any Node.isOutput) && w.forest.childCount i == 1 then (w.push d, .derived name)
      else (w, d)
  | other => w.record d (other.records w.forest.signals)

/-- Opens the cells of a facet: the datasets of the headers are written, and the facet learns which
dataset it splits. -/
def openFacet (w : Writing) (i : NodeId) (facet : Facet) (data : String) : Writing :=
  let facet := { facet with data := some data }
  { w with
    forest := w.forest.setNode i (.facet facet)
    written := w.written ++ facet.datasets }

/-- Writes the cells of a facet, which start from its own dataset; `visit` writes what is at and below
a node. -/
def splitCells (visit : Writing → NodeId → Draft → Writing) (w : Writing) (i : NodeId) (facet : Facet)
    (d : Draft) : Writing :=
  let (w, data) := w.close d
  let w := w.openFacet i facet data
  let inner := (w.forest.children i).foldl
    (fun inner child => visit inner child (.derived facet.name)) { w with written := [] }
  { inner with
    written := w.written
    cells := inner.cells.insert facet.name ⟨data, inner.written⟩ }

/-- Writes what is below a node that was taken into a draft: an only child shares the dataset. -/
def descend (visit : Writing → NodeId → Draft → Writing) (w : Writing) (i : NodeId) (n : Node)
    (d : Draft) : Writing :=
  match w.forest.children i with
  | [] => if n.isOutput && d.reference?.isNone then w.push d else w
  | [child] => visit w child d
  | children =>
    let (w, source) := w.close d
    children.foldl (fun w child => visit w child (.derived source)) w

def walk : Nat → Writing → NodeId → Draft → Writing
  | 0, w, _, _ => w
  | fuel + 1, w, i, d =>
    match w.forest.node? i with
    | none => w
    | some (.facet facet) => splitCells (walk fuel) w i facet d
    | some n =>
      let (w, d) := w.take i ((w.forest.parent? i).bind w.forest.node?) n d
      descend (walk fuel) w i n d

def rootDraft (f : Forest) (i : NodeId) (count : Nat) : Draft × Nat :=
  let draft : Draft := match f.node? i with
    | some (.source s) => { name := s.name, descriptor := s.descriptor }
    | _ => {}
  match draft.name with
  | some _ => (draft, count)
  | none => ({ draft with name := some ("source_" ++ toString count) }, count + 1)

/-- Writes the datasets of a root; the number tells how many roots were called `source_…`. -/
def writeRoot (state : Writing × Nat) (root : NodeId) : Writing × Nat :=
  let (w, count) := state
  let (draft, count) := rootDraft w.forest root count
  (walk (w.forest.slots.length + 1) w root draft, count)

def ofForest (f : Forest) : Writing :=
  (f.sources.foldl writeRoot ({ forest := f }, 0)).1

end Writing

def resolveLookup (f : Forest) (record : Json) : Json :=
  if record.field? "type" == some (.str "lookup") then
    match (record.textField? "from").bind f.datasetName? with
    | some source => record.withField "from" (.str source)
    | none => record
  else record

def resolveLookups (f : Forest) (dataset : Json) : Json :=
  match (dataset.field? "transform").bind Json.items? with
  | some records => dataset.withField "transform" (.arr (records.map (resolveLookup f)))
  | none => dataset

def isPlain (dataset : Json) : Bool :=
  (dataset.field? "source").isNone && (dataset.field? "transform").isNone

/-- Writes the datasets of a forest. Datasets that only load rows come first, since lookups may
search in them. The forest that is returned knows the dataset of every output. -/
def Forest.datasets (f : Forest) : Logged (Forest × Datasets) :=
  let w := Writing.ofForest f
  let ordered := w.written.filter isPlain ++ w.written.filter fun d => !isPlain d
  let datasets : Datasets := {
    top := ordered.map (resolveLookups w.forest)
    cells := w.cells.mapValues fun cell =>
      { cell with datasets := cell.datasets.map (resolveLookups w.forest) } }
  ⟨(w.forest, datasets), w.notes⟩

end ChartPlan.Flow
