import ChartPlan.View.Basic

/-!
# Selections

A selection parameter applies to the unit views below the view that declares it. Every selection has
a store dataset, and a signal that resolves the store.
-/

namespace ChartPlan

namespace SelectionPart

def store (s : SelectionPart) : String :=
  s.name ++ "_store"

def needsRowIds (s : SelectionPart) : Bool :=
  s.project.contains Flow.rowIdField

/-- The channels by which a selection selects: an interval over nothing else is one over the
positions. -/
def channelsOf (s : Selection) : List String :=
  if s.type == .interval && s.fields.isEmpty && s.encodings.isEmpty then ["x", "y"]
  else s.encodings

/-- The fields by which rows of a unit view are selected. A point selection by nothing selects by
row number. -/
def projection (e : Encoding) (s : Selection) : List String :=
  let fields := ((channelsOf s).filterMap e.get?).foldl (fun acc d =>
    if acc.contains d.outputName then acc else acc ++ [d.outputName]) s.fields
  if fields.isEmpty && s.type == .point then [Flow.rowIdField] else fields

def ofParam? (e : Encoding) (p : Param) : Option SelectionPart :=
  p.select.map fun s =>
    { name := nameOf p.name, type := s.type, project := projection e s, init := p.value }

def initialRows (s : SelectionPart) : Option Json :=
  s.init.map fun init =>
    let values := match init with
      | .arr items => items
      | other => [other]
    .arr (values.map fun v => .object [("unit", .str ""), ("values", v)])

def storeDataset (s : SelectionPart) : Json :=
  (Json.object [("name", .str s.store)]).withField? "values" s.initialRows

def signal (s : SelectionPart) : Json :=
  .object [
    ("name", .str s.name),
    ("update", .str ("vlSelectionResolve(" ++ Text.quote s.store ++ ", \"union\")"))]

end SelectionPart

namespace View

mutual

/-- Gives unit views the selections of their own parameters and of those above. -/
def addSelections (inherited : List Param) : Tree View → Tree View
  | .node v children =>
    let params := inherited ++ v.params.filter fun p => p.select.isSome
    match v.unit? with
    | some (_, e) =>
      .node { v with selections := params.filterMap (SelectionPart.ofParam? e) } children
    | none => .node v (addSelectionsAll params children)

def addSelectionsAll (inherited : List Param) : List (Tree View) → List (Tree View)
  | [] => []
  | t :: rest => addSelections inherited t :: addSelectionsAll inherited rest

end

def withSelections (t : Tree View) : Tree View :=
  addSelections [] t

def allSelections (t : Tree View) : List SelectionPart :=
  t.preorder.flatMap View.selections

def needsRowIds (t : Tree View) : Bool :=
  (allSelections t).any SelectionPart.needsRowIds

def findSelection? (t : Tree View) (name : String) : Option SelectionPart :=
  (allSelections t).find? fun s => s.name == name

def selectionNames (t : Tree View) : NameSet :=
  NameSet.ofList ((allSelections t).map SelectionPart.name)

def distinctSelections (t : Tree View) : List SelectionPart :=
  (allSelections t).foldl (fun acc s =>
    if acc.any fun known => known.name == s.name then acc else acc ++ [s]) []

def storeDatasets (t : Tree View) : List Json :=
  (distinctSelections t).map SelectionPart.storeDataset

def selectionSignals (t : Tree View) : List Json :=
  (distinctSelections t).map SelectionPart.signal

end View

end ChartPlan
