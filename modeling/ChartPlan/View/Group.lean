import ChartPlan.Flow.Dataset
import ChartPlan.Flow.Pass.Facets
import ChartPlan.View.Axes
import ChartPlan.View.Geography
import ChartPlan.View.Legends

/-!
# Groups of marks

The views become groups: layered views draw into the group of the view around them, concatenated views
have groups of their own, and a faceted view has groups for its headers and one for its cells. A group
holds the components that its views own and marks that read the written datasets.
-/

namespace ChartPlan

/-- The components and marks of a group. -/
structure Group where
  projections : List Json := []
  scales : List Json := []
  axes : List Json := []
  legends : List Json := []
  marks : List Json := []

namespace Group

def append (a b : Group) : Group where
  projections := a.projections ++ b.projections
  scales := a.scales ++ b.scales
  axes := a.axes ++ b.axes
  legends := a.legends ++ b.legends
  marks := a.marks ++ b.marks

def sections (g : Group) : Dict Json :=
  Dict.ofList (([("projections", g.projections), ("scales", g.scales), ("axes", g.axes),
    ("legends", g.legends), ("marks", g.marks)].filter fun entry => !entry.2.isEmpty).map
      fun (key, items) => (key, .arr items))

end Group

/-- What is known when groups are written: the optimized dataflow, its datasets, and the scales that
were given up. -/
structure Layout where
  forest : Flow.Forest
  datasets : Flow.Datasets
  scales : Renames

namespace Layout

/-- The dataset of an output. Outside of cells, the copy of a faceted computation over all data is
preferred. -/
def dataset? (l : Layout) (outside : Bool) (name : String) : Option String :=
  if outside then
    (l.forest.datasetName? (Flow.scaleStem ++ name)).or (l.forest.datasetName? name)
  else l.forest.datasetName? name

def components (l : Layout) (outside : Bool) (v : View) : Group where
  projections := (v.projectionPart.toList.filter fun p => !p.merged).map Projection.toJson
  scales := (v.scales.values.filter fun s => !s.merged).map
    (Scale.toJson l.forest.signals (l.dataset? outside))
  axes := v.axes.values.flatten.map (Axis.toJson l.scales)
  legends := v.legends.values.map (Legend.toJson l.scales)

def drawnAs (mark : String) : String :=
  if ["bar", "tick"].contains mark then "rect"
  else if ["point", "circle", "square"].contains mark then "symbol"
  else if mark == "geoshape" then "shape"
  else mark

def unitMark (l : Layout) (outside : Bool) (v : View) (mark : Mark) : Json :=
  let main := v.inner "main"
  .object [
    ("name", .str (v.inner "marks")),
    ("type", .str (drawnAs mark.type)),
    ("from", .object [("data", .str ((l.dataset? outside main).getD main))])]

def concatMark (v : View) (inner : Group) : Json :=
  .obj (Dict.extend (Dict.ofList [("name", .str (v.inner "group")), ("type", .str "group")])
    inner.sections)

def facet? (l : Layout) (v : View) : Option Flow.Facet :=
  (l.forest.outputs.get? (v.inner "facet")).bind fun i =>
    (l.forest.node? i).bind Flow.Node.facet?

def headerMarks (v : View) (facet : Flow.Facet) : List Json :=
  facet.channels.map fun (channel, header) => .object [
    ("name", .str (v.inner (channel ++ "_header"))),
    ("type", .str "group"),
    ("role", .str (channel ++ "-header")),
    ("from", .object [("data", .str header.name)])]

def cellData (l : Layout) (facet : Flow.Facet) : Dict Json :=
  let split := Json.object [("facet", .object [
    ("name", .str facet.name),
    ("data", .ofText? facet.data),
    ("groupby", .texts facet.fields)])]
  match l.datasets.cells.get? facet.name with
  | some cell =>
    if cell.datasets.isEmpty then [("from", split)]
    else Dict.ofList [("from", split), ("data", .arr cell.datasets)]
  | none => [("from", split)]

/-- The groups of a faceted view: those of the headers, then the one of the cells. -/
def facetMarks (l : Layout) (v : View) (inner : Group) : List Json :=
  let cell : Dict Json := Dict.ofList [("name", .str (v.inner "cell")), ("type", .str "group")]
  match l.facet? v with
  | some facet =>
    headerMarks v facet ++ [.obj ((cell.extend (l.cellData facet)).extend inner.sections)]
  | none => [.obj (cell.extend inner.sections)]

mutual

def group (l : Layout) (outside : Bool) : Tree View → Group
  | .node v children =>
    let own := l.components outside v
    match v.body with
    | .unit mark _ => own.append { marks := [l.unitMark outside v mark] }
    | .layer => (groups l outside children).foldl Group.append own
    | .concat => own.append {
        marks := List.zipWith concatMark (children.map Tree.value) (groups l outside children) }
    | .facet _ => own.append {
        marks := l.facetMarks v ((groups l false children).foldl Group.append {}) }

def groups (l : Layout) (outside : Bool) : List (Tree View) → List Group
  | [] => []
  | t :: rest => group l outside t :: groups l outside rest

end

end Layout

end ChartPlan
