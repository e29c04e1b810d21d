import ChartPlan.Chart.Data

/-!
# Data sources

The roots of a dataflow: loaded or inline rows, and two generators.
-/

namespace ChartPlan.Flow

/-- Rows from inline values, an address, or the run time. -/
structure Source where
  /-- The dataset without its name and its transforms. -/
  descriptor : Dict Json
  /-- The name given by the user; a source without one is named when datasets are written. -/
  name : Option String
deriving BEq

namespace Source

def ofRows (rows : Json) : Source :=
  ⟨[("values", rows)], none⟩

def empty : Source :=
  ofRows (.arr [])

def named (name : String) : Source :=
  ⟨[], some name⟩

def formatOf (data : DataBlock) : Dict Json :=
  match data.formatType? with
  | some type => data.format.insert "type" (.str type)
  | none => data.format

def ofBlock (data : DataBlock) : Source :=
  let origin : Dict Json := match data.origin with
    | .values rows => [("values", rows)]
    | .url address => [("url", .str address)]
    | _ => []
  let format := formatOf data
  ⟨if format.isEmpty then origin else origin.insert "format" (.obj format), data.name⟩

def identity (s : Source) : Json :=
  .object [("descriptor", .obj s.descriptor), ("name", .ofText? s.name)]

def isEmpty (s : Source) : Bool :=
  s.descriptor.get? "values" == some (.arr [])

def isRemote (s : Source) : Bool :=
  s.descriptor.has "url"

def agrees (a b : Source) : Bool :=
  a.descriptor == b.descriptor && (a.name.isNone || b.name.isNone || a.name == b.name)

end Source

/-- Generated numbers. -/
structure Sequence where
  start : Binary64
  stop : Binary64
  step : Option Binary64
  output : String
deriving BEq

def Sequence.record (s : Sequence) : Json :=
  (Json.object [("type", .str "sequence"), ("start", .real s.start), ("stop", .real s.stop),
    ("as", .str s.output)]).withField? "step" (s.step.map .real)

/-- Generated meridians and parallels. -/
structure Graticule where
  params : Json
deriving BEq

def Graticule.record (g : Graticule) : Json :=
  .obj (Dict.extend [("type", .str "graticule")] (g.params.fields?.getD []))

end ChartPlan.Flow
