import ChartPlan.Chart.Binning
import ChartPlan.Renames
import ChartPlan.Text.Visible

/-!
# Bin nodes

A bin node holds binnings under their keys. One binning may be exposed under several pairs of output
names: the first pair is computed and the others are copies of it.
-/

namespace ChartPlan.Flow

/-- A label for the range of a bin: the formula and its name. -/
structure RangeLabel where
  expr : String
  output : String
deriving DecidableEq

/-- One binning of one field. -/
structure Binning where
  params : Dict Json
  field : String
  /-- The start and the end of a bin. -/
  output : String × String
  /-- Further names of the start and the end. -/
  copies : List (String × String) := []
  signal : String
  extentSignal : String
  range : Option RangeLabel := none
deriving BEq

namespace Binning

def fresh (params : Dict Json) (field : String) (output : String × String) (stem : String) :
    Binning where
  params := params
  field := field
  output := output
  signal := stem ++ Bin.key params field ++ "_bins"
  extentSignal := stem ++ Bin.key params field ++ "_extent"

def key (b : Binning) : String :=
  Bin.key b.params b.field

def withRange (b : Binning) (output : String) : Binning :=
  let start := datumField b.output.1
  let stop := datumField b.output.2
  let expr := start ++ " === null || isNaN(" ++ start ++ ") ? \"null\" : format(" ++ start ++
    ", \"\") + \" – \" + format(" ++ stop ++ ", \"\")"
  { b with range := some ⟨expr, output⟩ }

def outputs (b : Binning) : List (String × String) :=
  b.output :: b.copies

def expose (b : Binning) (pair : String × String) : Binning :=
  if b.outputs.contains pair then b else { b with copies := b.copies ++ [pair] }

/-- Exposes the names of another binning with the same key, and takes over its label when there is
none. -/
def absorb (b other : Binning) : Binning :=
  let exposed := other.outputs.foldl expose b
  { exposed with range := b.range.or other.range }

def produced (b : Binning) : List String :=
  b.outputs.flatMap (fun pair => [pair.1, pair.2]) ++ (b.range.map RangeLabel.output).toList

def identity (b : Binning) : Json :=
  .object [
    ("bin", .obj b.params),
    ("field", .str b.field),
    ("as", .arr (b.outputs.map fun pair => .texts [pair.1, pair.2])),
    ("signal", .str b.signal),
    ("extent", .str b.extentSignal),
    ("range", .ofOption (b.range.map fun r => .texts [r.expr, r.output]))]

def copyRecord (source target : String) : Json :=
  .object [("type", .str "formula"), ("expr", .str (datumField source)), ("as", .str target)]

/-- The bin transform, before which the extent is computed unless the parameters give it. -/
def binRecords (signals : Renames) (b : Binning) : List Json :=
  let field := Json.str (Path.flatName b.field)
  let extentSignal := Json.str (signals.resolve b.extentSignal)
  let bin := Dict.extend (Dict.ofList [
    ("type", .str "bin"),
    ("field", field),
    ("as", .texts [b.output.1, b.output.2]),
    ("signal", .str (signals.resolve b.signal))]) b.params
  if b.params.has "extent" then [.obj bin]
  else
    [.object [("type", .str "extent"), ("field", field), ("signal", extentSignal)],
      .obj (bin.insert "extent" (.object [("signal", extentSignal)]))]

def records (signals : Renames) (b : Binning) : List Json :=
  b.binRecords signals
    ++ b.copies.flatMap (fun pair =>
      [copyRecord b.output.1 pair.1, copyRecord b.output.2 pair.2])
    ++ (b.range.map fun r =>
      .object [("type", .str "formula"), ("expr", .str r.expr), ("as", .str r.output)]).toList

end Binning

/-- Binnings under their keys. -/
structure Bins where
  bins : Dict Binning := []
deriving BEq

namespace Bins

/-- Adds a binning; one with a key that is there already becomes part of the binning there. -/
def add (node : Bins) (b : Binning) : Bins :=
  match node.bins.get? b.key with
  | some ours => ⟨node.bins.insert b.key (ours.absorb b)⟩
  | none => ⟨node.bins.insert b.key b⟩

/-- Merges an entry of another node: a binning with the same key keeps its signals, and those of the
other one are renamed to them. -/
def mergeEntry (state : Bins × Renames) (entry : String × Binning) : Bins × Renames :=
  let (node, renames) := state
  let (key, theirs) := entry
  match node.bins.get? key with
  | some ours =>
    (⟨node.bins.insert key (ours.absorb theirs)⟩,
      (renames.rename theirs.signal ours.signal).rename theirs.extentSignal ours.extentSignal)
  | none => (⟨node.bins.insert key theirs⟩, renames)

def merge (node other : Bins) (renames : Renames) : Bins × Renames :=
  other.bins.foldl mergeEntry (node, renames)

def deps (node : Bins) : NameSet :=
  NameSet.ofList (node.bins.values.map Binning.field)

def produced (node : Bins) : NameSet :=
  NameSet.ofList (node.bins.values.flatMap Binning.produced)

/-- What the node computes. The signals belong to it, so nodes of different views become one only by
merging, which renames them. -/
def identity (node : Bins) : Json :=
  .obj (node.bins.mapValues Binning.identity)

def records (signals : Renames) (node : Bins) : List Json :=
  node.bins.values.flatMap (Binning.records signals)

def label (node : Bins) : String :=
  "Bin [" ++ ", ".intercalate (node.bins.keys.map Text.visible) ++ "]"

end Bins

end ChartPlan.Flow
