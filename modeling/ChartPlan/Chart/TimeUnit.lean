import ChartPlan.Json.Basic

/-!
# Time units

A time unit such as `yearmonth` is a sequence of parts, read from the left by the longest part that
fits. `TimeUnit.truncation` is the expression that cuts a date to a unit.
-/

namespace ChartPlan

/-- A part of a time unit. -/
inductive TimePart where
  | year
  | quarter
  | month
  | week
  | day
  | dayOfYear
  | date
  | hours
  | minutes
  | seconds
  | milliseconds
deriving DecidableEq

namespace TimePart

def all : List TimePart :=
  [.year, .quarter, .month, .week, .day, .dayOfYear, .date, .hours, .minutes, .seconds, .milliseconds]

def name : TimePart → String
  | .year => "year"
  | .quarter => "quarter"
  | .month => "month"
  | .week => "week"
  | .day => "day"
  | .dayOfYear => "dayofyear"
  | .date => "date"
  | .hours => "hours"
  | .minutes => "minutes"
  | .seconds => "seconds"
  | .milliseconds => "milliseconds"

def longer (best : Option TimePart) (part : TimePart) : Option TimePart :=
  match best with
  | none => some part
  | some b => if b.name.length ≤ part.name.length then some part else some b

def atFront? (text : List Char) : Option TimePart :=
  (all.filter fun part => part.name.toList.isPrefixOf text).foldl longer none

/-- The parts of a text from left to right up to the first place where none fits; the next `skip`
characters belong to a part that was met before. -/
def readFrom : Nat → List Char → List TimePart
  | _, [] => []
  | skip + 1, _ :: rest => readFrom skip rest
  | 0, c :: rest =>
    match atFront? (c :: rest) with
    | some part => part :: readFrom (part.name.length - 1) rest
    | none => []

end TimePart

/-- A time unit, in local time or in UTC. -/
structure TimeUnit where
  /-- The name without the `utc` mark. -/
  unit : String
  utc : Bool
deriving DecidableEq

namespace TimeUnit

def ofName (name : String) : TimeUnit :=
  if "utc".toList.isPrefixOf name.toList then ⟨String.ofList (name.toList.drop 3), true⟩
  else ⟨name, false⟩

mutual

/-- Reads a `timeUnit` property: a name, or an object with a `unit` and a `utc` mark. -/
def ofJson? : Json → Option TimeUnit
  | .str name => some (ofName name)
  | .obj fields =>
    (ofFields? fields).map fun u =>
      if Dict.get? fields "utc" == some (.bool true) then { u with utc := true } else u
  | _ => none

def ofFields? : List (String × Json) → Option TimeUnit
  | [] => none
  | (key, v) :: rest => if key = "unit" then ofJson? v else ofFields? rest

end

def fullName (u : TimeUnit) : String :=
  if u.utc then "utc" ++ u.unit else u.unit

def parts (u : TimeUnit) : List TimePart :=
  TimePart.readFrom 0 u.unit.toList

/-- The expression that reads a part of a date when the unit has the part, and else a constant. -/
def readPart (u : TimeUnit) (date : String) (part : TimePart) (otherwise : String) : String :=
  if u.parts.contains part then
    (if u.utc then "utc" else "") ++ part.name ++ "(" ++ date ++ ")"
  else otherwise

/-- The expression for the month of a date, taken from its quarter when the unit has no months. -/
def readMonth (u : TimeUnit) (date : String) : String :=
  if u.parts.contains .quarter && !u.parts.contains .month then
    "3*" ++ u.readPart date .quarter "0"
  else u.readPart date .month "0"

def truncation (u : TimeUnit) (date : String) : String :=
  (if u.utc then "utc" else "datetime") ++ "(" ++ ", ".intercalate [
    u.readPart date .year "2012",
    u.readMonth date,
    u.readPart date .date "1",
    u.readPart date .hours "0",
    u.readPart date .minutes "0",
    u.readPart date .seconds "0",
    u.readPart date .milliseconds "0"] ++ ")"

end TimeUnit

end ChartPlan
