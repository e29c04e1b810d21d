import ChartPlan.Text.Quote
import ChartPlan.Text.Word

/-!
# Field paths

A field is named by an access path: segments divided by dots, or written between brackets. A
backslash takes the next character as it is, so `a\.b` is one segment.

* `Path.segments`: the segments of a path.
* `Path.flatName`: the one-segment path of the same field in flat data.
* `Path.accessor`: the expression that reads a field.
* `fieldsInExpr`: the fields that an expression reads.
-/

namespace ChartPlan

namespace Path

mutual

/-- The segments from here on, when `current` has been read of the next one; `started` tells whether
a segment was completed before. -/
def plainSegments (started : Bool) (current : List Char) : List Char → List (List Char)
  | [] => if current.isEmpty && started then [] else [current]
  | '\\' :: [] => if current.isEmpty && started then [] else [current]
  | '\\' :: c :: rest => plainSegments started (current ++ [c]) rest
  | '.' :: rest => current :: plainSegments true [] rest
  | '[' :: rest =>
    if current.isEmpty then bracketSegment [] rest else current :: bracketSegment [] rest
  | c :: rest => plainSegments started (current ++ [c]) rest

/-- The segments from inside a bracket on: quotes are dropped, and a dot behind the closing bracket
belongs to it. -/
def bracketSegment (current : List Char) : List Char → List (List Char)
  | [] => [current]
  | ']' :: '.' :: rest => current :: plainSegments true [] rest
  | ']' :: rest => current :: plainSegments true [] rest
  | c :: rest =>
    if c == '"' || c == '\'' then bracketSegment current rest
    else bracketSegment (current ++ [c]) rest

end

def segments (path : String) : List String :=
  (plainSegments false [] path.toList).map String.ofList

def isNested (path : String) : Bool :=
  1 < (segments path).length

def escapeDots (segment : List Char) : List Char :=
  segment.flatMap fun c => if c == '.' then ['\\', '.'] else [c]

/-- The path of the same field in flat data: one segment, in which every dot is escaped. -/
def flatName (path : String) : String :=
  "\\.".intercalate ((segments path).map fun s => String.ofList (escapeDots s.toList))

def accessor (path : String) : String :=
  "datum" ++ String.join ((segments path).map fun s => "[" ++ Text.quote s ++ "]")

def unescape (field : String) : String :=
  String.ofList (Text.replaceAll ['\\', '.'] ['.'] field.toList)

end Path

def datumField (name : String) : String :=
  "datum[" ++ Text.quote name ++ "]"

def isNameChar (c : Char) : Bool :=
  c.isAlphanum || c == '_'

/-- The characters of a name: those not allowed become underscores, and a leading digit is preceded
by one. -/
def nameChars (text : List Char) : List Char :=
  let out := text.map fun c => if isNameChar c then c else '_'
  match out with
  | c :: _ => if c.isDigit then '_' :: out else out
  | [] => []

def nameOf (text : String) : String :=
  String.ofList (nameChars text.toList)

def beginsField (c : Char) : Bool :=
  c.isAlpha || c == '_' || c == '$'

def dotField? (text : List Char) : Option (List Char) :=
  match text with
  | c :: rest =>
    if beginsField c then some (c :: rest.takeWhile fun c => Text.isWord c || c == '$') else none
  | [] => none

def isQuoteMark (c : Char) : Bool :=
  c == '"' || c == '\''

/-- The field that is read by a quoted name between brackets, of a text behind `datum[`, and what
follows the bracket. -/
def bracketField? (text : List Char) : Option (List Char × List Char) :=
  match text.dropWhile Text.isBlank with
  | [] => none
  | q :: inner =>
    if isQuoteMark q then
      match inner.dropWhile fun c => !isQuoteMark c with
      | [] => none
      | _ :: behind =>
        match behind.dropWhile Text.isBlank with
        | ']' :: rest => some (inner.takeWhile fun c => !isQuoteMark c, rest)
        | _ => none
    else none

/-- The field that a reference at the front of a text reads, and the length of the reference. -/
def fieldAt? (text : List Char) : Option (List Char × Nat) :=
  if "datum.".toList.isPrefixOf text then
    (dotField? (text.drop 6)).map fun name => (name, 6 + name.length)
  else if "datum[".toList.isPrefixOf text then
    (bracketField? (text.drop 6)).map fun (name, rest) => (name, text.length - rest.length)
  else none

/-- The references in a text from left to right, without overlap; the next `skip` characters belong
to a reference that was met before. -/
def fieldsFrom : Nat → List Char → List (List Char)
  | _, [] => []
  | skip + 1, _ :: rest => fieldsFrom skip rest
  | 0, c :: rest =>
    match fieldAt? (c :: rest) with
    | some (name, length) => name :: fieldsFrom (length - 1) rest
    | none => fieldsFrom 0 rest

def fieldsInExpr (expr : String) : List String :=
  (fieldsFrom 0 expr.toList).map String.ofList

end ChartPlan
