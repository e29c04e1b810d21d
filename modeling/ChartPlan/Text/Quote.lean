/-!
# Quoted text and substrings

`quote` writes a text as a string literal of JSON, which the expression language reads as well.
`replaceAll` and `splitAt` work from left to right on occurrences that do not overlap. `lines` cuts a
text at its line ends.
-/

namespace ChartPlan.Text

def hexDigit (n : Nat) : Char :=
  Nat.digitChar (n % 16)

/-- One character of a quoted text: quote, backslash and controls are escaped, all else stands for
itself. -/
def quoteChar (c : Char) : List Char :=
  match c with
  | '"' => ['\\', '"']
  | '\\' => ['\\', '\\']
  | '\n' => ['\\', 'n']
  | '\r' => ['\\', 'r']
  | '\t' => ['\\', 't']
  | _ =>
    if c.toNat = 8 then ['\\', 'b']
    else if c.toNat = 12 then ['\\', 'f']
    else if c.toNat < 0x20 then ['\\', 'u', '0', '0', hexDigit (c.toNat / 16), hexDigit c.toNat]
    else [c]

def quote (text : String) : String :=
  String.ofList (['"'] ++ text.toList.flatMap quoteChar ++ ['"'])

/-- Replaces the occurrences of `old`, skipping the next `skip` characters, which belong to an
occurrence that was replaced before. -/
def replaceFrom (old new : List Char) : Nat → List Char → List Char
  | _, [] => []
  | skip + 1, _ :: rest => replaceFrom old new skip rest
  | 0, c :: rest =>
    if old.isPrefixOf (c :: rest) then new ++ replaceFrom old new (old.length - 1) rest
    else c :: replaceFrom old new 0 rest

/-- Replaces every occurrence of `old` by `new`, from left to right. The empty text occurs before
every character and at the end. -/
def replaceAll (old new text : List Char) : List Char :=
  if old.isEmpty then new ++ text.flatMap (fun c => c :: new)
  else replaceFrom old new 0 text

def occursIn (part : List Char) : List Char → Bool
  | [] => part.isEmpty
  | c :: rest => part.isPrefixOf (c :: rest) || occursIn part rest

/-- The pieces of a text between occurrences of a separator, when `piece` has been read of the
current one and `skip` characters belong to a separator that was met before. -/
def splitFrom (sep : List Char) : Nat → List Char → List Char → List (List Char)
  | _, piece, [] => [piece]
  | skip + 1, piece, _ :: rest => splitFrom sep skip piece rest
  | 0, piece, c :: rest =>
    if sep.isPrefixOf (c :: rest) then piece :: splitFrom sep (sep.length - 1) [] rest
    else splitFrom sep 0 (piece ++ [c]) rest

def splitAt (sep text : List Char) : List (List Char) :=
  splitFrom sep 0 [] text

def dropReturn (line : List Char) : List Char :=
  if line.getLast? == some '\r' then line.dropLast else line

/-- The lines of a text, each ended by a line feed or by a carriage return and a line feed; the end
of the text counts as a line feed. -/
def lines (text : String) : List String :=
  (splitAt ['\n'] text.toList).map fun line => String.ofList (dropReturn line)

end ChartPlan.Text
