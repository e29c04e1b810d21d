import ChartPlan.Json.Basic

/-!
# Reading JSON

`Json.parse?` reads one value with blanks around it. Of two fields of one name the later wins. A
number with a fraction or an exponent, one beyond 64 bits, and `-0` are read as binary64 numbers.
-/

namespace ChartPlan.Json.Parser

def skipBlanks (text : List Char) : List Char :=
  text.dropWhile fun c => c == ' ' || c == '\n' || c == '\r' || c == '\t'

def digit (c : Char) : Nat :=
  c.toNat - '0'.toNat

/-- Digits read so far, as many as 64 bits hold, and the power of ten that scales them. -/
structure Reading where
  significand : Nat
  exponent : Int
  full : Bool

def Reading.overflows (r : Reading) (c : Char) : Bool :=
  Nat.pow 2 64 ≤ r.significand * 10 + digit c

/-- Reads a digit before the point; one that does not fit counts as a power of ten. -/
def Reading.whole (r : Reading) (c : Char) : Reading :=
  if r.full || r.overflows c then { r with exponent := r.exponent + 1, full := true }
  else { r with significand := r.significand * 10 + digit c }

/-- Reads a digit behind the point; one that does not fit is dropped with all that follow. -/
def Reading.part (r : Reading) (c : Char) : Reading :=
  if r.full || r.overflows c then { r with full := true }
  else { r with significand := r.significand * 10 + digit c, exponent := r.exponent - 1 }

def digits? (text : List Char) : Option (List Char × List Char) :=
  match text.takeWhile Char.isDigit with
  | [] => none
  | ds => some (ds, text.dropWhile Char.isDigit)

def natural (ds : List Char) : Nat :=
  ds.foldl (fun n c => n * 10 + digit c) 0

def exponent? (text : List Char) : Option (Option Int × List Char) :=
  match text with
  | 'e' :: rest | 'E' :: rest =>
    match rest with
    | '-' :: more => (digits? more).map fun (ds, rest) => (some (-(natural ds : Int)), rest)
    | '+' :: more => (digits? more).map fun (ds, rest) => (some (natural ds : Int), rest)
    | more => (digits? more).map fun (ds, rest) => (some (natural ds : Int), rest)
  | _ => some (none, text)

def fraction? (text : List Char) : Option (Option (List Char) × List Char) :=
  match text with
  | '.' :: rest => (digits? rest).map fun (ds, rest) => (some ds, rest)
  | _ => some (none, text)

def integer? (negative : Bool) (n : Nat) : Option Int :=
  if negative then
    if 0 < n && n ≤ Nat.pow 2 63 then some (-(n : Int)) else none
  else if n < Nat.pow 2 64 then some n
  else none

def unsigned? (negative : Bool) (text : List Char) : Option (Json × List Char) := do
  let (whole, rest) ← digits? text
  if whole.length > 1 && whole.head? == some '0' then none
  else
    let (frac, rest) ← fraction? rest
    let (power, rest) ← exponent? rest
    match frac, power, integer? negative (natural whole) with
    | none, none, some i => some (.num (.int i), rest)
    | _, _, _ =>
      let read := whole.foldl Reading.whole ⟨0, 0, false⟩
      let read := (frac.getD []).foldl Reading.part { read with full := false }
      let x ← Binary64.ofDecimal negative read.significand (read.exponent + power.getD 0)
      some (.num (.real x), rest)

def hex? (c : Char) : Option Nat :=
  if c.isDigit then some (digit c)
  else if 'a' ≤ c && c ≤ 'f' then some (c.toNat - 'a'.toNat + 10)
  else if 'A' ≤ c && c ≤ 'F' then some (c.toNat - 'A'.toNat + 10)
  else none

def unit? (text : List Char) : Option (Nat × List Char) :=
  match text with
  | a :: b :: c :: d :: rest => do
    let a ← hex? a
    let b ← hex? b
    let c ← hex? c
    let d ← hex? d
    some (((a * 16 + b) * 16 + c) * 16 + d, rest)
  | _ => none

/-- The character of an escape by code units: one unit, or a high and a low surrogate. -/
def escaped? (text : List Char) : Option (Char × List Char) := do
  let (high, rest) ← unit? text
  if 0xD800 ≤ high && high < 0xDC00 then
    match rest with
    | '\\' :: 'u' :: more =>
      let (low, rest) ← unit? more
      if 0xDC00 ≤ low && low < 0xE000 then
        some (Char.ofNat (0x10000 + (high - 0xD800) * 0x400 + (low - 0xDC00)), rest)
      else none
    | _ => none
  else if 0xDC00 ≤ high && high < 0xE000 then none
  else some (Char.ofNat high, rest)

/-- The characters of a string literal behind its opening quote, and the rest; `read` holds the ones
read so far, last first, and no more than `fuel` characters are read. -/
def chars? : Nat → List Char → List Char → Option (List Char × List Char)
  | 0, _, _ => none
  | fuel + 1, read, text =>
    match text with
    | '"' :: rest => some (read.reverse, rest)
    | '\\' :: 'u' :: rest => do
      let (c, rest) ← escaped? rest
      chars? fuel (c :: read) rest
    | '\\' :: c :: rest =>
      let plain : Option Char :=
        match c with
        | '"' => some '"'
        | '\\' => some '\\'
        | '/' => some '/'
        | 'b' => some (Char.ofNat 8)
        | 'f' => some (Char.ofNat 12)
        | 'n' => some '\n'
        | 'r' => some '\r'
        | 't' => some '\t'
        | _ => none
      plain.bind fun c => chars? fuel (c :: read) rest
    | c :: rest => if c.toNat < 0x20 || c == '\\' then none else chars? fuel (c :: read) rest
    | [] => none

/-- The string literal behind its opening quote, and the rest, of no more than `fuel` characters. -/
def string? (fuel : Nat) (text : List Char) : Option (String × List Char) :=
  (chars? fuel [] text).map fun (cs, rest) => (String.ofList cs, rest)

mutual

/-- The value at the front of a text, behind blanks, and the rest. Two calls read a character at
least, so fuel of twice the length of the text lasts to its end, and for every string in it. -/
def value? : Nat → List Char → Option (Json × List Char)
  | 0, _ => none
  | fuel + 1, text =>
    match skipBlanks text with
    | '[' :: rest =>
      match skipBlanks rest with
      | ']' :: rest => some (.arr [], rest)
      | _ => items? fuel [] rest
    | '\x7b' :: rest =>
      match skipBlanks rest with
      | '\x7d' :: rest => some (.obj [], rest)
      | _ => fields? fuel [] rest
    | '"' :: rest => (string? fuel rest).map fun (s, rest) => (.str s, rest)
    | 'n' :: 'u' :: 'l' :: 'l' :: rest => some (.null, rest)
    | 't' :: 'r' :: 'u' :: 'e' :: rest => some (.bool true, rest)
    | 'f' :: 'a' :: 'l' :: 's' :: 'e' :: rest => some (.bool false, rest)
    | '-' :: rest => unsigned? true rest
    | rest => unsigned? false rest

/-- The remaining items of an array, whose earlier ones are `read`, last first. -/
def items? : Nat → List Json → List Char → Option (Json × List Char)
  | 0, _, _ => none
  | fuel + 1, read, text =>
    match value? fuel text with
    | none => none
    | some (v, rest) =>
      match skipBlanks rest with
      | ',' :: rest => items? fuel (v :: read) rest
      | ']' :: rest => some (.arr (v :: read).reverse, rest)
      | _ => none

def fields? : Nat → Dict Json → List Char → Option (Json × List Char)
  | 0, _, _ => none
  | fuel + 1, read, text =>
    match skipBlanks text with
    | '"' :: rest =>
      match string? fuel rest with
      | none => none
      | some (key, rest) =>
        match skipBlanks rest with
        | ':' :: rest =>
          match value? fuel rest with
          | none => none
          | some (v, rest) =>
            match skipBlanks rest with
            | ',' :: rest => fields? fuel (read.insert key v) rest
            | '\x7d' :: rest => some (.obj (read.insert key v), rest)
            | _ => none
        | _ => none
    | _ => none

end

end ChartPlan.Json.Parser

namespace ChartPlan.Json

def parse? (text : String) : Option Json :=
  let cs := text.toList
  match Parser.value? (2 * cs.length + 2) cs with
  | some (v, rest) => if (Parser.skipBlanks rest).isEmpty then some v else none
  | none => none

end ChartPlan.Json
