import ChartPlan.Dict
import ChartPlan.Number.Binary64

/-!
# JSON values

A number is an integer of at most 64 bits or a binary64 number, and the two kinds are never equal.
The fields of an object are a dictionary, so their order carries no information.

* `Json.object`: an object of fields given in any order.
* `Json.field?`: the value of a field, none for values that are no objects.
-/

namespace ChartPlan

/-- A JSON number: an integer, or a binary64 number when written with a fraction or an exponent. -/
inductive Number where
  | int (i : Int)
  | real (x : Binary64)
deriving DecidableEq

namespace Number

/-- Integers and binary64 numbers differ, and the two zeros of binary64 are equal. -/
instance : BEq Number where
  beq
    | .int i, .int j => i == j
    | .real x, .real y => x == y
    | _, _ => false

def toReal : Number → Binary64
  | .int i => Binary64.ofInt i
  | .real x => x

end Number

/-- A JSON value. The fields of an object are listed as a `Dict`. -/
inductive Json where
  | null
  | bool (b : Bool)
  | num (n : Number)
  | str (s : String)
  | arr (items : List Json)
  | obj (fields : List (String × Json))
deriving Inhabited

namespace Json

mutual

def beq : Json → Json → Bool
  | .null, .null => true
  | .bool a, .bool b => a == b
  | .num a, .num b => a == b
  | .str a, .str b => a == b
  | .arr as, .arr bs => beqItems as bs
  | .obj as, .obj bs => beqFields as bs
  | _, _ => false

def beqItems : List Json → List Json → Bool
  | [], [] => true
  | a :: as, b :: bs => beq a b && beqItems as bs
  | _, _ => false

def beqFields : List (String × Json) → List (String × Json) → Bool
  | [], [] => true
  | (j, a) :: as, (k, b) :: bs => j == k && beq a b && beqFields as bs
  | _, _ => false

end

instance : BEq Json := ⟨beq⟩

def object (fields : List (String × Json)) : Json :=
  .obj (Dict.ofList fields)

def texts (items : List String) : Json :=
  .arr (items.map .str)

def nat (n : Nat) : Json :=
  .num (.int n)

def real (x : Binary64) : Json :=
  .num (.real x)

def ofOption : Option Json → Json
  | some v => v
  | none => .null

def ofText? (text : Option String) : Json :=
  ofOption (text.map .str)

def textFields (d : Dict String) : Json :=
  .obj (d.mapValues .str)

def isNull : Json → Bool
  | .null => true
  | _ => false

def text? : Json → Option String
  | .str s => some s
  | _ => none

def bool? : Json → Option Bool
  | .bool b => some b
  | _ => none

def items? : Json → Option (List Json)
  | .arr items => some items
  | _ => none

def fields? : Json → Option (Dict Json)
  | .obj fields => some fields
  | _ => none

def real? : Json → Option Binary64
  | .num n => some n.toReal
  | _ => none

def int? : Json → Option Int
  | .num (.int i) => if i < Nat.pow 2 63 then some i else none
  | _ => none

def nat? : Json → Option Nat
  | .num (.int i) => if 0 ≤ i then some i.toNat else none
  | _ => none

def field? (v : Json) (key : String) : Option Json :=
  v.fields?.bind fun fields => fields.get? key

def textField? (v : Json) (key : String) : Option String :=
  (v.field? key).bind text?

def textItems (v : Json) : List String :=
  (v.items?.getD []).filterMap text?

def withField (v : Json) (key : String) (value : Json) : Json :=
  match v with
  | .obj fields => .obj (Dict.insert fields key value)
  | other => other

def withField? (v : Json) (key : String) (value : Option Json) : Json :=
  match value with
  | some value => v.withField key value
  | none => v

mutual

def depth : Json → Nat
  | .arr items => depthItems items + 1
  | .obj fields => depthFields fields + 1
  | _ => 0

def depthItems : List Json → Nat
  | [] => 0
  | v :: rest => max (depth v) (depthItems rest)

def depthFields : List (String × Json) → Nat
  | [] => 0
  | (_, v) :: rest => max (depth v) (depthFields rest)

end

end Json

end ChartPlan
