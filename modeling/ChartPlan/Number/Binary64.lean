/-!
# Finite binary64 numbers

A finite double-precision number is a sign, a mantissa below `2^53` and a power of two. Rounding
takes an exact ratio to the nearest such number, a half going to the even mantissa, so reading a
decimal needs exact arithmetic on natural numbers only.

* `Binary64.ofRatio`: the number nearest to a ratio, none when it is too large.
* `Binary64.ofDecimal`: the number read from decimal digits and a power of ten.
-/

namespace ChartPlan

/-- The finite number `± mantissa * 2 ^ exponent`. -/
structure Binary64 where
  /-- Whether the sign is minus; zero has both signs. -/
  negative : Bool
  /-- Significant bits, below `2 ^ 53`. -/
  mantissa : Nat
  /-- Power of two, between `-1074` and `971`. -/
  exponent : Int
deriving DecidableEq

namespace Binary64

def zero (negative : Bool) : Binary64 :=
  ⟨negative, 0, -1074⟩

def isZero (x : Binary64) : Bool :=
  x.mantissa == 0

instance : BEq Binary64 where
  beq x y := (x.isZero && y.isZero) || decide (x = y)

def toRatio (x : Binary64) : Nat × Nat :=
  if 0 ≤ x.exponent then (x.mantissa * Nat.pow 2 x.exponent.toNat, 1)
  else (x.mantissa, Nat.pow 2 (-x.exponent).toNat)

def inUnits (num den : Nat) (exponent : Int) : Nat × Nat :=
  if 0 ≤ exponent then (num, den * Nat.pow 2 exponent.toNat)
  else (num * Nat.pow 2 (-exponent).toNat, den)

def nearestEven (num den : Nat) : Nat :=
  let q := num / den
  let r := num % den
  if den < 2 * r then q + 1
  else if 2 * r = den then q + q % 2
  else q

/-- The power of two at which a positive ratio has 53 significant bits, or the least power. -/
def scale (num den : Nat) : Int :=
  let guess := max ((num.log2 : Int) - (den.log2 : Int) - 53) (-1074)
  let (n, d) := inUnits num den guess
  if Nat.pow 2 53 ≤ n / d then guess + 1 else guess

/-- The number nearest to `± num / den`, a half going to the even mantissa; none when the result
exceeds every finite number. -/
def ofRatio (negative : Bool) (num den : Nat) : Option Binary64 :=
  if num = 0 then some (zero negative)
  else
    let e := scale num den
    let (n, d) := inUnits num den e
    let m := nearestEven n d
    let (m, e) := if m = Nat.pow 2 53 then (Nat.pow 2 52, e + 1) else (m, e)
    if 971 < e then none else some ⟨negative, m, e⟩

def ofInt (i : Int) : Binary64 :=
  (ofRatio (i < 0) i.natAbs 1).getD (zero false)

def mulPowerOfTen (x : Binary64) (k : Nat) : Option Binary64 := do
  let p ← ofRatio false (Nat.pow 10 k) 1
  let (n, d) := x.toRatio
  let (pn, pd) := p.toRatio
  ofRatio x.negative (n * pn) (d * pd)

def divPowerOfTen (x : Binary64) (k : Nat) : Option Binary64 := do
  let p ← ofRatio false (Nat.pow 10 k) 1
  let (n, d) := x.toRatio
  let (pn, pd) := p.toRatio
  ofRatio x.negative (n * pd) (d * pn)

/-- Moves the decimal point of `x` by `exponent` places. Powers of ten beyond `10 ^ 308` are not
finite numbers, so a far negative exponent is divided out in steps of 308 places, at most `steps` of
them; a number that has reached zero stays there, and one that leaves the finite range is refused. -/
def shiftDecimalSteps : Nat → Binary64 → Int → Option Binary64
  | steps, x, exponent =>
    if exponent.natAbs ≤ 308 then
      if 0 ≤ exponent then x.mulPowerOfTen exponent.toNat
      else x.divPowerOfTen exponent.natAbs
    else if x.isZero then some x
    else if 0 ≤ exponent then none
    else
      match steps with
      | 0 => none
      | steps + 1 =>
        match x.divPowerOfTen 308 with
        | none => none
        | some y => shiftDecimalSteps steps y (exponent + 308)

def shiftDecimal (x : Binary64) (exponent : Int) : Option Binary64 :=
  shiftDecimalSteps (exponent.natAbs / 308) x exponent

/-- The number written as `significand * 10 ^ exponent`: the significand is rounded first and the
decimal point is moved afterwards, so long digit strings may end one place off the nearest number. -/
def ofDecimal (negative : Bool) (significand : Nat) (exponent : Int) : Option Binary64 := do
  let x ← ofRatio negative significand 1
  x.shiftDecimal exponent

def lt (x y : Binary64) : Bool :=
  let (xn, xd) := x.toRatio
  let (yn, yd) := y.toRatio
  if x.isZero && y.isZero then false
  else
    match x.negative, y.negative with
    | false, false => decide (xn * yd < yn * xd)
    | true, true => decide (yn * xd < xn * yd)
    | true, false => true
    | false, true => false

def nearest (num den : Nat) : Binary64 :=
  (ofRatio false num den).getD (zero false)

def tau : Binary64 :=
  ⟨false, 7074237752028440, -50⟩

end Binary64

end ChartPlan
