import ChartPlan.Number.Binary64

/-!
# Shortest decimals

The text of a number has the fewest decimal digits that read back as that number. All reals in an
interval around a binary64 number round to it; its ends belong to it when the mantissa is even. For
one, two, up to seventeen digits the two neighbours of the number on that decimal grid are tried,
and the first one inside the interval is taken, the nearer of two.

* `Binary64.shortest`: digits and power of ten of the shortest decimal.
* `Binary64.toText`: the written form.
-/

namespace ChartPlan

/-- The decimal `digits * 10 ^ exponent`. -/
structure Decimal where
  digits : Nat
  exponent : Int
deriving DecidableEq

namespace Decimal

def trim : Nat → Decimal → Decimal
  | 0, d => d
  | fuel + 1, d =>
    if d.digits % 10 = 0 && d.digits != 0 then trim fuel ⟨d.digits / 10, d.exponent + 1⟩ else d

end Decimal

namespace Binary64

/-- The least `k`, at most `start + fuel`, for which `num * 10 ^ k` reaches `den`. -/
def leadingPlace (num den : Nat) : Nat → Nat → Nat
  | 0, start => start
  | fuel + 1, start => if den ≤ num * Nat.pow 10 start then start else leadingPlace num den fuel (start + 1)

def decade (num den : Nat) : Int :=
  if den ≤ num then ((Nat.toDigits 10 (num / den)).length : Int) - 1
  else -(leadingPlace num den 400 1 : Int)

/-- The interval of reals that round to a number, in quarters of its last place. -/
structure Interval where
  low : Nat
  mid : Nat
  high : Nat
  closed : Bool

/-- The rounding interval of a positive number. Below a power of two the numbers lie closer. -/
def interval (x : Binary64) : Interval where
  low := 4 * x.mantissa - (if x.mantissa = Nat.pow 2 52 && x.exponent != -1074 then 1 else 2)
  mid := 4 * x.mantissa
  high := 4 * x.mantissa + 2
  closed := x.mantissa % 2 = 0

/-- Whether `candidate` units lie in the interval, when `scaleNum` quarters make `scaleDen` units. -/
def Interval.holds (i : Interval) (scaleNum scaleDen candidate : Nat) : Bool :=
  let c := candidate * scaleDen
  if i.closed then i.low * scaleNum ≤ c && c ≤ i.high * scaleNum
  else i.low * scaleNum < c && c < i.high * scaleNum

/-- The decimal nearest to `x` on the grid of `10 ^ place`, when it reads back as `x`. -/
def onGrid? (x : Binary64) (place : Int) : Option Decimal :=
  let i := x.interval
  let quarter := x.exponent - 2
  let scaleNum := Nat.pow 2 quarter.toNat * Nat.pow 10 (-place).toNat
  let scaleDen := Nat.pow 2 (-quarter).toNat * Nat.pow 10 place.toNat
  let below := i.mid * scaleNum / scaleDen
  let rest := i.mid * scaleNum % scaleDen
  let above := below + 1
  match i.holds scaleNum scaleDen below, i.holds scaleNum scaleDen above with
  | true, true =>
    let down := 2 * rest < scaleDen || (2 * rest = scaleDen && below % 2 = 0)
    some ⟨if down then below else above, place⟩
  | true, false => some ⟨below, place⟩
  | false, true => some ⟨above, place⟩
  | false, false => none

def shortestFrom (x : Binary64) (top : Int) : Nat → Nat → Decimal
  | 0, count => ⟨0, top + 1 - count⟩
  | fuel + 1, count =>
    match x.onGrid? (top + 1 - count) with
    | some d => d
    | none => shortestFrom x top fuel (count + 1)

/-- The shortest decimal that reads back as a positive number, without trailing zeros. -/
def shortest (x : Binary64) : Decimal :=
  let (num, den) := x.toRatio
  (shortestFrom x (decade num den) 18 1).trim 20

/-- The written form of a number. From `10 ^ -5` up to `10 ^ 16` the decimal point is written in its
place, with at least one digit on either side of it; beyond, one digit stands before the point and a
signed power of ten follows. -/
def toText (x : Binary64) : String :=
  let sign := if x.negative then "-" else ""
  if x.isZero then sign ++ "0.0"
  else
    let d := x.shortest
    let ds := Nat.toDigits 10 d.digits
    let top := d.exponent + ds.length - 1
    let body :=
      if -5 ≤ top && top ≤ 15 then
        if 0 ≤ d.exponent then ds ++ List.replicate d.exponent.toNat '0' ++ ['.', '0']
        else if 0 ≤ top then
          ds.take (top.toNat + 1) ++ ['.'] ++ ds.drop (top.toNat + 1)
        else ['0', '.'] ++ List.replicate (-top - 1).toNat '0' ++ ds
      else
        let fraction := if ds.length ≤ 1 then [] else '.' :: ds.drop 1
        let mark := if 0 ≤ top then ['e', '+'] else ['e', '-']
        ds.take 1 ++ fraction ++ mark ++ Nat.toDigits 10 top.natAbs
    sign ++ String.ofList body

end Binary64

end ChartPlan
