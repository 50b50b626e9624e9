import ScriptEngine.Number.Double

/-!
# Shortest decimal text of a number

A number is written with the fewest decimal digits that read back as the same number, and among
those with the digits nearest to it.

## Main definitions

* `ScriptEngine.Neighbourhood`: the interval of the reals that are rounded to one number;
* `ScriptEngine.Double.shortest`: the shortest decimal that reads back as a given number;
* `ScriptEngine.Double.inspect`: the text of a number as source, which keeps a decimal point and
  turns to powers of ten for large and small numbers;
* `ScriptEngine.Double.positional`: the text of a number without powers of ten.
-/

namespace ScriptEngine

/-- The decimal number `digits · 10 ^ exponent`. -/
structure Decimal where
  digits : Nat
  exponent : Int
deriving DecidableEq, Repr

/-- The reals that are rounded to one number, as an interval on a common scale: the number is
`mid / scale`, and the interval runs from `low / scale` to `high / scale`, with its ends if
`closed`. -/
structure Neighbourhood where
  low : Nat
  mid : Nat
  high : Nat
  scale : Nat
  closed : Bool

namespace Neighbourhood

/-- The neighbourhood of `m · 2 ^ q`. It reaches half way to the next numbers, and only half as far
below the first significand of an exponent. Its ends belong to it if `m` is even. -/
def ofBinary (m : Nat) (q : Int) : Neighbourhood :=
  let unit := Nat.pow 2 (q - 2).toNat
  let below := if m = Double.hiddenBit ∧ -1074 < q then 1 else 2
  ⟨(4 * m - below) * unit, 4 * m * unit, (4 * m + 2) * unit, Nat.pow 2 (2 - q).toNat,
    m % 2 = 0⟩

/-- The neighbourhood on the scale where the multiples of `10 ^ k` are the integers. -/
def onGrid (r : Neighbourhood) (k : Int) : Neighbourhood :=
  let finer := Nat.pow 10 (-k).toNat
  ⟨r.low * finer, r.mid * finer, r.high * finer, r.scale * Nat.pow 10 k.toNat, r.closed⟩

/-- Whether an integer lies in the neighbourhood. -/
def contains (r : Neighbourhood) (d : Nat) : Bool :=
  let x := d * r.scale
  if r.closed then decide (r.low ≤ x) && decide (x ≤ r.high)
  else decide (r.low < x) && decide (x < r.high)

/-- The integer of the neighbourhood that is nearest to its number, the larger one of two that are
equally near. Only the two integers beside the number can be it. -/
def nearest? (r : Neighbourhood) : Option Nat :=
  let d := r.mid / r.scale
  match r.contains d, r.contains (d + 1) with
  | true, true => some (if 2 * (r.mid - d * r.scale) < r.scale then d else d + 1)
  | true, false => some d
  | false, true => some (d + 1)
  | false, false => none

/-- Whether the number is less than `10 ^ p`. -/
def isBelow (r : Neighbourhood) (p : Int) : Bool :=
  decide (r.mid * Nat.pow 10 (-p).toNat < r.scale * Nat.pow 10 p.toNat)

/-- The place of the first digit: the least `p` at which the number is below `10 ^ p`. It is found
next to the estimate that the binary length gives. -/
def firstPlace (r : Neighbourhood) : Int :=
  -- 30103 / 100000 is just above the logarithm of 2
  let bits : Int := (r.mid.log2 : Int) - r.scale.log2
  let guess := Int.fdiv (bits * 30103) 100000 - 1
  if r.isBelow guess then guess
  else if r.isBelow (guess + 1) then guess + 1
  else if r.isBelow (guess + 2) then guess + 2
  else guess + 3

/-- The shortest decimal of the neighbourhood that has more than `n` digits and at most
`n + fuel`, where `place` is that of the first digit. -/
def shortestFrom (r : Neighbourhood) (place : Int) : Nat → Nat → Decimal
  | n, 0 => ⟨(r.onGrid (place - n)).mid / (r.onGrid (place - n)).scale, place - n⟩
  | n, fuel + 1 =>
    -- the grid on which a number of this size has `n + 1` digits
    let k := place - (n + 1 : Nat)
    match (r.onGrid k).nearest? with
    | some d => ⟨d, k⟩
    | none => shortestFrom r place (n + 1) fuel

end Neighbourhood

namespace Double

/-- **The shortest decimal** that reads back as the magnitude of a finite number other than zero.
Seventeen digits always suffice. -/
def shortest (a : Double) : Decimal :=
  let r := Neighbourhood.ofBinary a.significand a.exponent
  r.shortestFrom r.firstPlace 0 17

/-- The significant digits of a decimal, without zeros at the end, and the power of ten of the
first one. -/
def scientific (d : Decimal) : List Char × Int :=
  let digits := Nat.toDigits 10 d.digits
  (digits.reverse.dropWhile (· = '0')).reverse |> fun ds => (ds, d.exponent + digits.length - 1)

def zeros (n : Nat) : List Char :=
  List.replicate n '0'

/-- The text of digits whose first one counts `10 ^ e`, without powers of ten. Digits behind the
point are preceded by it, and an integer ends with `integral`. -/
def layoutPositional (ds : List Char) (e : Int) (integral : String) : String :=
  if e < 0 then "0." ++ String.ofList (zeros (-e - 1).toNat ++ ds)
  else
    let places := e.toNat + 1
    if ds.length ≤ places then String.ofList (ds ++ zeros (places - ds.length)) ++ integral
    else String.ofList (ds.take places) ++ "." ++ String.ofList (ds.drop places)

/-- The text of digits whose first one counts `10 ^ e`, with a power of ten. -/
def layoutExponent (ds : List Char) (e : Int) : String :=
  let fraction := ds.drop 1
  String.ofList (ds.take 1) ++ (if fraction.isEmpty then "" else "." ++ String.ofList fraction)
    ++ "e" ++ toString e

/-- A number as text, from the layouts of zero and of digits. -/
def layout (a : Double) (zero : String) (finite : List Char → Int → String) : String :=
  if a.isNaN then "NaN"
  else
    let sign := if a.isNegative then "-" else ""
    if a.isInfinite then sign ++ "inf"
    else if a.isZero then sign ++ zero
    else
      let (ds, e) := scientific a.shortest
      sign ++ finite ds e

/-- **A number as source.** The digits are laid out with a power of ten below `10 ^ -4` and from
`10 ^ 16` on, and otherwise with a decimal point, which an integer keeps. -/
def inspect (a : Double) : String :=
  a.layout "0.0" fun ds e =>
    if e < -4 ∨ 16 ≤ e then layoutExponent ds e else layoutPositional ds e ".0"

/-- **A number without powers of ten.** An integer has no decimal point. -/
def positional (a : Double) : String :=
  a.layout "0" fun ds e => layoutPositional ds e ""

end Double

end ScriptEngine
