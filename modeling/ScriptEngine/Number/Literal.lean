import ScriptEngine.Number.Double

/-!
# Reading a number

The decimal texts of numbers: an optional sign, then either digits with an optional point and an
optional power of ten, or a name for an infinite number or for no number.

## Main definitions

* `ScriptEngine.Double.Rounding`: how a decimal becomes a number;
* `ScriptEngine.Double.ofDecimal`: the number nearest to a decimal;
* `ScriptEngine.Double.parse?`, `ScriptEngine.Double.parseSingle?`: the number of 64 bits and the
  number of 32 bits that a text denotes.
-/

namespace ScriptEngine.Double

/-- The infinite positive number. -/
def infinity : Double :=
  ⟨0x7ff0000000000000⟩

/-- The word written `nan`, which is positive. -/
def notANumber : Double :=
  ⟨0x7ff8000000000000⟩

/-- A rounding of `digits · 10 ^ places`, or of `digits / 10 ^ places` if the flag is set. -/
abbrev Rounding := (digits : Nat) → (divide : Bool) → (places : Nat) → Double

/-- The nearest binary64 number. -/
def toDouble : Rounding := fun digits divide places =>
  ofFloat (Float.ofScientific digits divide places)

/-- The nearest binary32 number, which need not be the narrowed nearest binary64 number. -/
def toSingle : Rounding := fun digits divide places =>
  ofFloat (Float32.ofScientific digits divide places).toFloat

/-- The number nearest to `digits · 10 ^ exponent`. Decimals far outside the range of numbers are
decided by their length. -/
def ofDecimal (round : Rounding) (digits : Nat) (exponent : Int) : Double :=
  let length : Int := (Nat.toDigits 10 digits).length
  if digits = 0 ∨ exponent + length < -400 then ⟨0⟩
  else if 400 < exponent + length then infinity
  else round digits (decide (exponent < 0)) exponent.natAbs

/-- The value of decimal digits. -/
def digitsValue (ds : List Char) : Nat :=
  ds.foldl (fun n c => 10 * n + (c.toNat - '0'.toNat)) 0

/-- The power of ten at the end of a number, if the text has that form. -/
def parseExponent? : List Char → Option Int
  | [] => some 0
  | e :: cs =>
    if e = 'e' ∨ e = 'E' then
      let (negative, ds) := match cs with
        | '-' :: ds => (true, ds)
        | '+' :: ds => (false, ds)
        | ds => (false, ds)
      if ds.isEmpty || !ds.all Char.isDigit then none
      else some (if negative then -(digitsValue ds : Int) else digitsValue ds)
    else none

/-- The positive number that a text without a sign denotes. There are digits before the point or
behind it. -/
def parseUnsigned? (round : Rounding) (cs : List Char) : Option Double :=
  let name := String.ofList (cs.map Char.toLower)
  if name = "inf" ∨ name = "infinity" then some infinity
  else if name = "nan" then some notANumber
  else
    let whole := cs.takeWhile Char.isDigit
    let rest := cs.dropWhile Char.isDigit
    let (fraction, rest) := match rest with
      | '.' :: rest => (rest.takeWhile Char.isDigit, rest.dropWhile Char.isDigit)
      | rest => ([], rest)
    if whole.isEmpty && fraction.isEmpty then none
    else (parseExponent? rest).map fun e =>
      ofDecimal round (digitsValue (whole ++ fraction)) (e - fraction.length)

/-- The number that a text with an optional sign denotes. -/
def parseBy? (round : Rounding) (text : String) : Option Double :=
  match text.toList with
  | '-' :: cs => (parseUnsigned? round cs).map neg
  | '+' :: cs => parseUnsigned? round cs
  | cs => parseUnsigned? round cs

/-- **Reading**: the number that a text denotes. -/
def parse? (text : String) : Option Double :=
  parseBy? toDouble text

/-- The number of 32 bits that a text denotes. -/
def parseSingle? (text : String) : Option Double :=
  parseBy? toSingle text

end ScriptEngine.Double
