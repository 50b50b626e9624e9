/-!
# Binary floating-point numbers

The numbers of a script, as 64-bit words. Arithmetic is that of IEEE 754 binary64; unlike a
`Float`, a word keeps the sign and the payload of a number that is not a number, so that two such
numbers with different words stay different as members of a set or as constants of a program.

## Main definitions

* `ScriptEngine.Double`: the words;
* `ScriptEngine.Double.apply₂`: an operation on words from one on floats, with its rule for
  operands and results that are not numbers;
* `ScriptEngine.Double.rem`: the remainder of a division that is rounded toward zero;
* `ScriptEngine.Double.narrow`: rounding to 32 bits and back.
-/

namespace ScriptEngine

/-- A binary64 number, given by its word. -/
structure Double where
  bits : UInt64
deriving DecidableEq, Hashable, Inhabited, Repr

namespace Double

/-- The number as a float, in which everything that is not a number is one value. -/
def toFloat (a : Double) : Float :=
  Float.ofBits a.bits

/-- The word of a float. -/
def ofFloat (f : Float) : Double :=
  ⟨f.toBits⟩

/-- The sign bit. -/
def signBit : UInt64 := 0x8000000000000000

/-- The word without its sign bit. -/
def magnitude (a : Double) : UInt64 :=
  a.bits &&& 0x7fffffffffffffff

def isNaN (a : Double) : Bool :=
  decide (0x7ff0000000000000 < a.magnitude)

def isInfinite (a : Double) : Bool :=
  a.magnitude == 0x7ff0000000000000

def isFinite (a : Double) : Bool :=
  decide (a.magnitude < 0x7ff0000000000000)

def isZero (a : Double) : Bool :=
  a.magnitude == 0

def isNegative (a : Double) : Bool :=
  decide (signBit ≤ a.bits)

/-- The result of an operation on numbers that has no number as its result: a quiet word with the
sign bit set. -/
def invalid : Double :=
  ⟨0xfff8000000000000⟩

/-- A word that is not a number, made quiet. -/
def quiet (a : Double) : Double :=
  ⟨a.bits ||| 0x0008000000000000⟩

/-- **Operations on words.** A result that is a number is the result. Otherwise it is the first
operand that is not a number, made quiet, and `invalid` if both operands are numbers. -/
def apply₂ (op : Float → Float → Float) (a b : Double) : Double :=
  let result := op a.toFloat b.toFloat
  if result.isNaN then
    if a.isNaN then a.quiet else if b.isNaN then b.quiet else invalid
  else ofFloat result

def add : Double → Double → Double := apply₂ (· + ·)

def sub : Double → Double → Double := apply₂ (· - ·)

def mul : Double → Double → Double := apply₂ (· * ·)

def div : Double → Double → Double := apply₂ (· / ·)

def pow : Double → Double → Double := apply₂ Float.pow

/-- Negation flips the sign bit of every word. -/
def neg (a : Double) : Double :=
  ⟨a.bits ^^^ signBit⟩

/-- The exponent field of the word. -/
def exponentField (a : Double) : Nat :=
  (a.magnitude >>> 52).toNat

/-- The fraction field of the word. -/
def fractionField (a : Double) : Nat :=
  (a.bits &&& 0x000fffffffffffff).toNat

/-- The bit in front of the fraction, which a word does not hold. -/
def hiddenBit : Nat := 0x10000000000000

/-- The integer `m` of the finite number `m · 2 ^ q`, without its sign. -/
def significand (a : Double) : Nat :=
  if a.exponentField = 0 then a.fractionField else a.fractionField + hiddenBit

/-- The exponent `q` of the finite number `m · 2 ^ q`. -/
def exponent (a : Double) : Int :=
  if a.exponentField = 0 then -1074 else (a.exponentField : Int) - 1075

/-- The word of `m · 2 ^ q` for `m < 2 ^ 53` and a result that needs no rounding. -/
def ofExact (negative : Bool) (m : Nat) (q : Int) : Double :=
  -- as far to the left as the word has room
  let shift := min (52 - m.log2) (q + 1074).toNat
  let m := m <<< shift
  let field := if m < hiddenBit then 0 else (q - shift + 1075).toNat
  let magnitude := field * hiddenBit + m % hiddenBit
  ⟨(if negative then signBit else 0) ||| UInt64.ofNat magnitude⟩

/-- **Remainder** of the division rounded toward zero, which is exact and has the sign of the
dividend. There is none for an infinite dividend or a zero divisor. -/
def rem (a b : Double) : Double :=
  if a.isNaN then a.quiet
  else if b.isNaN then b.quiet
  else if a.isInfinite || b.isZero then invalid
  else if b.isInfinite then a
  else
    -- on the finer of both scales the division is one of integers
    let q := min a.exponent b.exponent
    let m := a.significand <<< (a.exponent - q).toNat
    let n := b.significand <<< (b.exponent - q).toNat
    ofExact a.isNegative (m % n) q

/-- The nearest number to an integer. -/
def ofInt (n : Int64) : Double :=
  ofFloat n.toFloat

/-- Equality of numbers: both zeros are equal, and what is not a number equals nothing. -/
def equals (a b : Double) : Bool :=
  a.toFloat == b.toFloat

/-- The order of two numbers. -/
def compare? (a b : Double) : Option Ordering :=
  if a.isNaN || b.isNaN then none
  else if a.toFloat < b.toFloat then some .lt
  else if a.equals b then some .eq
  else some .gt

/-- **Narrowing**: the nearest binary32 number, as a binary64 number. What is not a number keeps
its sign and the upper part of its payload. -/
def narrow (a : Double) : Double :=
  if a.isNaN then quiet ⟨a.bits &&& 0xffffffffe0000000⟩ else ofFloat a.toFloat.toFloat32.toFloat

@[simp] theorem neg_neg (a : Double) : a.neg.neg = a := by
  simp only [neg, UInt64.xor_assoc, UInt64.xor_self, UInt64.xor_zero]

end Double

end ScriptEngine
