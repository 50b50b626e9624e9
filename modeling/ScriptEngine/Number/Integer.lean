import ScriptEngine.Number.Double

/-!
# Arithmetic of script integers

Integers are 64-bit words in two's complement. Sums, differences, products and powers wrap;
quotients are rounded toward zero.

## Main definitions

* `ScriptEngine.Integer.pow`: powers by squaring;
* `ScriptEngine.Integer.maxExponent`: the largest exponent of a power of integers.
-/

namespace ScriptEngine.Integer

/-- `acc · base ^ exponent`, for an exponent of at most `bits` binary digits. -/
def powAux : Nat → Int64 → Int64 → Nat → Int64
  | 0, acc, _, _ => acc
  | bits + 1, acc, base, exponent =>
    if exponent = 0 then acc
    else powAux bits (if exponent % 2 = 1 then acc * base else acc) (base * base) (exponent / 2)

/-- **Powers**, wrapping. -/
def pow (base : Int64) (exponent : Nat) : Int64 :=
  powAux (exponent.log2 + 1) 1 base exponent

/-- The largest exponent for which a power is computed on integers. -/
def maxExponent : Int64 := 0xffffffff

end ScriptEngine.Integer
