import ScriptEngine.Number.Integer
import ScriptEngine.Value.Heap

/-!
# Operators on values

Binary operators, order and negation. An operator that does not apply to its operands yields an
error value, so a script can go on with the failure as data.

## Main definitions

* `ScriptEngine.Integer.operate?`, `ScriptEngine.Double.operate?`: the operators on numbers;
* `ScriptEngine.Heap.operate`: the operators on values;
* `ScriptEngine.Heap.compare`: the order behind the comparisons;
* `ScriptEngine.Heap.negate`: unary minus.
-/

namespace ScriptEngine

namespace Integer

/-- A shift by `b`, which has to lie between 0 and 63. An amount of more than 32 bits counts as a
negative one. -/
def shift (a b : Int64) (move : Int64 → Int64 → Int64) : Value :=
  if b < 0 ∨ maxExponent < b then .fault .negativeShift
  else if 64 ≤ b then .fault .shiftTooLarge
  else .int (move a b)

/-- **Operators on integers.** Sums, differences, products and powers wrap, quotients are rounded
toward zero, and a power whose exponent has more than 32 bits or a sign is computed on floats. -/
def operate? (op : BinaryOperator) (a b : Int64) : Option Value :=
  match op with
  | .add => some (.int (a + b))
  | .subtract => some (.int (a - b))
  | .multiply => some (.int (a * b))
  | .divide => some (if b = 0 then .fault .divisionByZero else .int (a / b))
  | .modulo => some (if b = 0 then .fault .divisionByZero else .int (a % b))
  | .xor => some (.int (a ^^^ b))
  | .bitAnd => some (.int (a &&& b))
  | .bitOr => some (.int (a ||| b))
  | .power =>
    some (if 0 ≤ b ∧ b ≤ maxExponent then .int (pow a b.toNatClampNeg)
      else .float ((Double.ofInt a).pow (Double.ofInt b)))
  | .shiftLeft => some (shift a b (· <<< ·))
  | .shiftRight => some (shift a b (· >>> ·))
  | .and | .or => none

end Integer

/-- **Operators on floats.** -/
def Double.operate? (op : BinaryOperator) (a b : Double) : Option Value :=
  match op with
  | .add => some (.float (a.add b))
  | .subtract => some (.float (a.sub b))
  | .multiply => some (.float (a.mul b))
  | .divide => some (.float (a.div b))
  | .modulo => some (.float (a.rem b))
  | .power => some (.float (a.pow b))
  | _ => none

/-- The operators on truth values that look at both operands. -/
def boolOperate? (op : BinaryOperator) (a b : Bool) : Option Value :=
  match op with
  | .xor => some (.bool (a != b))
  | .bitAnd => some (.bool (a && b))
  | .bitOr => some (.bool (a || b))
  | _ => none

namespace Heap

/-- The operators of an object of the host: lengths are added to lengths and multiplied by
integers. -/
def customOperate (h : Heap) (op : BinaryOperator) (left : CustomObject) (right : Value) :
    Value × Heap :=
  let length (metres : Int64) : Value × Heap :=
    let (r, h) := h.newCustom (.measure metres)
    (.custom r, h)
  match left with
  | .unstructured => (.fault (.unsupported left.typeName op (h.typeName right)), h)
  | .measure m =>
    match op, right with
    | .multiply, .int n => length (m * n)
    | .add, .custom r =>
      match h.custom r with
      | .measure n => length (m + n)
      | .unstructured => (.fault (.measureOperation op), h)
    | op, _ => (.fault (.measureOperation op), h)

/-- The result of an operator on operands that need no new object. -/
def operateInPlace? (op : BinaryOperator) : Value → Value → Option Value
  | .int a, .int b => Integer.operate? op a b
  | .int a, .float b => Double.operate? op (Double.ofInt a) b
  | .float a, .int b => Double.operate? op a (Double.ofInt b)
  | .float a, .float b => Double.operate? op a b
  | .str a, .str b => if op = .add then some (.str (a ++ b)) else none
  | .bool a, .bool b => boolOperate? op a b
  | _, _ => none

/-- **The operators on values**, decided by the left operand. Two lists are joined into a new
one. -/
def operate (h : Heap) (op : BinaryOperator) (left right : Value) : Value × Heap :=
  match op, left, right with
  | .add, .list a, .list b =>
    let (r, h) := h.newList (h.list a ++ h.list b)
    (.list r, h)
  | op, .custom r, right => h.customOperate op (h.custom r) right
  | op, left, right =>
    ((operateInPlace? op left right).getD
      (.fault (.unsupported (h.typeName left) op (h.typeName right))), h)

/-- **The order of two values.** Integers are compared exactly, other numbers as floats, and strings
by code points. -/
def compare (h : Heap) (left right : Value) : Except Fault Ordering :=
  let incomparable := Fault.incomparable (h.typeName left) (h.typeName right)
  match left, right with
  | .int a, .int b => .ok (Ord.compare a b)
  | .str a, .str b => .ok (Ord.compare a b)
  | .custom r, right =>
    match h.custom r, right with
    | .unstructured, _ => .error incomparable
    | .measure m, .custom s =>
      match h.custom s with
      | .measure n => .ok (Ord.compare m n)
      | .unstructured => .error .measureComparison
    | .measure _, _ => .error .measureComparison
  | left, right =>
    match left.toDouble?, right.toDouble? with
    | some a, some b =>
      match a.compare? b with
      | some order => .ok order
      | none => .error incomparable
    | _, _ => .error incomparable

/-- Unary minus. -/
def negate (h : Heap) : Value → Value
  | .int n => .int (-n)
  | .float f => .float f.neg
  | v => .fault (.badNegation (h.typeName v))

end Heap

/-- Whether a comparison holds of values in the given order. -/
def Comparison.holds : Comparison → Ordering → Bool
  | .lessThan, o => o == .lt
  | .lessThanOrEqual, o => o != .gt
  | .equal, o => o == .eq
  | .notEqual, o => o != .eq
  | .greaterThan, o => o == .gt
  | .greaterThanOrEqual, o => o != .lt

end ScriptEngine
