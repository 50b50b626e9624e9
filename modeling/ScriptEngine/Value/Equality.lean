import ScriptEngine.Value.Heap

/-!
# Equality of values

Scalars are equal by content, where an integer equals the float of the same number. Lists, maps and
sets are equal by content too, errors by message, and all other objects only to themselves. As
with the text of a value, the comparison of two values that contain themselves never comes to an
answer.

## Main definitions

* `ScriptEngine.Heap.equals?`: equality of two values, if their comparison ends;
* `ScriptEngine.Heap.equals`: equality of two values whose comparison ends, and `false` otherwise.
-/

namespace ScriptEngine

namespace Heap

/-- Equality of an object of the host with a value. -/
def customEquals (h : Heap) (a : CustomObject) (b : Value) : Bool :=
  match a, b with
  | .measure m, .custom r =>
    match h.custom r with
    | .measure n => m == n
    | .unstructured => false
  | _, _ => false

section Equals

variable (h : Heap)

/-- **Equality** of two values, if their comparison ends. Nothing behind the first pair that differs
is looked at. -/
def equals? (a b : Value) : Option Bool :=
  -- the comparison of the parts
  let equals : Value → Value → Option Bool := by apply equals?
  match a, b with
  | .nil, .nil => some true
  | .bool a, .bool b => some (a == b)
  | .int a, .int b => some (a == b)
  | .int a, .float b => some ((Double.ofInt a).equals b)
  | .float a, .int b => some (a.equals (Double.ofInt b))
  | .float a, .float b => some (a.equals b)
  | .str a, .str b => some (a == b)
  | .error a, .error b => some (a.message == b.message)
  | .list a, .list b =>
    -- a list equals itself, whatever it contains
    if a = b then some true
    else
      let xs := (h.list a).toList
      let ys := (h.list b).toList
      if xs.length = ys.length then (xs.zip ys).allM fun (x, y) => equals x y
      else some false
  | .map a, .map b =>
    if a = b then some true
    else
      let entries := h.map a
      let others := h.map b
      if entries.size = others.size then
        entries.toList.allM fun (k, v) =>
          match others[k]? with
          | some other => equals v other
          | none => some false
      else some false
  | .set a, .set b => some (a == b || (h.set a).keys == (h.set b).keys)
  | .custom a, b => some (h.customEquals (h.custom a) b)
  | a, b => some (a == b)
partial_fixpoint

end Equals

/-- **Equality** of two values whose comparison ends. A comparison of values that contain themselves
may go on for ever; `equals` is a total function and says `false` there, an answer that no program
ever gets. What holds of comparisons that may not end is therefore said about `equals?`. -/
def equals (h : Heap) (a b : Value) : Bool :=
  (h.equals? a b).getD false

end Heap

end ScriptEngine
