import ScriptEngine.Value.Fault

/-!
# Members of sets

The scalars that can be members of a set, and their order. Numbers are compared by kind and word,
so that an integer and a float are never the same member.

## Main definitions

* `ScriptEngine.Key`: the members;
* `ScriptEngine.Key.ofValue?`: the member that a value is.
-/

namespace ScriptEngine

inductive Key where
  | nil
  | bool (b : Bool)
  | int (n : Int64)
  | float (bits : UInt64)
  | str (s : String)
deriving DecidableEq, Repr

namespace Key

/-- The place of a kind of member among the kinds. -/
def rank : Key → Nat
  | nil => 0
  | bool _ => 1
  | int _ => 2
  | float _ => 3
  | str _ => 4

/-- Members are ordered by kind, and within a kind by content. -/
instance : Ord Key where
  compare
    | bool a, bool b => compare a b
    | int a, int b => compare a b
    | float a, float b => compare a b
    | str a, str b => compare a b
    | a, b => compare a.rank b.rank

def toValue : Key → Value
  | nil => .nil
  | bool b => .bool b
  | int n => .int n
  | float bits => .float ⟨bits⟩
  | str s => .str s

/-- The member that a value is. -/
def ofValue? : Value → Option Key
  | .nil => some nil
  | .bool b => some (bool b)
  | .int n => some (int n)
  | .float f => some (float f.bits)
  | .str s => some (str s)
  | _ => none

@[simp] theorem ofValue?_toValue (k : Key) : ofValue? k.toValue = some k := by
  cases k <;> rfl

theorem toValue_of_ofValue? {v : Value} {k : Key} (h : ofValue? v = some k) : k.toValue = v := by
  cases v <;> simp [ofValue?] at h <;> subst h <;> rfl

end Key

end ScriptEngine
