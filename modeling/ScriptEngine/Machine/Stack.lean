import ScriptEngine.Machine.Error

/-!
# Stacks

Stacks that know their size, and the bounded stack of operands. The distance of an item is counted
from the top, and the size to which a stack is cut from the bottom.

## Main definitions

* `ScriptEngine.Stack`: stacks;
* `ScriptEngine.OperandStack`: stacks of values that refuse to grow beyond a limit;
* `push`, `pop`, `peek`, `swap`, `popN`, `truncate` in the namespace `ScriptEngine.OperandStack`.
-/

namespace ScriptEngine

/-- **A stack**, top first. -/
structure Stack (α : Type) where
  items : List α
  size : Nat
  size_eq : size = items.length

namespace Stack

variable {α : Type}

def empty : Stack α :=
  ⟨[], 0, rfl⟩

instance : Inhabited (Stack α) := ⟨empty⟩

/-- The stack of the given items, top first. -/
def ofList (items : List α) : Stack α :=
  ⟨items, items.length, rfl⟩

def push (x : α) : Stack α → Stack α
  | ⟨items, size, h⟩ => ⟨x :: items, size + 1, by simp [h]⟩

def top? (s : Stack α) : Option α :=
  s.items.head?

def pop? : Stack α → Option (α × Stack α)
  | ⟨[], _, _⟩ => none
  | ⟨x :: items, size, h⟩ => some (x, ⟨items, size - 1, by simp [h]⟩)

/-- The stack with another item on top. -/
def mapTop (f : α → α) : Stack α → Stack α
  | ⟨[], size, h⟩ => ⟨[], size, h⟩
  | ⟨x :: items, size, h⟩ => ⟨f x :: items, size, by simpa using h⟩

/-- The stack without the items above the given size. -/
def truncate (s : Stack α) (size : Nat) : Stack α :=
  if h : s.size ≤ size then s
  else ⟨s.items.drop (s.size - size), size, by rw [List.length_drop, ← s.size_eq]; omega⟩

@[simp] theorem items_push (x : α) (s : Stack α) : (s.push x).items = x :: s.items := rfl

@[simp] theorem size_push (x : α) (s : Stack α) : (s.push x).size = s.size + 1 := rfl

theorem items_truncate (s : Stack α) (size : Nat) :
    (s.truncate size).items = s.items.drop (s.size - size) := by
  unfold truncate
  split
  · rename_i h
    rw [Nat.sub_eq_zero_of_le h, List.drop_zero]
  · rfl

@[simp] theorem size_truncate (s : Stack α) (size : Nat) :
    (s.truncate size).size = min s.size size := by
  unfold truncate
  split
  · omega
  · rename_i h
    change size = min s.size size
    omega

end Stack

/-- **A stack of operands** with the size beyond which it does not grow. -/
structure OperandStack where
  contents : Stack Value := .empty
  limit : Nat

namespace OperandStack

def size (s : OperandStack) : Nat :=
  s.contents.size

/-- The operands, top first. -/
def toList (s : OperandStack) : List Value :=
  s.contents.items

def isEmpty (s : OperandStack) : Bool :=
  s.size == 0

def push (v : Value) : OperandStack → Except RuntimeError OperandStack
  | ⟨contents, limit⟩ =>
    if contents.size < limit then .ok ⟨contents.push v, limit⟩ else .error .stackOverflow

def pop : OperandStack → Except RuntimeError (Value × OperandStack)
  | ⟨contents, limit⟩ =>
    match contents.pop? with
    | some (v, contents) => .ok (v, ⟨contents, limit⟩)
    | none => .error .stackUnderflow

/-- The operand at a distance from the top. -/
def peek (s : OperandStack) (distance : Nat) : Except RuntimeError Value :=
  match s.contents.items[distance]? with
  | some v => .ok v
  | none => .error .stackUnderflow

/-- The stack whose top operand and the one at a distance have changed places. -/
def swap (s : OperandStack) (distance : Nat) : Except RuntimeError OperandStack :=
  match s.contents.items with
  | [] => .error .stackUnderflow
  | top :: rest =>
    if distance = 0 then .ok s
    else
      match rest[distance - 1]? with
      | none => .error .stackUnderflow
      | some v => .ok ⟨.ofList (v :: rest.set (distance - 1) top), s.limit⟩

/-- The given number of operands from the top, bottom first, and the stack below them. -/
def popN (n : Nat) : OperandStack → Except RuntimeError (List Value × OperandStack)
  | ⟨contents, limit⟩ =>
    if n ≤ contents.size then
      .ok ((contents.items.take n).reverse, ⟨contents.truncate (contents.size - n), limit⟩)
    else .error .stackUnderflow

/-- The stack without the operands above the given size. -/
def truncate (size : Nat) : OperandStack → OperandStack
  | ⟨contents, limit⟩ => ⟨contents.truncate size, limit⟩

end OperandStack

end ScriptEngine
