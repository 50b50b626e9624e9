import ScriptEngine.Number.Double

/-!
# Values

The values of a script. Scalars and errors are held in place; everything else is a reference into
a `Heap`, so that copies of a container share its content and two references are one object
exactly if they are equal.

## Main definitions

* `ScriptEngine.Ref`: references to the objects of one kind;
* `ScriptEngine.ErrorValue`: errors as data;
* `ScriptEngine.Value`: the values.
-/

namespace ScriptEngine

/-- The kinds of objects that a heap holds. -/
inductive ObjectKind where
  | list | map | set
  | function | closure | builtin | partialCall
  | cell | iterator
  | thread | channel | custom
deriving DecidableEq, Repr

/-- A reference to an object of one kind. -/
structure Ref (kind : ObjectKind) where
  index : Nat
deriving DecidableEq, Repr, Inhabited

/-- An error as scripts see it. A raised error that a builtin returns ends the run; every other
error is ordinary data. -/
structure ErrorValue where
  message : String
  raised : Bool
deriving DecidableEq, Repr, Inhabited

/-- The error with the same message that ends a run. -/
def ErrorValue.raise (e : ErrorValue) : ErrorValue :=
  { e with raised := true }

/-- A value of a script. A cell is only ever seen in local slots and closures, and an iterator only
on the operand stack. -/
inductive Value where
  | nil
  | bool (b : Bool)
  | int (n : Int64)
  | float (f : Double)
  | str (s : String)
  | error (e : ErrorValue)
  | list (r : Ref .list)
  | map (r : Ref .map)
  | set (r : Ref .set)
  /-- A function without captured variables. -/
  | function (r : Ref .function)
  /-- A function together with the cells that it captured. -/
  | closure (r : Ref .closure)
  | builtin (r : Ref .builtin)
  | partialCall (r : Ref .partialCall)
  | cell (r : Ref .cell)
  | iter (r : Ref .iterator)
  | thread (r : Ref .thread)
  | chan (r : Ref .channel)
  | custom (r : Ref .custom)
deriving DecidableEq, Repr, Inhabited

namespace Value

def isNil : Value → Bool
  | nil => true
  | _ => false

def isError : Value → Bool
  | error _ => true
  | _ => false

/-- The values that can be called. -/
def isCallable : Value → Bool
  | function _ | closure _ | builtin _ | partialCall _ => true
  | _ => false

def toBool? : Value → Option Bool
  | bool b => some b
  | _ => none

def toInt? : Value → Option Int64
  | int n => some n
  | _ => none

/-- The number that a value is, where integers widen. -/
def toDouble? : Value → Option Double
  | float f => some f
  | int n => some (Double.ofInt n)
  | _ => none

def toStr? : Value → Option String
  | str s => some s
  | _ => none

def toError? : Value → Option ErrorValue
  | error e => some e
  | _ => none

/-- The error behind a value that a builtin must not return: a raised one. -/
def raised? (v : Value) : Option ErrorValue :=
  v.toError?.filter (·.raised)

end Value

end ScriptEngine
