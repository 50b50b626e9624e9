import ScriptEngine.Concurrency.Blocking

/-!
# Activities of builtins

What a builtin does while it runs, step by step. Between two steps a builtin has no access to the
machine, so it can only do what an activity can ask for.

## Main definitions

* `ScriptEngine.Activity`: the activities;
* `ScriptEngine.Host`: the functions that a host provides.
-/

namespace ScriptEngine

/-- A question put to the limits of the context. -/
inductive LimitQuery where
  | charge (cost : Nat)
  | request
  | size (bytes : Nat)
deriving DecidableEq, Repr

/-- The answer to a question put to limits. -/
def LimitQuery.ask (limits : Option LimitsRef) (c : Controls) :
    LimitQuery → Except LimitError Unit × Controls
  | charge cost => c.charge limits cost
  | request => c.request limits
  | size bytes => (c.checkSize limits bytes, c)

/-- **An activity**: the outcome of a builtin, or a step and what the builtin does after it. -/
inductive Activity where
  | finish (o : Outcome)
  /-- A step on the heap. -/
  | heap (act : Heap → Value × Heap) (next : Value → Activity)
  | limit (query : LimitQuery) (next : Except LimitError Unit → Activity)
  /-- Sets the flag by which the host stops a run. -/
  | cancel (next : Activity)
  /-- A call back into the machine. -/
  | call (callee : Value) (args : List Value) (next : Outcome → Activity)
  /-- A call on a worker, whose handle is the answer. -/
  | spawn (callee : Value) (args : List Value) (next : Value → Activity)
  | block (operation : Blocking) (next : Outcome → Activity)

namespace Activity

instance : Inhabited Activity := ⟨finish (.ok .nil)⟩

/-- Ends with a value. -/
def value (v : Value) : Activity :=
  finish (.ok v)

/-- Ends with an error that ends the run. -/
def fail (e : RuntimeError) : Activity :=
  finish (.error e)

/-- Ends with the value of a step on the heap. -/
def effect (act : Heap → Value × Heap) : Activity :=
  heap act value

/-- Ends with what a look at the heap shows. -/
def read (look : Heap → Value) : Activity :=
  effect fun h => (look h, h)

/-- Ends with the outcome of an operation that waits. -/
def await (operation : Blocking) : Activity :=
  block operation finish

/-- The activity of a builtin that takes a given number of arguments, which fails with any other. -/
def takes (callable : String) (expected : Nat) (args : List Value) (activity : Activity) :
    Activity :=
  if args.length = expected then activity
  else fail (.argumentCount callable (.exactly expected) args.length)

end Activity

/-- **A host**: what its functions do, each given by its key, the values that belong to it and the
arguments. -/
structure Host where
  behave : (key : String) → (captured args : List Value) → Activity

instance : Inhabited Host := ⟨⟨fun _ _ _ => default⟩⟩

end ScriptEngine
