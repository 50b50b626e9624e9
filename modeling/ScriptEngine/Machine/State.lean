import ScriptEngine.Builtin.Registry
import ScriptEngine.Machine.Config
import ScriptEngine.Machine.Stack
import ScriptEngine.Value.Text

/-!
# The state of a machine

A machine executes code on an operand stack and a stack of frames. What it shares with its workers
and with its host is a world of its own: the heap, the globals and the controls.

## Main definitions

* `ScriptEngine.Frame`: an activation of a function or of a program;
* `ScriptEngine.Machine`: what belongs to one machine;
* `ScriptEngine.World`: what machines share;
* `ScriptEngine.Exec`: steps on both that can fail, and the primitive ones among them.

## Implementation notes

A step that fails keeps the state it failed in: operands that were taken before the failure stay
taken. The primitive steps take the state apart before they change a part of it, so that no second
reference to that part is held meanwhile.
-/

namespace ScriptEngine

/-- **An activation.** The frame of a program has no function, `base` is the size of the operand
stack at entry, and leaving an `entry` frame ends the call of the host that made it. -/
structure Frame where
  ip : Nat := 0
  function : Option Function := none
  code : Code
  cells : Array (Ref .cell) := #[]
  locals : Array Value := #[]
  base : Nat := 0
  entry : Bool := true
deriving Inhabited

/-- What a machine is about. -/
inductive Status where
  | ready
  | running
  /-- The last run or call ended normally. -/
  | returned
  /-- The last run executed a halt. -/
  | halted
  /-- The last run or call failed. -/
  | errored
deriving DecidableEq, Repr, Inhabited

def Status.name : Status → String
  | ready => "Ready"
  | running => "Running"
  | returned => "Returned"
  | halted => "Halted"
  | errored => "Errored"

/-- **A machine.** `position` is the offset in the program at which the next run starts, and `ticks`
counts the instructions executed. -/
structure Machine where
  config : Config := .standard
  stack : OperandStack := { limit := config.stackLimit }
  frames : Stack Frame := .empty
  registry : Registry := {}
  position : Nat := 0
  status : Status := .ready
  ticks : UInt32 := 0
deriving Inhabited

/-- **What machines share.** -/
structure World where
  heap : Heap := {}
  globals : Array Value := #[]
  controls : Controls := {}

instance : Inhabited World := ⟨{}⟩

namespace World

/-- The value of a global slot, if it exists. -/
def global? (w : World) (slot : Nat) : Option Value :=
  w.globals[slot]?

/-- A table of slots with at least the given number of slots, where new ones hold nil. -/
def growGlobals (globals : Array Value) (count : Nat) : Array Value :=
  globals ++ Array.replicate (count - globals.size) .nil

/-- The world with another value in a global slot, which is made if it does not exist. -/
def setGlobal (slot : Nat) (v : Value) : World → World
  | ⟨heap, globals, controls⟩ =>
    ⟨heap, (growGlobals globals (slot + 1)).setIfInBounds slot v, controls⟩

/-- The world with at least the given number of global slots. -/
def ensureGlobals (count : Nat) : World → World
  | ⟨heap, globals, controls⟩ => ⟨heap, growGlobals globals count, controls⟩

/-- A step on the heap. -/
@[inline] def onHeap {α : Type} (f : Heap → α × Heap) : World → α × World
  | ⟨heap, globals, controls⟩ =>
    let (a, heap) := f heap
    (a, ⟨heap, globals, controls⟩)

/-- A step on the controls. -/
@[inline] def onControls {α : Type} (f : Controls → α × Controls) : World → α × World
  | ⟨heap, globals, controls⟩ =>
    let (a, controls) := f controls
    (a, ⟨heap, globals, controls⟩)

end World

/-- A machine and its world. -/
structure State where
  machine : Machine
  world : World
deriving Inhabited

/-- Steps of a machine. -/
abbrev Exec := EStateM RuntimeError State

namespace Exec

/-! ### Operands -/

/-- A step on the operand stack. -/
@[inline] def onStack {α : Type} (f : OperandStack → Except RuntimeError (α × OperandStack)) :
    Exec α := fun ⟨⟨config, stack, frames, registry, position, status, ticks⟩, world⟩ =>
  match f stack with
  | .ok (a, stack) => .ok a ⟨⟨config, stack, frames, registry, position, status, ticks⟩, world⟩
  | .error e => .error e ⟨⟨config, stack, frames, registry, position, status, ticks⟩, world⟩

def push (v : Value) : Exec Unit :=
  onStack fun s => (s.push v).map ((), ·)

def pop : Exec Value :=
  onStack OperandStack.pop

/-- The top operand, or nil if there is none. -/
def popOrNil : Exec Value := do
  if (← get).machine.stack.isEmpty then return .nil else pop

def popN (n : Nat) : Exec (List Value) :=
  onStack (·.popN n)

def peek (distance : Nat) : Exec Value :=
  onStack fun s => (s.peek distance).map (·, s)

def swap (distance : Nat) : Exec Unit :=
  onStack fun s => (s.swap distance).map ((), ·)

def truncate (size : Nat) : Exec Unit :=
  onStack fun s => .ok ((), s.truncate size)

/-! ### Frames -/

/-- A change of the stack of frames, with a result. -/
@[inline] def onFrames {α : Type} (f : Stack Frame → α × Stack Frame) : Exec α :=
  fun ⟨⟨config, stack, frames, registry, position, status, ticks⟩, world⟩ =>
    let (a, frames) := f frames
    .ok a ⟨⟨config, stack, frames, registry, position, status, ticks⟩, world⟩

/-- A change of the innermost frame. -/
@[inline] def modifyFrame (f : Frame → Frame) : Exec Unit :=
  onFrames fun frames => ((), frames.mapTop f)

/-- The innermost frame. -/
def frame : Exec Frame := do
  match (← get).machine.frames.top? with
  | some f => return f
  | none => throw (.internal .noFrame)

/-- An entry of a table, or an internal error. -/
@[inline] def entry {α : Type} (x : Option α) (missing : InternalFault) : Exec α :=
  match x with
  | some a => pure a
  | none => throw (.internal missing)

/-- A constant of the innermost code. -/
def constant (index : Word) : Exec Value := do
  entry (← frame).code.constants[index.toNat]? (.constantOutOfRange index.toNat)

/-- A name of the innermost code. -/
def name (index : Word) : Exec String := do
  entry (← frame).code.names[index.toNat]? (.nameOutOfRange index.toNat)

/-- The content of a slot, which may be a cell. -/
def slot (index : Word) : Exec Value := do
  entry (← frame).locals[index.toNat]? (.localOutOfRange index.toNat)

/-- The slot with another content. -/
def setSlot (index : Word) (v : Value) : Exec Unit :=
  modifyFrame fun ⟨ip, function, code, cells, locals, base, entry⟩ =>
    ⟨ip, function, code, cells, locals.setIfInBounds index.toNat v, base, entry⟩

/-- A captured cell. -/
def captured (index : Word) : Exec (Ref .cell) := do
  entry (← frame).cells[index.toNat]? (.freeOutOfRange index.toNat)

/-- Goes on at an offset, which may be the end of the code. -/
def jump (target : Nat) : Exec Unit := do
  if target ≤ (← frame).code.size then modifyFrame ({ · with ip := target })
  else throw (.internal (.jumpOutside target))

/-! ### The world -/

/-- A step on the world. -/
@[inline] def onWorld {α : Type} (f : World → α × World) : Exec α := fun ⟨machine, world⟩ =>
  let (a, world) := f world
  .ok a ⟨machine, world⟩

/-- A step on the heap. -/
@[inline] def onHeap {α : Type} (f : Heap → α × Heap) : Exec α :=
  onWorld (World.onHeap f)

/-- A look at the heap. -/
@[inline] def readHeap {α : Type} (f : Heap → α) : Exec α :=
  onHeap fun h => (f h, h)

/-- A step on the heap whose fault ends the run. -/
@[inline] def onHeapOrRaise {α : Type} (f : Heap → Except Fault α × Heap) : Exec α := do
  match ← onHeap f with
  | Except.ok a => return a
  | Except.error fault => throw (.ofErrorValue fault.toError)

/-- The name of the type of a value. -/
def typeName (v : Value) : Exec String :=
  readHeap (·.typeName v)

/-- Charges a cost to the limits of a context. -/
def charge (ctx : Context) (cost : Nat) : Exec Unit := do
  match ← onWorld (World.onControls (·.charge ctx.limits cost)) with
  | .ok () => return
  | .error e => throw (.limit e)

/-- Charges the cost of a value that was just built, and pushes it. -/
def pushBuilt (ctx : Context) (v : Value) : Exec Unit := do
  charge ctx (← readHeap (·.cost v))
  push v

end Exec

end ScriptEngine
