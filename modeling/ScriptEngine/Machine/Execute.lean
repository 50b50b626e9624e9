import ScriptEngine.Machine.State
import ScriptEngine.Value.Arithmetic
import ScriptEngine.Value.Attribute
import ScriptEngine.Value.Sequence

/-!
# Executing instructions

The effect of one instruction, and one turn of the dispatch loop around it. Calls leave the loop: an
instruction that calls says so, and how a callable is entered is not its business.

## Main definitions

* `ScriptEngine.Code.fetch`: the instruction at an offset;
* `ScriptEngine.Flow`: how the loop goes on after an instruction;
* `ScriptEngine.Exec.execute`: the effect of an instruction;
* `ScriptEngine.Exec.turn`: one turn of the loop.
-/

namespace ScriptEngine

/-- How the loop goes on. -/
inductive Flow where
  | next
  /-- An entry frame was left, or the machine was halted, with a value. -/
  | leave (v : Value)
  | invoke (callee : Value) (args : List Value)
deriving DecidableEq, Repr, Inhabited

namespace Instruction

/-- The first operand. -/
def first (i : Instruction) : Word :=
  i.operands.headD 0

/-- The second operand. -/
def second (i : Instruction) : Word :=
  i.operands.tail.headD 0

/-- The offset behind the instruction. -/
def stop (i : Instruction) : Nat :=
  i.offset + 1 + i.operands.length

end Instruction

/-- **Fetching**: the instruction at an offset inside the code, with all its operands. -/
def Code.fetch (c : Code) (offset : Nat) : Except RuntimeError Instruction :=
  let w := c.words.getD offset 0
  match Opcode.ofWord? w with
  | none => .error (.unknownOpcode w)
  | some op =>
    if offset + 1 + op.operandCount ≤ c.size then
      .ok ⟨offset, op, (c.words.extract (offset + 1) (offset + 1 + op.operandCount)).toList⟩
    else .error (.internal (.missingOperands op offset))

/-- The items of a list, two by two. -/
def pairs {α : Type} : List α → List (α × α)
  | x :: y :: rest => (x, y) :: pairs rest
  | _ => []

/-- The operators of instructions: `and` and `or` choose an operand by the truth of the left
one. -/
def Heap.binary (h : Heap) (op : BinaryOperator) (left right : Value) : Value × Heap :=
  match op with
  | .and => (if h.isTruthy left then right else left, h)
  | .or => (if h.isTruthy left then left else right, h)
  | op => h.operate op left right

/-- The comparisons of instructions. Equality never fails, and the others need an order. Values that
contain themselves count as different where their comparison would not end, as `Heap.equals`
says. -/
def Heap.compareBy (h : Heap) (op : Comparison) (left right : Value) : Value :=
  match op with
  | .equal => .bool (h.equals left right)
  | .notEqual => .bool !(h.equals left right)
  | op =>
    match h.compare left right with
    | .ok order => .bool (op.holds order)
    | .error f => .fault f

namespace Exec

/-! ### Variables -/

/-- The content of a local variable, looked up through its cell if it has one. -/
def loadLocal (index : Word) : Exec Value := do
  match ← slot index with
  | .cell r => readHeap (·.cell r)
  | v => return v

/-- Stores into a local variable, through its cell if it has one. -/
def storeLocal (index : Word) (v : Value) : Exec Unit := do
  match ← slot index with
  | .cell r => onHeap fun h => ((), h.setCell r v)
  | _ => setSlot index v

/-- The cell of a local variable, into which its content moves if it has none yet. -/
def cellOf (index : Word) : Exec (Ref .cell) := do
  match ← slot index with
  | .cell r => return r
  | v =>
    let r ← onHeap (·.newCell v)
    setSlot index (.cell r)
    return r

/-- The cell behind an operand. -/
def asCell (v : Value) : Exec (Ref .cell) := do
  match v with
  | .cell r => return r
  | v => throw (.internal (.notACell (← typeName v)))

/-- The function of a constant bound to as many cells from the stack. -/
def bindClosure (index count : Word) : Exec Value := do
  let function ←
    match ← constant index with
    | .function r => pure r
    | .closure r => readHeap fun h => (h.closure r).function
    | _ => throw (.internal (.notAFunction index.toNat))
  let cells ← (← popN count.toNat).mapM asCell
  return .closure (← onHeap (·.newClosure ⟨function, cells.toArray⟩))

/-! ### Containers -/

/-- The entries of a map given as keys and values in turn. -/
def entriesOf (flat : List Value) : Exec (List (String × Value)) :=
  (pairs flat).mapM fun (key, v) => do
    match key with
    | .str key => return (key, v)
    | key => throw (.typeError (.mapKey (← typeName key)))

/-- Pushes the items of a list that has as many as expected. -/
def unpack (count : Nat) (v : Value) : Exec Unit := do
  match ← readHeap (·.items? v) with
  | none => throw (.typeError (.notUnpackable (← typeName v)))
  | some items =>
    if items.length ≠ count then throw (.typeError (.unpackCount count items.length))
    items.forM push

/-! ### Control -/

/-- Goes on at a distance ahead of an instruction. -/
def jumpAhead (i : Instruction) : Exec Unit :=
  jump (i.offset + i.first.toNat)

/-- Goes on at a distance back from an instruction. -/
def jumpBack (i : Instruction) : Exec Unit := do
  if i.offset < i.first.toNat then throw (.internal .jumpBeforeCode)
  jump (i.offset - i.first.toNat)

/-- Takes the top operand and jumps ahead if it has the given truth. -/
def jumpIf (i : Instruction) (truth : Bool) : Exec Unit := do
  let v ← pop
  if (← readHeap (·.isTruthy v)) == truth then jumpAhead i

/-- Replaces the top operand by an iterator over it. -/
def startIteration : Exec Unit := do
  let v ← pop
  match ← onHeap (·.iterate v) with
  | some r => push (.iter r)
  | none => throw (.typeError (.notIterable (← typeName v)))

/-- Pushes what the loop binds of the next entry, the key on top, or leaves the loop. -/
def iteration (i : Instruction) : Exec Unit := do
  match ← peek 0 with
  | .iter r =>
    match ← onHeap (·.next r) with
    | some (key, v) =>
      -- the loop binds the key first, so the key goes on top
      if 2 ≤ i.second then push v
      if 1 ≤ i.second then push key
    | none =>
      let _ ← pop
      jumpAhead i
  | _ => throw (.internal .forIterWithoutIterator)

/-- Leaves the innermost frame with a value, which its caller finds on the operand stack. -/
def leaveFrame (v : Value) : Exec Flow := do
  match ← onFrames fun frames => (frames.top?, frames.truncate (frames.size - 1)) with
  | none => throw (.internal .returnWithoutFrame)
  | some f =>
    truncate f.base
    if f.entry then return .leave v
    push v
    return .next

/-- Ends the run: every frame is dropped, and the top operand is its value. -/
def halt : Exec Flow := do
  let v ← popOrNil
  onFrames fun _ => ((), .empty)
  modify fun ⟨⟨config, stack, frames, registry, position, _, ticks⟩, world⟩ =>
    ⟨⟨config, stack, frames, registry, position, .halted, ticks⟩, world⟩
  return .leave v

/-- The operator that an operand stands for. -/
def binaryOperator (w : Word) : Exec BinaryOperator :=
  entry (BinaryOperator.ofWord? w) (.unknownBinary w.toNat)

/-- The comparison that an operand stands for. -/
def comparison (w : Word) : Exec Comparison :=
  entry (Comparison.ofWord? w) (.unknownComparison w.toNat)

/-- Takes the right operand and then the left one, and pushes what they yield. -/
def pushBinary (f : Value → Value → Heap → Value × Heap) : Exec Unit := do
  let right ← pop
  let left ← pop
  push (← onHeap (f left right))

/-- A step after which the loop goes on. -/
@[inline] def proceed (step : Exec Unit) : Exec Flow := do
  step
  return .next

/-- **The effect of an instruction.** -/
def execute (ctx : Context) (i : Instruction) : Exec Flow := do
  let a := i.first
  let n := a.toNat
  match i.op with
  | .nop => return .next
  | .halt => halt
  | .call =>
    let args ← popN n
    return .invoke (← pop) args
  | .returnValue =>
    leaveFrame (← if a = 0 then pure .nil else pop)
  | .jumpBackward => proceed (jumpBack i)
  | .jumpForward => proceed (jumpAhead i)
  | .popJumpForwardIfFalse => proceed (jumpIf i false)
  | .popJumpForwardIfTrue => proceed (jumpIf i true)
  | .loadAttr => proceed do
    -- a name that does not exist leaves the operand where it is
    let name ← name a
    let object ← pop
    match ← onHeap (·.getAttr object name) with
    | some v => push v
    | none => throw (.typeError (.noAttribute name (← typeName object)))
  | .loadFast => proceed do
    push (← loadLocal a)
  | .loadFree => proceed do
    let r ← captured a
    push (← readHeap (·.cell r))
  | .loadGlobal => proceed do
    push (← onWorld fun w => ((w.global? n).getD .nil, w))
  | .loadConst => proceed do
    push (← constant a)
  | .loadBuiltin => proceed do
    push (← entry ((← get).machine.registry.get? n) (.builtinMissing n))
  | .storeAttr => proceed do
    let name ← name a
    let object ← pop
    let v ← pop
    onHeapOrRaise (·.setAttr object name v)
  | .storeFast => proceed do
    storeLocal a (← pop)
  | .storeFree => proceed do
    let v ← pop
    let r ← captured a
    onHeap fun h => ((), h.setCell r v)
  | .storeGlobal => proceed do
    let v ← pop
    onWorld fun w => ((), w.setGlobal n v)
  | .binaryOp => proceed do
    let op ← binaryOperator a
    pushBinary fun left right h => h.binary op left right
  | .compareOp => proceed do
    let op ← comparison a
    pushBinary fun left right h => (h.compareBy op left right, h)
  | .unaryNegative => proceed do
    let v ← pop
    push (← readHeap (·.negate v))
  | .unaryNot => proceed do
    let v ← pop
    push (.bool !(← readHeap (·.isTruthy v)))
  | .buildList => proceed do
    let items ← popN n
    pushBuilt ctx (← onHeap (·.buildList items))
  | .buildMap => proceed do
    let entries ← entriesOf (← popN (n * 2))
    pushBuilt ctx (← onHeap (·.buildMap entries))
  | .buildSet => proceed do
    let items ← popN n
    pushBuilt ctx (← onHeapOrRaise (·.buildSet items))
  | .buildString => proceed do
    -- a part that contains itself would be written down for ever, and is left out here
    let parts ← popN n
    pushBuilt ctx (.str (← readHeap fun h => String.join (parts.map h.render)))
  | .binarySubscr => proceed do
    let index ← pop
    let object ← pop
    push (← readHeap (·.getItem object index))
  | .storeSubscr => proceed do
    let index ← pop
    let object ← pop
    let v ← pop
    onHeapOrRaise (·.setItem object index v)
  | .containsOp => proceed do
    let item ← pop
    let container ← pop
    -- a fault passes through, whether the question was negated or not
    match ← readHeap (·.contains container item) with
    | .bool found => push (.bool (found != (a != 0)))
    | v => push v
  | .length => proceed do
    let v ← pop
    push (← readHeap (·.length v))
  | .slice => proceed do
    let start ← pop
    let stop ← pop
    let object ← pop
    push (← onHeap (·.slice object start stop))
  | .unpack => proceed do
    unpack n (← pop)
  | .swap => proceed (swap n)
  | .copy => proceed do
    push (← peek n)
  | .popTop => proceed do
    let _ ← pop
  | .pushNil => proceed (push .nil)
  | .pushFalse => proceed (push (.bool false))
  | .pushTrue => proceed (push (.bool true))
  | .forIter => proceed (iteration i)
  | .getIter => proceed (startIteration)
  | .loadClosure => proceed do
    push (← bindClosure a i.second)
  | .makeCell => proceed do
    match i.second with
    | 0 => push (.cell (← cellOf a))
    | 1 => push (.cell (← captured a))
    | source => throw (.internal (.cellSource source.toNat))
  | .bindPartial => proceed do
    let args ← popN n
    let callee ← pop
    push (.partialCall (← onHeap (·.newPartialCall ⟨callee, args⟩)))

/-! ### The dispatch loop -/

/-- Counts an instruction, and tells whether it is one before which the clock is looked at. -/
def tick : Exec Bool := fun ⟨⟨config, stack, frames, registry, position, status, ticks⟩, world⟩ =>
  .ok ((ticks + 1) % config.checkInterval == 0)
    ⟨⟨config, stack, frames, registry, position, status, ticks + 1⟩, world⟩

/-- A question put to the controls, whose interrupt ends the run. -/
@[inline] def observe (ask : Controls → Except Interrupt Unit) : Exec Unit := do
  match ask (← get).world.controls with
  | .ok () => return
  | .error interrupt => throw (.interrupted interrupt)

/-- Leaves the frame of a program at its end. The value of the program is what it left on the
operand stack. -/
def endProgram (f : Frame) : Exec Flow := do
  onFrames fun frames => ((), frames.truncate (frames.size - 1))
  let v ← if f.base < (← get).machine.stack.size then pop else pure .nil
  truncate f.base
  return .leave v

/-- The next instruction of the frame on top, or what follows where its code ends. A halt leaves no
frame to any enclosing loop. -/
def fetchAndExecute (ctx : Context) : Exec Flow := do
  match (← get).machine.frames.top? with
  -- a halt further inside has dropped the frames of this loop too
  | none => return .leave (← popOrNil)
  | some f =>
    if f.ip < f.code.size then
      match f.code.fetch f.ip with
      | .error e => throw e
      | .ok i =>
        -- jumps count from the start of their own instruction, which `i` still knows
        modifyFrame ({ · with ip := i.stop })
        execute ctx i
    else
      match f.function with
      | some g => throw (.internal (.ranPastCode (g.name.getD "<anonymous>")))
      | none => endProgram f

/-- **One turn of the loop.** The cancel flags are looked at before every instruction and the clock
from time to time. -/
def turn (ctx : Context) : Exec Flow := do
  observe ctx.checkCancelled
  if ← tick then observe ctx.checkDeadline
  fetchAndExecute ctx

end Exec

end ScriptEngine
