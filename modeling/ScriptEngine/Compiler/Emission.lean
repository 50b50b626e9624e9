import ScriptEngine.Bytecode.Code
import ScriptEngine.Compiler.Error
import ScriptEngine.Scope.Table

/-!
# Emitting code

The state in which code is emitted, and the steps from which the compilation of every construct is
put together: instructions, constants, jumps that are completed later, names and scopes.

## Main definitions

* `ScriptEngine.Body`: the body of a function or of the program while it is emitted;
* `ScriptEngine.Emission`: the whole state;
* `ScriptEngine.Emit`: steps that emit code or fail.

## Implementation notes

A step that fails keeps the state it failed in, because the declarations made until then outlive
the batch.
-/

namespace ScriptEngine

/-- An open loop: the jumps that wait for its exit and for its next round, and the number of values
that the body holds on the operand stack at the moment. -/
structure OpenLoop where
  breaks : List Nat := []
  continues : List Nat := []
  held : Nat := 0
deriving Inhabited

/-- **A body under construction**, with its innermost open scope and its open loops, innermost
first. -/
structure Body where
  code : Code
  scope : ScopeId
  loops : List OpenLoop := []
  inPipe : Bool := false
deriving Inhabited

/-- **The state of a compilation.** `body` is the innermost one, and `enclosing` are the bodies
around it. Compiled functions are appended to `functions`. -/
structure Emission where
  table : ScopeTable
  body : Body
  enclosing : List Body := []
  source : Option String := none
  functions : Array Function

/-- Steps that emit code or refuse the batch. -/
abbrev Emit := EStateM CompileError Emission

namespace Emit

/-! ### Access to the state -/

/-- A change of the innermost body, with a result. -/
def onBody {α : Type} (f : Body → α × Body) : Emit α := fun ⟨table, body, enclosing, source, fs⟩ =>
  let (a, body) := f body
  .ok a ⟨table, body, enclosing, source, fs⟩

/-- A change of the innermost code, with a result. -/
def onCode {α : Type} (f : Code → α × Code) : Emit α :=
  onBody fun ⟨code, scope, loops, inPipe⟩ =>
    let (a, code) := f code
    (a, ⟨code, scope, loops, inPipe⟩)

/-- A step on the scopes. -/
def onTable {α : Type} (step : Scoped α) : Emit α := fun ⟨table, body, enclosing, source, fs⟩ =>
  match step table with
  | .ok a table => .ok a ⟨table, body, enclosing, source, fs⟩
  | .error e table => .error e ⟨table, body, enclosing, source, fs⟩

/-- The length of the innermost code. -/
def position : Emit Nat := do
  return (← get).body.code.size

/-- The innermost open scope. -/
def scope : Emit ScopeId := do
  return (← get).body.scope

/-! ### Instructions -/

/-- An instruction, whose offset is the result. -/
def emit (op : Opcode) (operands : List Word := []) : Emit Nat :=
  onCode fun code => (code.size, code.emit op operands)

/-- An instruction. -/
def instruction (op : Opcode) (operands : List Word := []) : Emit Unit := do
  let _ ← emit op operands

/-- An index into a pool. -/
def fromPool (add : Code → Option (Word × Code)) : Emit Word := fun s =>
  match add s.body.code with
  | some (index, code) => .ok index { s with body := { s.body with code } }
  | none => .error .tooManyConstants s

/-- The index of a constant. -/
def constantIndex (v : Value) : Emit Word :=
  fromPool (·.addConstant? v)

/-- The index of a name. -/
def nameIndex (name : String) : Emit Word :=
  fromPool (·.addName? name)

/-- The instruction that pushes a constant. -/
def constant (v : Value) : Emit Unit := do
  instruction .loadConst [← constantIndex v]

/-! ### Jumps -/

/-- A jump forward whose distance is not known yet. -/
def jump (op : Opcode) : Emit Nat :=
  emit op [placeholder]

/-- The distance of a jump forward, once its target is known. The distance of a jump that waits for
its target is no distance. -/
def completeJump (jump target : Nat) : Emit Unit := do
  let distance := target - jump
  if distance < placeholder.toNat then
    onCode fun code => ((), code.patch (jump + 1) distance.toUInt16)
  else throw .jumpTooFar

/-- A jump forward leads to the next instruction. -/
def landHere (jump : Nat) : Emit Unit := do
  completeJump jump (← position)

/-- A jump back to a target. -/
def jumpBack (target : Nat) : Emit Unit := do
  let distance := (← position) - target
  if distance ≤ 0xffff then instruction .jumpBackward [distance.toUInt16]
  else throw .jumpTooFar

/-! ### Loops -/

/-- A change of the innermost open loop, if there is one. -/
def onLoop (f : OpenLoop → OpenLoop) : Emit Unit :=
  onBody fun b =>
    match b.loops with
    | [] => ((), b)
    | l :: loops => ((), { b with loops := f l :: loops })

/-- The body of a loop, emitted with the loop open. The value that it leaves is dropped, and the
result is the loop with its pending jumps. -/
def loopBody (body : Emit Unit) : Emit OpenLoop := do
  onBody fun b => ((), { b with loops := {} :: b.loops })
  body
  -- by now the loop has collected the jumps of its breaks and continues
  let loop ← onBody fun b => (b.loops.headD {}, { b with loops := b.loops.tail })
  instruction .popTop
  return loop

/-- The pending jumps of a loop lead to its exit and to its next round. -/
def closeLoop (loop : OpenLoop) (exit next : Nat) : Emit Unit := do
  loop.breaks.forM (completeJump · exit)
  loop.continues.forM (completeJump · next)

/-- A break or continue: the values that the loop holds are dropped before the jump. -/
def leaveLoop (isBreak : Bool) : Emit Unit := do
  match (← get).body.loops with
  | [] => throw (if isBreak then .breakOutsideLoop else .continueOutsideLoop)
  | loop :: _ =>
    -- the target of the jump expects none of the values held by enclosing switches
    (List.replicate loop.held ()).forM fun _ => instruction .popTop
    let j ← jump .jumpForward
    onLoop fun l =>
      if isBreak then { l with breaks := l.breaks ++ [j] }
      else { l with continues := l.continues ++ [j] }

/-- Steps during which the innermost loop holds one more value on the operand stack. -/
def holding (steps : Emit Unit) : Emit Unit := do
  onLoop fun l => { l with held := l.held + 1 }
  steps
  onLoop fun l => { l with held := l.held - 1 }

/-! ### Scopes and names -/

/-- Steps inside a new block scope. -/
def inBlock (steps : Emit Unit) : Emit Unit := do
  let outer ← scope
  let inner ← onTable (ScopeTable.openScope outer .block)
  onBody fun b => ((), { b with scope := inner })
  steps
  onBody fun b => ((), { b with scope := outer })

/-- The declaration that a name refers to. -/
def resolve (name : String) : Emit Resolution := do
  let s ← scope
  match ← onTable (ScopeTable.resolve s name) with
  | some found => return found
  | none => throw (.undefined name)

/-- The declaration that a name refers to, if it may be assigned to. -/
def resolveAssignable (name : String) : Emit Resolution := do
  let found ← resolve name
  if found.symbol.constant ∨ found.storage = .builtin then throw (.assignToConstant name)
  return found

/-- The instruction that pushes the value of a name. -/
def load (r : Resolution) : Emit Unit :=
  match r.storage with
  | .global => instruction .loadGlobal [r.symbol.index]
  | .local => instruction .loadFast [r.symbol.index]
  | .free => instruction .loadFree [r.freeIndex]
  | .builtin => instruction .loadBuiltin [r.symbol.index]

/-- The instruction that stores the top value under a name. -/
def store (r : Resolution) : Emit Unit :=
  match r.storage with
  | .global => instruction .storeGlobal [r.symbol.index]
  | .local => instruction .storeFast [r.symbol.index]
  | .free => instruction .storeFree [r.freeIndex]
  | .builtin => throw (.assignToConstant r.symbol.name)

/-- The opcode that stores into a slot of the current scope. -/
def slotStore : Emit Opcode := do
  let s ← get
  return if s.table.isGlobal s.body.scope then .storeGlobal else .storeFast

/-- A new name in the current scope. -/
def newName (name : String) (constant : Bool) : Emit Symbol := do
  let s ← scope
  onTable (ScopeTable.declare s name constant)

/-- The declaration of a name, with the top value as its value. -/
def declare (name : String) (constant : Bool) : Emit Unit := do
  let symbol ← newName name constant
  instruction (← slotStore) [symbol.index]

end Emit

end ScriptEngine
