import ScriptEngine.Bytecode.Opcode
import ScriptEngine.Value.Basic

/-!
# Code

The code of a function or of a program: its words and the two pools that they refer to, constants
and names of attributes.

## Main definitions

* `ScriptEngine.Code`: a body of code;
* `ScriptEngine.Code.emit`, `ScriptEngine.Code.patch`: appending an instruction and replacing a
  word;
* `ScriptEngine.Code.truncate`: taking back what was appended;
* `ScriptEngine.Code.addConstant?`, `ScriptEngine.Code.addName?`: the index of a pool entry, which
  is added if it is new;
* `ScriptEngine.Code.decode`: the instructions behind the words.
-/

namespace ScriptEngine

/-- **A body of code.** `localCount` is the number of slots that a frame running it needs, and
`globalCount` the number of globals declared so far, which only program code knows. -/
structure Code where
  name : Option String := none
  source : Option String := none
  words : Array Word := #[]
  constants : Array Value := #[]
  names : Array String := #[]
  localCount : Nat := 0
  globalCount : Nat := 0
deriving DecidableEq, Inhabited

/-- A decoded instruction. Only the last one of a sequence can lack operands. -/
structure Instruction where
  offset : Nat
  op : Opcode
  operands : List Word
deriving DecidableEq, Repr

/-- A number with leading zeros up to a width. -/
def padded (width n : Nat) : String :=
  let digits := Nat.toDigits 10 n
  String.ofList (List.replicate (width - digits.length) '0' ++ digits)

/-- The text of an instruction: its offset, its name and its operands. -/
def Instruction.text (i : Instruction) : String :=
  padded 4 i.offset ++ " " ++ i.op.name
    ++ String.join (i.operands.map fun w => " " ++ toString w.toNat)

/-- The scalars that may share a pool entry: equal ones of the same kind, where floats are compared
as words. -/
def Value.sameScalar : Value → Value → Bool
  | .nil, .nil => true
  | .bool a, .bool b => a == b
  | .int a, .int b => a == b
  | .float a, .float b => a == b
  | .str a, .str b => a == b
  | _, _ => false

namespace Code

/-- Code given by its words and constants alone. -/
def ofParts (words : Array Word) (constants : Array Value) : Code :=
  { words, constants }

def size (c : Code) : Nat :=
  c.words.size

/-- The code with one more instruction. -/
def emit (c : Code) (op : Opcode) (operands : List Word) : Code :=
  { c with words := c.words.push op.word ++ operands.toArray }

/-- The code with another word at a position. -/
def patch (c : Code) (position : Nat) (word : Word) : Code :=
  { c with words := c.words.setIfInBounds position word }

/-- The code without anything behind the given numbers of words, constants and names. -/
def truncate (c : Code) (words constants names : Nat) : Code :=
  { c with
    words := c.words.take words
    constants := c.constants.take constants
    names := c.names.take names }

/-- The number of entries that a word can tell apart. -/
def poolLimit : Nat := 0x10000

/-- **The index of a constant.** An equal scalar shares its entry; every other constant gets a new
one, if there is room. -/
def addConstant? (c : Code) (v : Value) : Option (Word × Code) :=
  match c.constants.findIdx? (·.sameScalar v) with
  | some i => some (i.toUInt16, c)
  | none =>
    if c.constants.size < poolLimit then
      some (c.constants.size.toUInt16, { c with constants := c.constants.push v })
    else none

/-- **The index of a name**, which is added if it is new and there is room. -/
def addName? (c : Code) (name : String) : Option (Word × Code) :=
  match c.names.findIdx? (· == name) with
  | some i => some (i.toUInt16, c)
  | none =>
    if c.names.size < poolLimit then
      some (c.names.size.toUInt16, { c with names := c.names.push name })
    else none

/-- The instructions of words that start at an offset, after the first `skip` of them. -/
def decodeFrom : Nat → Nat → List Word → Except Word (List Instruction)
  | _, _, [] => .ok []
  | offset, skip + 1, _ :: ws => decodeFrom (offset + 1) skip ws
  | offset, 0, w :: ws =>
    match Opcode.ofWord? w with
    | none => .error w
    | some op =>
      (decodeFrom (offset + 1) op.operandCount ws).map
        (⟨offset, op, ws.take op.operandCount⟩ :: ·)

/-- **Decoding**: the instructions in order, or the first word that stands for none. -/
def decode (c : Code) : Except Word (List Instruction) :=
  decodeFrom 0 0 c.words.toList

@[simp] theorem size_emit (c : Code) (op : Opcode) (operands : List Word) :
    (c.emit op operands).size = c.size + 1 + operands.length := by
  simp [emit, size]
  omega

@[simp] theorem size_patch (c : Code) (position : Nat) (word : Word) :
    (c.patch position word).size = c.size := by
  simp [patch, size]

end Code

/-- A compiled function. Its defaults are given by position. -/
structure Function where
  name : Option String
  parameters : List String
  defaults : List (Option Value)
  code : Code
deriving DecidableEq, Inhabited

namespace Function

/-- A function whose defaults are cut or padded to its parameters. -/
def ofParts (name : Option String) (parameters : List String) (defaults : List (Option Value))
    (code : Code) : Function :=
  let given := defaults.take parameters.length
  ⟨name, parameters, given ++ List.replicate (parameters.length - given.length) none, code⟩

/-- **The arguments that a call has to supply**: everything up to the last parameter that has no
default. -/
def requiredArgs (f : Function) : Nat :=
  (f.defaults.reverse.dropWhile Option.isSome).length

end Function

end ScriptEngine
