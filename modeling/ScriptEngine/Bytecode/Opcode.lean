/-!
# The instruction set

Code is a sequence of 16-bit words. An instruction is the word of its opcode followed by its
operands; the operand of a jump is a distance measured from the word of the jump itself.

## Main definitions

* `ScriptEngine.Opcode`: the opcodes, with their words, names and numbers of operands;
* `ScriptEngine.Opcode.ofWord?`: the opcode of a word;
* `ScriptEngine.BinaryOperator`, `ScriptEngine.Comparison`: the operands of the two opcodes that
  stand for a family of operators.

## Main results

* `ScriptEngine.Opcode.ofWord?_word`: every opcode is read back from its word.
-/

namespace ScriptEngine

/-- A unit of code. -/
abbrev Word := UInt16

/-- The distance of a jump whose target is not known yet. -/
def placeholder : Word := 0xffff

inductive Opcode where
  /-- Does nothing, and is a stable target of jumps. -/
  | nop
  /-- Ends the run. -/
  | halt
  /-- Calls the value below the operand's number of arguments. -/
  | call
  /-- Leaves the frame, with nil for the operand 0 and with the top value otherwise. -/
  | returnValue
  | jumpBackward
  | jumpForward
  | popJumpForwardIfFalse
  | popJumpForwardIfTrue
  /-- Replaces the top value by one of its attributes, given by the name pool. -/
  | loadAttr
  /-- Pushes a local slot. -/
  | loadFast
  /-- Pushes the content of a captured cell. -/
  | loadFree
  | loadGlobal
  | loadConst
  | loadBuiltin
  /-- Sets an attribute of the top value to the value below it. -/
  | storeAttr
  | storeFast
  | storeFree
  | storeGlobal
  /-- The operand is the word of a `BinaryOperator`. -/
  | binaryOp
  /-- The operand is the word of a `Comparison`. -/
  | compareOp
  | unaryNegative
  | unaryNot
  | buildList
  /-- The operand counts pairs of a key and a value. -/
  | buildMap
  | buildSet
  /-- Joins the texts of the operand's number of values. -/
  | buildString
  | binarySubscr
  /-- Stores the third value under the top value as an index of the second. -/
  | storeSubscr
  /-- Looks for the top value in the value below it; any operand but 0 inverts the answer. -/
  | containsOp
  | length
  /-- The bounds are the top value and the value below it. -/
  | slice
  /-- Pushes the items of a list that has as many as the operand says. -/
  | unpack
  /-- Swaps the top value with the one that lies the operand's number of places below it. -/
  | swap
  /-- Pushes the value that lies the operand's number of places below the top. -/
  | copy
  | popTop
  | pushNil
  | pushFalse
  | pushTrue
  /-- Advances the iterator on top. The operands are the exit and the number of names to bind. -/
  | forIter
  | getIter
  /-- Binds a function constant to as many cells as the second operand says. -/
  | loadClosure
  /-- Pushes the cell of a local slot (second operand 0) or a captured cell (1). -/
  | makeCell
  /-- Binds the operand's number of arguments to the callable below them. -/
  | bindPartial
deriving DecidableEq, Repr

namespace Opcode

/-- The word of an opcode. -/
def word : Opcode → Word
  | .nop => 1
  | .halt => 2
  | .call => 3
  | .returnValue => 4
  | .jumpBackward => 10
  | .jumpForward => 11
  | .popJumpForwardIfFalse => 12
  | .popJumpForwardIfTrue => 13
  | .loadAttr => 20
  | .loadFast => 21
  | .loadFree => 22
  | .loadGlobal => 23
  | .loadConst => 24
  | .loadBuiltin => 25
  | .storeAttr => 30
  | .storeFast => 31
  | .storeFree => 32
  | .storeGlobal => 33
  | .binaryOp => 40
  | .compareOp => 41
  | .unaryNegative => 42
  | .unaryNot => 43
  | .buildList => 50
  | .buildMap => 51
  | .buildSet => 52
  | .buildString => 53
  | .binarySubscr => 60
  | .storeSubscr => 61
  | .containsOp => 62
  | .length => 63
  | .slice => 64
  | .unpack => 65
  | .swap => 70
  | .copy => 71
  | .popTop => 72
  | .pushNil => 80
  | .pushFalse => 81
  | .pushTrue => 82
  | .forIter => 90
  | .getIter => 91
  | .loadClosure => 120
  | .makeCell => 121
  | .bindPartial => 130

/-- The name of an opcode in the text of code. -/
def name : Opcode → String
  | .nop => "NOP"
  | .halt => "HALT"
  | .call => "CALL"
  | .returnValue => "RETURN_VALUE"
  | .jumpBackward => "JUMP_BACKWARD"
  | .jumpForward => "JUMP_FORWARD"
  | .popJumpForwardIfFalse => "POP_JUMP_FORWARD_IF_FALSE"
  | .popJumpForwardIfTrue => "POP_JUMP_FORWARD_IF_TRUE"
  | .loadAttr => "LOAD_ATTR"
  | .loadFast => "LOAD_FAST"
  | .loadFree => "LOAD_FREE"
  | .loadGlobal => "LOAD_GLOBAL"
  | .loadConst => "LOAD_CONST"
  | .loadBuiltin => "LOAD_BUILTIN"
  | .storeAttr => "STORE_ATTR"
  | .storeFast => "STORE_FAST"
  | .storeFree => "STORE_FREE"
  | .storeGlobal => "STORE_GLOBAL"
  | .binaryOp => "BINARY_OP"
  | .compareOp => "COMPARE_OP"
  | .unaryNegative => "UNARY_NEGATIVE"
  | .unaryNot => "UNARY_NOT"
  | .buildList => "BUILD_LIST"
  | .buildMap => "BUILD_MAP"
  | .buildSet => "BUILD_SET"
  | .buildString => "BUILD_STRING"
  | .binarySubscr => "BINARY_SUBSCR"
  | .storeSubscr => "STORE_SUBSCR"
  | .containsOp => "CONTAINS_OP"
  | .length => "LENGTH"
  | .slice => "SLICE"
  | .unpack => "UNPACK"
  | .swap => "SWAP"
  | .copy => "COPY"
  | .popTop => "POP_TOP"
  | .pushNil => "NIL"
  | .pushFalse => "FALSE"
  | .pushTrue => "TRUE"
  | .forIter => "FOR_ITER"
  | .getIter => "GET_ITER"
  | .loadClosure => "LOAD_CLOSURE"
  | .makeCell => "MAKE_CELL"
  | .bindPartial => "PARTIAL"

/-- The number of operands that follow an opcode. -/
def operandCount : Opcode → Nat
  | .nop | .halt | .unaryNegative | .unaryNot | .binarySubscr | .storeSubscr | .length | .slice |
    .popTop | .pushNil | .pushFalse | .pushTrue | .getIter => 0
  | .forIter | .loadClosure | .makeCell => 2
  | _ => 1

/-- Every opcode, in the order of the words. -/
def all : List Opcode :=
  [nop, halt, call, returnValue, jumpBackward, jumpForward, popJumpForwardIfFalse,
   popJumpForwardIfTrue, loadAttr, loadFast, loadFree, loadGlobal, loadConst, loadBuiltin,
   storeAttr, storeFast, storeFree, storeGlobal, binaryOp, compareOp, unaryNegative, unaryNot,
   buildList, buildMap, buildSet, buildString, binarySubscr, storeSubscr, containsOp, length,
   slice, unpack, swap, copy, popTop, pushNil, pushFalse, pushTrue, forIter, getIter,
   loadClosure, makeCell, bindPartial]

/-- The opcode of a word. -/
def ofWord? : Word → Option Opcode
  | 1 => some .nop
  | 2 => some .halt
  | 3 => some .call
  | 4 => some .returnValue
  | 10 => some .jumpBackward
  | 11 => some .jumpForward
  | 12 => some .popJumpForwardIfFalse
  | 13 => some .popJumpForwardIfTrue
  | 20 => some .loadAttr
  | 21 => some .loadFast
  | 22 => some .loadFree
  | 23 => some .loadGlobal
  | 24 => some .loadConst
  | 25 => some .loadBuiltin
  | 30 => some .storeAttr
  | 31 => some .storeFast
  | 32 => some .storeFree
  | 33 => some .storeGlobal
  | 40 => some .binaryOp
  | 41 => some .compareOp
  | 42 => some .unaryNegative
  | 43 => some .unaryNot
  | 50 => some .buildList
  | 51 => some .buildMap
  | 52 => some .buildSet
  | 53 => some .buildString
  | 60 => some .binarySubscr
  | 61 => some .storeSubscr
  | 62 => some .containsOp
  | 63 => some .length
  | 64 => some .slice
  | 65 => some .unpack
  | 70 => some .swap
  | 71 => some .copy
  | 72 => some .popTop
  | 80 => some .pushNil
  | 81 => some .pushFalse
  | 82 => some .pushTrue
  | 90 => some .forIter
  | 91 => some .getIter
  | 120 => some .loadClosure
  | 121 => some .makeCell
  | 130 => some .bindPartial
  | _ => none

/-- The opcodes whose first operand is the distance of a jump. -/
def isJump : Opcode → Bool
  | .jumpBackward | .jumpForward | .popJumpForwardIfFalse | .popJumpForwardIfTrue | .forIter => true
  | _ => false

theorem ofWord?_word (op : Opcode) : ofWord? op.word = some op := by
  cases op <;> rfl

theorem operandCount_le_two (op : Opcode) : op.operandCount ≤ 2 := by
  cases op <;> decide

end Opcode

/-- The operators behind `Opcode.binaryOp`. -/
inductive BinaryOperator where
  | add | subtract | multiply | divide | modulo
  | and | or
  | xor | power | shiftLeft | shiftRight | bitAnd | bitOr
deriving DecidableEq, Repr

namespace BinaryOperator

def word : BinaryOperator → Word
  | .add => 1
  | .subtract => 2
  | .multiply => 3
  | .divide => 4
  | .modulo => 5
  | .and => 6
  | .or => 7
  | .xor => 8
  | .power => 9
  | .shiftLeft => 10
  | .shiftRight => 11
  | .bitAnd => 12
  | .bitOr => 13

/-- The operator of a word. -/
def ofWord? : Word → Option BinaryOperator
  | 1 => some .add
  | 2 => some .subtract
  | 3 => some .multiply
  | 4 => some .divide
  | 5 => some .modulo
  | 6 => some .and
  | 7 => some .or
  | 8 => some .xor
  | 9 => some .power
  | 10 => some .shiftLeft
  | 11 => some .shiftRight
  | 12 => some .bitAnd
  | 13 => some .bitOr
  | _ => none

def name : BinaryOperator → String
  | .add => "Add"
  | .subtract => "Subtract"
  | .multiply => "Multiply"
  | .divide => "Divide"
  | .modulo => "Modulo"
  | .and => "And"
  | .or => "Or"
  | .xor => "Xor"
  | .power => "Power"
  | .shiftLeft => "LShift"
  | .shiftRight => "RShift"
  | .bitAnd => "BitwiseAnd"
  | .bitOr => "BitwiseOr"

/-- The sign of an operator inside a message. -/
def symbol : BinaryOperator → String
  | .add => "+"
  | .subtract => "-"
  | .multiply => "*"
  | .divide => "/"
  | .modulo => "%"
  | .and => "&&"
  | .or => "||"
  | .xor => "^"
  | .power => "**"
  | .shiftLeft => "<<"
  | .shiftRight => ">>"
  | .bitAnd => "&"
  | .bitOr => "|"

theorem ofWord?_word (op : BinaryOperator) : ofWord? op.word = some op := by
  cases op <;> rfl

end BinaryOperator

/-- The comparisons behind `Opcode.compareOp`. -/
inductive Comparison where
  | lessThan
  | lessThanOrEqual
  | equal
  | notEqual
  | greaterThan
  | greaterThanOrEqual
deriving DecidableEq, Repr

namespace Comparison

def word : Comparison → Word
  | .lessThan => 1
  | .lessThanOrEqual => 2
  | .equal => 3
  | .notEqual => 4
  | .greaterThan => 5
  | .greaterThanOrEqual => 6

/-- The comparison of a word. -/
def ofWord? : Word → Option Comparison
  | 1 => some .lessThan
  | 2 => some .lessThanOrEqual
  | 3 => some .equal
  | 4 => some .notEqual
  | 5 => some .greaterThan
  | 6 => some .greaterThanOrEqual
  | _ => none

def name : Comparison → String
  | .lessThan => "LessThan"
  | .lessThanOrEqual => "LessThanOrEqual"
  | .equal => "Equal"
  | .notEqual => "NotEqual"
  | .greaterThan => "GreaterThan"
  | .greaterThanOrEqual => "GreaterThanOrEqual"

def symbol : Comparison → String
  | .lessThan => "<"
  | .lessThanOrEqual => "<="
  | .equal => "=="
  | .notEqual => "!="
  | .greaterThan => ">"
  | .greaterThanOrEqual => ">="

theorem ofWord?_word (op : Comparison) : ofWord? op.word = some op := by
  cases op <;> rfl

end Comparison

end ScriptEngine
