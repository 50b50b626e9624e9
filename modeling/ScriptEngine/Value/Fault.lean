import ScriptEngine.Bytecode.Opcode
import ScriptEngine.Text.Quoted
import ScriptEngine.Value.Basic

/-!
# Faults of operations on values

The ways in which an operation on values can fail, as causes. A fault becomes an unraised error
value, so that a script goes on with it as data.

## Main definitions

* `ScriptEngine.Fault`: the causes;
* `ScriptEngine.Fault.message`: their wording;
* `ScriptEngine.Value.fault`: the error value of a fault.
-/

namespace ScriptEngine

/-- The bound of a slice that a fault is about. -/
inductive SliceBound where
  | start
  | stop
deriving DecidableEq, Repr

def SliceBound.name : SliceBound → String
  | .start => "start"
  | .stop => "stop"

/-- Why an operation on values failed. The type names are those of the values concerned. -/
inductive Fault where
  | unsupported (left : String) (op : BinaryOperator) (right : String)
  | divisionByZero
  | negativeShift
  | shiftTooLarge
  | incomparable (left right : String)
  | badNegation (operand : String)
  | unhashable (type : String)
  | listIndex (got : String)
  | stringIndex (got : String)
  | mapKey (got : String)
  | indexOutOfRange (index : Int64)
  | notSubscriptable (type : String)
  | itemAssignment (type : String)
  | notContainer (type : String)
  | noLength (type : String)
  | notSliceable (type : String)
  | sliceIndex (bound : SliceBound) (got : String)
  | sliceOutOfRange (bound : SliceBound)
  | sliceReversed
  | setAttribute (name type : String)
  | popFromEmpty
  | stringArgument (method got : String)
  | notSpawnable (got : String)
  | channelSize (got : String)
  | sendOnClosed
  | measureOperation (op : BinaryOperator)
  | measureComparison
  | measureAttribute
deriving DecidableEq, Repr

/-- The wording of a fault. -/
def Fault.message : Fault → String
  | .unsupported left op right =>
    "type error: unsupported operation for " ++ left ++ ": " ++ op.symbol ++ " on type " ++ right
  | .divisionByZero => "value error: division by zero"
  | .negativeShift => "value error: negative shift count"
  | .shiftTooLarge => "value error: shift count too large"
  | .incomparable left right => "type error: unable to compare " ++ left ++ " and " ++ right
  | .badNegation operand => "type error: bad operand type for unary -: " ++ operand
  | .unhashable type => "type error: unhashable type: " ++ type
  | .listIndex got => "type error: list index must be an int (got " ++ got ++ ")"
  | .stringIndex got => "type error: string index must be an int (got " ++ got ++ ")"
  | .mapKey got => "type error: map key must be a string (got " ++ got ++ ")"
  | .indexOutOfRange index => "index error: index out of range: " ++ toString index.toInt
  | .notSubscriptable type => "type error: " ++ type ++ " object is not subscriptable"
  | .itemAssignment type => "type error: set item is unsupported for " ++ type
  | .notContainer type => "type error: " ++ type ++ " object is not a container"
  | .noLength type => "type error: " ++ type ++ " object has no length"
  | .notSliceable type => "type error: " ++ type ++ " object is not sliceable"
  | .sliceIndex bound got =>
    "type error: slice " ++ bound.name ++ " index must be an int (got " ++ got ++ ")"
  | .sliceOutOfRange bound => "slice error: " ++ bound.name ++ " index is out of range"
  | .sliceReversed => "slice error: start index is greater than stop index"
  | .setAttribute name type =>
    "type error: cannot set attribute " ++ Text.quoted name ++ " on " ++ type ++ " object"
  | .popFromEmpty => "index error: pop from empty list"
  | .stringArgument method got =>
    "type error: " ++ method ++ "() expected a string argument (got " ++ got ++ ")"
  | .notSpawnable got => "type error: spawn() expected a callable (got " ++ got ++ ")"
  | .channelSize got => "type error: chan() expected a non-negative int (got " ++ got ++ ")"
  | .sendOnClosed => "send on closed channel"
  | .measureOperation op => "meters cannot " ++ op.symbol
  | .measureComparison => "meters only compare to meters"
  | .measureAttribute => "meters.value takes an int"

/-- The unraised error of a fault. -/
def Fault.toError (f : Fault) : ErrorValue :=
  ⟨f.message, false⟩

/-- The value that an operation yields in place of a result. -/
def Value.fault (f : Fault) : Value :=
  .error f.toError

@[simp] theorem Fault.toError_raised (f : Fault) : f.toError.raised = false := rfl

@[simp] theorem Value.isError_fault (f : Fault) : (Value.fault f).isError = true := rfl

end ScriptEngine
