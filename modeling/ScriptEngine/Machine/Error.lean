import ScriptEngine.Bytecode.Opcode
import ScriptEngine.Resource.Context
import ScriptEngine.Text.Quoted
import ScriptEngine.Value.Basic

/-!
# Errors that end a run

A failure that a script cannot handle ends its run. The causes are told apart, and each has its
wording in one place.

## Main definitions

* `ScriptEngine.RuntimeError`: the errors;
* `ScriptEngine.TypeFault`, `ScriptEngine.InternalFault`: the causes of two of them;
* `ScriptEngine.RuntimeError.message`: their wording;
* `ScriptEngine.RuntimeError.toError`: the error value that a script is shown.
-/

namespace ScriptEngine

/-- The numbers of arguments that a callable takes. -/
inductive Arity where
  | exactly (n : Nat)
  | between (low high : Nat)
  | atLeast (n : Nat)
deriving DecidableEq, Repr

def Arity.text : Arity → String
  | .exactly n => toString n
  | .between low high => toString low ++ " to " ++ toString high
  | .atLeast n => "at least " ++ toString n

/-- A value of the wrong type, or the wrong number of values, that ends a run. -/
inductive TypeFault where
  | argumentLimit (limit got : Nat)
  | mapKey (got : String)
  | notIterable (type : String)
  | notUnpackable (type : String)
  | unpackCount (expected got : Nat)
  | noAttribute (name type : String)
deriving DecidableEq, Repr

def TypeFault.message : TypeFault → String
  | .argumentLimit limit got =>
    "max arguments limit of " ++ toString limit ++ " exceeded (got " ++ toString got ++ ")"
  | .mapKey got => "map keys must be strings (got " ++ got ++ ")"
  | .notIterable type => type ++ " object is not iterable"
  | .notUnpackable type => "cannot unpack " ++ type ++ " object"
  | .unpackCount expected got =>
    "unpack count mismatch: expected " ++ toString expected ++ " values (got "
      ++ toString got ++ ")"
  | .noAttribute name type =>
    "attribute " ++ Text.quoted name ++ " not found on " ++ type ++ " object"

/-- A state that only ill-formed code or a misuse of the machine leads to. -/
inductive InternalFault where
  | noFrame
  | ranPastCode (function : String)
  | missingOperands (op : Opcode) (offset : Nat)
  | jumpBeforeCode
  | jumpOutside (target : Nat)
  | forIterWithoutIterator
  | returnWithoutFrame
  | constantOutOfRange (index : Nat)
  | nameOutOfRange (index : Nat)
  | localOutOfRange (slot : Nat)
  | freeOutOfRange (index : Nat)
  | builtinMissing (index : Nat)
  | notAFunction (constant : Nat)
  | notACell (type : String)
  | cellSource (source : Nat)
  | unknownBinary (word : Nat)
  | unknownComparison (word : Nat)
  | workerLost
  | builtinMoved (name : String) (index slot : Nat)
deriving DecidableEq, Repr

def InternalFault.message : InternalFault → String
  | .noFrame => "no active frame"
  | .ranPastCode function => "function " ++ function ++ " ran past its code"
  | .missingOperands op offset => op.name ++ " at " ++ toString offset ++ " is missing operands"
  | .jumpBeforeCode => "backward jump before code start"
  | .jumpOutside target => "jump target " ++ toString target ++ " is outside the code"
  | .forIterWithoutIterator => "FOR_ITER without an iterator"
  | .returnWithoutFrame => "return without a frame"
  | .constantOutOfRange index => "constant " ++ toString index ++ " out of range"
  | .nameOutOfRange index => "name " ++ toString index ++ " out of range"
  | .localOutOfRange slot => "local slot " ++ toString slot ++ " out of range"
  | .freeOutOfRange index => "free variable " ++ toString index ++ " out of range"
  | .builtinMissing index => "builtin " ++ toString index ++ " is not registered"
  | .notAFunction constant => "constant " ++ toString constant ++ " is not a function"
  | .notACell type => "expected a cell, found " ++ type
  | .cellSource source => "invalid cell source " ++ toString source
  | .unknownBinary word => "unknown binary operator " ++ toString word
  | .unknownComparison word => "unknown comparison operator " ++ toString word
  | .workerLost => "worker exited without a result"
  | .builtinMoved name index slot =>
    "builtin " ++ Text.quoted name ++ " registered at " ++ toString index ++ ", compiled as "
      ++ toString slot

/-- **An error that ends a run.** -/
inductive RuntimeError where
  | notCallable (type : String)
  | argumentCount (callable : String) (expected : Arity) (got : Nat)
  | stackOverflow
  | stackUnderflow
  | unknownOpcode (word : Word)
  | typeError (fault : TypeFault)
  | raised (e : ErrorValue)
  | limit (e : LimitError)
  | interrupted (i : Interrupt)
  | internal (fault : InternalFault)
deriving DecidableEq, Repr

namespace RuntimeError

def message : RuntimeError → String
  | notCallable type => "type error: object is not callable (got " ++ type ++ ")"
  | argumentCount callable expected got =>
    "argument error: " ++ callable ++ "() takes " ++ expected.text ++ " arguments ("
      ++ toString got ++ " given)"
  | stackOverflow => "stack overflow"
  | stackUnderflow => "stack underflow"
  | unknownOpcode word => "unknown opcode: " ++ toString word.toNat
  | typeError fault => "type error: " ++ fault.message
  | raised e => e.message
  | limit e => e.message
  | interrupted i => i.message
  | internal fault => "internal error: " ++ fault.message

/-- The kind of an error, by which a host tells errors apart without reading them. -/
def kind : RuntimeError → String
  | notCallable _ => "NotCallable"
  | argumentCount .. => "ArgumentCount"
  | stackOverflow => "StackOverflow"
  | stackUnderflow => "StackUnderflow"
  | unknownOpcode _ => "UnknownOpcode"
  | typeError _ => "TypeError"
  | raised _ => "Raised"
  | limit e => "Limit." ++ e.kind
  | interrupted i => "Interrupted." ++ i.kind
  | internal _ => "Internal"

def isLimit : RuntimeError → Bool
  | limit _ => true
  | _ => false

/-- The error of a value that is raised, whether it was before or not. -/
def ofErrorValue (e : ErrorValue) : RuntimeError :=
  raised e.raise

/-- The error as a script-visible value: a raised value is itself, and every other error is a raised
value with its wording. -/
def toError : RuntimeError → ErrorValue
  | raised e => e
  | e => ⟨e.message, true⟩

end RuntimeError

/-- What a call or a run ends with. -/
abbrev Outcome := Except RuntimeError Value

end ScriptEngine
