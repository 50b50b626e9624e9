import ScriptEngine.Syntax.Operator

/-!
# Errors of the compiler

## Main definitions

* `ScriptEngine.CompileError`: why a batch is refused;
* `ScriptEngine.CompileError.message`: the wording.
-/

namespace ScriptEngine

/-- How the value of a name is stored. -/
inductive Storage where
  /-- A slot of the program. -/
  | global
  /-- A slot of the frame of the current function. -/
  | local
  /-- A cell that the current function captured. -/
  | free
  | builtin
deriving DecidableEq, Repr, Inhabited

def Storage.name : Storage → String
  | .global => "Global"
  | .local => "Local"
  | .free => "Free"
  | .builtin => "Builtin"

/-- What a function or a call has too many of. -/
inductive Countable where
  | parameters
  | arguments
  | items
deriving DecidableEq, Repr

def Countable.name : Countable → String
  | .parameters => "parameter"
  | .arguments => "args"
  | .items => "items"

/-- **Why a batch is refused.** -/
inductive CompileError where
  | undefined (name : String)
  | duplicateDeclaration (name : String)
  | assignToConstant (name : String)
  | pipeTooShort
  | nestedPipe
  | returnOutsideFunction
  | breakOutsideLoop
  | continueOutsideLoop
  | unsupportedDefault (parameter : String)
  | tooManySymbols
  | tooManyConstants
  | tooMany (what : Countable) (limit got : Nat)
  | jumpTooFar
  | indexOperator (op : AssignOp)
  | rangeNames (count : Nat)
  | unnamedFunction
  | captureUnresolved (name : String)
  | captureMisplaced (name : String) (storage : Storage)
deriving DecidableEq, Repr

/-- The kind of an error, by which a host tells errors apart without reading them. -/
def CompileError.kind : CompileError → String
  | .undefined _ => "Undefined"
  | .duplicateDeclaration _ => "DuplicateDeclaration"
  | .assignToConstant _ => "AssignToConstant"
  | .pipeTooShort => "PipeTooShort"
  | .nestedPipe => "NestedPipe"
  | .returnOutsideFunction => "ReturnOutsideFunction"
  | .breakOutsideLoop => "BreakOutsideLoop"
  | .continueOutsideLoop => "ContinueOutsideLoop"
  | .unsupportedDefault _ => "UnsupportedDefault"
  | .tooManySymbols => "TooManySymbols"
  | .tooManyConstants => "TooManyConstants"
  | .tooMany .. => "TooManyArguments"
  | .jumpTooFar => "JumpTooFar"
  | .indexOperator _ | .rangeNames _ => "Unsupported"
  | .unnamedFunction | .captureUnresolved _ | .captureMisplaced .. => "Internal"

/-- The wording of an error without the words that all of them begin with. -/
def CompileError.cause : CompileError → String
  | .undefined name => "undefined variable " ++ Text.quoted name
  | .duplicateDeclaration name => "variable " ++ Text.quoted name ++ " already exists"
  | .assignToConstant name => "cannot assign to constant " ++ Text.quoted name
  | .pipeTooShort => "the pipe operator requires at least two expressions"
  | .nestedPipe => "invalid nested pipe"
  | .returnOutsideFunction => "invalid return statement outside of a function"
  | .breakOutsideLoop => "invalid break statement outside of a loop"
  | .continueOutsideLoop => "invalid continue statement outside of a loop"
  | .unsupportedDefault parameter =>
    "unsupported default value for parameter " ++ Text.quoted parameter
  | .tooManySymbols => "too many symbols"
  | .tooManyConstants => "number of constants exceeded limits"
  | .tooMany what limit got =>
    "max " ++ what.name ++ " limit of " ++ toString limit ++ " exceeded (got " ++ toString got
      ++ ")"
  | .jumpTooFar => "jump destination is too far away"
  | .indexOperator op => "unsupported operator " ++ op.name ++ " on an index expression"
  | .rangeNames count => "unsupported range loop with " ++ toString count ++ " names"
  | .unnamedFunction => "internal: function declaration without a name"
  | .captureUnresolved name => "internal: captured " ++ Text.quoted name ++ " is unresolvable"
  | .captureMisplaced name storage =>
    "internal: captured " ++ Text.quoted name ++ " resolved to a " ++ storage.name ++ " symbol"

/-- The wording of an error. -/
def CompileError.message (e : CompileError) : String :=
  "compile error: " ++ e.cause

end ScriptEngine
