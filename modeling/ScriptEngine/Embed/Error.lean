import ScriptEngine.Compiler.Error
import ScriptEngine.Machine.Error

/-!
# Errors for a host

What a host is told when a script does not do its work. An error value that a script ends with, or
that a builtin raises, is told apart from the failures of the machine.

## Main definitions

* `ScriptEngine.EngineError`: the errors;
* `ScriptEngine.EngineError.ofRuntime`, `ScriptEngine.EngineError.toRuntime`: errors of a run as
  errors for a host, and errors of a host's function as errors of a run.
-/

namespace ScriptEngine

/-- **An error for a host.** -/
inductive EngineError where
  | compile (e : CompileError)
  | runtime (e : RuntimeError)
  /-- A script ended with an error value, or a builtin raised one. -/
  | script (e : ErrorValue)
  /-- A value is not of the expected type, or out of its range. -/
  | conversion (expected got : String)
  | undefined (name : String)
deriving DecidableEq, Repr

namespace EngineError

def message : EngineError → String
  | compile e => e.message
  | runtime e => e.message
  | script e => "script error: " ++ e.message
  | conversion expected got => "conversion error: expected " ++ expected ++ ", got " ++ got
  | undefined name => "undefined global: " ++ name

/-- The kind of an error, by which a host tells errors apart without reading them. -/
def kind : EngineError → String
  | compile e => "Compile." ++ e.kind
  | runtime e => "Runtime." ++ e.kind
  | script _ => "Script"
  | conversion .. => "Conversion"
  | undefined _ => "Undefined"

/-- An error of a run, where a raised value is a matter of the script. -/
def ofRuntime : RuntimeError → EngineError
  | .raised e => script e
  | e => runtime e

/-- The error with which a function of the host ends the run that called it. -/
def toRuntime : EngineError → RuntimeError
  | runtime e => e
  | script e => .ofErrorValue e
  | e => .raised ⟨e.message, true⟩

end EngineError

end ScriptEngine
