import ScriptEngine.Compiler.Basic
import ScriptEngine.Embed.Conversion
import ScriptEngine.Machine.System

/-!
# Engines

A compiler and a system that share one program. Every batch is appended to the program, so that
globals and functions of earlier batches stay visible to later ones. To a host, the globals are a
store keyed by names.

## Main definitions

* `ScriptEngine.Engine`: the engines;
* `ScriptEngine.Engine.compile`, `ScriptEngine.Engine.run`, `ScriptEngine.Engine.eval`: batches;
* `ScriptEngine.Engine.get?`, `ScriptEngine.Engine.getAs`, `ScriptEngine.Engine.set`,
  `ScriptEngine.Engine.call`: globals;
* `ScriptEngine.Engine.register`: functions of the host.
-/

namespace ScriptEngine

/-- **An engine.** -/
structure Engine where
  compiler : Compiler := {}
  system : System := {}
  builtins : Registry := {}
  ctx : Context := .background

namespace Engine

instance : Inhabited Engine := ⟨{}⟩

/-- An engine that knows the given builtins, on a system that knows none yet. -/
def withBuiltins (s : System) (builtins : Registry) (ctx : Context) : Except EngineError Engine :=
  match Compiler.withBuiltins builtins.names with
  | .ok compiler => .ok { compiler, system := s.withRegistry builtins, builtins, ctx }
  | .error e => .error (.compile e)

/-- What a host is told about the value of a script: an error value is an error. -/
def ofOutcome : Outcome → Except EngineError Value
  | .ok (.error e) => .error (.script e)
  | .ok v => .ok v
  | .error e => .error (.ofRuntime e)

/-! ### Batches -/

/-- **Compiling a batch**, which the next run executes. -/
def compile (e : Engine) (program : Program) : Except EngineError Code × Engine :=
  let heap := e.system.world.heap
  let (answer, compiler, functions) := e.compiler.compile heap.functions program
  let ((), system) := e.system.onHeap fun heap => ((), { heap with functions })
  (answer.mapError .compile, { e with compiler, system })

/-- The engine after work of its system, and what the host is told about the outcome. -/
def afterWork (e : Engine) : Outcome × System → Except EngineError Value × Engine
  | (o, system) => (ofOutcome o, { e with system })

/-- **Running** what was compiled and not run yet. -/
def run (e : Engine) (host : Host) (turns : Nat) (code : Code) :
    Option (Except EngineError Value × Engine) :=
  (e.system.run host turns e.ctx code).map e.afterWork

/-- **Compiling and running** a batch. Nothing runs if it is refused. -/
def eval (e : Engine) (host : Host) (turns : Nat) (program : Program) :
    Option (Except EngineError Value × Engine) :=
  match e.compile program with
  | (.ok code, e) => e.run host turns code
  | (.error error, e) => some (.error error, e)

/-! ### Globals -/

/-- **The value of a global**, which is nil before the first assignment. -/
def get? (e : Engine) (name : String) : Option Value :=
  (e.compiler.globalIndex? name).map fun slot => (e.system.global? slot.toNat).getD .nil

/-- The value of a global that has to exist. -/
def get (e : Engine) (name : String) : Except EngineError Value :=
  match e.get? name with
  | some v => .ok v
  | none => .error (.undefined name)

/-- **A global as a value of the host.** -/
def getAs (e : Engine) (name : String) (t : HostType) : Except EngineError t.Carrier := do
  t.fromValue e.system.world.heap (← e.get name)

/-- **Setting a global**, which is declared if it is new. -/
def set (e : Engine) (name : String) (t : HostType) (x : t.Carrier) :
    Except EngineError Unit × Engine :=
  match e.compiler.declareGlobal name with
  | (.ok slot, compiler) =>
    let (v, system) := e.system.onHeap (t.toValue x)
    (.ok (), { e with compiler, system := system.setGlobal slot.toNat v })
  | (.error error, compiler) => (.error (.compile error), { e with compiler })

/-- **Calling a global.** -/
def call (e : Engine) (host : Host) (turns : Nat) (name : String) (args : List Value) :
    Option (Except EngineError Value × Engine) :=
  match e.get name with
  | .ok callee => (e.system.call host turns e.ctx callee args).map e.afterWork
  | .error error => some (.error error, e)

/-! ### Functions of the host -/

/-- **Registering a function** under a name, for scripts compiled afterwards. The compiler and the
registry have to agree on its index. -/
def register (e : Engine) (name : String) (body : BuiltinBody) : Except EngineError Unit × Engine :=
  match e.compiler.addBuiltin name with
  | (.ok slot, compiler) =>
    let (v, system) := e.system.onHeap (·.newNamed name body)
    let (index, builtins) := e.builtins.insert name v
    -- the machine keeps the registry that it has unless both agree
    let e := { e with compiler, system, builtins }
    if slot.toNat = index then (.ok (), { e with system := e.system.withRegistry builtins })
    else (.error (.runtime (.internal (.builtinMoved name index slot.toNat))), e)
  | (.error error, compiler) => (.error (.compile error), { e with compiler })

end Engine

end ScriptEngine
