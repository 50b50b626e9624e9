import ScriptEngine.Embed.Engine
import ScriptEngine.Host.Toolkit

/-!
# Sessions

What a host keeps around an engine while it feeds it with scripts: a log that scripts write to, the
codes that it was given, and the context under which everything runs, which both the host and a
script can cancel.

## Main definitions

* `ScriptEngine.Terms`: what a host asks of a context;
* `ScriptEngine.Controls.establish`: a context under given terms;
* `ScriptEngine.Session`: the sessions;
* `ScriptEngine.Session.takeLog`: what was logged since the last time.
-/

namespace ScriptEngine

/-- A deadline as a host names it. -/
inductive Deadline where
  | expired
  /-- A number of milliseconds ahead. -/
  | ahead (milliseconds : Nat)
deriving DecidableEq, Repr

/-- The time of a deadline on a clock. -/
def Deadline.time (now : Nat) : Deadline → Nat
  | expired => now
  | ahead milliseconds => now + milliseconds

/-- **Terms of a context**: its deadline, the ceilings of its limits, and whether it is cancelled
from the start. -/
structure Terms where
  deadline : Option Deadline := none
  ceilings : Option Ceilings := none
  cancelled : Bool := false
deriving DecidableEq, Repr

/-- **A context under terms**: a child of the background that its own flag cancels. That flag is the
one by which scripts of the session stop themselves. -/
def Controls.establish (terms : Terms) (c : Controls) : Context × Controls :=
  let (ctx, flag, c) := Context.background.withCancel c
  let c := if terms.cancelled then c.cancel flag else c
  -- the deadline of the background never cuts this one short
  let ctx := terms.deadline.elim ctx fun d => ctx.withDeadline (d.time c.now)
  let (ctx, c) := match terms.ceilings with
    | none => (ctx, c)
    | some ceilings =>
      let (limits, c) := c.newLimits ceilings
      (ctx.withLimits limits, c)
  (ctx, { c with stop := some flag })

/-- **A session.** -/
structure Session where
  engine : Engine := {}
  log : Ref .list
  codes : Array Code := #[]

namespace Session

/-- A session with an empty log. -/
def start (config : Config) : Session :=
  let (log, heap) := Heap.newList {} #[]
  { engine := { system := { machine := { config }, world := { heap } } }, log }

/-- A step on the heap of the session. -/
def onHeap {α : Type} (s : Session) (f : Heap → α × Heap) : α × Session :=
  let (a, system) := s.engine.system.onHeap f
  (a, { s with engine := { s.engine with system } })

def heap (s : Session) : Heap :=
  s.engine.system.world.heap

def controls (s : Session) : Controls :=
  s.engine.system.world.controls

/-- A step on the engine. -/
def onEngine {α : Type} (s : Session) (f : Engine → α × Engine) : α × Session :=
  let (a, engine) := f s.engine
  (a, { s with engine })

/-- A step on the compiler. -/
def onCompiler {α : Type} (s : Session) (f : Compiler → α × Compiler) : α × Session :=
  s.onEngine fun e =>
    let (a, compiler) := f e.compiler
    (a, { e with compiler })

/-- The session with another system. -/
def withSystem (s : Session) (system : System) : Session :=
  { s with engine := { s.engine with system } }

/-- The session under a context with the given terms. -/
def withTerms (s : Session) (terms : Terms) : Session :=
  let (ctx, system) := s.engine.system.onControls (·.establish terms)
  { s with engine := { s.engine with system, ctx } }

/-- Cancels the context of the session. -/
def cancel (s : Session) : Session :=
  s.withSystem (s.engine.system.onControls fun c => ((), c.stop.elim c c.cancel)).2

/-- The session whose machine knows other builtins than before. -/
def withBuiltins (s : Session) (registry : Registry) : Session :=
  s.withSystem (s.engine.system.withRegistry registry)

/-- The session with another value in a global slot. -/
def setGlobal (s : Session) (slot : Nat) (v : Value) : Session :=
  s.withSystem (s.engine.system.setGlobal slot v)

/-- The counters of the limits under which the session runs. -/
def limits? (s : Session) : Option Limits :=
  s.controls.limits? s.engine.ctx.limits

/-- **Running code** under the context of the session. -/
def run (s : Session) (turns : Nat) (code : Code) : Option (Outcome × Session) :=
  (s.engine.system.run Toolkit.host turns s.engine.ctx code).map fun (o, system) =>
    (o, s.withSystem system)

/-- **Calling a callable** under the context of the session. -/
def call (s : Session) (turns : Nat) (callee : Value) (args : List Value) :
    Option (Outcome × Session) :=
  (s.engine.system.call Toolkit.host turns s.engine.ctx callee args).map fun (o, system) =>
    (o, s.withSystem system)

/-- Work of the engine on the functions of the toolkit. -/
def engineWork (s : Session) (f : Host → Option (Except EngineError Value × Engine)) :
    Option (Except EngineError Value × Session) :=
  (f Toolkit.host).map fun (answer, engine) => (answer, { s with engine })

/-- A registry of the functions of the toolkit, which log into the session. -/
def registry (s : Session) (names : List String) : Registry × Session :=
  s.onHeap (Toolkit.registry s.log names)

/-- The session with a fresh engine that knows the given builtins. -/
def withRegistry (s : Session) (registry : Registry) : Except EngineError Session :=
  (Engine.withBuiltins s.engine.system registry s.engine.ctx).map ({ s with engine := · })

/-- **Compiling a batch**, whose code the session keeps. -/
def compile (s : Session) (program : Program) : Except EngineError Code × Session :=
  match s.engine.compile program with
  | (.ok code, engine) => (.ok code, { s with engine, codes := s.codes.push code })
  | (.error e, engine) => (.error e, { s with engine })

/-- The code that a host means: the one at a position, or the last. -/
def code? (s : Session) (position : Option Nat) : Option Code :=
  position.elim s.codes.back? (s.codes[·]?)

/-- The values logged since the last time, which are taken off the log. -/
def takeLog (s : Session) : List Value × Session :=
  s.onHeap fun h => ((h.list s.log).toList, h.modifyList s.log fun _ => #[])

end Session

end ScriptEngine
