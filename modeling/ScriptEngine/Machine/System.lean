import ScriptEngine.Machine.Fiber

/-!
# Systems

A machine together with its world and the workers that were started on its behalf. The fibers of a
system take turns: each goes on for a number of steps, or until it waits in vain. Workers outlive
the run that started them, and go on during later runs.

## Main definitions

* `ScriptEngine.Fiber.advance`: the steps of one fiber's turn;
* `ScriptEngine.System`: a machine, its world and its workers;
* `ScriptEngine.System.run`, `ScriptEngine.System.call`: the outcome of a program and of a call.

## Implementation notes

A program need not end. The functions here are given the number of turns after which they give up,
and answer `none` then; an outcome does not depend on how many turns were left.
-/

namespace ScriptEngine

/-- The steps of a turn. -/
def turnLength : Nat := 4096

namespace Fiber

/-- **A turn of a fiber**: at most the given number of steps, up to one in which it has nothing to
do. The workers that it starts are put in front of the given ones. -/
def advance (host : Host) : Nat → Fiber → World → List Worker → Fiber × World × List Worker
  | 0, f, w, workers => (f, w, workers)
  | n + 1, f, w, workers =>
    match f.step host w with
    | (.progress, f, w) => advance host n f w workers
    | (.spawned worker, f, w) => advance host n f w (worker :: workers)
    | (.resting, f, w) => (f, w, workers)

end Fiber

namespace Worker

/-- The world in which the outcome of a worker was sent to those that wait for it. -/
def report (thread : Ref .thread) (o : Outcome) (w : World) : World :=
  (w.onHeap fun h =>
    ((), h.setThread thread { h.thread thread with mailbox := some o, exited := true })).2

/-- A turn of every worker, after which those that are done have reported and are gone. -/
def advanceAll (host : Host) : List Worker → World → List Worker → List Worker × World
  | [], w, kept => (kept.reverse, w)
  | ⟨thread, f⟩ :: rest, w, kept =>
    let (f, w, started) := f.advance host turnLength w []
    -- workers started in this turn are moved on in the next round
    match f.outcome? with
    | some o => advanceAll host rest (report thread o w) (started ++ kept)
    | none => advanceAll host rest w (started ++ ⟨thread, f⟩ :: kept)

end Worker

/-- **A system.** -/
structure System where
  machine : Machine := {}
  world : World := {}
  workers : List Worker := []

namespace System

instance : Inhabited System := ⟨{}⟩

/-- The turns of a fiber and of all workers, up to the end of the fiber. -/
def finish? (host : Host) : Nat → Fiber → World → List Worker → Option (Outcome × System)
  | 0, _, _, _ => none
  | turns + 1, f, w, workers =>
    let (f, w, started) := f.advance host turnLength w []
    let workers := workers ++ started.reverse
    match f.outcome? with
    | some o => some (o, ⟨f.machine, w, workers⟩)
    | none =>
      -- the fiber may be waiting for one of the workers
      let (workers, w) := Worker.advanceAll host workers w []
      finish? host turns f w workers

/-- **Running a program** from where the last run stopped. -/
def run (s : System) (host : Host) (turns : Nat) (ctx : Context) (code : Code) :
    Option (Outcome × System) :=
  finish? host turns (.forProgram s.machine ctx code) (s.world.ensureGlobals code.globalCount)
    s.workers

/-- **Calling a callable** for the host. -/
def call (s : System) (host : Host) (turns : Nat) (ctx : Context) (callee : Value)
    (args : List Value) : Option (Outcome × System) :=
  finish? host turns (.forCall s.machine ctx callee args) s.world s.workers

/-- The system with a step on its heap. -/
def onHeap {α : Type} (s : System) (f : Heap → α × Heap) : α × System :=
  let (a, world) := s.world.onHeap f
  (a, { s with world })

/-- The system with a step on its controls. -/
def onControls {α : Type} (s : System) (f : Controls → α × Controls) : α × System :=
  let (a, world) := s.world.onControls f
  (a, { s with world })

/-- The system whose machine knows other builtins. -/
def withRegistry (s : System) (registry : Registry) : System :=
  { s with machine := { s.machine with registry } }

/-- The content of a global slot, if it exists. -/
def global? (s : System) (slot : Nat) : Option Value :=
  s.world.global? slot

/-- The system with another value in a global slot. -/
def setGlobal (s : System) (slot : Nat) (v : Value) : System :=
  { s with world := s.world.setGlobal slot v }

end System

end ScriptEngine
