import ScriptEngine.Builtin.Behavior
import ScriptEngine.Machine.Execute

/-!
# Fibers

A fiber is a machine at work for its host: on a program, or on the call of a callable. Builtins call
back into the machine that called them, so a fiber remembers which builtins wait for a result.

## Main definitions

* `ScriptEngine.Control`: what a fiber does next;
* `ScriptEngine.Pending`: who waits for the result;
* `ScriptEngine.Fiber`: a machine, its context and the two above;
* `ScriptEngine.Fiber.step`: one step, during which no other fiber does anything.
-/

namespace ScriptEngine

/-! ### Calls of the host -/

/-- What a machine remembers at the start of a call of the host: whether it was running, and the
sizes of its stacks. -/
structure Checkpoint where
  nested : Bool
  depth : Nat
  base : Nat
deriving DecidableEq, Repr, Inhabited

namespace Machine

/-- The start of a call of the host. -/
def enterCall : Machine → Checkpoint × Machine
  | ⟨config, stack, frames, registry, position, status, ticks⟩ =>
    (⟨status == .running, frames.size, stack.size⟩,
      ⟨config, stack, frames, registry, position, .running, ticks⟩)

/-- The status after a call of the host. A halt outlasts the call during which it happened. -/
def statusAfterCall (c : Checkpoint) (failed : Bool) : Status → Status
  | .halted => .halted
  | _ => if c.nested then .running else if failed then .errored else .returned

/-- **The end of a call of the host.** After a failure both stacks are cut to their sizes at its
start. -/
def leaveCall (c : Checkpoint) (failed : Bool) : Machine → Machine
  | ⟨config, stack, frames, registry, position, status, ticks⟩ =>
    ⟨config, if failed then stack.truncate c.base else stack,
      if failed then frames.truncate c.depth else frames, registry, position,
      statusAfterCall c failed status, ticks⟩

/-! ### Runs of programs -/

/-- The offset at which the next run of a program starts. -/
def start (m : Machine) (code : Code) : Nat :=
  if code.size < m.position then 0 else m.position

/-- The start of a run: the frame of the program is the only one, on an empty operand stack. -/
def enterProgram (m : Machine) (code : Code) : Machine :=
  { m with
    stack := m.stack.truncate 0
    frames := .ofList [{ code, ip := m.start code }]
    status := .running }

/-- **The end of a run** of code of the given length. Its value, or nil if it failed, is left as the
only operand, and the next run starts behind the code. -/
def leaveProgram (m : Machine) (length : Nat) (o : Outcome) : Machine :=
  let rest := m.stack.truncate 0
  let (v, status) : Value × Status := match o with
    | .ok v => (v, if m.status = .halted then .halted else .returned)
    | .error _ => (.nil, .errored)
  { m with
    stack := (rest.push v).toOption.getD rest
    frames := .empty
    position := length
    status }

/-- A machine for a worker: the same configuration and builtins, and nothing on its stacks. -/
def fork (m : Machine) : Machine :=
  { config := m.config, registry := m.registry }

/-! ### Entering functions -/

/-- The content of the slots of a call: the arguments, the defaults of the parameters without one,
and nil. -/
def bindArguments (f : Function) (args : List Value) : Array Value :=
  let bound := args ++ (f.defaults.drop args.length).map (·.getD Value.nil)
  (bound ++ List.replicate (f.code.localCount - bound.length) Value.nil).toArray

/-- The numbers of arguments that a function takes. -/
def arity (f : Function) : Arity :=
  let most := f.parameters.length
  if f.requiredArgs = most then .exactly most else .between f.requiredArgs most

/-- **Entering a function**: a new frame, unless there are too many frames or the number of
arguments is wrong. A named function finds itself in the slot behind its parameters. -/
def pushCall (callee : Value) (f : Function) (cells : Array (Ref .cell)) (args : List Value)
    (entry : Bool) (m : Machine) : Except RuntimeError Machine :=
  if m.config.frameLimit ≤ m.frames.size then .error .stackOverflow
  else if args.length < f.requiredArgs ∨ f.parameters.length < args.length then
    .error (.argumentCount (f.name.getD "func") (arity f) args.length)
  else
    let locals := bindArguments f args
    let locals := if f.code.name.isSome then locals.setIfInBounds f.parameters.length callee
      else locals
    let frame : Frame :=
      { function := some f, code := f.code, cells, locals, base := m.stack.size, entry }
    .ok { m with frames := m.frames.push frame }

end Machine

/-! ### Fibers -/

/-- **What a fiber does next.** -/
inductive Control where
  /-- The next turn of the dispatch loop. -/
  | dispatch
  /-- Enters a callable, on behalf of the host if `entry` is set. -/
  | invoke (callee : Value) (args : List Value) (entry : Bool)
  | activity (a : Activity)
  /-- Hands a result to whoever waits for it. -/
  | deliver (o : Outcome)
  | finished (o : Outcome)
deriving Inhabited

/-- **Who waits for a result**: an instruction, which pushes it, or a builtin that called back. -/
inductive Pending where
  | operand
  | callback (checkpoint : Checkpoint) (next : Outcome → Activity)

/-- What a fiber was started for: the rest of a program of the given length, or a call. -/
inductive Goal where
  | program (length : Nat)
  | call (checkpoint : Checkpoint)
deriving DecidableEq, Repr, Inhabited

/-- **A fiber.** `pending` lists those that wait for a result, the next one first. -/
structure Fiber where
  machine : Machine
  ctx : Context
  control : Control
  pending : List Pending := []
  goal : Goal

/-- A fiber that works for a thread handle. -/
structure Worker where
  thread : Ref .thread
  fiber : Fiber

/-- What happened in a step, as far as others are concerned. -/
inductive Event where
  | progress
  /-- The fiber has nothing to do, or waits in vain. -/
  | resting
  | spawned (worker : Worker)

namespace Fiber

/-- A fiber that runs the part of a program that has not been run. -/
def forProgram (m : Machine) (ctx : Context) (code : Code) : Fiber :=
  { machine := m.enterProgram code, ctx, control := .dispatch, goal := .program code.size }

/-- A fiber that calls a callable for the host. -/
def forCall (m : Machine) (ctx : Context) (callee : Value) (args : List Value) : Fiber :=
  let (checkpoint, machine) := m.enterCall
  { machine, ctx, control := .invoke callee args true, goal := .call checkpoint }

/-- The outcome of a builtin: a raised error that it returns is a failure. -/
def ofBuiltin (o : Outcome) : Outcome :=
  match o with
  | .ok v =>
    match v.raised? with
    | some e => .error (.raised e)
    | none => .ok v
  | .error e => .error e

/-- Whether an outcome is a failure. -/
def failed : Outcome → Bool
  | .ok _ => false
  | .error _ => true

/-- A turn of the dispatch loop. -/
def dispatch (w : World) : Fiber → Fiber × World
  | ⟨m, ctx, _, pending, goal⟩ =>
    match Exec.turn ctx ⟨m, w⟩ with
    | .ok .next ⟨m, w⟩ => (⟨m, ctx, .dispatch, pending, goal⟩, w)
    | .ok (.leave v) ⟨m, w⟩ => (⟨m, ctx, .deliver (.ok v), pending, goal⟩, w)
    | .ok (.invoke callee args) ⟨m, w⟩ =>
      (⟨m, ctx, .invoke callee args false, pending, goal⟩, w)
    | .error e ⟨m, w⟩ => (⟨m, ctx, .deliver (.error e), pending, goal⟩, w)

/-- **Entering a callable.** The number of arguments is compared with the limit first. A builtin
called by an instruction has its result pushed, and one called by the host does not. -/
def invoke (host : Host) (h : Heap) (callee : Value) (args : List Value) (entry : Bool) :
    Fiber → Fiber
  | ⟨m, ctx, _, pending, goal⟩ =>
    let refuse (e : RuntimeError) : Fiber := ⟨m, ctx, .deliver (.error e), pending, goal⟩
    if m.config.argLimit < args.length then
      refuse (.typeError (.argumentLimit m.config.argLimit args.length))
    else
      match callee with
      | .builtin r =>
        -- an instruction waits for the result, and the host gets it as it is
        let a := (h.builtin r).activity host args
        ⟨m, ctx, .activity a, if entry then pending else .operand :: pending, goal⟩
      | .partialCall r =>
        -- the limit on arguments applies anew, because the list has grown
        let p := h.partialCall r
        ⟨m, ctx, .invoke p.callee (args ++ p.args) entry, pending, goal⟩
      | callee =>
        match h.function? callee with
        | none => refuse (.notCallable (h.typeName callee))
        | some (f, cells) =>
          match m.pushCall callee f cells args entry with
          | .ok m => ⟨m, ctx, .dispatch, pending, goal⟩
          | .error e => refuse e

/-- A step of a builtin. -/
def act (w : World) : Activity → Fiber → Event × Fiber × World
  | a, ⟨m, ctx, _, pending, goal⟩ =>
    let goOn (a : Activity) (w : World) : Event × Fiber × World :=
      (.progress, ⟨m, ctx, .activity a, pending, goal⟩, w)
    match a with
    | .finish o => (.progress, ⟨m, ctx, .deliver (ofBuiltin o), pending, goal⟩, w)
    | .heap step next =>
      let (v, w) := w.onHeap step
      goOn (next v) w
    | .limit query next =>
      let (answer, w) := w.onControls fun c => query.ask ctx.limits c
      goOn (next answer) w
    | .cancel next =>
      let (_, w) := w.onControls fun c => ((), c.stop.elim c c.cancel)
      goOn next w
    | .call callee args next =>
      -- the callee runs on the stacks of the caller, above what is there now
      let (checkpoint, m) := m.enterCall
      (.progress, ⟨m, ctx, .invoke callee args true, .callback checkpoint next :: pending, goal⟩, w)
    | .spawn callee args next =>
      let (thread, w) := w.onHeap Heap.newThread
      let worker : Worker := ⟨thread, forCall m.fork ctx callee args⟩
      (.spawned worker, ⟨m, ctx, .activity (next (.thread thread)), pending, goal⟩, w)
    | .block operation next =>
      -- a round changes nothing that `check` depends on
      let check := ctx.check w.controls
      let (progress, w) := w.onHeap fun h => operation.round check h
      match progress with
      | .done o => goOn (next o) w
      | .onward operation => goOn (.block operation next) w
      | .rest operation =>
        (.resting, ⟨m, ctx, .activity (.block operation next), pending, goal⟩, w)

/-- **Handing over a result.** A failure passes the instructions that wait for an operand and stops
at the innermost builtin that called back, or ends the work of the fiber. -/
def deliver (o : Outcome) : Fiber → Fiber
  | ⟨m, ctx, _, pending, goal⟩ =>
    match pending, o with
    | .operand :: pending, .ok v =>
      -- the operand stack can be full by now
      match m.stack.push v with
      | .ok stack => ⟨{ m with stack }, ctx, .dispatch, pending, goal⟩
      | .error e => ⟨m, ctx, .deliver (.error e), pending, goal⟩
    | .operand :: pending, .error e => ⟨m, ctx, .deliver (.error e), pending, goal⟩
    | .callback checkpoint next :: pending, o =>
      ⟨m.leaveCall checkpoint (failed o), ctx, .activity (next o), pending, goal⟩
    | [], o =>
      match goal with
      | .program length => ⟨m.leaveProgram length o, ctx, .finished o, [], goal⟩
      | .call checkpoint => ⟨m.leaveCall checkpoint (failed o), ctx, .finished o, [], goal⟩

/-- **One step of a fiber.** -/
def step (host : Host) (w : World) : Fiber → Event × Fiber × World
  | ⟨m, ctx, control, pending, goal⟩ =>
    match control with
    | .dispatch =>
      let (f, w) := dispatch w ⟨m, ctx, .dispatch, pending, goal⟩
      (.progress, f, w)
    | .invoke callee args entry =>
      (.progress, invoke host w.heap callee args entry ⟨m, ctx, .dispatch, pending, goal⟩, w)
    | .activity a => act w a ⟨m, ctx, .dispatch, pending, goal⟩
    | .deliver o => (.progress, deliver o ⟨m, ctx, .dispatch, pending, goal⟩, w)
    | .finished o => (.resting, ⟨m, ctx, .finished o, pending, goal⟩, w)

/-- The outcome of a fiber that has nothing left to do. -/
def outcome? (f : Fiber) : Option Outcome :=
  match f.control with
  | .finished o => some o
  | _ => none

end Fiber

end ScriptEngine
