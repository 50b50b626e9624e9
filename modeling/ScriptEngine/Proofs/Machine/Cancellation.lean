import ScriptEngine.Proofs.Machine.Calls
import ScriptEngine.Proofs.Machine.Charges
import ScriptEngine.Proofs.Resource.Derivations

/-!
# Cancelled runs

Once the context of a run is cancelled, no instruction is executed any more: the next turn of the
dispatch loop fails. The failure is handed to the builtins that called back, the innermost first,
and each of them may swallow it; but what a builtin returns is pushed for an instruction, and after
that comes a turn of the dispatch loop again. So the run fails in the end. The push itself does not:
a call takes its operands from the stack, and everything that runs inside a builtin leaves the stack
no higher than it was, so there is room for the result.

## Main definitions

* `ScriptEngine.Fiber.InRun`: who waits in the run of a program, and the room that is left for
  results;
* `ScriptEngine.Fiber.AtPoint`: between two turns of the dispatch loop, or inside a builtin;
* `ScriptEngine.Moment.Onward`: what can happen next, as long as nobody resets a flag;
* `ScriptEngine.Fiber.Condemned`: a run that ends with certain errors only.

## Main results

* `ScriptEngine.Fiber.InRun.step`: every step leaves a run in order;
* `ScriptEngine.Fiber.Condemned.step`: a run that is cancelled stays condemned;
* `ScriptEngine.Derivations.cancel_stops`: cancelling reaches the derived contexts and stops their
  runs.
-/

namespace ScriptEngine

/-! ### Room for results -/

/-- **A machine whose frames were entered with room** for one more operand. -/
structure Machine.Roomy (config : Config) (m : Machine) : Prop where
  bounds : m.InBounds config
  bases : ∀ g ∈ m.frames.items, g.base < config.stackLimit

/-- To be roomy survives every turn of the dispatch loop. -/
theorem Machine.Roomy.robust {config : Config} :
    Exec.Robust fun s => s.machine.Roomy config where
  stack hl h := ⟨h.bounds.leads hl, h.bases⟩
  heap _ h := h
  locals {m} {w} f hf h := by
    refine ⟨Machine.InBounds.robust.locals (w := w) hf h.bounds, fun g hg => ?_⟩
    rcases Stack.mem_mapTop hg with hg | ⟨x, hx, rfl⟩
    · exact h.bases g hg
    · rw [hf x]
      exact h.bases x (Stack.mem_of_top? hx)
  admits target m w top htop hle h := by
    refine ⟨Machine.InBounds.robust.admits target (w := w) htop hle h.bounds, fun g hg => ?_⟩
    rcases Stack.mem_mapTop hg with hg | ⟨x, hx, rfl⟩
    · exact h.bases g hg
    · exact h.bases x (Stack.mem_of_top? hx)
  frames {m} {w} frames hf h :=
    ⟨Machine.InBounds.robust.frames (w := w) hf h.bounds, fun g hg => h.bases g (hf.subset hg)⟩
  status {m} {w} status h := ⟨Machine.InBounds.robust.status (w := w) h.bounds, h.bases⟩
  ticks {m} {w} ticks h := ⟨Machine.InBounds.robust.ticks (w := w) h.bounds, h.bases⟩
  globals h := h

namespace Exec

variable {config : Config}

/-- There is room for one more operand. -/
def Room (config : Config) (s : State) : Prop :=
  s.machine.stack.size < config.stackLimit

theorem room_pop : Leaves (fun s => s.machine.Roomy config) pop fun _ => Room config := by
  rintro ⟨⟨config', ⟨⟨items, size, hsize⟩, limit⟩, frames, registry, position, status, ticks⟩,
    world⟩ v
    s' hs h
  have hle : size ≤ config.stackLimit := hs.bounds.stack
  cases items with
  | nil => cases h
  | cons u items =>
    cases h
    rw [List.length_cons] at hsize
    exact show size - 1 < _ by omega

theorem room_popOrNil : Leaves (fun s => s.machine.Roomy config) popOrNil fun _ => Room config := by
  intro s v s' hs h
  unfold popOrNil at h
  rw [get_bind] at h
  split at h
  · rename_i hempty
    obtain ⟨-, rfl⟩ := pure_eq_ok.mp h
    have hzero : s.machine.stack.size = 0 := beq_iff_eq.mp hempty
    exact show s.machine.stack.size < _ from hzero ▸ config.stackLimit_pos
  · exact room_pop s v s' hs h

theorem room_truncate {base : Nat} (hb : base < config.stackLimit) :
    Leaves (fun _ => True) (truncate base) fun _ => Room config := by
  rintro ⟨⟨config', ⟨contents, limit⟩, frames, registry, position, status, ticks⟩, world⟩ u s' - h
  cases h
  show (contents.truncate base).size < _
  rw [Stack.size_truncate]
  omega

/-- The stack is cut to where a frame was entered. -/
theorem room_leave {base : Nat} (hb : base < config.stackLimit) (v : Value) :
    Leaves (fun _ => True) (do truncate base; return Flow.leave v) fun _ => Room config :=
  (room_truncate hb).bind fun _ _ _ _ hs h => (pure_eq_ok.mp h).2 ▸ hs

theorem room_leaveFrame (v : Value) :
    Leaves (fun s => s.machine.Roomy config) (leaveFrame v)
      fun flow s => flow = .next ∨ Room config s := by
  intro s flow s' hs h
  obtain ⟨top, t, hf, h⟩ := bind_eq_ok.mp h
  have htop : top = s.machine.frames.top? := by
    cases hf
    rfl
  cases top with
  | none => exact (throw_ne_ok.mp h).elim
  | some g =>
    have hb := hs.bases g (Stack.mem_of_top? htop.symm)
    obtain ⟨_, t', ht, h⟩ := bind_eq_ok.mp h
    split at h
    · obtain ⟨-, rfl⟩ := pure_eq_ok.mp h
      exact .inr (room_truncate hb _ _ _ trivial ht)
    · obtain ⟨_, _, -, h⟩ := bind_eq_ok.mp h
      exact .inl (pure_eq_ok.mp h).1.symm

theorem room_halt : Leaves (fun s => s.machine.Roomy config) halt fun _ => Room config := by
  refine room_popOrNil.bind fun v s flow s' hs h => ?_
  obtain ⟨_, t, ht, h⟩ := bind_eq_ok.mp h
  obtain ⟨_, u, hu, h⟩ := bind_eq_ok.mp h
  cases ht
  cases hu
  obtain ⟨-, rfl⟩ := pure_eq_ok.mp h
  exact hs

theorem room_endProgram {g : Frame} (hb : g.base < config.stackLimit) :
    Leaves (fun s => s.machine.Roomy config) (endProgram g) fun _ => Room config := by
  intro s flow s' hs h
  obtain ⟨_, _, -, h⟩ := bind_eq_ok.mp h
  obtain ⟨_, _, -, h⟩ := bind_eq_ok.mp h
  split at h
  · obtain ⟨v, t, -, h⟩ := bind_eq_ok.mp h
    exact room_leave hb v _ _ _ trivial h
  · obtain ⟨v, t, -, h⟩ := bind_eq_ok.mp h
    exact room_leave hb v _ _ _ trivial h

/-- A step after which the loop goes on. -/
theorem next_of_proceed {x : Exec Unit} {s s' : State} {flow : Flow}
    (h : proceed x s = .ok flow s') : flow = .next := by
  obtain ⟨_, _, -, h⟩ := bind_eq_ok.mp h
  exact (pure_eq_ok.mp h).1.symm

/-- **An instruction after which the loop does not go on** leaves room for one more operand. -/
theorem room_execute (ctx : Context) (i : Instruction) :
    Leaves (fun s => s.machine.Roomy config) (execute ctx i)
      fun flow s => flow = .next ∨ Room config s := by
  unfold execute
  cases hop : i.op
  case nop => exact fun s flow s' _ h => .inl (pure_eq_ok.mp h).1.symm
  case halt => exact fun s flow s' hs h => .inr (room_halt s flow s' hs h)
  case call =>
    refine Leaves.bind (.of_stays (Stays.popN Machine.Roomy.robust.stack _)) fun args => ?_
    refine room_pop.bind fun callee s flow s' hs h => ?_
    exact .inr ((pure_eq_ok.mp h).2 ▸ hs)
  case returnValue =>
    dsimp only
    split
    · exact fun s flow s' hs h => room_leaveFrame _ s flow s' hs h
    · exact Leaves.bind (.of_stays (Stays.pop Machine.Roomy.robust.stack)) fun v =>
        room_leaveFrame v
  all_goals exact fun _ _ _ _ h => .inl (next_of_proceed h)

/-- **A turn after which the loop does not go on** leaves room for one more operand. -/
theorem room_turn (ctx : Context) :
    Leaves (fun s => s.machine.Roomy config) (turn ctx)
      fun flow s => flow = .next ∨ Room config s := by
  rw [turn_eq]
  intro s flow s' hs h
  obtain ⟨u, t, hcheck, h⟩ := bind_eq_ok.mp h
  obtain ⟨-, -, rfl⟩ := precheck_eq_ok.mp hcheck
  replace hs : (ticked s).machine.Roomy config := Machine.Roomy.robust.ticks hs
  generalize ticked s = t at hs h
  rcases fetchAndExecute_cases h with ⟨v, -, hv, -⟩ | ⟨g, i, htop, -, hfetch, h⟩ | ⟨g, htop, -, h⟩
  · exact .inr (room_popOrNil t v s' hs hv)
  · obtain ⟨_, t', ht', h⟩ := bind_eq_ok.mp h
    cases ht'
    exact room_execute ctx i _ flow s'
      (Machine.Roomy.robust.admits i.stop htop (Code.of_fetch hfetch).2.2 hs) h
  · exact .inr (room_endProgram (hs.bases g (Stack.mem_of_top? htop)) t flow s' hs h)

end Exec

/-! ### Who waits in a run -/

namespace Pending

/-- No instruction waits first. -/
def Called : List Pending → Prop
  | .operand :: _ => False
  | _ => True

theorem Called.ne_operand {pending rest : List Pending} (h : Called pending) :
    pending ≠ .operand :: rest := by
  rintro rfl
  exact h

/-- **Who waits in the run of a program**, the next one first: instructions wait for builtins that
were called by them, and builtins for what they called back; and the last one is an instruction. -/
def InOrder : List Pending → Prop
  | [] => True
  | .operand :: rest => Called rest ∧ InOrder rest
  | .callback .. :: rest => rest ≠ [] ∧ InOrder rest

end Pending

/-- **A fiber in the run of a program**, as far as its control goes. -/
def Control.InRun (config : Config) (pending : List Pending) (m : Machine) : Control → Prop
  | .dispatch => Pending.Called pending
  | .invoke _ _ entry =>
    Pending.Called pending ∧ (entry = true → pending ≠ []) ∧ m.stack.size < config.stackLimit
  | .activity _ => pending ≠ [] ∧ m.stack.size < config.stackLimit
  | .deliver (.ok _) => m.stack.size < config.stackLimit
  | .deliver (.error _) => True
  | .finished _ => pending = []

/-- **A fiber in the run of a program.** Those that wait are in order, and wherever a result is on
its way there is room for it. -/
structure Fiber.InRun (config : Config) (f : Fiber) : Prop where
  program : ∃ length, f.goal = .program length
  machine : f.machine.Roomy config
  bases : ∀ c next, Pending.callback c next ∈ f.pending → c.base < config.stackLimit
  order : Pending.InOrder f.pending
  control : f.control.InRun config f.pending f.machine

namespace Fiber.InRun

variable {config : Config} {f : Fiber}

/-- The run of a program begins. -/
theorem forProgram {m : Machine} (h : m.InBounds config) (ctx : Context) (code : Code) :
    (Fiber.forProgram m ctx code).InRun config where
  program := ⟨code.size, rfl⟩
  machine := ⟨h.enterProgram code, fun g hg => by
    obtain rfl := List.mem_singleton.mp hg
    exact config.stackLimit_pos⟩
  bases _ _ hc := absurd hc List.not_mem_nil
  order := trivial
  control := trivial

/-- A machine that entered a function did so with the room that it had. -/
theorem roomy_pushCall {m m' : Machine} (h : m.Roomy config) (hs : m.stack.size < config.stackLimit)
    {callee : Value} {g : Function} {cells : Array (Ref .cell)} {args : List Value} {entry : Bool}
    (hm : m.pushCall callee g cells args entry = .ok m') : m'.Roomy config := by
  refine ⟨h.bounds.pushCall hm, fun g hg => ?_⟩
  obtain ⟨-, -, -, rfl⟩ := Machine.pushCall_eq_ok hm
  rcases List.mem_cons.mp hg with rfl | hg
  · exact hs
  · exact h.bases g hg

/-- A machine at the end of a call back, with the room that it had at the start if the call
failed. -/
theorem roomy_leaveCall {m : Machine} (h : m.Roomy config) (c : Checkpoint) (failed : Bool) :
    (m.leaveCall c failed).Roomy config := by
  refine ⟨h.bounds.leaveCall c failed, fun g hg => h.bases g ?_⟩
  cases failed with
  | false => exact hg
  | true =>
    have hg : g ∈ (m.frames.truncate c.depth).items := hg
    rw [Stack.items_truncate] at hg
    exact List.mem_of_mem_drop hg

/-- **Every step leaves a run in order.** -/
theorem step (h : f.InRun config) (host : Host) (w : World) : (f.step host w).2.1.InRun config := by
  obtain ⟨m, ctx, control, pending, goal⟩ := f
  obtain ⟨⟨length, hgoal⟩, hm, hbases, horder, hcontrol⟩ := h
  obtain rfl : goal = .program length := hgoal
  -- by what the fiber does next; the operand stack keeps room for the result of a builtin
  cases control with
  | dispatch =>
    have hcontrol : Pending.Called pending := hcontrol
    obtain ⟨hok, herr⟩ := Exec.Stays.turn Machine.Roomy.robust (fun h => h) ctx ⟨m, w⟩ hm
    simp only [Fiber.step, Fiber.dispatch]
    cases ht : Exec.turn ctx ⟨m, w⟩ with
    | error e s => exact ⟨⟨length, rfl⟩, herr _ _ ht, hbases, horder, trivial⟩
    | ok flow s =>
      have hs := hok _ _ ht
      have hroom := Exec.room_turn ctx ⟨m, w⟩ flow s hm ht
      cases flow with
      | next => exact ⟨⟨length, rfl⟩, hs, hbases, horder, hcontrol⟩
      | leave v => exact ⟨⟨length, rfl⟩, hs, hbases, horder, hroom.resolve_left Flow.noConfusion⟩
      | invoke callee args =>
        exact ⟨⟨length, rfl⟩, hs, hbases, horder, hcontrol, Bool.noConfusion,
          hroom.resolve_left Flow.noConfusion⟩
  | invoke callee args entry =>
    obtain ⟨hcalled, hentry, hroom⟩ :
      Pending.Called pending ∧ (entry = true → pending ≠ []) ∧ m.stack.size < config.stackLimit :=
    hcontrol
    simp only [Fiber.step, Fiber.invoke]
    split
    · exact ⟨⟨length, rfl⟩, hm, hbases, horder, trivial⟩
    split
    · cases entry with
      | true => exact ⟨⟨length, rfl⟩, hm, hbases, horder, hentry rfl, hroom⟩
      | false =>
        -- the instruction that called waits for the builtin now, and has no base of its own
        refine ⟨⟨length, rfl⟩, hm, fun c next hc => ?_, ⟨hcalled, horder⟩,
          List.cons_ne_nil _ _, hroom⟩
        rcases List.mem_cons.mp hc with hc | hc
        · cases hc
        · exact hbases c next hc
    · exact ⟨⟨length, rfl⟩, hm, hbases, horder, hcalled, hentry, hroom⟩
    · split
      · exact ⟨⟨length, rfl⟩, hm, hbases, horder, trivial⟩
      · split
        · rename_i m' hm'
          exact ⟨⟨length, rfl⟩, roomy_pushCall hm hroom hm', hbases, horder, hcalled⟩
        · exact ⟨⟨length, rfl⟩, hm, hbases, horder, trivial⟩
  | activity a =>
    obtain ⟨hne, hroom⟩ : pending ≠ [] ∧ m.stack.size < config.stackLimit := hcontrol
    have goesOn (a : Activity) :
        Fiber.InRun config ⟨m, ctx, .activity a, pending, .program length⟩ :=
      ⟨⟨length, rfl⟩, hm, hbases, horder, hne, hroom⟩
    cases a with
    | finish o =>
      refine ⟨⟨length, rfl⟩, hm, hbases, horder, ?_⟩
      show Control.InRun config pending m (.deliver (ofBuiltin o))
      cases ofBuiltin o with
      | ok v => exact hroom
      | error e => exact trivial
    | heap act next => exact goesOn _
    | limit query next => exact goesOn _
    | cancel next => exact goesOn _
    | call callee args next =>
      refine ⟨⟨length, rfl⟩, ⟨hm.bounds.enterCall, hm.bases⟩, fun c next' hc => ?_, ⟨hne, horder⟩,
        trivial, fun _ => List.cons_ne_nil _ _, hroom⟩
      rcases List.mem_cons.mp hc with hc | hc
      · cases hc
        exact hroom
      · exact hbases c next' hc
    | spawn callee args next => exact goesOn _
    | block operation next =>
      simp only [Fiber.step, Fiber.act]
      split <;> exact goesOn _
  | deliver o =>
    simp only [Fiber.step, Fiber.deliver]
    cases pending with
    | nil =>
      refine ⟨⟨length, rfl⟩,
        ⟨hm.bounds.leaveProgram length o, fun g hg => absurd hg List.not_mem_nil⟩,
        hbases, trivial, rfl⟩
    | cons p rest =>
      have hrest : ∀ c next, Pending.callback c next ∈ rest → c.base < config.stackLimit :=
        fun c next hc => hbases c next (List.mem_cons_of_mem _ hc)
      cases p with
      | operand =>
        cases o with
        | error e => exact ⟨⟨length, rfl⟩, hm, hrest, horder.2, trivial⟩
        | ok v =>
          dsimp only
          split
          · rename_i stack hp
            exact ⟨⟨length, rfl⟩, ⟨hm.bounds.leads (OperandStack.leads_push hp), hm.bases⟩, hrest,
              horder.2, horder.1⟩
          · exact ⟨⟨length, rfl⟩, hm, hrest, horder.2, trivial⟩
      | callback c next =>
        have hbase : c.base < config.stackLimit := hbases c next List.mem_cons_self
        refine ⟨⟨length, rfl⟩, roomy_leaveCall hm c (failed o), hrest, horder.2, horder.1, ?_⟩
        cases o with
        | ok v => exact hcontrol
        | error e =>
          -- the stack is cut to its size at the call, when there was room
          show (m.stack.truncate c.base).contents.size < _
          show (m.stack.contents.truncate c.base).size < _
          rw [Stack.size_truncate]
          omega
  | finished o => exact ⟨⟨length, rfl⟩, hm, hbases, horder, hcontrol⟩

end Fiber.InRun

/-! ### Flags -/

namespace Controls

/-- Flags that are set stay set. -/
def Keeps (c c' : Controls) : Prop :=
  ∀ f, c.flag f = true → c'.flag f = true

theorem Keeps.of_flags {c c' : Controls} (h : c'.flags = c.flags) : c.Keeps c' := by
  intro f hf
  unfold flag at hf ⊢
  rwa [h]

theorem keeps_cancel (c : Controls) (f : FlagRef) : c.Keeps (c.cancel f) := by
  intro g hg
  unfold flag cancel at *
  rw [Array.getD_eq_getD_getElem?] at hg ⊢
  dsimp only
  rw [Array.getElem?_setIfInBounds]
  split
  · rename_i he
    split
    · rfl
    · rename_i hlt
      rw [← he, Array.getElem?_eq_none (Nat.le_of_not_lt hlt)] at hg
      cases hg
  · exact hg

/-- A question that is put to limits does not touch the flags. -/
theorem flags_onLimits (c : Controls) (l : Option LimitsRef)
    (ask : Limits → Except LimitError Unit × Limits) : (c.onLimits l ask).2.flags = c.flags := by
  cases l with
  | none => rfl
  | some l =>
    unfold onLimits
    dsimp only
    split <;> rfl

end Controls

theorem Context.isCancelled_mono {ctx : Context} {c c' : Controls} (h : c.Keeps c')
    (hc : ctx.isCancelled c = true) : ctx.isCancelled c' = true := by
  obtain ⟨f, hf, hset⟩ := List.any_eq_true.mp hc
  exact List.any_eq_true.mpr ⟨f, hf, h f hset⟩

/-- The flags survive every turn of the dispatch loop. -/
theorem Exec.stays_flags (ctx : Context) (flags : Array Bool) :
    Stays (fun s => s.world.controls.flags = flags) (turn ctx) := by
  have robust : Robust fun s => s.world.controls.flags = flags := {
    stack := fun _ h => h
    heap := fun _ h => h
    locals := fun _ h => h
    admits := fun _ _ _ _ _ _ h => h
    frames := fun _ h => h
    status := fun h => h
    ticks := fun h => h
    globals := fun h => h }
  refine Stays.turn_of_built robust ctx fun v s hs => ?_
  have hcharged := (s.world.controls.flags_onLimits ctx.limits
    (·.charge (s.world.heap.cost v))).trans hs
  rw [Exec.pushBuilt_eq]
  rcases hcharge : s.world.controls.charge ctx.limits (s.world.heap.cost v) with ⟨e | u, controls⟩
  · have hcontrols : controls.flags = flags := (congrArg (·.2.flags) hcharge).symm.trans hcharged
    refine ⟨fun _ _ h => (by cases h), fun _ _ h => ?_⟩
    cases h
    exact hcontrols
  · have hcontrols : controls.flags = flags := (congrArg (·.2.flags) hcharge).symm.trans hcharged
    exact Stays.push robust.stack v _ hcontrols

/-- **No fiber resets a flag.** -/
theorem Fiber.keeps_step (host : Host) (w : World) (f : Fiber) :
    w.controls.Keeps (f.step host w).2.2.controls := by
  obtain ⟨m, ctx, control, pending, goal⟩ := f
  cases control with
  | dispatch =>
    obtain ⟨hok, herr⟩ := Exec.stays_flags ctx w.controls.flags ⟨m, w⟩ rfl
    simp only [Fiber.step, Fiber.dispatch]
    cases ht : Exec.turn ctx ⟨m, w⟩ with
    | ok flow s =>
      have := hok _ _ ht
      cases flow <;> exact .of_flags this
    | error e s => exact .of_flags (herr _ _ ht)
  | activity a =>
    cases a with
    | limit query next =>
      cases query with
      | charge cost => exact .of_flags (w.controls.flags_onLimits ctx.limits _)
      | request => exact .of_flags (w.controls.flags_onLimits ctx.limits _)
      | size bytes => exact .of_flags rfl
    | cancel next =>
      show w.controls.Keeps (w.controls.stop.elim w.controls w.controls.cancel)
      cases w.controls.stop with
      | none => exact .of_flags rfl
      | some flag => exact w.controls.keeps_cancel flag
    | block operation next =>
      simp only [Fiber.step, Fiber.act]
      split <;> exact .of_flags rfl
    | _ => exact .of_flags rfl
  | _ => exact .of_flags rfl

/-- **What can happen next, as long as nobody resets a flag.** -/
def Moment.Onward (host : Host) (m m' : Moment) : Prop :=
  m.Step host m' ∧ m.world.controls.Keeps m'.world.controls

theorem Moment.onward_own (host : Host) (m : Moment) : m.Onward host (m.own host) :=
  ⟨.own m, m.party.fiber.keeps_step host m.world⟩

/-! ### Condemned runs -/

/-- Under a cancelled context, no instruction is executed. -/
theorem Fiber.execution?_of_cancelled {f : Fiber} {w : World}
    (h : f.ctx.isCancelled w.controls = true) (thread : Option (Ref .thread)) :
    f.execution? thread w = none := by
  by_contra hne
  obtain ⟨x, hx⟩ := Option.ne_none_iff_exists'.mp hne
  obtain ⟨-, -, -, hturn⟩ := turn_of_execution? hx
  unfold Fiber.execution? at hx
  split at hx
  · obtain ⟨⟨g, i⟩, hnext, -⟩ := Option.map_eq_some_iff.mp hx
    obtain ⟨⟨u, t, hcheck⟩, -⟩ := Exec.of_next? hnext
    have hnot := (Exec.precheck_eq_ok.mp hcheck).1
    unfold Context.checkCancelled at hnot
    rw [if_pos h] at hnot
    cases hnot
  · cases hx

/-- **A point at which a run can be cancelled**: between two turns of the dispatch loop, or inside a
builtin, which may have called back. -/
def Fiber.AtPoint (f : Fiber) : Prop :=
  match f.control with
  | .dispatch | .activity _ => True
  | .invoke .. | .deliver _ => ∃ c next rest, f.pending = .callback c next :: rest
  | .finished _ => False

/-- **A condemned run** ends with an error that is one of `P`. Outside of all builtins the next turn
fails, or the run has failed already; and the outermost builtin returns a value, after which there
is a turn, or it fails. -/
structure Fiber.Condemned (P : RuntimeError → Prop) (f : Fiber) : Prop where
  outside : f.pending = [] → f.control = .dispatch ∨
    ∃ e, (f.control = .deliver (.error e) ∨ f.control = .finished (.error e)) ∧ P e
  outermost : f.pending = [.operand] → (∃ a, f.control = .activity a) ∨
    (∃ v, f.control = .deliver (.ok v)) ∨ ∃ e, f.control = .deliver (.error e) ∧ P e

namespace Fiber.Condemned

variable {P : RuntimeError → Prop} {config : Config} {f : Fiber}

/-- A run is condemned from where it is cancelled. -/
theorem of_atPoint (h : f.InRun config) (hp : f.AtPoint) : f.Condemned P := by
  obtain ⟨m, ctx, control, pending, goal⟩ := f
  have hcontrol := h.control
  constructor
  · rintro rfl
    cases control with
    | dispatch => exact .inl rfl
    | activity a => exact absurd rfl hcontrol.1
    | invoke callee args entry =>
      obtain ⟨_, _, _, hnil⟩ := hp
      cases hnil
    | deliver o =>
      obtain ⟨_, _, _, hnil⟩ := hp
      cases hnil
    | finished o => exact hp.elim
  · rintro rfl
    cases control with
    | dispatch => exact hcontrol.elim
    | activity a => exact .inl ⟨a, rfl⟩
    | invoke callee args entry => exact hcontrol.1.elim
    | deliver o =>
      obtain ⟨_, _, _, hcons⟩ := hp
      cases hcons
    | finished o => exact hp.elim

/-- **A run that is cancelled stays condemned**, if the errors of its outermost builtin are among
those with which it may end. -/
theorem step (hf : f.Condemned P) (h : f.InRun config) {host : Host} {w : World}
    (hc : f.ctx.isCancelled w.controls = true) (hcancelled : P (.interrupted .cancelled))
    (hbuiltin : ∀ o e, f.pending = [.operand] → f.control = .activity (.finish o) →
      ofBuiltin o = .error e → P e) : (f.step host w).2.1.Condemned P := by
  obtain ⟨m, ctx, control, pending, goal⟩ := f
  obtain ⟨⟨length, rfl⟩, hm, -, horder, hcontrol⟩ := h
  cases control with
  | dispatch =>
    -- the turn fails
    have hcalled : Pending.Called pending := hcontrol
    simp only [Fiber.step, Fiber.dispatch, Exec.turn_of_cancelled (s := ⟨m, w⟩) hc]
    exact ⟨fun _ => .inr ⟨_, .inl rfl, hcancelled⟩, fun hp => (hcalled.ne_operand hp).elim⟩
  | invoke callee args entry =>
    have hcalled : Pending.Called pending := hcontrol.1
    -- only builtins enter anything now, and they still wait
    have hne : pending ≠ [] := by
      rintro rfl
      rcases hf.outside rfl with h | ⟨e, h | h, -⟩ <;> cases h
    have inside {f' : Fiber} (hp : f'.pending = pending ∨ f'.pending = .operand :: pending) :
        f'.Condemned P := by
      refine ⟨fun hnil => ?_, fun hone => ?_⟩
      · rcases hp with hp | hp
        · exact absurd (hp.symm.trans hnil) hne
        · exact absurd (hp.symm.trans hnil) (List.cons_ne_nil _ _)
      · rcases hp with hp | hp
        · exact (hcalled.ne_operand (hp.symm.trans hone)).elim
        · exact absurd (List.cons.inj (hp.symm.trans hone)).2 hne
    refine inside ?_
    simp only [Fiber.step, Fiber.invoke]
    split
    · exact .inl rfl
    split
    · cases entry with
      | true => exact .inl rfl
      | false => exact .inr rfl
    · exact .inl rfl
    · split
      · exact .inl rfl
      · split <;> exact .inl rfl
  | activity a =>
    have hne : pending ≠ [] := hcontrol.1
    -- a builtin that goes on keeps whoever waits for it waiting
    have goesOn (a : Activity) :
        Fiber.Condemned P ⟨m, ctx, .activity a, pending, .program length⟩ :=
      ⟨fun hnil => absurd hnil hne, fun _ => .inl ⟨a, rfl⟩⟩
    cases a with
    | finish o =>
      refine ⟨fun hnil => absurd hnil hne, fun hone => .inr ?_⟩
      cases ho : ofBuiltin o with
      | ok v => exact .inl ⟨v, congrArg Control.deliver ho⟩
      | error e => exact .inr ⟨e, congrArg Control.deliver ho, hbuiltin o e hone rfl ho⟩
    | heap act next => exact goesOn _
    | limit query next => exact goesOn _
    | cancel next => exact goesOn _
    | call callee args next =>
      exact ⟨fun hnil => absurd hnil (List.cons_ne_nil _ _), fun hone => by cases hone⟩
    | spawn callee args next => exact goesOn _
    | block operation next =>
      simp only [Fiber.step, Fiber.act]
      split <;> exact goesOn _
  | deliver o =>
    simp only [Fiber.step, Fiber.deliver]
    cases pending with
    | nil =>
      rcases hf.outside rfl with h | ⟨e, h | h, hP⟩
      · cases h
      · cases h
        exact ⟨fun _ => .inr ⟨e, .inr rfl, hP⟩, fun hone => by cases hone⟩
      · cases h
    | cons p rest =>
      cases p with
      | operand =>
        -- the result of the outermost builtin goes back to the run, whose next turn is refused
        have hcalled : Pending.Called rest := horder.1
        cases o with
        | error e =>
          refine ⟨?_, fun hone => ?_⟩
          · rintro rfl
            rcases hf.outermost rfl with ⟨_, h⟩ | ⟨_, h⟩ | ⟨e', h, hP⟩
            · cases h
            · cases h
            · cases h
              exact .inr ⟨e, .inl rfl, hP⟩
          · exact (hcalled.ne_operand hone).elim
        | ok v =>
          -- there is room for the result
          have hroom : m.stack.size < m.stack.limit := hm.bounds.limit ▸ hcontrol
          have hpush : m.stack.push v = .ok ⟨m.stack.contents.push v, m.stack.limit⟩ := if_pos hroom
          dsimp only
          rw [hpush]
          exact ⟨fun _ => .inl rfl, fun hone => (hcalled.ne_operand hone).elim⟩
      | callback c next =>
        -- who called back is a builtin, and its own caller still waits
        have hne : rest ≠ [] := horder.1
        exact ⟨fun hnil => absurd hnil hne, fun _ => .inl ⟨_, rfl⟩⟩
  | finished o =>
    obtain rfl : pending = [] := hcontrol
    rcases hf.outside rfl with h | ⟨e, h | h, hP⟩
    · cases h
    · cases h
    · cases h
      exact ⟨fun _ => .inr ⟨e, .inr rfl, hP⟩, fun hone => by cases hone⟩

end Fiber.Condemned

/-- **The error of the outermost builtin** that was active at a moment, which has returned it
since. -/
def Moment.Returned (host : Host) (m : Moment) (e : RuntimeError) : Prop :=
  ∃ m' o, m.During host 0 m' ∧ m'.party.fiber.pending = [.operand] ∧
    m'.party.fiber.control = .activity (.finish o) ∧ Fiber.ofBuiltin o = .error e

/-- **A run after it was cancelled.** It is condemned, and as long as somebody has been waiting all
the time, a builtin is active that was active when the run was cancelled. -/
structure Moment.Stopped (host : Host) (config : Config) (m m' : Moment) : Prop where
  run : m'.party.fiber.InRun config
  cancelled : m'.party.fiber.ctx.isCancelled m'.world.controls = true
  condemned : m'.party.fiber.Condemned fun e => e = .interrupted .cancelled ∨ m.Returned host e
  since : m'.party.fiber.pending ≠ [] → m.During host 0 m'

namespace Moment.Stopped

variable {host : Host} {config : Config} {m m₁ m₂ : Moment}

/-- Nobody waits any more once the outermost builtin has returned. -/
theorem pending_own (h : m.Stopped host config m₁) (hp : m₁.party.fiber.pending = []) :
    (m₁.own host).party.fiber.pending = [] := by
  have hcancelled := h.cancelled
  have houtside := h.condemned.outside hp
  obtain ⟨length, hgoal⟩ := h.run.program
  show (m₁.party.fiber.step host m₁.world).2.1.pending = []
  generalize m₁.party.fiber = f at *
  obtain ⟨machine, ctx, control, pending, goal⟩ := f
  obtain rfl : pending = [] := hp
  obtain rfl : goal = .program length := hgoal
  rcases houtside with rfl | ⟨e, rfl | rfl, -⟩
  · simp only [Fiber.step, Fiber.dispatch,
      Exec.turn_of_cancelled (s := ⟨machine, m₁.world⟩) hcancelled]
  · rfl
  · rfl

/-- **Whatever happens**, a run that was cancelled stays stopped. -/
theorem step (h : m.Stopped host config m₁) (hs : m₁.Onward host m₂) :
    m.Stopped host config m₂ := by
  obtain ⟨hstep, hkeeps⟩ := hs
  by_cases ho : m₂ = m₁.own host
  · subst ho
    obtain ⟨-, hctx⟩ := m₁.party.fiber.goal_step host m₁.world
    refine ⟨h.run.step host m₁.world, ?_, ?_, fun hne => ?_⟩
    · rw [show (m₁.own host).party.fiber.ctx = m₁.party.fiber.ctx from hctx]
      exact Context.isCancelled_mono hkeeps h.cancelled
    · refine h.condemned.step h.run h.cancelled (.inl rfl) fun o e hp hc hr => .inr ?_
      exact ⟨m₁, o, h.since (hp ▸ List.cons_ne_nil _ _), hp, hc, hr⟩
    · have hp : m₁.party.fiber.pending ≠ [] := fun hp => hne (h.pending_own hp)
      exact .step (h.since hp) hstep (List.length_pos_iff.mpr hne)
  · have hparty := hstep.party ho
    refine ⟨hparty ▸ h.run, ?_, hparty ▸ h.condemned, fun hne => ?_⟩
    · rw [hparty]
      exact Context.isCancelled_mono hkeeps h.cancelled
    · exact .step (h.since (hparty ▸ hne)) hstep (List.length_pos_iff.mpr hne)

theorem steps (h : m.Stopped host config m₁)
    (hs : Relation.ReflTransGen (Moment.Onward host) m₁ m₂) : m.Stopped host config m₂ := by
  induction hs with
  | refl => exact h
  | tail _ hs ih => exact ih.step hs

end Moment.Stopped

/-- What happens in the run of a program leaves it in order. -/
theorem Moment.Steps.inRun {host : Host} {config : Config} {m m' : Moment} (h : m.Steps host m')
    (hm : m.party.fiber.InRun config) : m'.party.fiber.InRun config := by
  induction h with
  | refl => exact hm
  | @tail m₁ m₂ _ hs ih =>
    by_cases ho : m₂ = m₁.own host
    · exact ho ▸ ih.step host m₁.world
    · exact hs.party ho ▸ ih

/-- What a fiber was told to observe, it observes all the time. -/
theorem Moment.Steps.ctx {host : Host} {m m' : Moment} (h : m.Steps host m') :
    m'.party.fiber.ctx = m.party.fiber.ctx := by
  induction h with
  | refl => rfl
  | @tail m₁ m₂ _ hs ih =>
    by_cases ho : m₂ = m₁.own host
    · exact ho ▸ (m₁.party.fiber.goal_step host m₁.world).2.trans ih
    · exact hs.party ho ▸ ih

/-- **Cancelling reaches the derived contexts, and stops their runs at once.** A context is
cancelled by the handles on its own derivation, and the handle of a context lies on the derivations
of those that were derived from it, and on no others; along a derivation the deadline never gets
later. And when a run is cancelled between two turns of the dispatch loop or inside a builtin, it
executes no instruction after that, the next turn of the loop fails, and the run does not end with a
value: it fails because it was cancelled, or with the error that the outermost builtin that was
active then returns. -/
theorem Derivations.cancel_stops {c : Controls} {made : List (List Link × Context)}
    {used : List FlagRef} (h : Derivations c made used) :
    (∀ path ctx, (path, ctx) ∈ made →
      (ctx.isCancelled c = true ↔ ∃ handle ∈ used, .cancel handle ∈ path)) ∧
    (∀ path ctx path' ctx', (path, ctx) ∈ made → (path', ctx') ∈ made →
      (∀ handle p, .cancel handle :: p <:+ path' →
        (.cancel handle ∈ path ↔ .cancel handle :: p <:+ path)) ∧
      (path <:+ path' → NoLater ctx'.deadline ctx.deadline)) ∧
    ∀ {host : Host} {config : Config} {s : System} {ctx : Context} {code : Code} {m m' : Moment},
      s.machine.InBounds config →
      (s.begin (.forProgram s.machine ctx code) (s.world.ensureGlobals code.globalCount)).Steps
        host m →
      m.party.fiber.AtPoint → ctx.isCancelled m.world.controls = true →
      Relation.ReflTransGen (Moment.Onward host) m m' →
        (∀ thread, m'.party.fiber.execution? thread m'.world = none) ∧
        (m'.party.fiber.control = .dispatch →
          (m'.own host).party.fiber.control = .deliver (.error (.interrupted .cancelled))) ∧
        ∀ o, m'.party.fiber.outcome? = some o →
          ∃ e, o = .error e ∧ (e = .interrupted .cancelled ∨ m.Returned host e) := by
  refine ⟨fun path ctx hm => h.isCancelled_iff hm, fun path ctx path' ctx' hm hm' =>
    ⟨fun handle p hp => ⟨fun hmem => ?_, fun hs => hs.subset List.mem_cons_self⟩,
      h.deadline_noLater hm hm'⟩, ?_⟩
  · obtain ⟨before, q, rfl⟩ := List.append_of_mem hmem
    obtain rfl : q = p := h.handle_unique hm hm' (List.suffix_append before _) hp
    exact List.suffix_append before _
  · intro host config s ctx code m m' hs hsteps hpoint hcancelled honward
    have hctx : m.party.fiber.ctx = ctx := hsteps.ctx
    have hrun : m.party.fiber.InRun config := hsteps.inRun (.forProgram hs ctx code)
    have hstopped : m.Stopped host config m :=
      ⟨hrun, hctx ▸ hcancelled, .of_atPoint hrun hpoint, fun hne =>
        .start (List.length_pos_iff.mpr hne)⟩
    have hstopped := hstopped.steps honward
    refine ⟨fun thread => Fiber.execution?_of_cancelled hstopped.cancelled thread, fun hd => ?_,
      fun o ho => ?_⟩
    · have hcancelled := hstopped.cancelled
      show (m'.party.fiber.step host m'.world).2.1.control = _
      generalize m'.party.fiber = f at hd hcancelled
      obtain ⟨machine, ctx', control, pending, goal⟩ := f
      obtain rfl : control = .dispatch := hd
      simp only [Fiber.step, Fiber.dispatch,
        Exec.turn_of_cancelled (s := ⟨machine, m'.world⟩) hcancelled]
    · have hcontrol := Fiber.outcome?_eq_some.mp ho
      have hpending := hstopped.run.control
      rw [hcontrol] at hpending
      rcases hstopped.condemned.outside hpending with h | ⟨e, h | h, he⟩
      · rw [hcontrol] at h
        cases h
      · rw [hcontrol] at h
        cases h
      · rw [hcontrol] at h
        cases h
        exact ⟨e, rfl, he⟩

/-- A program that pushes nil, under a child that was cancelled while its parent was not: it fails
before its first instruction. -/
theorem Derivations.cancelled_child_stops :
    ∃ (parent child : Context) (s : System) (m : Moment),
      parent.isCancelled s.world.controls = false ∧ child.isCancelled s.world.controls = true ∧
      m = s.begin (.forProgram s.machine child (.ofParts #[Opcode.pushNil.word] #[]))
        (s.world.ensureGlobals 0) ∧
      (∀ thread, m.party.fiber.execution? thread m.world = none) ∧
      ∃ e, ((m.own default).own default).party.fiber.outcome? = some (.error e) ∧
        (e = .interrupted .cancelled ∨ m.Returned default e) := by
  let controls : Controls := { flags := #[true] }
  let child : Context := { flags := [⟨0⟩] }
  let s : System := { world := { controls } }
  let m : Moment := s.begin (.forProgram s.machine child (.ofParts #[Opcode.pushNil.word] #[]))
    (s.world.ensureGlobals 0)
  have made : Derivations controls [([.cancel ⟨0⟩], child), ([], .background)] [⟨0⟩] :=
    .cancel (.withCancel (.background (.start {})) List.mem_cons_self) List.mem_cons_self
  obtain ⟨hcancels, -, hstops⟩ := made.cancel_stops
  have hchild : child.isCancelled controls = true :=
    (hcancels _ child List.mem_cons_self).mpr ⟨_, List.mem_cons_self, List.mem_cons_self⟩
  have hparent : Context.background.isCancelled controls = false := by
    rw [← Bool.not_eq_true, hcancels [] .background (List.mem_cons_of_mem _ List.mem_cons_self)]
    rintro ⟨_, -, hmem⟩
    exact absurd hmem List.not_mem_nil
  have own (m : Moment) := Moment.onward_own default m
  have bounds : s.machine.InBounds .standard := .fresh .standard {}
  have start : Moment.Steps default m m := .refl
  obtain ⟨hnone, -, -⟩ := hstops bounds start trivial hchild .refl
  obtain ⟨-, -, hends⟩ := hstops bounds start trivial hchild
    (.head (own m) (.single (own (m.own default))))
  obtain ⟨o, ho⟩ : ∃ o, ((m.own default).own default).party.fiber.outcome? = some o := ⟨_, rfl⟩
  obtain ⟨e, rfl, he⟩ := hends o ho
  exact ⟨.background, child, s, m, hparent, hchild, rfl, hnone, e, ho, he⟩

end ScriptEngine
