import ScriptEngine.Proofs.Code.Decoding
import ScriptEngine.Proofs.Machine.Moments

/-!
# Executions

What the machines of a system execute, instruction by instruction, and all that a step does to the
frames, to the globals and to the functions. Code is entered at its start and goes on from one
instruction to the next or to the target of a jump; a global changes when an instruction stores into
it, and at no other time; the functions do not change at all.

Nothing is assumed of the code, nor of the values on the stacks.

## Main definitions

* `ScriptEngine.Execution`: an instruction that is executed, by a machine in a frame;
* `ScriptEngine.Frame.Moves`: a frame after an instruction;
* `ScriptEngine.Frame.Step`: the frames after a step;
* `ScriptEngine.Fiber.Keeps`: a fiber whose builtins keep properties of the functions;
* `ScriptEngine.Fiber.Obeys`: a fiber whose builtins leave the functions alone.

## Main results

* `ScriptEngine.Exec.effect_turn`: all that a turn of the dispatch loop does to the frames, the
  globals and the functions;
* `ScriptEngine.Fiber.frames_step`, `ScriptEngine.Fiber.globals_step`,
  `ScriptEngine.Fiber.Obeys.step`: the same for every step of a fiber.
-/

namespace ScriptEngine

/-- **An instruction that is executed**, for a thread handle or for the host itself, with the
machine and the frame in which it is. -/
structure Execution where
  thread : Option (Ref .thread)
  machine : Machine
  frame : Frame
  instruction : Instruction

namespace Execution

/-- The instruction is one of a program, and not of a function in it. -/
def InProgram (x : Execution) : Prop :=
  x.frame.function = none

/-- The slot of the global into which an instruction stores, and the value. -/
def store? (x : Execution) : Option (Word × Value) :=
  if x.instruction.op = .storeGlobal then
    x.machine.stack.toList.head?.map (x.instruction.first, ·)
  else none

end Execution

/-- The content of the globals after an execution, if there was one. -/
def World.globalsAfter (w : World) (x : Option Execution) : Array Value :=
  match x.bind Execution.store? with
  | some (slot, v) => (w.setGlobal slot.toNat v).globals
  | none => w.globals

/-! ### Frames -/

/-- **A frame after an instruction**: it goes on behind the instruction or at the target of its
jump, and nothing else of it changes but its variables. -/
structure Frame.Moves (i : Instruction) (g g' : Frame) : Prop where
  same : g' = { g with ip := g'.ip, locals := g'.locals }
  ip : g'.ip = i.stop ∨ i.target? = some g'.ip ∧ g'.ip ≤ g.code.size

/-- **The frames after a step**: some were left, the innermost one moved, or a function was
entered. -/
inductive Frame.Step (functions : Ref .function → Function) (x : Option Execution) :
    List Frame → List Frame → Prop where
  | leave {gs : List Frame} (n : Nat) : Step functions x gs (gs.drop n)
  | move {g g' : Frame} {rest : List Frame} {e : Execution} (hx : x = some e) (hf : e.frame = g)
    (h : g.Moves e.instruction g') : Step functions x (g :: rest) (g' :: rest)
  | enter {g : Frame} {gs : List Frame} (r : Ref .function) (hf : g.function = some (functions r))
    (hc : g.code = (functions r).code) (hi : g.ip = 0) : Step functions x gs (g :: gs)

/-- A machine in the middle of an instruction, behind which it goes on. -/
def Machine.behind (m : Machine) (i : Instruction) : Machine :=
  { m with frames := m.frames.mapTop ({ · with ip := i.stop }), ticks := m.ticks + 1 }

namespace Exec

/-! ### Turns of the dispatch loop -/

/-- What comes before the instruction of a turn: the cancel flags and, from time to time, the
clock. -/
def precheck (ctx : Context) : Exec Unit := do
  observe ctx.checkCancelled
  if ← tick then observe ctx.checkDeadline

theorem turn_eq (ctx : Context) : turn ctx = (do
    precheck ctx
    fetchAndExecute ctx) := by
  unfold turn precheck
  simp only [bind_assoc]
  congr 1
  funext _
  congr 1
  funext late
  split
  · rfl
  · exact (pure_bind _ _).symm

/-- The frame and the instruction of a turn, unless it is interrupted before. -/
def next? (ctx : Context) (s : State) : Option (Frame × Instruction) :=
  match precheck ctx s with
  | .error .. => none
  | .ok .. =>
    s.machine.frames.top?.bind fun g =>
      if g.ip < g.code.size then (g.code.fetch g.ip).toOption.map (g, ·) else none

/-- Nothing but the number of ticks has changed. -/
def Ticked (s s' : State) : Prop :=
  ∃ ticks, s' = { s with machine := { s.machine with ticks } }

/-- Before the instruction of a turn, nothing changes but the number of ticks. -/
theorem ticked_precheck (ctx : Context) (s : State) :
    Ensures (· = s) (precheck ctx) (fun _ => Ticked s) fun _ => Ticked s := by
  have look (ask : Controls → Except Interrupt Unit) : Stays (Ticked s) (observe ask) :=
    Stays.observe ask
  have count : Stays (Ticked s) tick := by
    rintro ⟨⟨config, stack, frames, registry, position, status, ticks⟩, world⟩ ⟨n, hs⟩
    refine ⟨fun a s' h => ?_, fun e s' h => by cases h⟩
    cases h
    refine ⟨ticks + 1, ?_⟩
    obtain ⟨machine, _⟩ := s
    cases hs
    rfl
  have all : Stays (Ticked s) (precheck ctx) := by
    refine (look _).bind fun _ => count.bind fun late => ?_
    split
    · exact look _
    · exact .pure _
  exact all.mono (fun t ht => ⟨t.machine.ticks, ht ▸ rfl⟩) (fun _ _ h => h) fun _ _ h => h

/-- What is executed next is fetched in the innermost frame, in a state that was admitted. -/
theorem of_next? {ctx : Context} {s : State} {g : Frame} {i : Instruction}
    (h : next? ctx s = some (g, i)) : (∃ u t, precheck ctx s = .ok u t) ∧
      s.machine.frames.top? = some g ∧ g.ip < g.code.size ∧ g.code.fetch g.ip = .ok i := by
  unfold next? at h
  split at h
  · cases h
  · rename_i u t hcheck
    obtain ⟨top, htop, h⟩ := Option.bind_eq_some_iff.mp h
    split at h
    · rename_i hlt
      obtain ⟨j, hj, heq⟩ := Option.map_eq_some_iff.mp h
      cases heq
      refine ⟨⟨u, t, hcheck⟩, htop, hlt, ?_⟩
      cases hfetch : g.code.fetch g.ip with
      | ok k =>
        rw [hfetch] at hj
        cases hj
        rfl
      | error e =>
        rw [hfetch] at hj
        cases hj
    · cases h

/-- A turn under a context that is cancelled fails, and is not counted. -/
theorem turn_of_cancelled {ctx : Context} {s : State}
    (h : ctx.isCancelled s.world.controls = true) :
    turn ctx s = .error (.interrupted .cancelled) s := by
  have hobserve : observe ctx.checkCancelled s = .error (.interrupted .cancelled) s := by
    unfold observe Context.checkCancelled
    rw [get_bind, if_pos h]
    rfl
  exact bind_eq_error.mpr (.inl hobserve)

/-- What is fetched in a turn that was admitted is executed next. -/
theorem next?_of_fetch {ctx : Context} {s t : State} {u : Unit} {g : Frame} {i : Instruction}
    (hcheck : precheck ctx s = .ok u t) (htop : s.machine.frames.top? = some g)
    (hlt : g.ip < g.code.size) (hfetch : g.code.fetch g.ip = .ok i) :
    next? ctx s = some (g, i) := by
  unfold next?
  rw [hcheck]
  dsimp only
  rw [htop]
  dsimp only [Option.bind_some]
  rw [if_pos hlt, hfetch]
  rfl

theorem observe_eq_ok {ask : Controls → Except Interrupt Unit} {s t : State} {u : Unit} :
    observe ask s = .ok u t ↔ ask s.world.controls = .ok () ∧ s = t := by
  unfold observe
  rw [get_bind]
  cases ha : ask s.world.controls with
  | ok u =>
    show (pure () : Exec Unit) s = _ ↔ _
    rw [pure_eq_ok]
    exact ⟨fun h => ⟨rfl, h.2⟩, fun h => ⟨rfl, h.2⟩⟩
  | error i =>
    show (throw _ : Exec Unit) s = _ ↔ _
    rw [throw_ne_ok]
    exact ⟨False.elim, fun h => by cases h.1⟩

/-- A state in which one more instruction was counted. -/
def ticked (s : State) : State :=
  { s with machine := { s.machine with ticks := s.machine.ticks + 1 } }

theorem tick_eq (s : State) :
    tick s = .ok ((s.machine.ticks + 1) % s.machine.config.checkInterval == 0) (ticked s) := rfl

/-- **A turn is admitted** if the context is not cancelled and the clock has not run out when it is
looked at. -/
theorem precheck_eq_ok {ctx : Context} {s t : State} {u : Unit} :
    precheck ctx s = .ok u t ↔ ctx.checkCancelled s.world.controls = .ok () ∧
      ((s.machine.ticks + 1) % s.machine.config.checkInterval = 0 →
        ctx.checkDeadline s.world.controls = .ok ()) ∧ t = ticked s := by
  have looked : (do if ← tick then observe ctx.checkDeadline : Exec Unit) s = .ok u t ↔
      ((s.machine.ticks + 1) % s.machine.config.checkInterval = 0 →
        ctx.checkDeadline s.world.controls = .ok ()) ∧ t = ticked s := by
    show EStateM.bind tick _ s = _ ↔ _
    unfold EStateM.bind
    rw [tick_eq]
    dsimp only
    by_cases hl : (s.machine.ticks + 1) % s.machine.config.checkInterval = 0
    · rw [if_pos (beq_iff_eq.mpr hl), observe_eq_ok]
      exact ⟨fun h => ⟨fun _ => h.1, h.2.symm⟩, fun h => ⟨h.1 hl, h.2.symm⟩⟩
    · rw [if_neg (fun h => hl (beq_iff_eq.mp h)), pure_eq_ok]
      exact ⟨fun h => ⟨fun h' => absurd h' hl, h.2.symm⟩, fun h => ⟨rfl, h.2.symm⟩⟩
  unfold precheck
  rw [bind_eq_ok]
  constructor
  · rintro ⟨_, _, h, h'⟩
    obtain ⟨hc, rfl⟩ := observe_eq_ok.mp h
    exact ⟨hc, looked.mp h'⟩
  · rintro ⟨hc, h⟩
    exact ⟨(), s, observe_eq_ok.mpr ⟨hc, rfl⟩, looked.mpr h⟩

/-- **A turn keeps a lasting property** that is blind to the ticks, if it survives the instruction
where that is a halt or builds a value. -/
theorem ensures_turn {R : State → Prop} (hR : Lasting R) {ctx : Context} {s : State}
    (hs : ∀ ticks, R { s with machine := { s.machine with ticks } })
    (hh : ∀ g i, next? ctx s = some (g, i) → i.op = .halt → BlindToStatus R)
    (hb : ∀ g i, next? ctx s = some (g, i) → i.op.builds = true → ∀ v, Stays R (pushBuilt ctx v)) :
    Ensures (· = s) (turn ctx) (fun _ => R) fun _ => R := by
  rw [turn_eq]
  rintro _ rfl
  rename_i s
  obtain ⟨-, herr⟩ := ticked_precheck ctx s _ rfl
  have rest {u : Unit} {t : State} (ht : precheck ctx s = .ok u t) :
      Ensures (· = t) (fetchAndExecute ctx) (fun _ => R) fun _ => R := by
    obtain ⟨-, -, rfl⟩ := precheck_eq_ok.mp ht
    exact Stays.fetchAndExecute hR ctx (hs _)
      (fun g i htop hlt hfetch => hh g i (next?_of_fetch ht htop hlt hfetch))
      fun g i htop hlt hfetch => hb g i (next?_of_fetch ht htop hlt hfetch)
  refine ⟨fun flow s' h => ?_, fun e s' h => ?_⟩
  · obtain ⟨u, t, ht, h⟩ := bind_eq_ok.mp h
    exact (rest ht t rfl).1 flow s' h
  · rcases bind_eq_error.mp h with h | ⟨u, t, ht, h⟩
    · obtain ⟨ticks, rfl⟩ := herr e s' h
      exact hs ticks
    · exact (rest ht t rfl).2 e s' h

/-- **A turn in which an instruction is executed** is its execution, behind the instruction. -/
theorem turn_of_next? {ctx : Context} {s : State} {g : Frame} {i : Instruction}
    (h : next? ctx s = some (g, i)) :
    turn ctx s = execute ctx i ⟨s.machine.behind i, s.world⟩ := by
  obtain ⟨⟨u, t, hcheck⟩, htop, hlt, hfetch⟩ := of_next? h
  obtain ⟨-, -, rfl⟩ := precheck_eq_ok.mp hcheck
  have htop : (ticked s).machine.frames.top? = some g := htop
  rw [turn_eq, bind_of_ok hcheck, fetchAndExecute_of_fetch htop hlt hfetch]
  rfl

/-- **All that a step does** to the frames, the globals and the functions. -/
structure Effect (x : Option Execution) (s s' : State) : Prop where
  frames : Frame.Step s.world.heap.function x s.machine.frames.items s'.machine.frames.items
  globals : s'.world.globals = s.world.globalsAfter x
  functions : s'.world.heap.functions = s.world.heap.functions

/-- Given frames, globals and functions. -/
structure Holds (frames : List Frame → Prop) (globals : Array Value) (fs : Array Function)
    (s : State) : Prop where
  frames : frames s.machine.frames.items
  globals : s.world.globals = globals
  functions : s.world.heap.functions = fs

theorem Holds.operands {P : List Frame → Prop} {globals : Array Value} {fs : Array Function} :
    BlindToOperands (Holds P globals fs) :=
  fun _ h => ⟨h.frames, h.globals, h.functions⟩

/-- The frames while an instruction is executed that leaves none. -/
def Moving (i : Instruction) (g : Frame) (rest gs : List Frame) : Prop :=
  ∃ g', gs = g' :: rest ∧ g.Moves i g'

section

variable {g : Frame} {rest : List Frame} {globals : Array Value} {fs : Array Function}
  {i : Instruction}

theorem Stack.items_mapTop {α : Type} (f : α → α) (s : Stack α) {x : α} {xs : List α}
    (h : s.items = x :: xs) : (s.mapTop f).items = f x :: xs := by
  obtain ⟨items, size, hs⟩ := s
  cases items with
  | nil => cases h
  | cons y ys =>
    cases h
    rfl

/-- Where the innermost frame goes on is all that matters. -/
theorem blind_moving : Blind (Holds (Moving i g rest) globals fs) where
  stack := Holds.operands
  heap hf h := ⟨h.frames, h.globals, hf.trans h.functions⟩
  locals hf h := by
    obtain ⟨g', hg, hm⟩ := h.frames
    refine ⟨⟨_, Stack.items_mapTop _ _ hg, ?_, ?_⟩, h.globals, h.functions⟩
    · rw [hf, hm.same]
    · rw [hf]
      exact hm.ip

theorem admits_moving {target : Nat} (ht : i.target? = some target) :
    Admits (Holds (Moving i g rest) globals fs) target := by
  intro m w top htop hle h
  obtain ⟨g', hg, hm⟩ := h.frames
  obtain rfl : g' = top := by
    unfold Stack.top? at htop
    rw [hg] at htop
    exact Option.some.inj htop
  refine ⟨⟨_, Stack.items_mapTop _ _ hg, ?_, .inr ⟨ht, ?_⟩⟩, h.globals, h.functions⟩
  · rw [hm.same]
  · rwa [hm.same] at hle

/-- A frame that is left is gone, whatever happens then. -/
theorem leaveFrame_holds (v : Value) :
    Ensures (Holds (Moving i g rest) globals fs) (leaveFrame v)
      (fun _ => Holds (fun gs => Moving i g rest gs ∨ gs = rest) globals fs)
      (fun _ => Holds (fun gs => Moving i g rest gs ∨ gs = rest) globals fs) := by
  refine Ensures.bind (Q := fun _ => Holds (fun gs => Moving i g rest gs ∨ gs = rest) globals fs)
    ?_ fun f => ?_
  · rintro ⟨⟨config, stack, frames, registry, position, status, ticks⟩, world⟩ hs
    refine ⟨fun a s' h => ?_, fun e s' h => by cases h⟩
    cases h
    refine ⟨.inr ?_, hs.globals, hs.functions⟩
    obtain ⟨g', hg, -⟩ := hs.frames
    show (frames.truncate (frames.size - 1)).items = rest
    replace hg : frames.items = g' :: rest := hg
    rw [Stack.items_truncate, frames.size_eq, hg, List.length_cons,
      show rest.length + 1 - (rest.length + 1 - 1) = 1 by omega]
    rfl
  · split
    · exact Stays.throw _
    · refine Stays.bind (Stays.truncate Holds.operands _) fun _ => ?_
      split
      · exact Stays.pure _
      · exact (Stays.push Holds.operands v).bind fun _ => Stays.pure _

/-- A halt leaves all frames. -/
theorem halt_holds :
    Ensures (Holds (Moving i g rest) globals fs) halt
      (fun _ => Holds (fun gs => Moving i g rest gs ∨ gs = []) globals fs)
      (fun _ => Holds (fun gs => Moving i g rest gs ∨ gs = []) globals fs) := by
  refine Ensures.bind (Q := fun _ => Holds (Moving i g rest) globals fs) ?_ fun v => ?_
  · refine (Stays.popOrNil Holds.operands).mono (fun _ h => h) (fun _ _ h => h) fun _ t h => ?_
    exact ⟨.inl h.frames, h.globals, h.functions⟩
  refine Ensures.bind (Q := fun _ => Holds (fun gs => Moving i g rest gs ∨ gs = []) globals fs)
    ?_ fun _ => ?_
  · rintro ⟨⟨config, stack, frames, registry, position, status, ticks⟩, world⟩ hs
    refine ⟨fun a s' h => ?_, fun e s' h => by cases h⟩
    cases h
    exact ⟨.inr rfl, hs.globals, hs.functions⟩
  refine Ensures.bind (Q := fun _ => Holds (fun gs => Moving i g rest gs ∨ gs = []) globals fs)
    ?_ fun _ => Stays.pure _
  rintro ⟨⟨config, stack, frames, registry, position, status, ticks⟩, world⟩ hs
  refine ⟨fun a s' h => ?_, fun e s' h => by cases h⟩
  cases h
  exact ⟨hs.frames, hs.globals, hs.functions⟩

end

/-- The frames after an instruction: its own frame moved, was left, or all frames were. -/
def Ending (i : Instruction) (g : Frame) (rest gs : List Frame) : Prop :=
  Moving i g rest gs ∨ gs = rest ∨ gs = []

/-- A store takes the top operand and changes one global. -/
theorem pop_store {s : State} {slot : Word} {P : List Frame → Prop} {fs : Array Function}
    (hs : Holds P s.world.globals fs s) {globals : Array Value}
    (hg : globals = match s.machine.stack.toList.head? with
      | some v => (s.world.setGlobal slot.toNat v).globals
      | none => s.world.globals) :
    Ensures (· = s) (do
        let v ← pop
        onWorld fun w => ((), w.setGlobal slot.toNat v))
      (fun _ => Holds P globals fs) fun _ => Holds P globals fs := by
  rintro ⟨⟨config, ⟨⟨items, size, hsize⟩, limit⟩, frames, registry, position, status, ticks⟩,
    world⟩ rfl
  cases items with
  | nil =>
    -- there is no operand, and nothing is stored
    refine ⟨fun a s' h => ?_, fun e s' h => ?_⟩
    · obtain ⟨_, _, h, -⟩ := bind_eq_ok.mp h
      cases h
    · rcases bind_eq_error.mp h with h | ⟨_, _, h, -⟩
      · cases h
        exact ⟨hs.frames, hg.symm, hs.functions⟩
      · cases h
  | cons v items =>
    refine ⟨fun a s' h => ?_, fun e s' h => ?_⟩
    · obtain ⟨_, _, h, h'⟩ := bind_eq_ok.mp h
      cases h
      cases h'
      exact ⟨hs.frames, hg.symm, hs.functions⟩
    · rcases bind_eq_error.mp h with h | ⟨_, _, h, h'⟩
      · cases h
      · cases h
        cases h'

/-- **All that an instruction does** to the frames, the globals and the functions. -/
theorem execute_holds (ctx : Context) {x : Execution} {s : State} {rest : List Frame}
    {fs : Array Function}
    (hs : Holds (Moving x.instruction x.frame rest) s.world.globals fs s)
    (hm : x.machine.stack = s.machine.stack) :
    Ensures (· = s) (execute ctx x.instruction)
      (fun _ => Holds (Ending x.instruction x.frame rest) (s.world.globalsAfter (some x)) fs)
      fun _ => Holds (Ending x.instruction x.frame rest) (s.world.globalsAfter (some x)) fs := by
  by_cases hstore : x.instruction.op = .storeGlobal
  · have hglobals : s.world.globalsAfter (some x) = match s.machine.stack.toList.head? with
        | some v => (s.world.setGlobal x.instruction.first.toNat v).globals
        | none => s.world.globals := by
      unfold World.globalsAfter Execution.store?
      rw [Option.bind_some, if_pos hstore, hm]
      cases s.machine.stack.toList.head? <;> rfl
    have ending : Holds (Ending x.instruction x.frame rest) s.world.globals fs s :=
      ⟨.inl hs.frames, hs.globals, hs.functions⟩
    have step := pop_store ending hglobals
    unfold Exec.execute
    simp only [hstore]
    exact step.bind fun _ => Ensures.pure fun _ h => h
  · have hglobals : s.world.globalsAfter (some x) = s.world.globals := by
      unfold World.globalsAfter Execution.store?
      rw [Option.bind_some, if_neg hstore]
    rw [hglobals]
    have start : ∀ t, t = s → Holds (Moving x.instruction x.frame rest) s.world.globals fs t :=
      fun t ht => ht ▸ hs
    have moved {t : State} (h : Holds (Moving x.instruction x.frame rest) s.world.globals fs t) :
        Holds (Ending x.instruction x.frame rest) s.world.globals fs t :=
      ⟨.inl h.frames, h.globals, h.functions⟩
    by_cases hret : x.instruction.op = .returnValue
    · have leave (v : Value) :
          Ensures (Holds (Moving x.instruction x.frame rest) s.world.globals fs)
          (leaveFrame v) (fun _ => Holds (Ending x.instruction x.frame rest) s.world.globals fs)
          fun _ => Holds (Ending x.instruction x.frame rest) s.world.globals fs :=
        (leaveFrame_holds v).mono (fun _ h => h)
          (fun _ _ h => ⟨h.frames.imp id .inl, h.globals, h.functions⟩)
          fun _ _ h => ⟨h.frames.imp id .inl, h.globals, h.functions⟩
      unfold Exec.execute
      simp only [hret]
      split
      · exact Ensures.bind (Ensures.pure start) leave
      · refine Ensures.bind ?_ leave
        exact (Stays.pop Holds.operands).mono start (fun _ _ h => h) fun _ _ h => moved h
    by_cases hhalt : x.instruction.op = .halt
    · unfold Exec.execute
      simp only [hhalt]
      exact halt_holds.mono start (fun _ _ h => ⟨h.frames.imp id .inr, h.globals, h.functions⟩)
        fun _ _ h => ⟨h.frames.imp id .inr, h.globals, h.functions⟩
    · exact (Stays.execute blind_moving ctx (fun _ ht => admits_moving ht)
        (fun _ => Stays.pushBuilt Holds.operands (fun h => ⟨h.frames, h.globals, h.functions⟩) ctx)
        hret hhalt hstore).mono start
        (fun _ _ h => moved h) fun _ _ h => moved h

/-- The execution of a turn, for the given party. -/
def execution? (thread : Option (Ref .thread)) (ctx : Context) (s : State) : Option Execution :=
  (next? ctx s).map fun e => ⟨thread, s.machine, e.1, e.2⟩

theorem Effect.of_outcome {x : Execution} {s s' : State} {rest : List Frame}
    (hs : s.machine.frames.items = x.frame :: rest)
    (h : Holds (Ending x.instruction x.frame rest) (s.world.globalsAfter (some x))
      s.world.heap.functions s') : Effect (some x) s s' := by
  refine ⟨?_, h.globals, h.functions⟩
  rw [hs]
  rcases h.frames with ⟨g', hg, hm⟩ | hr | hn
  · rw [hg]
    exact .move rfl rfl hm
  · rw [hr]
    exact .leave 1
  · rw [hn]
    exact List.drop_length ▸ .leave (x.frame :: rest).length

/-- A step that executes nothing and may leave frames. -/
theorem Effect.of_left {s s' : State} {n : Nat}
    (hf : s'.machine.frames.items = s.machine.frames.items.drop n)
    (hg : s'.world.globals = s.world.globals)
    (hc : s'.world.heap.functions = s.world.heap.functions) : Effect none s s' :=
  ⟨hf ▸ .leave n, hg, hc⟩

/-- The end of a program leaves its frame. -/
theorem effect_endProgram {s : State} {g : Frame} {rest : List Frame}
    (hs : s.machine.frames.items = g :: rest) :
    Ensures (Holds (· = s.machine.frames.items) s.world.globals s.world.heap.functions)
      (endProgram g) (fun _ => Effect none s) fun _ => Effect none s := by
  have left {t : State} (h : Holds (· = rest) s.world.globals s.world.heap.functions t) :
      Effect none s t := by
    refine .of_left (n := 1) ?_ h.globals h.functions
    rw [h.frames, hs]
    rfl
  refine Ensures.bind
    (Q := fun _ => Holds (· = rest) s.world.globals s.world.heap.functions) ?_ fun _ => ?_
  · rintro ⟨⟨config, stack, frames, registry, position, status, ticks⟩, world⟩ ht
    refine ⟨fun a s' h => ?_, fun e s' h => by cases h⟩
    cases h
    refine ⟨?_, ht.globals, ht.functions⟩
    show (frames.truncate (frames.size - 1)).items = rest
    have hg : frames.items = g :: rest := Eq.trans ht.frames hs
    rw [Stack.items_truncate, frames.size_eq, hg, List.length_cons,
      show rest.length + 1 - (rest.length + 1 - 1) = 1 by omega]
    rfl
  · have cut (v : Value) : Stays (Holds (· = rest) s.world.globals s.world.heap.functions) (do
        truncate g.base
        return Flow.leave v) :=
      (Stays.truncate Holds.operands _).bind fun _ => .pure _
    have all : Stays (Holds (· = rest) s.world.globals s.world.heap.functions) (do
        let v ← if g.base < (← MonadState.get).machine.stack.size then pop else pure .nil
        truncate g.base
        return Flow.leave v) := by
      refine Stays.get.bind fun t => ?_
      dsimp only
      split
      · exact (Stays.pop Holds.operands).bind cut
      · exact (Stays.pure _).bind cut
    exact all.mono (fun _ h => h) (fun _ _ h => left h) fun _ _ h => left h

/-- The instruction of a turn, in a state that was admitted. -/
theorem effect_fetchAndExecute (ctx : Context) (thread : Option (Ref .thread)) {s t : State}
    {u : Unit} (ha : precheck ctx s = .ok u t) (ht : Ticked s t) :
    Ensures (· = t) (fetchAndExecute ctx) (fun _ => Effect (execution? thread ctx s) s)
      fun _ => Effect (execution? thread ctx s) s := by
  obtain ⟨ticks, rfl⟩ := ht
  have start : ∀ t : State, t = { s with machine := { s.machine with ticks } } →
      Holds (· = s.machine.frames.items) s.world.globals s.world.heap.functions t := by
    rintro _ rfl
    exact ⟨rfl, rfl, rfl⟩
  have still {t : State}
      (h : Holds (· = s.machine.frames.items) s.world.globals s.world.heap.functions t) :
      Effect none s t := .of_left (n := 0) h.frames h.globals h.functions
  unfold execution? next? fetchAndExecute
  rw [ha]
  refine .get fun t ht => ?_
  subst ht
  dsimp only
  cases htop : s.machine.frames.top? with
  | none =>
    -- nothing is executed after a halt
    dsimp only [Option.bind_none, Option.map_none]
    refine Ensures.bind ((Stays.popOrNil Holds.operands).mono start (fun _ _ h => h)
      fun _ _ h => still h) fun v => ?_
    exact Ensures.pure fun _ h => still h
  | some g =>
    obtain ⟨rest, hframes⟩ : ∃ rest, s.machine.frames.items = g :: rest := by
      unfold Stack.top? at htop
      cases hi : s.machine.frames.items with
      | nil =>
        rw [hi] at htop
        cases htop
      | cons x rest =>
        rw [hi] at htop
        cases htop
        exact ⟨rest, rfl⟩
    dsimp only [Option.bind_some]
    by_cases hlt : g.ip < g.code.size
    · rw [if_pos hlt, if_pos hlt]
      cases hfetch : g.code.fetch g.ip with
      | error e => exact Ensures.throw fun _ h => still (start _ h)
      | ok i =>
        show Ensures _ _ (fun _ => Effect (some ⟨thread, s.machine, g, i⟩) s)
          fun _ => Effect (some ⟨thread, s.machine, g, i⟩) s
        let moved : State := { s with machine := { s.machine with
          frames := s.machine.frames.mapTop ({ · with ip := i.stop }), ticks } }
        refine Ensures.bind (Q := fun _ t => t = moved) ?_ fun _ => ?_
        · rintro _ rfl
          refine ⟨fun a s' h => ?_, fun e s' h => by cases h⟩
          cases h
          rfl
        · have hmoved : Holds (Moving i g rest) s.world.globals s.world.heap.functions moved :=
            ⟨⟨_, Stack.items_mapTop _ _ hframes, rfl, .inl rfl⟩, rfl, rfl⟩
          have hexecute :=
            execute_holds ctx (x := ⟨thread, s.machine, g, i⟩) (s := moved) hmoved rfl
          exact hexecute.mono (fun _ h => h) (fun _ _ h => .of_outcome hframes h)
            fun _ _ h => .of_outcome hframes h
    · rw [if_neg hlt, if_neg hlt]
      dsimp only [Option.map_none]
      split
      · exact Ensures.throw fun _ h => still (start _ h)
      · exact (effect_endProgram hframes).mono start (fun _ _ h => h) fun _ _ h => h

/-- **All that a turn of the dispatch loop does** to the frames, the globals and the functions. -/
theorem effect_turn (ctx : Context) (thread : Option (Ref .thread)) (s : State) :
    Ensures (· = s) (turn ctx) (fun _ => Effect (execution? thread ctx s) s)
      fun _ => Effect (execution? thread ctx s) s := by
  rw [turn_eq]
  rintro _ rfl
  rename_i s
  obtain ⟨hok, herr⟩ := ticked_precheck ctx s s rfl
  refine ⟨fun flow s' h => ?_, fun e s' h => ?_⟩
  · obtain ⟨u, t, ha, h⟩ := bind_eq_ok.mp h
    exact (effect_fetchAndExecute ctx thread ha (hok u t ha) t rfl).1 flow s' h
  · rcases bind_eq_error.mp h with h | ⟨u, t, ha, h⟩
    · obtain ⟨ticks, rfl⟩ := herr e s' h
      unfold execution? next?
      rw [h]
      exact .of_left (n := 0) rfl rfl rfl
    · exact (effect_fetchAndExecute ctx thread ha (hok u t ha) t rfl).2 e s' h

end Exec

/-! ### Steps of a fiber -/

/-- The instruction that a fiber executes next, for the given party. -/
def Fiber.execution? (thread : Option (Ref .thread)) (w : World) (f : Fiber) : Option Execution :=
  match f.control with
  | .dispatch => Exec.execution? thread f.ctx ⟨f.machine, w⟩
  | _ => none

/-- **What is executed** is fetched in the innermost frame. -/
theorem Fiber.fetch_of_execution? {thread : Option (Ref .thread)} {w : World} {f : Fiber}
    {x : Execution} (h : f.execution? thread w = some x) :
    f.machine.frames.items.head? = some x.frame ∧ x.frame.ip < x.frame.code.size ∧
      x.frame.code.fetch x.frame.ip = .ok x.instruction := by
  unfold Fiber.execution? at h
  split at h
  · obtain ⟨⟨g, i⟩, hnext, rfl⟩ := Option.map_eq_some_iff.mp h
    exact (Exec.of_next? hnext).2
  · cases h

/-- The function behind a callable is one of the heap. -/
theorem Heap.function_of_function? {h : Heap} {callee : Value} {f : Function}
    {cells : Array (Ref .cell)} (hf : h.function? callee = some (f, cells)) :
    ∃ r, f = h.function r := by
  unfold Heap.function? at hf
  split at hf
  · cases hf
    exact ⟨_, rfl⟩
  · cases hf
    exact ⟨_, rfl⟩
  · cases hf

namespace Fiber

/-- **All that a step of a fiber does to the frames.** -/
theorem frames_step (host : Host) (thread : Option (Ref .thread)) (w : World) (f : Fiber) :
    Frame.Step w.heap.function (f.execution? thread w) f.machine.frames.items
      (f.step host w).2.1.machine.frames.items := by
  obtain ⟨m, ctx, control, pending, goal⟩ := f
  have still {x : Option Execution} : Frame.Step w.heap.function x m.frames.items m.frames.items :=
    .leave 0
  cases control with
  | dispatch =>
    obtain ⟨hok, herr⟩ := Exec.effect_turn ctx thread ⟨m, w⟩ _ rfl
    simp only [Fiber.step, Fiber.dispatch]
    cases ht : Exec.turn ctx ⟨m, w⟩ with
    | ok flow s =>
      have := (hok _ _ ht).frames
      cases flow <;> exact this
    | error e s => exact (herr _ _ ht).frames
  | invoke callee args entry =>
    simp only [Fiber.step, Fiber.invoke]
    split
    · exact still
    split
    · exact still
    · exact still
    · split
      · exact still
      · rename_i g cells hf
        obtain ⟨r, rfl⟩ := Heap.function_of_function? hf
        split
        · rename_i m' hm
          obtain ⟨-, -, -, rfl⟩ := Machine.pushCall_eq_ok hm
          exact .enter r rfl rfl rfl
        · exact still
  | activity a =>
    cases a with
    | block operation next =>
      simp only [Fiber.step, Fiber.act]
      split <;> exact still
    | _ => exact still
  | deliver o =>
    have cut (c : Checkpoint) (failed : Bool) : Frame.Step w.heap.function none m.frames.items
        (m.leaveCall c failed).frames.items := by
      show Frame.Step _ _ _ (if failed then m.frames.truncate c.depth else m.frames).items
      split
      · rw [Stack.items_truncate]
        exact .leave _
      · exact still
    simp only [Fiber.step, Fiber.deliver]
    split
    · split <;> exact still
    · exact still
    · exact cut ..
    · split
      · have all : Frame.Step w.heap.function none m.frames.items
            (m.frames.items.drop m.frames.items.length) := .leave _
        rwa [List.drop_length] at all
      · exact cut ..
  | finished o => exact still

/-- **A global changes when an instruction stores into it**, and at no other time. -/
theorem globals_step (host : Host) (thread : Option (Ref .thread)) (w : World) (f : Fiber) :
    (f.step host w).2.2.globals = w.globalsAfter (f.execution? thread w) := by
  obtain ⟨m, ctx, control, pending, goal⟩ := f
  cases control with
  | dispatch =>
    obtain ⟨hok, herr⟩ := Exec.effect_turn ctx thread ⟨m, w⟩ _ rfl
    simp only [Fiber.step, Fiber.dispatch]
    cases ht : Exec.turn ctx ⟨m, w⟩ with
    | ok flow s =>
      have := (hok _ _ ht).globals
      cases flow <;> exact this
    | error e s => exact (herr _ _ ht).globals
  | activity a =>
    cases a with
    | block operation next =>
      simp only [Fiber.step, Fiber.act]
      split <;> rfl
    | _ => rfl
  | _ => rfl

end Fiber

/-! ### Functions -/

section

variable {ι : Type} (P : ι → Array Function → Prop)

/-- What is done next keeps properties of the functions. -/
def Control.Keeps : Control → Prop
  | .activity a => ∀ i, a.Sound (.functions P) i
  | _ => True

/-- What a builtin does after its call back keeps properties of the functions. -/
def Pending.Keeps : Pending → Prop
  | .operand => True
  | .callback _ next => ∀ o i, (next o).Sound (.functions P) i

/-- **A fiber whose builtins keep properties of the functions**, whatever they are called with. -/
structure Fiber.Keeps (f : Fiber) : Prop where
  control : f.control.Keeps P
  pending : ∀ p ∈ f.pending, p.Keeps P

end

/-- An activity that keeps one of the properties keeps all of them. -/
theorem Activity.Sound.anytime {ι : Type} {P : ι → Array Function → Prop} {a : Activity} {i : ι}
    (h : a.Sound (.functions P) i) (j : ι) : a.Sound (.functions P) j :=
  Activity.Sound.mono (D := .functions P) h trivial

namespace Fiber.Keeps

variable {ι : Type} {P : ι → Array Function → Prop}

theorem forProgram (m : Machine) (ctx : Context) (code : Code) :
    (Fiber.forProgram m ctx code).Keeps P :=
  ⟨trivial, fun _ hp => absurd hp List.not_mem_nil⟩

theorem forCall (m : Machine) (ctx : Context) (callee : Value) (args : List Value) :
    (Fiber.forCall m ctx callee args).Keeps P :=
  ⟨trivial, fun _ hp => absurd hp List.not_mem_nil⟩

theorem idle (m : Machine) (ctx : Context) : (Fiber.idle m ctx).Keeps P :=
  ⟨trivial, fun _ hp => absurd hp List.not_mem_nil⟩

/-- **A step keeps a property of the functions**, and so will the workers that it starts. -/
theorem step {host : Host} (hh : host.Keeps (.functions P)) {f : Fiber} (h : f.Keeps P) {w : World}
    {i : ι} (hw : P i w.heap.functions) :
    P i (f.step host w).2.2.heap.functions ∧ (f.step host w).2.1.Keeps P ∧
      ∀ p ∈ (f.step host w).1.started, p.fiber.Keeps P := by
  obtain ⟨m, ctx, control, pending, goal⟩ := f
  have hp : ∀ p ∈ pending, p.Keeps P := h.pending
  have quiet : ∀ p ∈ Event.progress.started, p.fiber.Keeps P :=
    fun _ hp => absurd hp List.not_mem_nil
  have hs : w.heap.Sound (.functions P) i := Heap.sound_functions hw
  cases control with
  | dispatch =>
    obtain ⟨hok, herr⟩ := Exec.effect_turn ctx none ⟨m, w⟩ _ rfl
    simp only [Fiber.step, Fiber.dispatch]
    cases ht : Exec.turn ctx ⟨m, w⟩ with
    | ok flow s =>
      have : P i s.world.heap.functions := (hok _ _ ht).functions ▸ hw
      cases flow <;> exact ⟨this, ⟨trivial, hp⟩, quiet⟩
    | error e s =>
      have : P i s.world.heap.functions := (herr _ _ ht).functions ▸ hw
      exact ⟨this, ⟨trivial, hp⟩, quiet⟩
  | invoke callee args entry =>
    -- nothing runs yet, but a builtin leaves an activity that has to keep the property later
    refine ⟨hw, ?_, quiet⟩
    simp only [Fiber.step, Fiber.invoke]
    split
    · exact ⟨trivial, hp⟩
    split
    · refine ⟨(Builtin.sound_activity hh (hs.builtin _) Discipline.values_functions).anytime, ?_⟩
      cases entry with
      | true => exact hp
      | false => exact List.forall_mem_cons.mpr ⟨trivial, hp⟩
    · exact ⟨trivial, hp⟩
    · split
      · exact ⟨trivial, hp⟩
      · split
        · exact ⟨trivial, hp⟩
        · exact ⟨trivial, hp⟩
  | activity a =>
    have ha : a.Sound (.functions P) i := h.control i
    cases a with
    | finish o => exact ⟨hw, ⟨trivial, hp⟩, quiet⟩
    | heap act next =>
      obtain ⟨hs, hn⟩ := ha i trivial w.heap hs
      exact ⟨hs.code, ⟨hn.anytime, hp⟩, quiet⟩
    | limit query next => exact ⟨hw, ⟨(ha _).anytime, hp⟩, quiet⟩
    | cancel next => exact ⟨hw, ⟨h.control, hp⟩, quiet⟩
    | call callee args next =>
      refine ⟨hw, ⟨trivial, List.forall_mem_cons.mpr ⟨fun o => ?_, hp⟩⟩, quiet⟩
      exact (ha.2.2 i trivial o Discipline.outcome_functions).anytime
    | spawn callee args next =>
      refine ⟨hw, ⟨(ha.2.2 _).anytime, hp⟩, fun p hs => ?_⟩
      obtain rfl := List.mem_singleton.mp hs
      exact forCall m.fork ctx callee args
    | block operation next =>
      obtain ⟨hb, hn⟩ := ha
      obtain ⟨hprogress, hheap⟩ := hb.round hs (ctx.check w.controls)
      simp only [Fiber.step, Fiber.act]
      unfold World.onHeap
      dsimp only
      split
      · rename_i o heq
        exact ⟨hheap.code, ⟨(hn i trivial o Discipline.outcome_functions).anytime, hp⟩, quiet⟩
      · rename_i b heq
        rw [heq] at hprogress
        exact ⟨hheap.code, ⟨Activity.Sound.anytime ⟨hprogress, hn⟩, hp⟩, quiet⟩
      · rename_i b heq
        rw [heq] at hprogress
        exact ⟨hheap.code, ⟨Activity.Sound.anytime ⟨hprogress, hn⟩, hp⟩,
          fun _ hp => absurd hp List.not_mem_nil⟩
  | deliver o =>
    refine ⟨hw, ?_, quiet⟩
    simp only [Fiber.step, Fiber.deliver]
    split
    · obtain ⟨-, hp⟩ := List.forall_mem_cons.mp hp
      split
      · exact ⟨trivial, hp⟩
      · exact ⟨trivial, hp⟩
    · obtain ⟨-, hp⟩ := List.forall_mem_cons.mp hp
      exact ⟨trivial, hp⟩
    · obtain ⟨hn, hp⟩ := List.forall_mem_cons.mp hp
      exact ⟨hn _, hp⟩
    · split
      · exact ⟨trivial, fun _ hp => absurd hp List.not_mem_nil⟩
      · exact ⟨trivial, fun _ hp => absurd hp List.not_mem_nil⟩
  | finished o => exact ⟨hw, ⟨trivial, hp⟩, fun _ hp => absurd hp List.not_mem_nil⟩

end Fiber.Keeps

/-- **A fiber whose builtins leave the functions alone**, whatever they are called with. -/
def Fiber.Obeys (f : Fiber) : Prop :=
  f.Keeps fun fs gs => gs = fs

namespace Fiber.Obeys

theorem forProgram (m : Machine) (ctx : Context) (code : Code) :
    (Fiber.forProgram m ctx code).Obeys :=
  Keeps.forProgram m ctx code

theorem forCall (m : Machine) (ctx : Context) (callee : Value) (args : List Value) :
    (Fiber.forCall m ctx callee args).Obeys :=
  Keeps.forCall m ctx callee args

theorem idle (m : Machine) (ctx : Context) : (Fiber.idle m ctx).Obeys :=
  Keeps.idle m ctx

/-- **A step leaves the functions alone**, and so will the workers that it starts. -/
theorem step {host : Host} (hh : host.Honest) {f : Fiber} (h : f.Obeys) (w : World) :
    (f.step host w).2.2.heap.functions = w.heap.functions ∧ (f.step host w).2.1.Obeys ∧
      ∀ p ∈ (f.step host w).1.started, p.fiber.Obeys :=
  Keeps.step (hh.keeps _) h (i := w.heap.functions) rfl

end Fiber.Obeys

/-- **A worker that was started** is on no frame yet, and knows the builtins of the machine that
started it. -/
theorem Fiber.started_step (host : Host) (w : World) (f : Fiber) :
    ∀ p ∈ (f.step host w).1.started,
      p.fiber.machine.frames.items = [] ∧ p.fiber.machine.registry = f.machine.registry := by
  intro p hp
  obtain ⟨m, ctx, control, pending, goal⟩ := f
  cases control with
  | activity a =>
    cases a with
    | spawn callee args next =>
      obtain rfl := List.mem_singleton.mp hp
      exact ⟨rfl, rfl⟩
    | block operation next =>
      simp only [Fiber.step, Fiber.act] at hp
      split at hp <;> cases hp
    | _ => cases hp
  | _ => cases hp

end ScriptEngine
