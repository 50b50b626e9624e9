import Mathlib.Logic.Function.Iterate
import ScriptEngine.Proofs.Machine.Usage

/-!
# Halts

A halt ends the run of a program from inside any number of functions and builtins: it drops all
frames, so that no enclosing dispatch loop finds an instruction, and leaves a status behind that
survives the calls back in which it happens. What a builtin does once its call back has halted is up
to the builtin, as long as it does not call back again.

## Main definitions

* `ScriptEngine.Fiber.halts`: a fiber that executes a halt next;
* `ScriptEngine.Fiber.Going`, `ScriptEngine.Fiber.Halted`: the run of a program before and after a
  halt;
* `ScriptEngine.Moment.Course`: what happens in a run, and whether a halt was executed.

## Main results

* `ScriptEngine.Fiber.Going.step`, `ScriptEngine.Fiber.Halted.step`: what one step does to a run;
* `ScriptEngine.Moment.Course.halt_final`: nothing is executed after a halt, and the status tells
  it;
* `ScriptEngine.Moment.halt_not_final`: a builtin that calls back after a halt.
-/

namespace ScriptEngine

/-- Whether a builtin that called back waits. -/
def Pending.isCallback : Pending → Bool
  | callback .. => true
  | operand => false

namespace Fiber

/-- Whether a fiber executes a halt next. -/
def halts (w : World) (f : Fiber) : Bool :=
  (f.execution? none w).map (·.instruction.op) = some .halt

/-- A builtin that calls back into the machine. -/
def CallsBack (f : Fiber) : Prop :=
  ∃ callee args next, f.control = .activity (.call callee args next)

instance (f : Fiber) : Decidable f.CallsBack :=
  match hc : f.control with
  | .activity (.call callee args next) => isTrue ⟨callee, args, next, hc⟩
  | .activity (.finish _) | .activity (.heap ..) | .activity (.limit ..) | .activity (.cancel _)
  | .activity (.spawn ..) | .activity (.block ..) | .dispatch | .invoke .. | .deliver _
  | .finished _ => isFalse fun ⟨_, _, _, h⟩ => by simp [hc] at h

/-- **The run of a program in which no halt was executed.** -/
structure Going (f : Fiber) : Prop where
  program : ∃ length, f.goal = .program length
  running : f.outcome? = none → f.machine.status = .running
  nested : ∀ c next, .callback c next ∈ f.pending → c.nested = true
  returned : ∀ v, f.outcome? = some (.ok v) → f.machine.status = .returned

/-- **The run of a program after a halt.** There is nothing left to execute. -/
structure Halted (f : Fiber) : Prop where
  program : ∃ length, f.goal = .program length
  halted : f.outcome? = none → f.machine.status = .halted
  frames : f.outcome? = none → f.machine.frames.items = []
  control : ∀ callee args entry, f.control ≠ .invoke callee args entry
  ended : ∀ v, f.outcome? = some (.ok v) → f.machine.status = .halted

end Fiber

namespace Exec

/-- The status survives every instruction but a halt. -/
theorem lasting_status (status : Status) : Lasting fun s => s.machine.status = status where
  stack _ h := h
  heap _ h := h
  locals _ h := h
  admits _ _ _ _ _ _ h := h
  frames _ h := h
  globals h := h

/-- **A turn in which no halt is executed** leaves the status alone. -/
theorem status_turn {ctx : Context} {s : State}
    (h : ∀ g i, next? ctx s = some (g, i) → i.op ≠ .halt) :
    Ensures (· = s) (turn ctx) (fun _ t => t.machine.status = s.machine.status)
      fun _ t => t.machine.status = s.machine.status := by
  exact ensures_turn (lasting_status s.machine.status) (fun _ => rfl)
    (fun g i hnext hop => absurd hop (h g i hnext))
    fun _ _ _ _ v => Stays.pushBuilt (lasting_status _).stack (fun hs => hs) ctx v

/-- A halt drops all frames. -/
theorem halt_eq (s : State) : ∃ v t, halt s = .ok (.leave v) t ∧
    t.machine.status = .halted ∧ t.machine.frames.items = [] := by
  obtain ⟨⟨config, ⟨⟨items, size, rfl⟩, limit⟩, frames, registry, position, status, ticks⟩,
    world⟩ := s
  cases items with
  | nil => exact ⟨_, _, rfl, rfl, rfl⟩
  | cons v items => exact ⟨_, _, rfl, rfl, rfl⟩

/-- A machine that is halted for good. -/
def Still (s : State) : Prop :=
  s.machine.status = .halted ∧ s.machine.frames.items = []

theorem Still.lasting : Lasting Still where
  stack _ h := h
  heap _ h := h
  locals {m} {w} f _ h := by
    obtain ⟨config, stack, ⟨frames, size, hsize⟩, registry, position, status, ticks⟩ := m
    obtain ⟨hstatus, rfl⟩ : _ ∧ frames = [] := h
    exact ⟨hstatus, rfl⟩
  admits target m w g htop _ h := by
    unfold Stack.top? at htop
    rw [h.2] at htop
    cases htop
  frames hf h := ⟨h.1, List.suffix_nil.mp (h.2 ▸ hf)⟩
  globals h := h

/-- Where no frame is left nothing is executed. -/
theorem Still.next? {ctx : Context} {s : State} (h : Still s) : Exec.next? ctx s = none := by
  have htop : s.machine.frames.top? = none := congrArg List.head? h.2
  unfold Exec.next?
  split
  · rfl
  · rw [htop]
    rfl

/-- **A turn where no frame is left** changes nothing of that, and hands over a value. -/
theorem Still.turn {ctx : Context} {s : State} (h : Still s) :
    Ensures (· = s) (turn ctx) (fun flow t => (∃ v, flow = .leave v) ∧ Still t) fun _ => Still := by
  have hstill : Ensures (· = s) (Exec.turn ctx) (fun _ => Still) fun _ => Still :=
    ensures_turn Still.lasting (fun _ => h)
    (fun g i hnext => by rw [h.next?] at hnext; cases hnext)
    fun g i hnext => by rw [h.next?] at hnext; cases hnext
  rintro _ rfl
  rename_i s
  refine ⟨fun flow t hturn => ⟨?_, (hstill _ rfl).1 flow t hturn⟩, (hstill _ rfl).2⟩
  rw [turn_eq] at hturn
  obtain ⟨u, t', hcheck, hturn⟩ := bind_eq_ok.mp hturn
  obtain ⟨-, -, rfl⟩ := precheck_eq_ok.mp hcheck
  have htop : (ticked s).machine.frames.top? = none := congrArg List.head? h.2
  rcases fetchAndExecute_cases hturn with ⟨v, -, -, hv⟩ | ⟨g, i, hsome, -⟩ | ⟨g, hsome, -⟩
  · exact ⟨v, hv⟩
  all_goals
    rw [htop] at hsome
    cases hsome

end Exec

namespace Fiber

variable {host : Host} {w : World} {f : Fiber}

/-- **A halt** leaves nothing to execute. -/
theorem Going.halt (hf : f.Going) (h : f.halts w = true) : (f.step host w).2.1.Halted := by
  obtain ⟨x, hx, hop⟩ := Option.map_eq_some_iff.mp (of_decide_eq_true h)
  obtain ⟨hc, -, -, hturn⟩ := turn_of_execution? hx
  obtain ⟨m, ctx, control, pending, goal⟩ := f
  obtain rfl : control = .dispatch := hc
  have hexecute : Exec.execute ctx x.instruction = Exec.halt := by
    unfold Exec.execute
    rw [hop]
  obtain ⟨v, t, hhalt, hstatus, hframes⟩ := Exec.halt_eq ⟨m.behind x.instruction, w⟩
  have hturn : Exec.turn ctx ⟨m, w⟩ = .ok (.leave v) t := by
    rw [hturn, hexecute, hhalt]
  unfold Fiber.step Fiber.dispatch
  dsimp only
  rw [hturn]
  exact ⟨hf.program, fun _ => hstatus, fun _ => hframes, (fun _ _ _ h => by cases h),
    fun v hv => by cases hv⟩

/-- **A step other than a halt** goes on with the run. -/
theorem Going.step (hf : f.Going) (h : f.halts w = false) : (f.step host w).2.1.Going := by
  obtain ⟨m, ctx, control, pending, goal⟩ := f
  obtain ⟨⟨length, rfl⟩, hrunning, hnested, hreturned⟩ := hf
  have program {m' : Machine} {control' : Control} {pending' : List Pending}
      (hm : m'.status = .running)
      (ho : (Fiber.mk m' ctx control' pending' (.program length)).outcome? = none)
      (hp : ∀ c next, .callback c next ∈ pending' → c.nested = true) :
      Going ⟨m', ctx, control', pending', .program length⟩ := by
    refine ⟨⟨length, rfl⟩, fun _ => hm, hp, fun v hv => ?_⟩
    rw [ho] at hv
    cases hv
  cases control with
  | dispatch =>
    -- a turn changes the status only by a halt, which is excluded
    have hstatus := @Exec.status_turn ctx ⟨m, w⟩ fun g i hnext hop => by
      refine absurd (decide_eq_true ?_) (Bool.eq_false_iff.mp h)
      exact congrArg (Option.map fun x : Execution => x.instruction.op)
        (Option.map_eq_some_iff.mpr ⟨(g, i), hnext, rfl⟩) |>.trans (congrArg some hop)
    obtain ⟨hok, herr⟩ := hstatus _ rfl
    unfold Fiber.step Fiber.dispatch
    dsimp only
    cases ht : Exec.turn ctx ⟨m, w⟩ with
    | ok flow t => cases flow <;> exact program ((hok _ _ ht).trans (hrunning rfl)) rfl hnested
    | error e t => exact program ((herr _ _ ht).trans (hrunning rfl)) rfl hnested
  | invoke callee args entry =>
    have hm : m.status = .running := hrunning rfl
    simp only [Fiber.step, Fiber.invoke]
    split
    · exact program hm rfl hnested
    split
    · refine program hm rfl fun c next hp => ?_
      split at hp
      · exact hnested c next hp
      · rcases List.mem_cons.mp hp with hp | hp
        · cases hp
        · exact hnested c next hp
    · exact program hm rfl hnested
    · split
      · exact program hm rfl hnested
      · split
        · rename_i m' hpush
          obtain ⟨-, -, -, rfl⟩ := Machine.pushCall_eq_ok hpush
          exact program hm rfl hnested
        · exact program hm rfl hnested
  | activity a =>
    have hm : m.status = .running := hrunning rfl
    cases a with
    | call callee args next =>
      refine program rfl rfl fun c next' hp => ?_
      rcases List.mem_cons.mp hp with hp | hp
      · cases hp
        exact beq_iff_eq.mpr hm
      · exact hnested c next' hp
    | block operation next =>
      simp only [Fiber.step, Fiber.act]
      split <;> exact program hm rfl hnested
    | _ => exact program hm rfl hnested
  | deliver o =>
    have hm : m.status = .running := hrunning rfl
    simp only [Fiber.step, Fiber.deliver]
    split
    · split <;> exact program hm rfl fun c next hp => hnested c next (List.mem_cons_of_mem _ hp)
    · exact program hm rfl fun c next hp => hnested c next (List.mem_cons_of_mem _ hp)
    · rename_i c next rest
      refine program ?_ rfl fun c next hp => hnested c next (List.mem_cons_of_mem _ hp)
      show Machine.statusAfterCall c _ m.status = _
      rw [hm]
      exact if_pos (hnested c next List.mem_cons_self)
    · refine ⟨⟨length, rfl⟩, fun ho => ?_, fun _ _ hp => absurd hp List.not_mem_nil, fun v hv => ?_⟩
      · cases ho
      cases hv
      show (if m.status = .halted then Status.halted else .returned) = _
      rw [hm]
      rfl
  | finished o => exact ⟨⟨length, rfl⟩, hrunning, hnested, hreturned⟩

/-- **After a halt** nothing is executed any more. -/
theorem Halted.execution? (hf : f.Halted) (thread : Option (Ref .thread)) :
    f.execution? thread w = none := by
  obtain ⟨m, ctx, control, pending, goal⟩ := f
  cases control with
  | dispatch =>
    have hstill : Exec.Still ⟨m, w⟩ := ⟨hf.halted rfl, hf.frames rfl⟩
    exact Option.map_eq_none_iff.mpr hstill.next?
  | _ => rfl

/-- A step after a halt, unless a builtin calls back again. -/
theorem Halted.step (hf : f.Halted) (h : ¬f.CallsBack) : (f.step host w).2.1.Halted := by
  obtain ⟨m, ctx, control, pending, goal⟩ := f
  obtain ⟨⟨length, rfl⟩, hhalted, hframes, hcontrol, hended⟩ := hf
  have program {m' : Machine} {control' : Control} {pending' : List Pending}
      (hm : m'.status = .halted) (hg : m'.frames.items = [])
      (hc : ∀ callee args entry, control' ≠ .invoke callee args entry)
      (ho : (Fiber.mk m' ctx control' pending' (.program length)).outcome? = none) :
      Halted ⟨m', ctx, control', pending', .program length⟩ := by
    refine ⟨⟨length, rfl⟩, fun _ => hm, fun _ => hg, hc, fun v hv => ?_⟩
    rw [ho] at hv
    cases hv
  cases control with
  | dispatch =>
    -- without frames nothing is executed, and the loop is left at once
    have hstill : Exec.Still ⟨m, w⟩ := ⟨hhalted rfl, hframes rfl⟩
    obtain ⟨hok, herr⟩ := @Exec.Still.turn ctx _ hstill _ rfl
    unfold Fiber.step Fiber.dispatch
    dsimp only
    cases ht : Exec.turn ctx ⟨m, w⟩ with
    | ok flow t =>
      obtain ⟨⟨v, rfl⟩, hstill⟩ := hok _ _ ht
      exact program hstill.1 hstill.2 (fun _ _ _ h => by cases h) rfl
    | error e t =>
      have hstill := herr _ _ ht
      exact program hstill.1 hstill.2 (fun _ _ _ h => by cases h) rfl
  | invoke callee args entry => exact absurd rfl (hcontrol callee args entry)
  | activity a =>
    cases a with
    | call callee args next => exact absurd ⟨callee, args, next, rfl⟩ h
    | block operation next =>
      simp only [Fiber.step, Fiber.act]
      split <;> exact program (hhalted rfl) (hframes rfl) (fun _ _ _ h => by cases h) rfl
    | _ => exact program (hhalted rfl) (hframes rfl) (fun _ _ _ h => by cases h) rfl
  | deliver o =>
    have hm : m.status = .halted := hhalted rfl
    have hg : m.frames.items = [] := hframes rfl
    simp only [Fiber.step, Fiber.deliver]
    split
    · split <;> exact program hm hg (fun _ _ _ h => by cases h) rfl
    · exact program hm hg (fun _ _ _ h => by cases h) rfl
    · rename_i c next rest
      refine program ?_ ?_ (fun _ _ _ h => by cases h) rfl
      · show Machine.statusAfterCall c _ m.status = _
        rw [hm]
        rfl
      · show (if _ then m.frames.truncate _ else m.frames).items = []
        split
        · rw [Stack.items_truncate, hg, List.drop_nil]
        · exact hg
    · refine ⟨⟨length, rfl⟩, fun ho => ?_, fun ho => ?_, (fun _ _ _ h => by cases h),
        fun v hv => ?_⟩
      · cases ho
      · cases ho
      cases hv
      exact if_pos hm
  | finished o => exact ⟨⟨length, rfl⟩, hhalted, hframes, hcontrol, hended⟩

end Fiber

namespace Moment

/-- Some steps of a machine, during which the others do nothing. -/
theorem steps_own (host : Host) (m : Moment) (n : Nat) : m.Steps host ((own host)^[n] m) := by
  induction n with
  | zero => exact .refl
  | succ n ih =>
    rw [Function.iterate_succ_apply']
    exact ih.tail (.own _)

/-- Where there are no others, the end of the work leaves a system at rest. -/
theorem ends_of_alone {m : Moment} {o : Outcome} (ho : m.party.fiber.outcome? = some o)
    (h : m.others = []) : m.Ends o ⟨m.party.fiber.machine, m.world, []⟩ :=
  ⟨ho, rfl, rfl, h.symm⟩

/-- Whether a machine that others leave alone executes a halt in some steps. -/
def haltsWithin (host : Host) (m : Moment) : Nat → Bool
  | 0 => false
  | n + 1 => m.haltsWithin host n ||
    ((own host)^[n] m).party.fiber.halts ((own host)^[n] m).world

/-- **What happens in a run**, and whether its machine has executed a halt. After a halt no builtin
calls back again. Whatever others do, also with the world, is no step of the run. -/
inductive Course (host : Host) (m : Moment) : Bool → Moment → Prop
  | start : Course host m false m
  | own {halted : Bool} {m₁ : Moment} (h : Course host m halted m₁)
    (hq : halted = true → ¬m₁.party.fiber.CallsBack) :
    Course host m (halted || m₁.party.fiber.halts m₁.world) (m₁.own host)
  | others {halted : Bool} {m₁ m₂ : Moment} (h : Course host m halted m₁)
    (hp : m₂.party = m₁.party) : Course host m halted m₂

namespace Course

variable {host : Host} {m m' : Moment} {halted : Bool}

theorem sound (h : Course host m halted m') (hm : m.party.fiber.Going) :
    if halted then m'.party.fiber.Halted else m'.party.fiber.Going := by
  induction h with
  | start => exact hm
  | @own halted m₁ _ hq ih =>
    cases halted with
    | true => exact Fiber.Halted.step ih (hq rfl)
    | false =>
      rw [Bool.false_or]
      cases hh : m₁.party.fiber.halts m₁.world with
      | true => exact Fiber.Going.halt ih hh
      | false => exact Fiber.Going.step ih hh
  | others _ hp ih =>
    rw [hp]
    exact ih

/-- **Whatever happens next** in a run is followed, unless a builtin calls back after a halt. -/
theorem step {m₁ m₂ : Moment} (h : Course host m halted m₁) (hs : m₁.Step host m₂)
    (hq : halted = true → ¬m₁.party.fiber.CallsBack) : ∃ halted', Course host m halted' m₂ := by
  by_cases ho : m₂ = m₁.own host
  · exact ho ▸ ⟨_, h.own hq⟩
  · exact ⟨halted, h.others (hs.party ho)⟩

/-- **A halt is final.** Once the machine of a run has executed a halt, at whatever depth of
functions and of builtins that call back, it executes nothing any more, as long as no builtin calls
back again; and if the run succeeds then, its machine is left halted. If it succeeds without a halt,
its machine is left returned. -/
theorem halt_final {s : System} {ctx : Context} {code : Code} {world : World}
    (h : Course host (s.begin (.forProgram s.machine ctx code) world) halted m') :
    (halted = true → m'.party.fiber.execution? none m'.world = none) ∧
    ∀ (v : Value) (s' : System), m'.Ends (.ok v) s' →
      s'.machine.status = if halted then .halted else .returned := by
  have hgoing : Fiber.Going (.forProgram s.machine ctx code) := ⟨⟨_, rfl⟩, fun _ => rfl,
    fun _ _ hp => absurd hp List.not_mem_nil, fun v hv => by cases hv⟩
  have hsound := h.sound hgoing
  cases halted with
  | true =>
    have hsound : m'.party.fiber.Halted := hsound
    refine ⟨fun _ => hsound.execution? none, fun v s' he => ?_⟩
    exact he.machine ▸ hsound.ended v he.outcome
  | false =>
    have hsound : m'.party.fiber.Going := hsound
    exact ⟨(fun ht => by cases ht), fun v s' he => he.machine ▸ hsound.returned v he.outcome⟩

/-- **A run that others leave alone**, and whether it has executed a halt by then. -/
theorem iterate (host : Host) (m : Moment) : ∀ n : Nat,
    (∀ i < n, m.haltsWithin host i = true → ¬((Moment.own host)^[i] m).party.fiber.CallsBack) →
    Course host m (m.haltsWithin host n) ((Moment.own host)^[n] m)
  | 0, _ => .start
  | n + 1, hq => by
    rw [Function.iterate_succ_apply']
    exact (iterate host m n fun i hi => hq i (Nat.lt_succ_of_lt hi)).own (hq n (Nat.lt_succ_self n))

/-- A program that calls a builtin, which calls a function that halts. -/
theorem halt_final_in_callback : ∃ (host : Host) (m m₁ m' : Moment) (s : System),
    m.Steps host m₁ ∧ m₁.party.fiber.halts m₁.world = true ∧
    m₁.party.fiber.pending.any Pending.isCallback = true ∧ (m₁.own host).Steps host m' ∧
    m'.party.fiber.execution? none m'.world = none ∧ m'.Ends (.ok .nil) s ∧
    s.machine.status = .halted := by
  let host : Host := ⟨fun _ _ _ => .call (.function ⟨0⟩) [] .finish⟩
  let halting : Function := .ofParts none [] [] (.ofParts #[Opcode.halt.word] #[])
  let code : Code := .ofParts
    #[Opcode.loadGlobal.word, 0, Opcode.call.word, 0, Opcode.popTop.word, Opcode.pushTrue.word] #[]
  let s : System := { world := {
    heap := { builtins := #[⟨"f", .host "f" []⟩], functions := #[halting] }
    globals := #[.builtin ⟨0⟩] } }
  let m : Moment := s.begin (.forProgram s.machine {} code) s.world
  have quiet : ∀ i < 11, m.haltsWithin host i = true →
      ¬((Moment.own host)^[i] m).party.fiber.CallsBack := by decide +kernel
  have halted : m.haltsWithin host 11 = true := by decide +kernel
  let m₁ : Moment := (Moment.own host)^[5] m
  let m' : Moment := (Moment.own host)^[11] m
  have course : Course host m true m' := halted ▸ iterate host m 11 quiet
  have later : (m₁.own host).Steps host m' := by
    have apart : m' = (Moment.own host)^[5] ((Moment.own host)^[6] m) :=
      Function.iterate_add_apply _ 5 6 m
    rw [apart, Function.iterate_succ_apply' (Moment.own host) 5 m]
    exact steps_own host _ 5
  have outcome : m'.party.fiber.outcome? = some (.ok .nil) := by decide +kernel
  have alone : m'.others.length = 0 := by decide +kernel
  have ends := ends_of_alone outcome (List.eq_nil_of_length_eq_zero alone)
  obtain ⟨silent, status⟩ := course.halt_final
  have halts : m₁.party.fiber.halts m₁.world = true := by decide +kernel
  have inside : m₁.party.fiber.pending.any Pending.isCallback = true := by decide +kernel
  have ended := (status _ _ ends).trans (if_pos rfl)
  have nothing := silent rfl
  exact ⟨host, m, m₁, m', _, steps_own host m 5, halts, inside, later, nothing, ends, ended⟩

end Course

/-! ### A halt that is not final -/

/-- **A halt is forgotten** where a builtin calls back again after it: what it calls is executed,
and the run ends as if it had not been halted. -/
theorem halt_not_final : ∃ (host : Host) (s : System) (code : Code) (m₁ m₂ m₃ : Moment),
    (s.begin (.forProgram s.machine {} code) s.world).Steps host m₁ ∧
    m₁.party.fiber.halts m₁.world = true ∧ (m₁.own host).Steps host m₂ ∧
    (m₂.party.fiber.execution? none m₂.world).isSome = true ∧ m₂.Steps host m₃ ∧
    m₃.party.fiber.outcome?.map Fiber.failed = some false ∧
    m₃.party.fiber.machine.status = .returned := by
  let host : Host :=
    ⟨fun _ _ _ => .call (.function ⟨0⟩) [] fun _ => .call (.function ⟨1⟩) [] .finish⟩
  let halting : Function := .ofParts none [] [] (.ofParts #[Opcode.halt.word] #[])
  let returning : Function := .ofParts none [] [] (.ofParts #[Opcode.returnValue.word, 0] #[])
  let code : Code := .ofParts #[Opcode.loadGlobal.word, 0, Opcode.call.word, 0] #[]
  let s : System := { world := {
    heap := { builtins := #[⟨"f", .host "f" []⟩], functions := #[halting, returning] }
    globals := #[.builtin ⟨0⟩] } }
  -- the first call back is about to halt
  let m₁ : Moment := (own host)^[5] (s.begin (.forProgram s.machine {} code) s.world)
  -- the second one is about to return
  let m₂ : Moment := (own host)^[3] (m₁.own host)
  refine ⟨host, s, code, m₁, m₂, (own host)^[6] m₂, steps_own .., ?_, steps_own .., ?_,
    steps_own .., ?_, ?_⟩
  all_goals decide +kernel

end Moment

end ScriptEngine
