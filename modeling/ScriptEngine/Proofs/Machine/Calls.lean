import ScriptEngine.Proofs.Machine.Moments

/-!
# Calls of the host

A host calls a callable on the stacks of a machine that rests, or from inside a builtin on those of
the machine that called the builtin. Whatever the callee is and however the call ends, both stacks
are afterwards what they were before: the frames above those of the floor are gone, and so are the
operands above it.

## Main definitions

* `ScriptEngine.Moment.During`: the moments at which a call back is on its way.

## Main results

* `ScriptEngine.Machine.leaveCall_eq`: the end of a call restores the machine;
* `ScriptEngine.Moment.Sound.callBack`: so does every call back from a builtin;
* `ScriptEngine.Moment.Sound.call`: and every call of the host to a machine that rests.
-/

namespace ScriptEngine

variable {T : Typing} {F : Floor} {w : Stage} {host : Host}

/-- The status after a call of the host during which the machine was not halted. -/
def Checkpoint.status (c : Checkpoint) (o : Outcome) : Status :=
  if c.nested then .running else if Fiber.failed o then .errored else .returned

namespace Fiber.Working

variable {f : Fiber}

/-- Those that wait below are never forgotten. -/
theorem suffix (h : f.Working T F w) : F.pending <:+ f.pending := by
  have hc := h.control
  match hf : f.control with
  | .dispatch =>
    rw [hf] at hc
    obtain ⟨_, _, _, -, -, -, -, -, ha⟩ := hc
    exact ha.suffix
  | .invoke callee args entry =>
    rw [hf] at hc
    exact hc.2.2.suffix
  | .activity a =>
    rw [hf] at hc
    exact hc.2.suffix
  | .deliver (.ok v) =>
    rw [hf] at hc
    exact hc.2.suffix
  | .deliver (.error e) =>
    rw [hf] at hc
    exact hc.2.suffix
  | .finished o =>
    rw [hf] at hc
    exact hc.elim

/-- **The end of a call of the host** restores the stacks of the floor. -/
theorem leaveCall (h : f.Working T F w) {o : Outcome} (hr : f.Returns F.pending o)
    {c : Checkpoint} (hd : c.depth = F.frames.length) (hb : c.base = F.items.length) :
    (f.machine.leaveCall c (failed o)).frames.items = F.frames ∧
      (f.machine.leaveCall c (failed o)).stack.toList = F.items ∧
      (f.machine.leaveCall c (failed o)).status = c.status o := by
  obtain ⟨hc, hp⟩ := hr
  have hs := h.control
  rw [hc] at hs
  have status : Machine.statusAfterCall c (failed o) f.machine.status = c.status o := by
    rw [h.running]
    rfl
  cases o with
  | ok v =>
    obtain ⟨hf, hi⟩ := hs.2.eq_floor hp
    exact ⟨hf, hi, status⟩
  | error e =>
    obtain ⟨hf, hi⟩ := hs.2.floor_suffix hp
    refine ⟨?_, ?_, status⟩
    · show (f.machine.frames.truncate c.depth).items = _
      rw [hd, Stack.truncate_of_suffix hf]
    · show (f.machine.stack.contents.truncate c.base).items = _
      rw [hb, Stack.truncate_of_suffix hi]

end Fiber.Working

/-- Machines that are the same but for their stacks, on the same stacks. -/
theorem Machine.Same.eq_with {m m' : Machine} (h : m.Same m')
    (hf : m'.frames.items = m.frames.items) (hi : m'.stack.toList = m.stack.toList) :
    m' = { m with status := m'.status, ticks := m'.ticks } := by
  obtain ⟨config, ⟨contents, limit⟩, frames, registry, position, status, ticks⟩ := m
  obtain ⟨config', ⟨contents', limit'⟩, frames', registry', position', status', ticks'⟩ := m'
  obtain ⟨rfl, rfl, rfl, rfl⟩ := h
  obtain rfl : frames' = frames := Stack.eq_of_items hf
  obtain rfl : contents' = contents := Stack.eq_of_items hi
  rfl

/-- **The end of a call restores the machine**, but for its status and its ticks. -/
theorem Machine.leaveCall_eq {m : Machine} {f : Fiber} {o : Outcome} {pending : List Pending}
    (h : f.Working T ⟨pending, m.frames.items, m.stack.toList⟩ w) (hr : f.Returns pending o)
    (hm : m.Same f.machine) :
    f.machine.leaveCall m.enterCall.1 (Fiber.failed o) =
      { m with status := m.enterCall.1.status o, ticks := f.machine.ticks } := by
  obtain ⟨hf, hi, hs⟩ := h.leaveCall (c := m.enterCall.1) hr m.frames.size_eq
    m.stack.contents.size_eq
  have hm' := hm.trans (f.machine.same_leaveCall m.enterCall.1 (Fiber.failed o))
  rw [← hs]
  exact hm'.eq_with hf hi

/-- The start of a call changes the status only. -/
theorem Machine.same_enterCall (m : Machine) : m.Same m.enterCall.2 :=
  ⟨rfl, rfl, rfl, rfl⟩

/-- A result that is handed over is no longer waited for. -/
theorem Fiber.Returns.pending_step {f : Fiber} {p : Pending} {rest : List Pending} {o : Outcome}
    (hr : f.Returns (p :: rest) o) (host : Host) (world : World) :
    (f.step host world).2.1.pending = rest := by
  obtain ⟨m, ctx, control, pending, goal⟩ := f
  obtain ⟨rfl, rfl⟩ : control = .deliver o ∧ pending = p :: rest := hr
  cases p with
  | operand =>
    cases o with
    | ok v =>
      simp only [Fiber.step, Fiber.deliver]
      split <;> rfl
    | error e => rfl
  | callback c next => cases o <;> rfl

/-- The step in which a builtin gets the outcome of its call back. -/
theorem Fiber.Returns.callback_step {f : Fiber} {c : Checkpoint} {next : Outcome → Activity}
    {rest : List Pending} {o : Outcome} (hr : f.Returns (.callback c next :: rest) o) (host : Host)
    (world : World) :
    (f.step host world).2.1 =
      ⟨f.machine.leaveCall c (failed o), f.ctx, .activity (next o), rest, f.goal⟩ := by
  obtain ⟨m, ctx, control, pending, goal⟩ := f
  obtain ⟨rfl, rfl⟩ : control = .deliver o ∧ pending = .callback c next :: rest := hr
  cases o <;> rfl

namespace Moment

/-- **The moments at which a call back is on its way**, for a builtin that is called by the fiber
that is looked at: more than `n` parties wait for a result of this fiber. -/
inductive During (host : Host) (n : Nat) (m : Moment) : Moment → Prop
  | start (h : n < m.party.fiber.pending.length) : During host n m m
  | step {m₁ m₂ : Moment} (h : During host n m m₁) (hs : m₁.Step host m₂)
    (hn : n < m₂.party.fiber.pending.length) : During host n m m₂

/-- The fiber of a moment works on the same machine for the same goal as that of an earlier one. -/
structure Continues (m m' : Moment) : Prop where
  machine : m.party.fiber.machine.Same m'.party.fiber.machine
  goal : m'.party.fiber.goal = m.party.fiber.goal
  ctx : m'.party.fiber.ctx = m.party.fiber.ctx

theorem Continues.refl (m : Moment) : m.Continues m :=
  ⟨.refl _, rfl, rfl⟩

theorem Continues.of_party {m m₁ m₂ : Moment} (h : m.Continues m₁) (hp : m₂.party = m₁.party) :
    m.Continues m₂ :=
  ⟨hp ▸ h.machine, hp ▸ h.goal, hp ▸ h.ctx⟩

/-- What others do does not touch the fiber that is looked at. -/
theorem Step.party {m m' : Moment} (h : m.Step host m') (ho : m' ≠ m.own host) :
    m'.party = m.party := by
  cases h with
  | own => exact absurd rfl ho
  | _ => rfl

/-- What a fiber was started for, it works for all the time. -/
theorem Steps.goal {m m' : Moment} (h : m.Steps host m') :
    m'.party.fiber.goal = m.party.fiber.goal := by
  induction h with
  | refl => rfl
  | @tail m₁ m₂ _ hs ih =>
    by_cases ho : m₂ = m₁.own host
    · exact ho ▸ (m₁.party.fiber.goal_step host m₁.world).1.trans ih
    · exact hs.party ho ▸ ih

/-- A step goes on with the same machine, unless it ends the run of a program. -/
theorem Continues.step {m m₁ m₂ : Moment} (h : m.Continues m₁) (hs : m₁.Step host m₂)
    (hd : m₁.party.fiber.pending = [] → ∀ o, m₁.party.fiber.control = .deliver o →
      ∃ c, m₁.party.fiber.goal = .call c) : m.Continues m₂ := by
  by_cases ho : m₂ = m₁.own host
  · subst ho
    obtain ⟨hg, hc⟩ := m₁.party.fiber.goal_step host m₁.world
    exact ⟨h.machine.trans (m₁.party.fiber.same_step host m₁.world hd), hg.trans h.goal,
      hc.trans h.ctx⟩
  · exact h.of_party (hs.party ho)

namespace Sound

variable {m m₁ m₂ : Moment}

/-- **A step during a call back** keeps its fiber at work above the stacks of its caller, unless the
result is handed over in this step. -/
theorem step_during (hh : host.Honest) (h : m₁.Sound T F w) (hf : m₁.party.fiber.Working T F w)
    (hs : m₁.Step host m₂) :
    (∃ w', w.Grows w' ∧ m₂.Sound T F w' ∧ m₂.party.fiber.Working T F w') ∨
      m₂ = m₁.own host ∧ ∃ o, m₁.party.fiber.Returns F.pending o := by
  by_cases ho : m₂ = m₁.own host
  · by_cases hr : ∃ o, m₁.party.fiber.Returns F.pending o
    · exact .inr ⟨ho, hr⟩
    · subst ho
      obtain ⟨w', hg, hw', hf', hst⟩ := hf.step hh h.world fun o ho => hr ⟨o, ho⟩
      exact .inl ⟨w', hg, ⟨hw', .inl hf', started h.others hg.le (Event.sound_started hst)⟩, hf'⟩
  · obtain ⟨w', hg, h', hparty⟩ := h.others_step hh hs ho
    exact .inl ⟨w', hg, h', hparty ▸ hf.mono hg.le⟩

/-- **While a call back is on its way**, its fiber is at work above the stacks of its caller. -/
theorem during (hh : host.Honest) (h : m.Sound T F w) (hf : m.party.fiber.Working T F w)
    {p : Pending} {rest : List Pending} (hp : F.pending = p :: rest)
    (hd : m.During host rest.length m₁) :
    m.Continues m₁ ∧ ∃ w₁, m₁.Sound T F w₁ ∧ m₁.party.fiber.Working T F w₁ := by
  induction hd with
  | start => exact ⟨.refl m, w, h, hf⟩
  | @step m₁ m₂ _ hs hn ih =>
    obtain ⟨hc, w₁, h₁, hf₁⟩ := ih
    have hc' := hc.step hs fun hnil => by
      have := hf₁.suffix
      rw [hnil, hp] at this
      exact absurd this.length_le (by simp)
    rcases h₁.step_during hh hf₁ hs with ⟨w₂, -, h₂, hf₂⟩ | ⟨rfl, o, hr⟩
    · exact ⟨hc', w₂, h₂, hf₂⟩
    · rw [hp] at hr
      rw [show (m₁.own host).party.fiber.pending = rest from hr.pending_step host m₁.world] at hn
      exact absurd hn (Nat.lt_irrefl _)

variable {machine : Machine} {ctx : Context} {callee : Value} {args : List Value}
  {next : Outcome → Activity} {pending : List Pending} {goal : Goal}

/-- **A call back restores the machine** of its caller, whatever is called and however the call
ends. The builtin goes on with the outcome. -/
theorem callBack (hh : host.Honest) (h : m.Sound T F w)
    (hm : m.party.fiber = ⟨machine, ctx, .activity (.call callee args next), pending, goal⟩)
    (hd : (m.own host).During host pending.length m₁) (hs : m₁.Step host m₂)
    (hn : m₂.party.fiber.pending.length ≤ pending.length) :
    ∃ o ticks, m₂.party.fiber =
      ⟨{ machine with ticks }, ctx, .activity (next o), pending, goal⟩ := by
  obtain ⟨⟨thread, f⟩, others, world⟩ := m
  obtain rfl : f = _ := hm
  have hwork : Fiber.Working T F w ⟨machine, ctx, .activity (.call callee args next),
      pending, goal⟩ := by
    rcases h.fiber with hf | ⟨-, g, o, -, hr, hg⟩
    · exact hf
    · have := hr.deliver.1
      rw [← hg] at this
      cases this
  obtain ⟨hc, hargs, hnext⟩ := hwork.control.1
  -- the floor of the call back: the builtin that waits for it, on the stacks of its caller
  let F' : Floor := ⟨.callback machine.enterCall.1 next :: pending, machine.frames.items,
    machine.stack.toList⟩
  let m' := Moment.own host
    ⟨⟨thread, ⟨machine, ctx, .activity (.call callee args next), pending, goal⟩⟩, others, world⟩
  have hf' : m'.party.fiber.Working T F' w := ⟨hwork.registry, rfl, hc, hargs, .floor⟩
  have h' : m'.Sound T F' w := ⟨h.world, .inl hf', h.others⟩
  obtain ⟨hcont, w₁, h₁, hf₁⟩ := h'.during hh hf' rfl hd
  rcases h₁.step_during hh hf₁ hs with ⟨w₂, -, -, hf₂⟩ | ⟨rfl, o, hr⟩
  · have := hf₂.suffix.length_le
    rw [show F'.pending.length = pending.length + 1 from rfl] at this
    omega
  · refine ⟨o, m₁.party.fiber.machine.ticks, ?_⟩
    have heq := Machine.leaveCall_eq (m := machine) (f := m₁.party.fiber) hf₁ hr
      (machine.same_enterCall.trans hcont.machine)
    have hstatus : machine.enterCall.1.status o = machine.status := by
      have hrun : machine.status = .running := hwork.running
      show (if machine.status == .running then Status.running else _) = _
      rw [hrun]
      rfl
    rw [hstatus] at heq
    have hgoal : m₁.party.fiber.goal = goal := hcont.goal
    have hctx : m₁.party.fiber.ctx = ctx := hcont.ctx
    calc (m₁.own host).party.fiber
      _ = ⟨m₁.party.fiber.machine.leaveCall machine.enterCall.1 (Fiber.failed o),
          m₁.party.fiber.ctx, .activity (next o), pending, m₁.party.fiber.goal⟩ :=
        hr.callback_step host m₁.world
      _ = _ := by rw [heq, hgoal, hctx]

end Sound

/-- **A call of the host** to a machine that rests restores it, but for its status and its ticks. -/
theorem Sound.call (hh : host.Honest) {machine : Machine} {ctx : Context} {callee : Value}
    {args : List Value} {thread : Option (Ref .thread)} {others : List Party} {world : World}
    (h : Moment.Sound T ⟨[], machine.frames.items, machine.stack.toList⟩ w
      ⟨⟨thread, .forCall machine ctx callee args⟩, others, world⟩) {m : Moment}
    (hs : Moment.Steps host ⟨⟨thread, .forCall machine ctx callee args⟩, others, world⟩ m)
    {o : Outcome} (ho : m.party.fiber.outcome? = some o) :
    ∃ ticks, m.party.fiber.machine =
      { machine with status := machine.enterCall.1.status o, ticks } := by
  obtain ⟨w', -, hm⟩ := h.steps hh rfl hs
  have hcont : Continues ⟨⟨thread, .forCall machine ctx callee args⟩, others, world⟩ m := by
    clear h ho hm
    induction hs with
    | refl => exact .refl _
    | tail _ hs ih => exact ih.step hs fun _ _ _ => ⟨_, ih.goal⟩
  obtain ⟨-, g, hg, hr, hf⟩ := hm.fiber.ended ho
  refine ⟨g.machine.ticks, ?_⟩
  have hgoal : m.party.fiber.goal = .call machine.enterCall.1 := hcont.goal
  have hsame := machine.same_enterCall.trans hcont.machine
  generalize m.party.fiber = f at *
  subst hf
  obtain ⟨m', ctx', control, pending, goal⟩ := g
  obtain ⟨rfl, rfl⟩ : control = .deliver o ∧ pending = [] := hr
  obtain rfl : goal = .call machine.enterCall.1 := by cases goal <;> exact hgoal
  refine Machine.leaveCall_eq hg ⟨rfl, rfl⟩ ?_
  exact ⟨hsame.config,
    Eq.trans (m'.same_leaveCall machine.enterCall.1 (Fiber.failed o)).limit.symm hsame.limit,
    hsame.registry, hsame.position⟩

end Moment

end ScriptEngine
