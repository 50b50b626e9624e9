import ScriptEngine.Proofs.Machine.Usage

/-!
# Deadlines

A machine counts its turns of the dispatch loop, and looks at the clock in every turn whose number
is a multiple of the interval of its configuration. The number is never reset: it goes on through
calls back and from one run to the next, and it has 32 bits. The interval need not divide the number
at which it wraps, but there it is 0, which is a multiple of every interval; so two looks at the
clock are never further apart than the interval.

## Main definitions

* `ScriptEngine.Iteration`: a turn of the dispatch loop;
* `ScriptEngine.Iterates`: phases of a system with all turns in between of the machine that is
  looked at.

## Main results

* `ScriptEngine.Fiber.ticks_step`: a step counts an iteration, and nothing else;
* `ScriptEngine.Iterates.counted`: the numbers of the iterations are consecutive;
* `ScriptEngine.Iterates.deadline_checked`: how far two looks at the clock are apart.
-/

namespace ScriptEngine

/-! ### Iterations -/

/-- **A turn of the dispatch loop**, at its start. -/
structure Iteration where
  ctx : Context
  state : State

namespace Iteration

/-- The clock is looked at. -/
def Looks (x : Iteration) : Prop :=
  Exec.tick x.state = .ok true (Exec.ticked x.state)

/-- **The deadline of the context is past**, as the clock tells. -/
def Late (x : Iteration) : Prop :=
  ∃ deadline, x.ctx.deadline = some deadline ∧ deadline ≤ x.state.world.controls.now

/-- **The turn fails because the deadline is past.** It executes no instruction, and changes nothing
but the number of turns. -/
structure Expires (x : Iteration) : Prop where
  turn : Exec.turn x.ctx x.state = .error (.interrupted .deadlineExceeded) (Exec.ticked x.state)
  next : Exec.next? x.ctx x.state = none

theorem looks_iff {x : Iteration} :
    x.Looks ↔ (x.state.machine.ticks + 1) % x.state.machine.config.checkInterval = 0 := by
  unfold Looks
  rw [Exec.tick_eq, EStateM.Result.ok.injEq, beq_iff_eq]
  exact and_iff_left rfl

/-- A look at the clock finds out that the deadline is past. -/
theorem Late.checkDeadline {x : Iteration} (h : x.Late) :
    x.ctx.checkDeadline x.state.world.controls = .error .deadlineExceeded := by
  obtain ⟨deadline, hdeadline, hpast⟩ := h
  unfold Context.checkDeadline
  rw [hdeadline]
  exact if_pos hpast

end Iteration

/-- The turn that a fiber begins, unless its context is cancelled. -/
def Fiber.iteration? (w : World) (f : Fiber) : Option Iteration :=
  match f.control with
  | .dispatch => if f.ctx.isCancelled w.controls then none else some ⟨f.ctx, ⟨f.machine, w⟩⟩
  | _ => none

namespace Exec

variable {ctx : Context} {s : State}

/-- **What comes before the instruction of a turn**, unless the context is cancelled. -/
theorem precheck_of_not_cancelled (h : ctx.isCancelled s.world.controls = false) :
    precheck ctx s =
      if (s.machine.ticks + 1) % s.machine.config.checkInterval = 0 then
        observe ctx.checkDeadline (ticked s)
      else .ok () (ticked s) := by
  have hcheck : ctx.checkCancelled s.world.controls = .ok () := if_neg (Bool.eq_false_iff.mp h)
  have hobserve : observe ctx.checkCancelled s = .ok () s := observe_eq_ok.mpr ⟨hcheck, rfl⟩
  show EStateM.bind (observe ctx.checkCancelled) _ s = _
  unfold EStateM.bind
  rw [hobserve]
  show EStateM.bind tick _ s = _
  unfold EStateM.bind
  rw [tick_eq]
  dsimp only
  by_cases hl : (s.machine.ticks + 1) % s.machine.config.checkInterval = 0
  · rw [if_pos (beq_iff_eq.mpr hl), if_pos hl]
  · rw [if_neg (mt beq_iff_eq.mp hl), if_neg hl]
    rfl

/-- The configuration and the number of turns survive every instruction. -/
theorem lasting_ticks (config : Config) (ticks : UInt32) :
    Lasting fun s => s.machine.config = config ∧ s.machine.ticks = ticks where
  stack _ h := h
  heap _ h := h
  locals _ h := h
  admits _ _ _ _ _ _ h := h
  frames _ h := h
  globals h := h

/-- **A turn is counted**, unless its context is cancelled. -/
theorem ticks_turn (h : ctx.isCancelled s.world.controls = false) :
    Ensures (· = s) (turn ctx)
      (fun _ t => t.machine.config = s.machine.config ∧ t.machine.ticks = s.machine.ticks + 1)
      fun _ t => t.machine.config = s.machine.config ∧ t.machine.ticks = s.machine.ticks + 1 := by
  let R : State → Prop := fun t =>
    t.machine.config = s.machine.config ∧ t.machine.ticks = s.machine.ticks + 1
  have hR : Lasting R := lasting_ticks _ _
  have check : Ensures (· = s) (precheck ctx) (fun _ => (· = ticked s)) fun _ => R := by
    intro _ hs
    obtain rfl := hs.symm
    rw [precheck_of_not_cancelled h]
    split
    · have hobserve : Stays (· = ticked s) (observe ctx.checkDeadline) := Stays.observe _
      refine ⟨(hobserve _ rfl).1, fun e t ht => ?_⟩
      obtain rfl := (hobserve _ rfl).2 e t ht
      exact ⟨rfl, rfl⟩
    · refine ⟨?_, ?_⟩
      · rintro _ _ ⟨⟩
        rfl
      · rintro _ _ ⟨⟩
  rw [turn_eq]
  exact check.bind fun _ => Stays.fetchAndExecute hR ctx ⟨rfl, rfl⟩
    (fun _ _ _ _ _ _ _ _ _ hs => hs) fun _ _ _ _ _ _ v => Stays.pushBuilt hR.stack
      (fun hs => hs) ctx v

end Exec

/-- **A look at the clock** ends a turn if the deadline is past. Nothing is executed then. -/
theorem Iteration.expires {x : Iteration} (hc : x.ctx.isCancelled x.state.world.controls = false)
    (hl : x.Looks) (hd : x.Late) : x.Expires := by
  have hd : x.ctx.checkDeadline (Exec.ticked x.state).world.controls = .error .deadlineExceeded :=
    hd.checkDeadline
  have hcheck : Exec.precheck x.ctx x.state =
      .error (.interrupted .deadlineExceeded) (Exec.ticked x.state) := by
    rw [Exec.precheck_of_not_cancelled hc, if_pos (looks_iff.mp hl)]
    unfold Exec.observe
    rw [get_bind, hd]
    rfl
  constructor
  · rw [Exec.turn_eq]
    show EStateM.bind (Exec.precheck x.ctx) _ _ = _
    unfold EStateM.bind
    rw [hcheck]
  · unfold Exec.next?
    rw [hcheck]

namespace Fiber

variable {host : Host} {w : World} {f : Fiber} {x : Iteration}

/-- Where the iteration of a fiber begins. -/
theorem of_iteration? (h : f.iteration? w = some x) : f.control = .dispatch ∧ x.ctx = f.ctx ∧
    x.state = ⟨f.machine, w⟩ ∧ f.ctx.isCancelled w.controls = false := by
  unfold iteration? at h
  split at h
  · rename_i hc
    obtain ⟨hcancelled, hx⟩ := Option.ite_none_left_eq_some.mp h
    obtain rfl := Option.some.inj hx
    exact ⟨hc, rfl, rfl, Bool.eq_false_iff.mpr hcancelled⟩
  · cases h

/-- **An iteration that expires** fails in the innermost dispatch loop. -/
theorem step_of_expires (h : f.iteration? w = some x) (he : x.Expires) :
    f.step host w = (.progress, { f with
      machine := { f.machine with ticks := f.machine.ticks + 1 }
      control := .deliver (.error (.interrupted .deadlineExceeded)) }, w) := by
  obtain ⟨hcontrol, hctx, hstate, -⟩ := of_iteration? h
  obtain ⟨m, ctx, control, pending, goal⟩ := f
  obtain rfl : control = .dispatch := hcontrol
  have hturn := he.turn
  rw [hctx, hstate] at hturn
  unfold Fiber.step Fiber.dispatch
  dsimp only
  rw [hturn]
  rfl

/-- **An instruction is executed** in an iteration. -/
theorem iteration?_of_execution? {thread : Option (Ref .thread)} {e : Execution}
    (h : f.execution? thread w = some e) :
    ∃ x, f.iteration? w = some x ∧ Exec.next? x.ctx x.state = some (e.frame, e.instruction) := by
  obtain ⟨m, ctx, control, pending, goal⟩ := f
  unfold execution? at h
  split at h
  · rename_i hc
    obtain rfl : control = .dispatch := hc
    obtain ⟨⟨g, i⟩, hnext, rfl⟩ := Option.map_eq_some_iff.mp h
    obtain ⟨⟨_, _, hcheck⟩, -⟩ := Exec.of_next? hnext
    have hc : ctx.isCancelled w.controls = false := by
      by_contra hc
      have := (Exec.precheck_eq_ok.mp hcheck).1
      rw [Context.checkCancelled, if_pos (Bool.not_eq_false _ ▸ hc)] at this
      cases this
    refine ⟨⟨ctx, ⟨m, w⟩⟩, ?_, hnext⟩
    show (if ctx.isCancelled w.controls = true then none else _) = _
    rw [hc]
    rfl
  · cases h

/-- A turn of the dispatch loop counts an iteration. -/
theorem ticks_dispatch (host : Host) (w : World) (hf : f.control = .dispatch) :
    (f.step host w).2.1.machine.config = f.machine.config ∧
      (f.step host w).2.1.machine.ticks =
        f.machine.ticks + .ofNat (f.iteration? w).toList.length := by
  obtain ⟨m, ctx, control, pending, goal⟩ := f
  obtain rfl : control = .dispatch := hf
  unfold iteration? Fiber.step Fiber.dispatch
  dsimp only
  cases hc : ctx.isCancelled w.controls with
  | true =>
    rw [Exec.turn_of_cancelled hc, if_pos rfl]
    exact ⟨rfl, (UInt32.add_zero _).symm⟩
  | false =>
    rw [if_neg Bool.false_ne_true]
    obtain ⟨hok, herr⟩ := Exec.ticks_turn hc ⟨m, w⟩ rfl
    cases ht : Exec.turn ctx ⟨m, w⟩ with
    | ok flow s => cases flow <;> exact hok _ _ ht
    | error e s => exact herr _ _ ht

/-- **A step counts an iteration**, and nothing else. -/
theorem ticks_step (host : Host) (w : World) (f : Fiber) :
    (f.step host w).2.1.machine.config = f.machine.config ∧
      (f.step host w).2.1.machine.ticks =
        f.machine.ticks + .ofNat (f.iteration? w).toList.length := by
  obtain ⟨m, ctx, control, pending, goal⟩ := f
  have same {f' : Fiber} (h : f'.machine.config = m.config ∧ f'.machine.ticks = m.ticks) :
      f'.machine.config = m.config ∧ f'.machine.ticks = m.ticks + .ofNat 0 :=
    ⟨h.1, h.2.trans (UInt32.add_zero _).symm⟩
  cases control with
  | dispatch => exact ticks_dispatch host w rfl
  | invoke callee args entry =>
    refine same ?_
    simp only [Fiber.step, Fiber.invoke]
    split
    · exact ⟨rfl, rfl⟩
    split
    · exact ⟨rfl, rfl⟩
    · exact ⟨rfl, rfl⟩
    · split
      · exact ⟨rfl, rfl⟩
      · split
        · rename_i m' hm
          obtain ⟨-, -, -, rfl⟩ := Machine.pushCall_eq_ok hm
          exact ⟨rfl, rfl⟩
        · exact ⟨rfl, rfl⟩
  | activity a =>
    refine same ?_
    cases a with
    | block operation next =>
      simp only [Fiber.step, Fiber.act]
      split <;> exact ⟨rfl, rfl⟩
    | _ => exact ⟨rfl, rfl⟩
  | deliver o =>
    refine same ?_
    simp only [Fiber.step, Fiber.deliver]
    split
    · split <;> exact ⟨rfl, rfl⟩
    · exact ⟨rfl, rfl⟩
    · exact ⟨rfl, rfl⟩
    · split <;> exact ⟨rfl, rfl⟩
  | finished o => exact same ⟨rfl, rfl⟩

end Fiber

/-! ### Many iterations -/

/-- **Among as many consecutive numbers** of 32 bits as an interval says is a multiple of it, also
where they wrap: there it is 0. -/
theorem exists_multiple_from (first interval : UInt32) (h : 0 < interval) :
    ∃ i < interval.toNat, (first + .ofNat i) % interval = 0 := by
  have hpos : 0 < interval.toNat := h
  have hsum (i : Nat) : (first + .ofNat i).toNat = (first.toNat + i) % 2 ^ 32 := by
    rw [UInt32.toNat_add, UInt32.toNat_ofNat', Nat.add_mod_mod]
  have hmod (i : Nat) (hi : (first.toNat + i) % 2 ^ 32 % interval.toNat = 0) :
      (first + .ofNat i) % interval = 0 := by
    rw [← UInt32.toNat_inj, UInt32.toNat_mod, hsum, hi]
    rfl
  -- the next multiple, unless the numbers wrap before it
  let i := (interval.toNat - first.toNat % interval.toNat) % interval.toNat
  have hi : i < interval.toNat := Nat.mod_lt _ hpos
  have hnext : (first.toNat + i) % interval.toNat = 0 := by
    have hlt := Nat.mod_lt first.toNat hpos
    have hdiv := Nat.div_add_mod first.toNat interval.toNat
    have hmul : first.toNat + (interval.toNat - first.toNat % interval.toNat) =
        interval.toNat * (first.toNat / interval.toNat + 1) := by
      rw [Nat.mul_succ]
      omega
    rw [Nat.add_mod_mod, hmul, Nat.mul_mod_right]
  rcases Nat.lt_or_ge (first.toNat + i) (2 ^ 32) with hlt | hge
  · exact ⟨i, hi, hmod i (by rw [Nat.mod_eq_of_lt hlt, hnext])⟩
  · have hfirst := first.toNat_lt
    refine ⟨2 ^ 32 - first.toNat, by omega, hmod _ ?_⟩
    rw [Nat.add_sub_cancel' (Nat.le_of_lt hfirst), Nat.mod_self, Nat.zero_mod]

/-- **Phases of a system with all iterations in between** of the machine that is looked at, the last
one first. The host begins runs and calls on this machine and works on a system at rest; meanwhile
the others do what they like. -/
inductive Iterates (host : Host) (p : Phase) : List Iteration → Phase → Prop
  | start : Iterates host p [] p
  | own {m : Moment} {log : List Iteration} (h : Iterates host p log (.work m)) :
    Iterates host p ((m.party.fiber.iteration? m.world).toList ++ log) (.work (m.own host))
  | others {m m' : Moment} {log : List Iteration} (h : Iterates host p log (.work m))
    (hp : m'.party = m.party) : Iterates host p log (.work m')
  /-- The work for the host begins or ends, or the host does something with a system at rest. -/
  | turn {p₁ p₂ : Phase} {log : List Iteration} (h : Iterates host p log p₁) (hs : p₁.Step host p₂)
    (hr : (∃ s, p₁ = .rest s) ∨ ∃ s, p₂ = .rest s) : Iterates host p log p₂

namespace Iterates

variable {host : Host} {p p' p'' : Phase} {log : List Iteration}

/-- **Whatever happens next** is followed. -/
theorem phase (h : Iterates host p log p') (hs : p'.Step host p'') :
    ∃ later, Iterates host p (later ++ log) p'' := by
  cases hs with
  | @moment m m' hm =>
    by_cases ho : m' = m.own host
    · exact ho ▸ ⟨_, h.own⟩
    · exact ⟨[], h.others (hm.party ho)⟩
  | finish hm => exact ⟨[], h.turn (.finish hm) (.inr ⟨_, rfl⟩)⟩
  | run s ctx code => exact ⟨[], h.turn (.run s ctx code) (.inl ⟨_, rfl⟩)⟩
  | call s ctx callee args => exact ⟨[], h.turn (.call s ctx callee args) (.inl ⟨_, rfl⟩)⟩
  | wait s ctx => exact ⟨[], h.turn (.wait s ctx) (.inl ⟨_, rfl⟩)⟩
  | change s hw => exact ⟨[], h.turn (.change s hw) (.inl ⟨_, rfl⟩)⟩
  | register s registry => exact ⟨[], h.turn (.register s registry) (.inl ⟨_, rfl⟩)⟩

/-- Consecutive iterations of a machine, the last one first. -/
def Counted (config : Config) (first : UInt32) : List Iteration → Prop
  | [] => True
  | x :: earlier =>
    x.state.machine.config = config ∧ x.state.machine.ticks = first + .ofNat earlier.length ∧
      x.ctx.isCancelled x.state.world.controls = false ∧ Counted config first earlier

/-- **The numbers of the iterations are consecutive**, under one configuration. -/
theorem counted (h : Iterates host p log p') :
    Counted p.machine.config p.machine.ticks log ∧
      p'.machine.config = p.machine.config ∧
      p'.machine.ticks = p.machine.ticks + .ofNat log.length := by
  induction h with
  | start => exact ⟨trivial, rfl, (UInt32.add_zero _).symm⟩
  | @own m log _ ih =>
    obtain ⟨hcounted, hconfig, hticks⟩ := ih
    obtain ⟨hconfig', hticks'⟩ := m.party.fiber.ticks_step host m.world
    refine ⟨?_, hconfig'.trans hconfig, ?_⟩
    · cases hx : m.party.fiber.iteration? m.world with
      | none => exact hcounted
      | some x =>
        obtain ⟨-, hctx, hstate, hc⟩ := Fiber.of_iteration? hx
        show Counted _ _ (x :: log)
        refine ⟨?_, ?_, ?_, hcounted⟩
        · rw [hstate]
          exact hconfig
        · rw [hstate]
          exact hticks
        · rw [hctx, hstate]
          exact hc
    · refine hticks'.trans ?_
      rw [show m.party.fiber.machine.ticks = _ from hticks, List.length_append, Nat.add_comm,
        UInt32.ofNat_add, UInt32.add_assoc]
  | @others m m' log _ hp ih =>
    obtain ⟨hcounted, hconfig, hticks⟩ := ih
    have hmachine : (Phase.work m').machine = (Phase.work m).machine :=
      congrArg (fun party : Party => party.fiber.machine) hp
    exact ⟨hcounted, hmachine ▸ hconfig, hmachine ▸ hticks⟩
  | turn _ hs hr ih =>
    obtain ⟨hcounted, hconfig, hticks⟩ := ih
    cases hs with
    | moment => rcases hr with ⟨_, hr⟩ | ⟨_, hr⟩ <;> cases hr
    | @finish m o s hm =>
      have hmachine : (Phase.rest s).machine = (Phase.work m).machine := hm.machine
      exact ⟨hcounted, hmachine ▸ hconfig, hmachine ▸ hticks⟩
    | _ => exact ⟨hcounted, hconfig, hticks⟩

namespace Counted

variable {config : Config} {first : UInt32} {later window earlier : List Iteration}

theorem of_append (h : Counted config first (later ++ earlier)) : Counted config first earlier := by
  induction later with
  | nil => exact h
  | cons x later ih => exact ih h.2.2.2

/-- Later iterations are counted from where the earlier ones end. -/
theorem shift (h : Counted config first (window ++ earlier)) :
    Counted config (first + .ofNat earlier.length) window := by
  induction window with
  | nil => trivial
  | cons x window ih =>
    obtain ⟨hconfig, hticks, hc, hrest⟩ := h
    refine ⟨hconfig, hticks.trans ?_, hc, ih hrest⟩
    show first + .ofNat (window ++ earlier).length = _
    rw [List.length_append, Nat.add_comm, UInt32.ofNat_add, UInt32.add_assoc]

theorem of_mem (h : Counted config first window) {x : Iteration} (hx : x ∈ window) :
    x.state.machine.config = config ∧ x.ctx.isCancelled x.state.world.controls = false := by
  induction window with
  | nil => cases hx
  | cons y window ih =>
    rcases List.mem_cons.mp hx with rfl | hx
    · exact ⟨h.1, h.2.2.1⟩
    · exact ih h.2.2.2 hx

/-- Every number below that of all iterations is that of one of them. -/
theorem exists_mem (h : Counted config first window) {i : Nat} (hi : i < window.length) :
    ∃ x ∈ window, x.state.machine.ticks = first + .ofNat i := by
  induction window with
  | nil => cases hi
  | cons x window ih =>
    rcases Nat.lt_succ_iff_lt_or_eq.mp hi with hi | rfl
    · obtain ⟨y, hy, hticks⟩ := ih h.2.2.2 hi
      exact ⟨y, List.mem_cons_of_mem x hy, hticks⟩
    · exact ⟨x, List.mem_cons_self, h.2.1⟩

/-- **As many consecutive iterations** as the interval says contain a look at the clock. -/
theorem exists_looks (h : Counted config first window)
    (hlong : config.checkInterval.toNat ≤ window.length) : ∃ x ∈ window, x.Looks := by
  obtain ⟨i, hi, hmultiple⟩ :=
    exists_multiple_from (first + 1) config.checkInterval config.checkInterval_pos
  obtain ⟨x, hx, hticks⟩ := h.exists_mem (Nat.lt_of_lt_of_le hi hlong)
  refine ⟨x, hx, Iteration.looks_iff.mpr ?_⟩
  rw [hticks, (h.of_mem hx).1, UInt32.add_assoc, UInt32.add_comm _ 1, ← UInt32.add_assoc, hmultiple]

end Counted

/-- **The clock is looked at often enough.** Among as many consecutive iterations of a machine as
its interval says, through calls back and from one run to the next, there is one in which the clock
is looked at. If the deadline is past then, the iteration fails and executes nothing, and the
innermost dispatch loop ends with that failure; so fewer iterations than the interval says can
follow each other before it does, and again after it was swallowed. Instructions are executed in
iterations only. -/
theorem deadline_checked (h : Iterates host p log p') :
    (∀ window, window <:+: log → p.machine.config.checkInterval.toNat ≤ window.length →
      ∃ x ∈ window, x.Looks) ∧
    (∀ x ∈ log, x.Looks → x.Late → x.Expires) ∧
    (∀ window, window <:+: log → (∀ x ∈ window, x.Late ∧ ¬x.Expires) →
      window.length < p.machine.config.checkInterval.toNat) ∧
    (∀ (w : World) (f : Fiber) (x : Iteration), f.iteration? w = some x → x.Expires →
      f.step host w = (.progress, { f with
        machine := { f.machine with ticks := f.machine.ticks + 1 }
        control := .deliver (.error (.interrupted .deadlineExceeded)) }, w)) ∧
    ∀ (thread : Option (Ref .thread)) (w : World) (f : Fiber) (e : Execution),
      f.execution? thread w = some e →
        ∃ x, f.iteration? w = some x ∧ Exec.next? x.ctx x.state = some
          (e.frame, e.instruction) := by
  have hcounted := h.counted.1
  have looks : ∀ window, window <:+: log → p.machine.config.checkInterval.toNat ≤ window.length →
      ∃ x ∈ window, x.Looks := by
    rintro window ⟨later, earlier, rfl⟩ hlong
    rw [List.append_assoc] at hcounted
    exact hcounted.of_append.shift.exists_looks hlong
  have expires : ∀ x ∈ log, x.Looks → x.Late → x.Expires :=
    fun x hx hl hd => Iteration.expires (hcounted.of_mem hx).2 hl hd
  refine ⟨looks, expires, fun window hw hlate => ?_, fun w f x => Fiber.step_of_expires,
    fun thread w f e => Fiber.iteration?_of_execution?⟩
  by_contra hlong
  obtain ⟨x, hx, hl⟩ := looks window hw (Nat.le_of_not_lt hlong)
  exact (hlate x hx).2 (expires x (hw.subset hx) hl (hlate x hx).1)

/-- Two iterations under a deadline that is past, between which the number wraps. -/
theorem looks_at_wrap : ∃ (p p' : Phase) (x y : Iteration), Iterates default p [y, x] p' ∧
    p.machine.config.checkInterval = 2 ∧ y.state.machine.ticks + 1 = 0 ∧
      (∀ z ∈ [y, x], z.Late) ∧ ∃ z ∈ [y, x], z.Looks ∧ z.Expires := by
  let machine : Machine := { config := Config.standard.withCheckInterval 2, ticks := 4294967294 }
  let code : Code := .ofParts #[Opcode.nop.word, Opcode.nop.word] #[]
  let ctx : Context := Context.background.withDeadline 5
  let m : Moment :=
    System.begin { machine } (.forProgram machine ctx code) { controls := { now := 7 } }
  let m' : Moment := m.own default
  let x : Iteration := ⟨m.party.fiber.ctx, ⟨m.party.fiber.machine, m.world⟩⟩
  have hx : m.party.fiber.iteration? m.world = some x := rfl
  have hnumber : (m'.party.fiber.iteration? m'.world).map (·.state.machine.ticks + 1) = some 0 := by
    decide +kernel
  obtain ⟨y, hy, hwraps⟩ := Option.map_eq_some_iff.mp hnumber
  have first : Iterates default (.work m) [x] (.work m') := by
    have h := (@Iterates.start default (.work m)).own
    rwa [hx] at h
  have both : Iterates default (.work m) [y, x] (.work (m'.own default)) := by
    have h := first.own
    rwa [hy] at h
  have late : ∀ z ∈ [y, x], z.Late := by
    obtain ⟨-, hctx, hstate, -⟩ := Fiber.of_iteration? hy
    have hdeadline : m'.party.fiber.ctx.deadline = some 5 := by decide +kernel
    have hnow : m'.world.controls.now = 7 := by decide +kernel
    intro z hz
    rcases List.mem_cons.mp hz with rfl | hz
    · exact ⟨5, hctx ▸ hdeadline, by rw [hstate, hnow]; decide⟩
    · obtain rfl := List.mem_singleton.mp hz
      exact ⟨5, rfl, by decide⟩
  obtain ⟨z, hz, looks⟩ := both.deadline_checked.1 [y, x] List.infix_rfl (Nat.le_refl 2)
  exact ⟨.work m, _, x, y, both, rfl, hwraps, late, z, hz, looks,
    both.deadline_checked.2.1 z hz looks (late z hz)⟩

end Iterates

end ScriptEngine
