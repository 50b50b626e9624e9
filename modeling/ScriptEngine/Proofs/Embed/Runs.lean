import ScriptEngine.Proofs.Embed.Placed

/-!
# Runs

A run goes on behind the code that was run before. The codes that an engine gives out continue each
other, and control does not lead back across the seams between them. So what one run has executed no
later one executes again, as long as no run is given a code that is shorter than what was run
already. A shorter code is run from its start.

## Main definitions

* `ScriptEngine.runs`: the codes that were run;
* `ScriptEngine.Engine.IsUpToDate`: a code that is not shorter than what was run already;
* `ScriptEngine.Batch.Inside`: an instruction of a batch is executed;
* `ScriptEngine.RunsOnce`: no batch is replayed.

## Main results

* `ScriptEngine.History.Past.goesOn`: where the program of an engine goes on, in all histories;
* `ScriptEngine.History.Past.runs_once`: no batch is replayed by runs of codes that are up to date.
-/

namespace ScriptEngine

/-! ### Logs -/

/-- The code whose run began. -/
def Deed.run? : Deed → Option Code
  | .began code => some code
  | _ => none

/-- **The codes that were run**, the last one first. -/
def runs (log : List Deed) : List Code :=
  log.filterMap Deed.run?

theorem runs_append (later earlier : List Deed) :
    runs (later ++ earlier) = runs later ++ runs earlier :=
  List.filterMap_append

/-- **A code that is up to date**: it is not shorter than what was run already. -/
def Engine.IsUpToDate (e : Engine) (code : Code) : Prop :=
  e.system.machine.position ≤ code.size

/-- No run begins by what a party does. -/
theorem Moment.Performs.runs {host : Host} {m m' : Moment} {deeds : List Deed}
    (hm : m.Performs host deeds m') (log : List Deed) :
    ScriptEngine.runs (deeds ++ log) = ScriptEngine.runs log := by
  rcases hm.cases with ⟨q, -, rfl, -, -⟩ | ⟨rfl, -, -, -⟩
  · have hnone : ScriptEngine.runs (q.deeds host m.world) = [] := by
      refine List.filterMap_eq_nil_iff.mpr fun d hd => ?_
      obtain ⟨newer, older, heq⟩ := List.append_of_mem hd
      rcases Party.deeds_eq_append heq with ⟨_, rfl⟩ | ⟨_, rfl, -, -⟩ <;> rfl
    rw [runs_append, hnone, List.nil_append]
  · rfl

/-! ### Frames of programs -/

/-- The frame is one of a program, and not of a function in it. -/
def Frame.isProgram (g : Frame) : Bool :=
  g.function.isNone

/-- The frames of programs. -/
def Machine.programs (m : Machine) : List Frame :=
  m.frames.items.filter Frame.isProgram

/-- An instruction of a program is executed in the innermost frame of a program. -/
theorem Fiber.programs_of_execution? {thread : Option (Ref .thread)} {w : World} {f : Fiber}
    {x : Execution} (h : f.execution? thread w = some x) (hp : x.InProgram) :
    ∃ rest, f.machine.programs = x.frame :: rest := by
  obtain ⟨hhead, -, -⟩ := fetch_of_execution? h
  unfold Machine.programs
  cases hf : f.machine.frames.items with
  | nil =>
    rw [hf] at hhead
    cases hhead
  | cons g gs =>
    rw [hf] at hhead
    cases hhead
    exact ⟨_, List.filter_cons_of_pos (Option.isNone_iff_eq_none.mpr hp)⟩

/-- **The frames of programs after a step**: some were left, or the innermost one moved. -/
theorem Fiber.programs_step (host : Host) (thread : Option (Ref .thread)) (w : World) (f : Fiber) :
    (f.step host w).2.1.machine.programs <:+ f.machine.programs ∨
      ∃ x g rest, f.execution? thread w = some x ∧ f.machine.programs = x.frame :: rest ∧
        (f.step host w).2.1.machine.programs = g :: rest ∧ x.frame.Moves x.instruction g := by
  have hstep := f.frames_step host thread w
  unfold Machine.programs
  generalize (f.step host w).2.1.machine.frames.items = gs', f.machine.frames.items = gs at hstep
  cases hstep with
  | leave n => exact .inl ((List.drop_suffix n _).filter _)
  | @move g g' rest e hx hf hm =>
    subst hf
    have hsame : g'.isProgram = e.frame.isProgram := by
      rw [hm.same]
      rfl
    by_cases hp : e.frame.isProgram
    · rw [List.filter_cons_of_pos hp, List.filter_cons_of_pos (hsame ▸ hp)]
      exact .inr ⟨e, g', _, hx, rfl, rfl, hm⟩
    · rw [List.filter_cons_of_neg hp, List.filter_cons_of_neg (hsame ▸ hp)]
      exact .inl (List.suffix_refl _)
  | enter r hf =>
    rw [List.filter_cons_of_neg (by unfold Frame.isProgram; rw [hf]; exact Bool.false_ne_true)]
    exact .inl (List.suffix_refl _)

/-- A fiber that executes no program does not begin to. -/
theorem Fiber.programs_step_nil (host : Host) (w : World) {f : Fiber}
    (h : f.machine.programs = []) :
    (f.step host w).2.1.machine.programs = [] := by
  rcases f.programs_step host none w with hs | ⟨x, g, rest, -, heq, -⟩
  · rw [h] at hs
    exact List.suffix_nil.mp hs
  · rw [h] at heq
    cases heq

/-! ### The end of a fiber -/

namespace Fiber

/-- A fiber that has come to its end stays as it is. -/
theorem step_finished (host : Host) (w : World) {f : Fiber} {o : Outcome}
    (ho : f.control = .finished o) : (f.step host w).2.1 = f := by
  obtain ⟨m, ctx, control, pending, goal⟩ := f
  cases ho
  rfl

/-- **A fiber comes to its end** by handing its result over. -/
theorem finished_step {host : Host} {w : World} {f : Fiber} {o : Outcome}
    (h : (f.step host w).2.1.control = .finished o) :
    f.control = .finished o ∨
      f.pending = [] ∧ (f.step host w).2.1 = f.deliver o := by
  obtain ⟨m, ctx, control, pending, goal⟩ := f
  cases control with
  | dispatch =>
    simp only [Fiber.step, Fiber.dispatch] at h
    split at h <;> cases h
  | invoke callee args entry =>
    simp only [Fiber.step, Fiber.invoke] at h
    split at h
    · cases h
    split at h
    · cases h
    · cases h
    · split at h
      · cases h
      · split at h <;> cases h
  | activity a =>
    cases a with
    | block operation next =>
      simp only [Fiber.step, Fiber.act] at h
      split at h <;> cases h
    | _ => cases h
  | deliver o' =>
    cases pending with
    | nil =>
      have : o' = o := by
        cases goal <;> exact Control.finished.inj h
      subst this
      exact .inr ⟨rfl, rfl⟩
    | cons p pending =>
      simp only [Fiber.step, Fiber.deliver] at h
      cases p with
      | operand =>
        cases o' with
        | ok v =>
          dsimp only at h
          split at h <;> cases h
        | error e => cases h
      | callback checkpoint next => cases h
  | finished o' => exact .inl h

end Fiber

/-! ### Runs of codes -/

/-- **A frame of a run of a code**, after those of other codes. It goes on behind them, and behind
all seams that were passed. -/
structure Frame.GoesOn (code : Code) (olds : List Code) (log : List Deed) (g : Frame) : Prop where
  code : g.code = code
  olds : ∀ old ∈ olds, old.size ≤ g.ip
  seams : ∀ x, .executed x ∈ log → x.InProgram → ∀ c ∈ issued log,
    c.size ≤ x.instruction.offset → c.size ≤ g.ip

/-- **The fiber of an engine at work**: it runs a code behind those that were run before, or it does
not execute any program. -/
inductive Fiber.GoesOn (log : List Deed) (f : Fiber) : Prop
  | run {code : Code} {olds : List Code} (runs : runs log = code :: olds)
    (goal : f.goal = .program code.size)
    (shorter : ∀ old ∈ olds, old.size ≤ code.size)
    (frames : f.machine.programs = [] ∨ ∃ g, f.machine.programs = [g] ∧ g.GoesOn code olds log)
    (finished : ∀ o, f.control = .finished o →
      f.machine.programs = [] ∧ f.machine.position = code.size)
  | call (frames : f.machine.programs = [])
    (behind : ∀ code ∈ runs log, code.size ≤ f.machine.position)
    (goal : (∃ c, f.goal = .call c) ∨ ∃ o, f.control = .finished o)

namespace Fiber.GoesOn

variable {log : List Deed} {f : Fiber}

/-- After the end of its work no program is executed, and all that was run lies before the next
run. -/
theorem finished (h : f.GoesOn log) {o : Outcome} (ho : f.control = .finished o) :
    f.machine.programs = [] ∧ ∀ code ∈ runs log, code.size ≤ f.machine.position := by
  cases h with
  | run hruns _ holds _ hfin =>
    obtain ⟨hframes, hpos⟩ := hfin o ho
    refine ⟨hframes, fun code hc => ?_⟩
    rw [hruns] at hc
    rw [hpos]
    rcases List.mem_cons.mp hc with rfl | hc
    · exact Nat.le_refl _
    · exact holds code hc
  | call hframes hbehind => exact ⟨hframes, hbehind⟩

/-- Whatever others do who execute no program. -/
theorem others (h : f.GoesOn log) {deeds : List Deed} (hr : runs (deeds ++ log) = runs log)
    (hi : issued (deeds ++ log) = issued log) (hx : ∀ x, .executed x ∈ deeds → ¬ x.InProgram) :
    f.GoesOn (deeds ++ log) := by
  cases h with
  | run hruns hgoal holds hframes hfin =>
    refine .run (hr.trans hruns) hgoal holds (hframes.imp id ?_) hfin
    rintro ⟨g, hg, hc, hold, hseams⟩
    refine ⟨g, hg, hc, hold, fun x hmem hp c hc => ?_⟩
    rw [hi] at hc
    rcases List.mem_append.mp hmem with hmem | hmem
    · exact absurd hp (hx x hmem)
    · exact hseams x hmem hp c hc
  | call hframes hbehind hgoal => exact .call hframes (hr ▸ hbehind) hgoal

/-- **An instruction of a program** is executed in the frame of the run. -/
theorem execution (h : f.GoesOn log) {thread : Option (Ref .thread)} {w : World} {x : Execution}
    (hx : f.execution? thread w = some x) (hp : x.InProgram) :
    ∃ olds, runs log = x.frame.code :: olds ∧ x.frame.GoesOn x.frame.code olds log := by
  obtain ⟨rest, hrest⟩ := programs_of_execution? hx hp
  cases h with
  | run hruns _ _ hframes _ =>
    rcases hframes with hnil | ⟨g, hg, hon⟩
    · rw [hnil] at hrest
      cases hrest
    · obtain ⟨rfl, -⟩ := List.cons.inj (hg.symm.trans hrest)
      obtain rfl := hon.code
      exact ⟨_, hruns, hon⟩
  | call hframes =>
    rw [hframes] at hrest
    cases hrest

/-- **A step of the fiber**, which may execute an instruction of the program. -/
theorem step {host : Host} {w : World} {fs : Array Function} {c : Compiler} {E : Environment}
    (h : f.GoesOn log) (hE : E.functions = fs) (hj : c.Joined E (issued log))
    (hri : ∀ code ∈ runs log, code ∈ issued log)
    (hp : ∀ g ∈ f.machine.frames.items, g.Placed fs (issued log)) {thread : Option (Ref .thread)}
    {deeds : List Deed} (hr : runs (deeds ++ log) = runs log)
    (hi : issued (deeds ++ log) = issued log)
    (hx : ∀ x, .executed x ∈ deeds ↔ f.execution? thread w = some x) :
    (f.step host w).2.1.GoesOn (deeds ++ log) := by
  cases h with
  | @run code olds hruns hgoal holds hframes hfin =>
    have hissued : ∀ c ∈ code :: olds, c ∈ issued log := fun c hc => hri c (hruns ▸ hc)
    refine .run (hr.trans hruns) ((f.goal_step host w).1.trans hgoal) holds ?_ ?_
    · rcases f.programs_step host thread w with hs | ⟨x, g', rest, hexec, heq, heq', hmoves⟩
      · rcases hframes with hnil | ⟨g, hg, hon⟩
        · rw [hnil] at hs
          exact .inl (List.suffix_nil.mp hs)
        rw [hg] at hs
        rcases List.suffix_cons_iff.mp hs with heq | hs
        · -- the frame does not move
          refine .inr ⟨g, heq, hon.code, hon.olds, fun x hm hprogram c hc hle => ?_⟩
          rw [hi] at hc
          rcases List.mem_append.mp hm with hm | hm
          · obtain ⟨rest, hrest⟩ := programs_of_execution? ((hx x).mp hm) hprogram
            obtain ⟨rfl, -⟩ := List.cons.inj (hg.symm.trans hrest)
            rwa [(f.placed_execution hE hj hp ((hx x).mp hm)).2.1] at hle
          · exact hon.seams x hm hprogram c hc hle
        · exact .inl (List.suffix_nil.mp hs)
      · rcases hframes with hnil | ⟨g, hg, hon⟩
        · rw [hnil] at heq
          cases heq
        obtain ⟨rfl, rfl⟩ := List.cons.inj (hg.symm.trans heq)
        obtain ⟨hplaced, hoffset, hlt, hhas⟩ := f.placed_execution hE hj hp hexec
        have hboundary : x.frame.code.Boundary x.instruction.offset := hoffset ▸ hplaced.boundary
        -- behind a seam control stays behind it
        have stays (c : Code) (hc : c ∈ issued log) (hle : c.size ≤ x.frame.ip) :
            c.size ≤ g'.ip := by
          rcases hmoves.ip with hstop | ⟨htarget, -⟩
          · rw [hstop]
            exact Nat.le_trans (hoffset ▸ hle) (Nat.le_of_lt (Code.Has.offset_lt_stop _))
          · rw [← hoffset] at hle
            rw [hon.code] at hhas hboundary hlt
            have hcode := hissued code List.mem_cons_self
            exact (hj.seams c hc code hcode (Nat.le_of_lt (by omega))).target hhas
              hboundary hle htarget
        refine .inr ⟨g', heq', ?_, fun old hold => ?_, fun y hm hprogram c hc hle => ?_⟩
        · rw [hmoves.same]
          exact hon.code
        · exact stays old (hissued old (List.mem_cons_of_mem _ hold)) (hon.olds old hold)
        · rw [hi] at hc
          refine stays c hc ?_
          rcases List.mem_append.mp hm with hm | hm
          · obtain rfl := Option.some.inj (((hx y).mp hm).symm.trans hexec)
            rwa [hoffset] at hle
          · exact hon.seams y hm hprogram c hc hle
    · intro o ho
      rcases finished_step ho with hc | ⟨hn, heq⟩
      · rw [step_finished host w hc]
        exact hfin o hc
      · rw [heq]
        obtain ⟨m, ctx, control, pending, goal⟩ := f
        cases hn
        cases hgoal
        exact ⟨rfl, rfl⟩
  | call hframes hbehind hgoal =>
    have hsame : (f.step host w).2.1.machine.position = f.machine.position := by
      rcases hgoal with ⟨c, hgoal⟩ | ⟨o, ho⟩
      · rcases f.position_step host w with heq | heq
        · exact heq
        · rw [hgoal] at heq
          cases heq
      · rw [step_finished host w ho]
    refine .call (f.programs_step_nil host w hframes) (by rw [hr, hsame]; exact hbehind) ?_
    · rcases hgoal with ⟨c, hgoal⟩ | ⟨o, ho⟩
      · exact .inl ⟨c, (f.goal_step host w).1.trans hgoal⟩
      · exact .inr ⟨o, by rw [step_finished host w ho]; exact ho⟩

end Fiber.GoesOn

namespace History

variable {host : Host} {allowed : Engine → Code → Prop} {h h' : History}

/-- What was run was given out. -/
theorem Past.issued_of_runs (hp : h.Past host allowed) : ∀ code ∈ runs h.log,
    code ∈ issued h.log := by
  intro code hc
  obtain ⟨d, hd, hrun⟩ := List.mem_filterMap.mp hc
  unfold Deed.run? at hrun
  split at hrun
  · cases hrun
    obtain ⟨later, earlier, hl⟩ := List.append_of_mem hd
    obtain ⟨e, -, hissued, -⟩ := hp.follows hl
    rw [hl]
    exact mem_issued_behind hissued
  · cases hrun

/-- **Where the program of an engine goes on**: behind all that was run. Workers execute none. -/
structure GoesOn (h : History) : Prop where
  rest : ∀ e, h.scene = .rest e → e.system.machine.programs = [] ∧
    ∀ code ∈ runs h.log, code.size ≤ e.system.machine.position
  work : ∀ e m, h.scene = .work e m → m.party.fiber.GoesOn h.log
  workers : ∀ p ∈ h.scene.workers, p.fiber.machine.programs = []
  executed : ∀ x, .executed x ∈ h.log → x.InProgram →
    x.frame.code ∈ runs h.log ∧ x.instruction.offset < x.frame.code.size

namespace GoesOn

/-- An engine that was just built. -/
theorem fresh (hf : h.Fresh) : h.GoesOn := by
  have registered {d : Deed} := hf.registered (d := d)
  cases hf with
  | @build config heap controls builtins ctx e hfs he =>
    obtain ⟨c, -, rfl⟩ := Engine.withBuiltins_eq_ok he
    refine ⟨?_, fun _ _ h => (by cases h), fun p hp => absurd hp List.not_mem_nil, fun x hx => ?_⟩
    · rintro _ ⟨⟩
      refine ⟨rfl, fun code hc => ?_⟩
      obtain ⟨d, hd, hrun⟩ := List.mem_filterMap.mp hc
      obtain ⟨_, _, rfl⟩ := registered hd
      cases hrun
    · obtain ⟨_, _, heq⟩ := registered hx
      cases heq

/-- **The host did something** with an engine at rest, and did not run anything. -/
theorem atRest {e : Engine} {log : List Deed} (hg : GoesOn ⟨.rest e, log⟩) {e' : Engine}
    {log' : List Deed} (hm : e'.system.machine.frames = e.system.machine.frames)
    (hpos : e'.system.machine.position = e.system.machine.position)
    (hw : e'.system.workers = e.system.workers) (hr : runs log' = runs log)
    (hx : ∀ x, .executed x ∈ log' → .executed x ∈ log) : GoesOn ⟨.rest e', log'⟩ where
  rest := by
    rintro _ ⟨⟩
    obtain ⟨hprograms, hbehind⟩ := hg.rest e rfl
    unfold Machine.programs
    rw [hm, hpos, hr]
    exact ⟨hprograms, hbehind⟩
  work _ _ h := by cases h
  workers p hp := by
    have hp : p ∈ e'.system.workers.map Worker.party := hp
    rw [hw] at hp
    exact hg.workers p hp
  executed x hm := by
    rw [hr]
    exact hg.executed x (hx x hm)

/-- **A run or a call begins.** -/
theorem begin {e : Engine} {log log' : List Deed} (hg : GoesOn ⟨.rest e, log⟩) {f : Fiber}
    {world : World} (hf : f.GoesOn log') (hr : ∀ code ∈ runs log, code ∈ runs log')
    (hx : ∀ x, .executed x ∈ log' → .executed x ∈ log) :
    GoesOn ⟨.work e (e.system.begin f world), log'⟩ where
  rest _ h := by cases h
  work := by
    rintro _ _ ⟨⟩
    exact hf
  workers := hg.workers
  executed x hm hp := (hg.executed x (hx x hm) hp).imp_left (hr _)

/-- **A party does something.** -/
theorem perform (hh : host.Honest) {e : Engine} {log deeds : List Deed} {m m' : Moment}
    (hpast : Past host allowed ⟨.work e m, log⟩) (hg : GoesOn ⟨.work e m, log⟩)
    (hm : m.Performs host deeds m') : GoesOn ⟨.work e m', deeds ++ log⟩ := by
  obtain ⟨E, hE, hj⟩ := hpast.joined hh
  have hplaces := (hpast.places hh).parties
  have hruns := hm.runs log
  have hissued := hm.issued log
  have hon := hg.work e m rfl
  -- a worker executes no program, neither before nor after
  have worker {q : Party} (hq : q.fiber.machine.programs = []) {x : Execution}
      (hx : q.execution? m.world = some x) : ¬ x.InProgram := by
    intro hp
    obtain ⟨rest, hrest⟩ := Fiber.programs_of_execution? hx hp
    rw [hq] at hrest
    cases hrest
  have started {q : Party} : ∀ p ∈ (q.fiber.step host m.world).1.started,
      p.fiber.machine.programs = [] := by
    intro p hp
    unfold Machine.programs
    rw [(q.fiber.started_step host m.world p hp).1]
    rfl
  have before : ∀ x, .executed x ∈ log → x.InProgram →
      x.frame.code ∈ runs (deeds ++ log) ∧ x.instruction.offset < x.frame.code.size := by
    rw [hruns]
    exact hg.executed
  have engine (hf : m'.party.fiber.GoesOn (deeds ++ log))
      (hw : ∀ p ∈ m'.others, p.fiber.machine.programs = [])
      (hx : ∀ x, .executed x ∈ deeds → x.InProgram →
        x.frame.code ∈ runs log ∧ x.instruction.offset < x.frame.code.size) :
      GoesOn ⟨.work e m', deeds ++ log⟩ := by
    refine ⟨fun _ h => (by cases h), ?_, hw, fun x hmem hp => ?_⟩
    · rintro _ _ ⟨⟩
      exact hf
    · rcases List.mem_append.mp hmem with hmem | hmem
      · show _ ∈ runs (deeds ++ log) ∧ _
        rw [hruns]
        exact hx x hmem hp
      · exact before x hmem hp
  have hothers : ∀ p ∈ m.others, p.fiber.machine.programs = [] := hg.workers
  cases hm with
  | own =>
    refine engine (hon.step hE hj hpast.issued_of_runs (hplaces _ List.mem_cons_self) hruns hissued
      fun x => Party.executed_mem_deeds) (fun p hp => ?_) fun x hx hp => ?_
    · rcases List.mem_append.mp hp with hp | hp
      · exact started p hp
      · exact hothers p hp
    · have hx := Party.executed_mem_deeds.mp hx
      obtain ⟨olds, heq, -⟩ := hon.execution hx hp
      obtain ⟨-, hoffset, hlt, -⟩ :=
        m.party.fiber.placed_execution hE hj (hplaces _ List.mem_cons_self) hx
      exact ⟨heq ▸ List.mem_cons_self, hoffset ▸ hlt⟩
  | @other p q others world world' ev f hstep =>
    have hq := hothers q List.mem_cons_self
    have quiet : ∀ x, .executed x ∈ q.deeds host world → ¬ x.InProgram := fun x hx =>
      worker hq (Party.executed_mem_deeds.mp hx)
    refine engine (hon.others hruns hissued quiet) (fun p' hp => ?_) fun x hx hp =>
      absurd hp (quiet x hx)
    have hafter := q.fiber.programs_step_nil host world hq
    have hstarted := started (q := q)
    rw [hstep] at hafter hstarted
    rcases List.mem_cons.mp hp with rfl | hp
    · exact hafter
    · rcases List.mem_append.mp hp with hp | hp
      · exact hstarted p' hp
      · exact hothers p' (List.mem_cons_of_mem _ hp)
  | report h =>
    exact engine hon (fun p hp => hothers p (List.mem_cons_of_mem _ hp))
      fun x hx => absurd hx List.not_mem_nil
  | order h =>
    exact engine hon (fun p hp => hothers p (h.mem_iff.mpr hp))
      fun x hx => absurd hx List.not_mem_nil
  | controls c => exact engine hon hothers fun x hx => absurd hx List.not_mem_nil

/-- The work ends. -/
theorem finish {e : Engine} {log : List Deed} {m : Moment} {o : Outcome} {s : System}
    (hg : GoesOn ⟨.work e m, log⟩) (he : m.Ends o s) :
    GoesOn ⟨.rest { e with system := s }, log⟩ where
  rest := by
    rintro _ ⟨⟩
    show s.machine.programs = [] ∧ ∀ code ∈ runs log, code.size ≤ s.machine.position
    rw [he.machine]
    exact (hg.work e m rfl).finished (Fiber.outcome?_eq_some.mp he.outcome)
  work _ _ h := by cases h
  workers p hp := by
    have hp : p ∈ s.workers.map Worker.party := hp
    rw [he.workers] at hp
    exact hg.workers p hp
  executed := hg.executed

end GoesOn

/-- **In all histories** in which no code is run that is not up to date, the program goes on behind
all that was run. -/
theorem Past.goesOn (hh : host.Honest) (hp : h.Past host Engine.IsUpToDate) : h.GoesOn := by
  refine hp.induction (fun h hf => .fresh hf) fun h h' hpast hg hs => ?_
  have old {d : Deed} {log : List Deed} (hd : ∀ x, d ≠ .executed x) :
      ∀ x, Deed.executed x ∈ d :: log → .executed x ∈ log := fun x hx =>
    (List.mem_cons.mp hx).resolve_left fun heq => hd x heq.symm
  cases hs with
  | compile e log program => exact hg.atRest rfl (by rfl) (by rfl) rfl (old (by simp))
  | set he =>
    obtain ⟨hm, hw⟩ := Engine.stays_set he
    exact hg.atRest (congrArg Machine.frames hm) (congrArg Machine.position hm) hw rfl
      (old (by simp))
  | setRefused he =>
    obtain ⟨hm, hw⟩ := Engine.stays_set he
    exact hg.atRest (congrArg Machine.frames hm)
      (congrArg Machine.position hm) hw rfl fun _ hx => hx
  | register he =>
    obtain ⟨hframes, hposition, hw⟩ := Engine.stays_register he
    exact hg.atRest hframes hposition hw rfl (old (by simp))
  | registerRefused he =>
    obtain ⟨hframes, hposition, hw⟩ := Engine.stays_register he
    exact hg.atRest hframes hposition hw rfl fun _ hx => hx
  | context e log ctx => exact hg.atRest rfl (by rfl) (by rfl) rfl fun _ hx => hx
  | @run e log code hcode ha =>
    obtain ⟨-, hbehind⟩ := hg.rest e rfl
    have hstart : e.system.machine.start code = e.system.machine.position :=
      if_neg (Nat.not_lt_of_le ha)
    have hruns : runs (.began code :: log) = code :: runs log := rfl
    refine hg.begin (.run hruns rfl ?_ (.inr ⟨_, rfl, rfl, ?_, ?_⟩) ?_)
      (fun _ hc => List.mem_cons_of_mem _ hc) (old (by simp))
    · exact fun old hold => Nat.le_trans (hbehind old hold) ha
    · intro old hold
      show old.size ≤ e.system.machine.start code
      rw [hstart]
      exact hbehind old hold
    · -- what was executed belongs to a code that was run before
      intro x hx hprogram c hc hle
      obtain ⟨hran, hlt⟩ := hg.executed x (old (by simp) x hx) hprogram
      show c.size ≤ e.system.machine.start code
      rw [hstart]
      exact Nat.le_trans hle (Nat.le_trans (Nat.le_of_lt hlt) (hbehind _ hran))
    · intro o ho
      cases ho
  | @call e log name callee hget args =>
    obtain ⟨hprograms, hbehind⟩ := hg.rest e rfl
    exact hg.begin (.call hprograms hbehind (.inl ⟨_, rfl⟩)) (fun _ hc => hc) (old (by simp))
  | wait e log =>
    obtain ⟨hprograms, hbehind⟩ := hg.rest e rfl
    exact hg.begin (.call hprograms hbehind (.inr ⟨_, rfl⟩)) (fun _ hc => hc) fun _ hx => hx
  | perform hm => exact hg.perform hh hpast hm
  | finish he => exact hg.finish he

/-- **When an instruction of a program is executed**, its code is the one that was run last. It lies
behind the codes that were run before, and behind all seams that were passed. -/
theorem Past.executed_program (hh : host.Honest) (hp : h.Past host Engine.IsUpToDate)
    {later earlier : List Deed} {x : Execution} (hl : h.log = later ++ .executed x :: earlier)
    (hx : x.InProgram) : ∃ olds, runs earlier = x.frame.code :: olds ∧
      x.frame.GoesOn x.frame.code olds earlier ∧ x.frame.code ∈ issued earlier ∧
      x.instruction.offset = x.frame.ip ∧ x.instruction.offset < x.frame.code.size := by
  obtain ⟨e, m, hp', q, hq, hexec⟩ := hp.follows hl
  have hg := hp'.goesOn hh
  obtain ⟨E, hE, hj⟩ := hp'.joined hh
  obtain ⟨-, hoffset, hlt, -⟩ := q.fiber.placed_execution hE hj ((hp'.places hh).parties q hq) hexec
  rcases List.mem_cons.mp hq with rfl | hq
  · obtain ⟨olds, hruns, hon⟩ := (hg.work e m rfl).execution hexec hx
    have hissued := hp'.issued_of_runs x.frame.code (by rw [hruns]; exact List.mem_cons_self)
    exact ⟨olds, hruns, hon, hissued, hoffset, hoffset ▸ hlt⟩
  · -- a worker executes no program
    obtain ⟨rest, hrest⟩ := Fiber.programs_of_execution? hexec hx
    rw [hg.workers q hq] at hrest
    cases hrest

end History

end ScriptEngine
