import ScriptEngine.Proofs.Embed.Runs

/-!
# No batch is replayed

Each run executes only what was compiled and was not run before, unless the host asks for a code
that is shorter than what was run. So the instructions of a batch are executed in a single run, one
pass through the batch, with nothing of the program between them.

## Main definitions

* `ScriptEngine.Execution.Inside`: an instruction between two offsets of the program is executed;
* `ScriptEngine.RunsOnce`: no batch is replayed.

## Main results

* `ScriptEngine.History.Past.compiled_between`: codes that were given out before a batch end before
  it, and those that were given out after it end behind it;
* `ScriptEngine.History.Past.runs_once`: no batch is replayed by runs of codes that are up to date;
* `ScriptEngine.History.older_code_replayed`: a shorter code is run again.
-/

namespace ScriptEngine

/-- **An instruction between two offsets** of the program is executed. -/
structure Execution.Inside (start stop : Nat) (x : Execution) : Prop where
  program : x.InProgram
  start : start ≤ x.instruction.offset
  stop : x.instruction.offset < stop

/-- **No batch is replayed.** Every run executes its code behind all codes that were run before. And
from the first instruction of a batch to the last one no run begins, and nothing of the program is
executed that does not belong to the batch. -/
structure RunsOnce (log : List Deed) : Prop where
  fresh : ∀ {later earlier : List Deed} {x : Execution}, log = later ++ .executed x :: earlier →
    x.InProgram → ∃ olds, runs earlier = x.frame.code :: olds ∧
      x.Inside 0 x.frame.code.size ∧ ∀ old ∈ olds, old.size ≤ x.instruction.offset
  once : ∀ {c : Compiler} {fs : Array Function} {program : Program} {code : Code},
    .compiled c fs program ∈ log → (c.compile fs program).1 = .ok code →
    ∀ {latest between earliest : List Deed} {x y : Execution},
      log = latest ++ .executed y :: (between ++ .executed x :: earliest) →
      x.Inside c.code.size code.size → y.Inside c.code.size code.size →
      (∀ code', .began code' ∉ between) ∧
        ∀ z, .executed z ∈ between → z.InProgram → z.Inside c.code.size code.size

namespace History

section

variable {host : Host} {allowed : Engine → Code → Prop} {h h' : History}

/-- **Before a batch** ends what was compiled before it. -/
theorem Past.compiled_after (hh : host.Honest) (hp : h.Past host allowed)
    {later earlier : List Deed}
    {c : Compiler} {fs : Array Function} {program : Program} {code : Code}
    (hl : h.log = later ++ .compiled c fs program :: earlier)
    (hc : (c.compile fs program).1 = .ok code) :
    (∀ old ∈ issued earlier, old.size ≤ c.code.size) ∧ Ends (issued earlier) c.code.size ∧
      c.code.size ≤ code.size := by
  obtain ⟨e, hp', rfl, rfl⟩ := hp.follows hl
  obtain ⟨E, hE, hj⟩ := hp'.joined hh
  refine ⟨fun old hold => (hj.begins old hold).size, hj.ends, ?_⟩
  obtain ⟨E', -, -, hleads⟩ := hj.sound.compile program
  rw [hE] at hleads
  have hcode : code = (e.compiler.compile e.system.world.heap.functions program).2.1.code :=
    Compiler.code_of_compile (Prod.ext hc rfl)
  rw [hcode]
  exact hleads.size

/-- **Codes that were given out before a batch** end before it, and those that were given out after
it end behind it. -/
theorem Past.compiled_between (hh : host.Honest) (hp : h.Past host allowed)
    {later earlier : List Deed} {c : Compiler} {fs : Array Function}
    {program : Program} {code : Code}
    (hl : h.log = later ++ .compiled c fs program :: earlier)
    (hc : (c.compile fs program).1 = .ok code) :
    ∀ code' ∈ issued h.log, code'.size ≤ c.code.size ∨ code.size ≤ code'.size := by
  intro code' hcode'
  have hgiven : (Deed.compiled c fs program).code? = some code :=
    Deed.code?_eq_some.mpr ⟨c, fs, program, rfl, hc⟩
  rw [hl, issued_append, issued_cons, hgiven] at hcode'
  rcases List.mem_append.mp hcode' with hnew | hcode'
  · -- a batch that was compiled later goes on behind this one
    right
    obtain ⟨d, hd, hdcode⟩ := List.mem_filterMap.mp hnew
    obtain ⟨c₁, fs₁, program₁, rfl, hc₁⟩ := Deed.code?_eq_some.mp hdcode
    obtain ⟨a, b, rfl⟩ := List.append_of_mem hd
    rw [List.append_assoc, List.cons_append] at hl
    obtain ⟨hbefore, -, hle⟩ := hp.compiled_after hh hl hc₁
    refine Nat.le_trans (hbefore code ?_) hle
    exact mem_issued_compiled hc _ _
  · rcases List.mem_cons.mp hcode' with rfl | hold
    · exact .inr (Nat.le_refl _)
    · exact .inl ((hp.compiled_after hh hl hc).1 code' hold)

/-- **Control does not lead back across a seam**: an instruction of the program behind it is
followed by none before it. -/
theorem Past.seam_passed (hh : host.Honest) (hp : h.Past host Engine.IsUpToDate)
    {latest between earliest : List Deed} {x y : Execution}
    (hl : h.log = latest ++ .executed y :: (between ++ .executed x :: earliest))
    (hx : x.InProgram) (hy : y.InProgram) {n : Nat} (hn : Ends (issued earliest) n)
    (hle : n ≤ x.instruction.offset) : n ≤ y.instruction.offset := by
  rcases hn with rfl | ⟨code, hcode, rfl⟩
  · exact Nat.zero_le _
  · obtain ⟨olds, -, hon, -, hoffset, -⟩ := hp.executed_program hh hl hy
    rw [hoffset]
    refine hon.seams x (List.mem_append_right _ List.mem_cons_self) hx code ?_ hle
    exact mem_issued_behind hcode

/-- **A run is fresh**: what it executes lies behind the codes of all earlier runs. -/
theorem Past.executed_fresh (hh : host.Honest) (hp : h.Past host Engine.IsUpToDate)
    {later earlier : List Deed} {x : Execution} (hl : h.log = later ++ .executed x :: earlier)
    (hx : x.InProgram) : ∃ olds, runs earlier = x.frame.code :: olds ∧
      x.Inside 0 x.frame.code.size ∧ ∀ old ∈ olds, old.size ≤ x.instruction.offset := by
  obtain ⟨olds, hruns, hon, -, hoffset, hlt⟩ := hp.executed_program hh hl hx
  exact ⟨olds, hruns, ⟨hx, Nat.zero_le _, hlt⟩, fun old hold => hoffset ▸ hon.olds old hold⟩

/-! ### Runs of a batch

The batch of a compiler `c` that was given out as `code`, from one of its instructions `x` to
another one `y`. -/

section

variable {c : Compiler} {fs : Array Function} {program : Program} {code : Code}
  {latest between earliest : List Deed} {x y : Execution}

/-- An instruction of a batch is one of a code that is at least as long as that of the batch. -/
theorem Past.size_le_of_inside (hh : host.Honest) (hp : h.Past host Engine.IsUpToDate)
    (hm : .compiled c fs program ∈ h.log) (hc : (c.compile fs program).1 = .ok code)
    (hl : h.log = latest ++ .executed x :: earliest) (hx : x.Inside c.code.size code.size) :
    code.size ≤ x.frame.code.size := by
  obtain ⟨later, earlier, hbatch⟩ := List.append_of_mem hm
  obtain ⟨-, -, -, hissued, -, hlt⟩ := hp.executed_program hh hl hx.program
  have hstart := hx.start
  refine (hp.compiled_between hh hbatch hc x.frame.code ?_).resolve_left (by omega)
  rw [hl]
  exact mem_issued_behind hissued

/-- **A batch is compiled before** it is executed. -/
theorem Past.compiled_before (hh : host.Honest) (hp : h.Past host Engine.IsUpToDate)
    (hm : .compiled c fs program ∈ h.log) (hc : (c.compile fs program).1 = .ok code)
    (hl : h.log = latest ++ .executed x :: earliest) (hx : x.Inside c.code.size code.size) :
    Ends (issued earliest) c.code.size ∧ Ends (issued earliest) code.size := by
  obtain ⟨later, earlier, hbatch⟩ := List.append_of_mem hm
  obtain ⟨hbefore, hends, -⟩ := hp.compiled_after hh hbatch hc
  obtain ⟨-, -, -, hissued, -, hlt⟩ := hp.executed_program hh hl hx.program
  obtain ⟨more, rfl⟩ : ∃ more, earliest = more ++ .compiled c fs program :: earlier := by
    refine (log_order (hbatch.symm.trans hl) (by simp)).resolve_left ?_
    rintro ⟨newer, rfl⟩
    -- otherwise the code of the instruction would end before the batch
    have hle := hbefore x.frame.code (mem_issued_behind hissued)
    have hstart := hx.start
    omega
  exact ⟨hends.mono fun old hold => mem_issued_behind hold,
    .inr ⟨code, mem_issued_compiled hc _ _, rfl⟩⟩

/-- **No run begins** between two instructions of a batch: it would start behind the second one. -/
theorem Past.none_began (hh : host.Honest) (hp : h.Past host Engine.IsUpToDate)
    (hm : .compiled c fs program ∈ h.log) (hc : (c.compile fs program).1 = .ok code)
    (hl : h.log = latest ++ .executed y :: (between ++ .executed x :: earliest))
    (hx : x.Inside c.code.size code.size) (hy : y.Inside c.code.size code.size) :
    ∀ code', .began code' ∉ between := by
  intro code' hbegan
  have hlx : h.log = (latest ++ .executed y :: between) ++ .executed x :: earliest := by
    rw [hl, List.append_assoc, List.cons_append]
  obtain ⟨oldsx, hrunsx, -, -⟩ := hp.executed_fresh hh hlx hx.program
  obtain ⟨olds, hruns, -, hshort⟩ := hp.executed_fresh hh hl hy.program
  have hearliest : runs (.executed x :: earliest) = x.frame.code :: oldsx := hrunsx
  rw [runs_append, hearliest] at hruns
  have hrun : code' ∈ runs between := List.mem_filterMap.mpr ⟨_, hbegan, rfl⟩
  -- what `x` ran is the code of an older run, as another one began since then
  have hold : x.frame.code ∈ olds := by
    obtain ⟨first, rest, hfirst⟩ := List.exists_cons_of_ne_nil (List.ne_nil_of_mem hrun)
    rw [hfirst] at hruns
    obtain ⟨-, rfl⟩ := List.cons.inj hruns
    exact List.mem_append_right _ List.mem_cons_self
  have hle := hp.size_le_of_inside hh hm hc hlx hx
  have hbehind := hshort _ hold
  have hstop := hy.stop
  omega

/-- **Nothing else of the program** is executed between two instructions of a batch: control leads
back neither across the seam in front of the batch nor across that behind it. -/
theorem Past.stays_inside (hh : host.Honest) (hp : h.Past host Engine.IsUpToDate)
    (hm : .compiled c fs program ∈ h.log) (hc : (c.compile fs program).1 = .ok code)
    (hl : h.log = latest ++ .executed y :: (between ++ .executed x :: earliest))
    (hx : x.Inside c.code.size code.size) (hy : y.Inside c.code.size code.size) :
    ∀ z, .executed z ∈ between → z.InProgram → z.Inside c.code.size code.size := by
  intro z hz hprogram
  have hlx : h.log = (latest ++ .executed y :: between) ++ .executed x :: earliest := by
    rw [hl, List.append_assoc, List.cons_append]
  obtain ⟨hstart, hstop⟩ := hp.compiled_before hh hm hc hlx hx
  obtain ⟨b₁, b₂, rfl⟩ := List.append_of_mem hz
  refine ⟨hprogram, ?_, Nat.lt_of_not_le fun hle => ?_⟩
  · have hlz : h.log = (latest ++ .executed y :: b₁) ++ .executed z ::
        (b₂ ++ .executed x :: earliest) := by
      rw [hl]
      simp only [List.append_assoc, List.cons_append]
    exact hp.seam_passed hh hlz hx.program hprogram hstart hx.start
  · have hlz : h.log = latest ++ .executed y :: (b₁ ++ .executed z ::
        (b₂ ++ .executed x :: earliest)) := by
      rw [hl]
      simp only [List.append_assoc, List.cons_append]
    have hends : Ends (issued (b₂ ++ .executed x :: earliest)) code.size :=
      hstop.mono fun old hold => mem_issued_behind hold
    have hbehind := hp.seam_passed hh hlz hprogram hy.program hends hle
    have hlt := hy.stop
    omega

end

/-- **The code that was given out last** is up to date: a run leaves the position at the end of some
code, and codes only get longer. -/
theorem Past.isUpToDate_newest (hh : host.Honest) (hp : h.Past host allowed)
    {e : Engine} {code : Code} (hscene : h.scene = .rest e)
    (hnewest : (issued h.log).head? = some code) : e.IsUpToDate code := by
  have hends := (hp.places hh).position
  rw [hscene] at hends
  obtain ⟨olds, hissued⟩ := List.head?_eq_some_iff.mp hnewest
  obtain ⟨later, d, earlier, hl, -, hd, holds⟩ := List.filterMap_eq_cons_iff.mp hissued
  obtain ⟨c, fs, program, rfl, hc⟩ := Deed.code?_eq_some.mp hd
  obtain ⟨hbefore, -, hle⟩ := hp.compiled_after hh hl hc
  show e.system.machine.position ≤ code.size
  rcases hends with hzero | ⟨old, hold, hsize⟩
  · exact Nat.le_trans (Nat.le_of_eq hzero) (Nat.zero_le _)
  · refine Nat.le_trans (Nat.le_of_eq hsize) ?_
    rw [hissued] at hold
    rcases List.mem_cons.mp hold with rfl | hold
    · exact Nat.le_refl _
    · exact Nat.le_trans (hbefore old (by rwa [← holds] at hold)) hle

/-- **No batch is replayed** by an engine whose host runs no code that is shorter than what was run.
The code that was given out last never is, so no evaluation ever replays a batch. -/
theorem Past.runs_once (hh : host.Honest) (hp : h.Past host Engine.IsUpToDate) :
    RunsOnce h.log ∧ ∀ e code, h.scene = .rest e → (issued h.log).head? = some code →
      e.IsUpToDate code := by
  refine ⟨⟨fun hl hx => hp.executed_fresh hh hl hx, ?_⟩, ?_⟩
  · intro c fs program code hm hc latest between earliest x y hl hx hy
    exact ⟨hp.none_began hh hm hc hl hx hy, hp.stays_inside hh hm hc hl hx hy⟩
  · intro e code hscene hnewest
    exact hp.isUpToDate_newest hh hscene hnewest

end

/-! ### Two batches

A script of two batches, each of which is a single literal. They are evaluated one after the other,
and then the code of the first batch is run once more. -/

namespace Twice

def host : Host := ⟨fun _ _ _ => .value .nil⟩

theorem honest : host.Honest := by
  intro D w _ _ _ _ _
  exact D.data rfl

/-- A batch of one literal. -/
def batch (b : Bool) : Program :=
  [.expr (.bool b)]

/-- The code of the first batch. -/
def first : Code := ({} : Code).emit .pushTrue []

/-- The code of both batches. -/
def both : Code := first.emit .pushFalse []

/-- The engine after a batch was compiled and run. -/
def after (e : Engine) (b : Bool) (code : Code) : Engine :=
  (((e.compile (batch b)).2.run host 1 code).map Prod.snd).getD e

def once : Engine := after {} true first

def twice : Engine := after once false both

/-- **Both batches are evaluated.** -/
theorem past {allowed : Engine → Code → Prop} (ha : ∀ e code, e.IsUpToDate code → allowed e code) :
    ∃ latest between, Past host allowed ⟨.rest twice, latest ++ .began both ::
      .compiled once.compiler once.system.world.heap.functions (batch false) ::
        (between ++ [.began first, .compiled {} #[] (batch true)])⟩ := by
  have fresh : Past host allowed ⟨.rest {}, []⟩ :=
    ⟨_, @Fresh.build .standard {} {} [] .background {} rfl rfl, .refl⟩
  have hfirst : ({} : Engine).compile (batch true) = (.ok first, _) := rfl
  have hsecond : once.compile (batch false) = (.ok both, _) := rfl
  have runsFirst : (({} : Engine).compile (batch true)).2.run host 1 first =
      some (.ok (.bool true), once) := rfl
  have runsSecond : (once.compile (batch false)).2.run host 1 both =
      some (.ok (.bool false), twice) := rfl
  obtain ⟨between, hp⟩ := (fresh.step (.compile _ _ (batch true))).of_run
    (mem_issued_of_compile (congrArg Prod.fst hfirst) _) (ha _ _ (Nat.zero_le 1)) runsFirst
  obtain ⟨latest, hp⟩ := (hp.step (.compile _ _ (batch false))).of_run
    (mem_issued_of_compile (congrArg Prod.fst hsecond) _) (ha _ _ (Nat.le_succ 1)) runsSecond
  exact ⟨latest, between, hp⟩

/-- The moment at which the first code is run again, and its first instruction. -/
def again : Moment :=
  twice.system.begin (.forProgram twice.system.machine twice.ctx first)
    (twice.system.world.ensureGlobals first.globalCount)

def execution : Execution where
  thread := none
  machine := again.party.fiber.machine
  frame := { code := first }
  instruction := ⟨0, .pushTrue, []⟩

theorem deeds_again : again.party.deeds host again.world = [.executed execution] := rfl

end Twice

/-- No batch is replayed while two batches are evaluated. -/
theorem twice_runs_once : ∃ log, Past Twice.host Engine.IsUpToDate ⟨.rest Twice.twice, log⟩ ∧
    Twice.both ∈ runs log ∧ Twice.first ∈ runs log ∧ RunsOnce log := by
  obtain ⟨latest, between, hp⟩ := Twice.past fun _ _ h => h
  refine ⟨_, hp, List.mem_filterMap.mpr ⟨.began Twice.both, ?_, rfl⟩,
    List.mem_filterMap.mpr ⟨.began Twice.first, ?_, rfl⟩, (hp.runs_once Twice.honest).1⟩
  · exact List.mem_append_right _ List.mem_cons_self
  · exact List.mem_append_right _ (List.mem_cons_of_mem _ (List.mem_cons_of_mem _
      (List.mem_append_right _ List.mem_cons_self)))

/-- **An older code is replayed**: the first instruction of the first batch is executed once more,
though its code and a longer one were run before. -/
theorem older_code_replayed :
    ∃ h : History, h.Past Twice.host (fun _ _ => True) ∧ ¬ RunsOnce h.log := by
  obtain ⟨latest, between, hp⟩ := Twice.past fun _ _ _ => trivial
  have hissued : Twice.first ∈ issued (latest ++ .began Twice.both ::
      .compiled Twice.once.compiler Twice.once.system.world.heap.functions (Twice.batch false) ::
        (between ++ [.began Twice.first, .compiled {} #[] (Twice.batch true)])) := by
    rw [issued_append, issued_cons, issued_cons, issued_append]
    exact List.mem_append_right _ (List.mem_append_right _ (List.mem_append_right _
      (List.mem_append_right _ List.mem_cons_self)))
  have hagain := (hp.step (.run hissued trivial)).step (.perform (.own Twice.again))
  rw [Twice.deeds_again] at hagain
  refine ⟨_, hagain, fun honce => ?_⟩
  obtain ⟨olds, hruns, -, hshort⟩ := honce.fresh (List.nil_append _).symm rfl
  obtain ⟨-, rfl⟩ := List.cons.inj hruns
  refine absurd (hshort Twice.both ?_) (Nat.not_succ_le_zero 1)
  exact List.mem_filterMap.mpr ⟨.began Twice.both, List.mem_append_right _ List.mem_cons_self, rfl⟩

end History

end ScriptEngine
