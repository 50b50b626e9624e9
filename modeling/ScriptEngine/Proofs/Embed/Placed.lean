import ScriptEngine.Proofs.Embed.Compiled

/-!
# Where frames are

Every frame, of whichever machine, is one of a code that was given out or of a function that was
compiled, and it goes on at the start of one of its instructions. So all that is ever executed is an
instruction of such a code.

## Main definitions

* `ScriptEngine.Frame.Placed`: a frame between two instructions of a code that is known;
* `ScriptEngine.History.Places`: all frames are placed.

## Main results

* `ScriptEngine.Frame.Step.mem`: where the frames after a step come from;
* `ScriptEngine.Frame.Placed.instruction`: the instruction that is executed in a frame;
* `ScriptEngine.History.Past.places`: all frames of all histories are placed;
* `ScriptEngine.History.Past.executed_placed`: so is the frame in which an instruction is executed.
-/

namespace ScriptEngine

/-! ### Frames -/

/-- **Where the frames after a step come from.** -/
theorem Frame.Step.mem {functions : Ref .function → Function} {x : Option Execution}
    {gs gs' : List Frame} (h : Frame.Step functions x gs gs') {g : Frame} (hg : g ∈ gs') :
    g ∈ gs ∨ (∃ e, x = some e ∧ e.frame ∈ gs ∧ e.frame.Moves e.instruction g) ∨
      ∃ r, g.function = some (functions r) ∧ g.code = (functions r).code ∧ g.ip = 0 := by
  cases h with
  | leave n => exact .inl (List.mem_of_mem_drop hg)
  | move hx hf hm =>
    rcases List.mem_cons.mp hg with rfl | hg
    · subst hf
      exact .inr (.inl ⟨_, hx, List.mem_cons_self, hm⟩)
    · exact .inl (List.mem_cons_of_mem _ hg)
  | enter r hf hc hi =>
    rcases List.mem_cons.mp hg with rfl | hg
    · exact .inr (.inr ⟨r, hf, hc, hi⟩)
    · exact .inl hg

/-- A function of a heap is one that was compiled, or the one without code. -/
theorem Heap.function_mem (h : Heap) (r : Ref .function) :
    h.function r ∈ h.functions ∨ h.function r = default := by
  unfold Heap.function
  rw [Array.getD_eq_getD_getElem?]
  cases hf : h.functions[r.index]? with
  | none => exact .inr rfl
  | some f => exact .inl (Array.mem_of_getElem? hf)

/-- **A frame between two instructions** of a code that was given out, or of a function that was
compiled. -/
structure Frame.Placed (fs : Array Function) (codes : List Code) (g : Frame) : Prop where
  program : g.function = none → g.code ∈ codes
  function : ∀ f, g.function = some f → g.code = f.code ∧ (f ∈ fs ∨ f = default)
  boundary : g.code.Boundary g.ip

namespace Frame.Placed

variable {fs fs' : Array Function} {codes codes' : List Code} {g g' : Frame} {c : Compiler}
  {E : Environment} {i : Instruction}

theorem mono (h : g.Placed fs codes) (hf : ∀ f ∈ fs, f ∈ fs') (hc : ∀ code ∈ codes, code ∈ codes') :
    g.Placed fs' codes' where
  program hg := hc _ (h.program hg)
  function f hg := ⟨(h.function f hg).1, (h.function f hg).2.imp_left (hf f)⟩
  boundary := h.boundary

/-- The code of a frame that has not come to its end is sound. -/
theorem sound (h : g.Placed E.functions codes) (hj : c.Joined E codes) (hlt : g.ip < g.code.size) :
    ∃ own, g.code.Sound E own := by
  cases hf : g.function with
  | none => exact ⟨none, hj.issued _ (h.program hf)⟩
  | some f =>
    obtain ⟨hcode, hmem | rfl⟩ := h.function f hf
    · obtain ⟨k, hk⟩ := Array.getElem?_of_mem hmem
      exact ⟨_, hcode ▸ (hj.sound.functions k f hk).code⟩
    · rw [hcode] at hlt
      exact absurd hlt (Nat.not_lt_zero _)

/-- **The instruction that is executed in a frame** is a legal one of its code. -/
theorem instruction (h : g.Placed E.functions codes) (hj : c.Joined E codes)
    (hlt : g.ip < g.code.size) (hi : g.code.fetch g.ip = .ok i) :
    i.offset = g.ip ∧ g.code.Has i ∧ g.code.Boundary i.stop ∧
      ∀ target, i.target? = some target → g.code.Boundary target := by
  obtain ⟨own, hs⟩ := h.sound hj hlt
  obtain ⟨j, hj, ho, has, hlegal, hstop⟩ := hs.instruction h.boundary hlt
  rw [hi] at hj
  cases hj
  exact ⟨ho, has, hstop, fun target ht => (hlegal.target ht).1⟩

/-- A frame that has moved is placed. -/
theorem moves (h : g.Placed E.functions codes) (hj : c.Joined E codes) (hlt : g.ip < g.code.size)
    (hi : g.code.fetch g.ip = .ok i) (hm : g.Moves i g') : g'.Placed E.functions codes := by
  obtain ⟨-, -, hstop, htarget⟩ := h.instruction hj hlt hi
  rw [hm.same]
  refine ⟨h.program, h.function, ?_⟩
  rcases hm.ip with hs | ⟨ht, -⟩
  · exact hs ▸ hstop
  · exact htarget _ ht

end Frame.Placed

/-- A worker that was started is on no frame yet. -/
theorem Fiber.frames_started {host : Host} {w : World} {f : Fiber} {p : Party}
    (hp : p ∈ (f.step host w).1.started) {g : Frame} : g ∉ p.fiber.machine.frames.items := by
  rw [(f.started_step host w p hp).1]
  exact List.not_mem_nil

/-- **What is executed** is an instruction of the code of a placed frame. -/
theorem Fiber.placed_execution {thread : Option (Ref .thread)} {w : World} {f : Fiber}
    {fs : Array Function} {codes : List Code} {c : Compiler} {E : Environment}
    (hE : E.functions = fs) (hj : c.Joined E codes)
    (h : ∀ g ∈ f.machine.frames.items, g.Placed fs codes) {x : Execution}
    (hx : f.execution? thread w = some x) :
    x.frame.Placed fs codes ∧ x.instruction.offset = x.frame.ip ∧
      x.frame.ip < x.frame.code.size ∧ x.frame.code.Has x.instruction := by
  obtain ⟨hhead, hlt, hfetch⟩ := fetch_of_execution? hx
  have hplaced := h _ (List.mem_of_mem_head? hhead)
  subst hE
  obtain ⟨hoffset, hhas, -, -⟩ := hplaced.instruction hj hlt hfetch
  exact ⟨hplaced, hoffset, hlt, hhas⟩

/-- **A step of a fiber** leaves frames where there are instructions of known codes. -/
theorem Fiber.placed_step {host : Host} {w : World} {f : Fiber} {codes : List Code} {c : Compiler}
    {E : Environment} (hE : E.functions = w.heap.functions)
    (hj : c.Joined E codes)
    (h : ∀ g ∈ f.machine.frames.items, g.Placed w.heap.functions codes) :
    ∀ g ∈ (f.step host w).2.1.machine.frames.items, g.Placed w.heap.functions codes := by
  intro g hg
  rcases (f.frames_step host none w).mem hg with hg | ⟨e, he, hm, hmoves⟩ | ⟨r, hf, hc, hi⟩
  · exact h g hg
  · obtain ⟨-, hlt, hi⟩ := fetch_of_execution? he
    have hplaced := h _ hm
    rw [← hE] at hplaced ⊢
    exact hplaced.moves hj hlt hi hmoves
  · refine ⟨fun hn => ?_, fun f' hf' => ?_, hi ▸ .refl 0⟩
    · rw [hn] at hf
      cases hf
    · rw [hf] at hf'
      cases hf'
      exact ⟨hc, w.heap.function_mem r⟩

/-- **The position of a machine** stays as it is, until the run of a program ends. -/
theorem Fiber.position_step (host : Host) (w : World) (f : Fiber) :
    (f.step host w).2.1.machine.position = f.machine.position ∨
      f.goal = .program (f.step host w).2.1.machine.position := by
  by_cases hd : f.pending = [] → ∀ o, f.control = .deliver o → ∃ c, f.goal = .call c
  · exact .inl (f.same_step host w hd).position
  · obtain ⟨m, ctx, control, pending, goal⟩ := f
    cases control with
    | deliver o =>
      simp only [Fiber.step, Fiber.deliver]
      split
      · split <;> exact .inl rfl
      · exact .inl rfl
      · exact .inl rfl
      · split
        · exact .inr rfl
        · exact .inl rfl
    | _ => exact absurd (fun _ _ h => by cases h) hd

namespace History

variable {host : Host} {allowed : Engine → Code → Prop} {h h' : History}

/-- The offset where one of the codes ends, or the start. -/
def Ends (codes : List Code) (n : Nat) : Prop :=
  n = 0 ∨ ∃ code ∈ codes, n = code.size

theorem Ends.mono {codes codes' : List Code} {n : Nat} (h : Ends codes n)
    (hc : ∀ code ∈ codes, code ∈ codes') : Ends codes' n :=
  h.imp id fun ⟨code, hm, hs⟩ => ⟨code, hc code hm, hs⟩

/-- **All frames are placed**, and the next run starts where a code ends. -/
structure Places (h : History) : Prop where
  machine : ∀ g ∈ h.scene.machine.frames.items,
    g.Placed h.scene.world.heap.functions (issued h.log)
  parties : ∀ p ∈ h.scene.parties, ∀ g ∈ p.fiber.machine.frames.items,
    g.Placed h.scene.world.heap.functions (issued h.log)
  position : Ends (issued h.log) h.scene.machine.position
  goal : ∀ e m n, h.scene = .work e m → m.party.fiber.goal = .program n → Ends (issued h.log) n

namespace Places

/-- An engine that was just built. -/
theorem fresh (hf : h.Fresh) : h.Places := by
  cases hf with
  | @build config heap controls builtins ctx e hfs he =>
    obtain ⟨c, -, rfl⟩ := Engine.withBuiltins_eq_ok he
    exact ⟨fun g hg => absurd hg List.not_mem_nil, fun p hp => absurd hp List.not_mem_nil,
      .inl rfl, fun _ _ _ h => by cases h⟩

/-- **The host did something** with an engine at rest. What was compiled is still there. -/
theorem rest {e : Engine} {log : List Deed} (hp : Places ⟨.rest e, log⟩) {e' : Engine}
    {log' : List Deed} (hm : e'.system.machine.frames = e.system.machine.frames)
    (hpos : e'.system.machine.position = e.system.machine.position)
    (hw : e'.system.workers = e.system.workers)
    (hf : ∀ f ∈ e.system.world.heap.functions, f ∈ e'.system.world.heap.functions)
    (hl : ∀ code ∈ issued log, code ∈ issued log') : Places ⟨.rest e', log'⟩ where
  machine g hg := by
    have hg : g ∈ e'.system.machine.frames.items := hg
    rw [hm] at hg
    exact (hp.machine g hg).mono hf hl
  parties p hparty g hg := by
    have hparty : p ∈ e'.system.workers.map Worker.party := hparty
    rw [hw] at hparty
    exact (hp.parties p hparty g hg).mono hf hl
  position := by
    show Ends _ e'.system.machine.position
    rw [hpos]
    exact hp.position.mono hl
  goal _ _ _ h := by cases h

/-- A run or a call begins. -/
theorem begin {e : Engine} {log log' : List Deed} (hp : Places ⟨.rest e, log⟩) {f : Fiber}
    {world : World} (hf : ∀ g ∈ f.machine.frames.items,
      g.Placed e.system.world.heap.functions (issued log))
    (hpos : f.machine.position = e.system.machine.position)
    (hg : ∀ n, f.goal = .program n → Ends (issued log) n)
    (hw : world.heap.functions = e.system.world.heap.functions) (hl : issued log' = issued log) :
    Places ⟨.work e (e.system.begin f world), log'⟩ := by
  have frames : ∀ g ∈ f.machine.frames.items, g.Placed world.heap.functions (issued log') := by
    rw [hw, hl]
    exact hf
  refine ⟨frames, fun p hparty => ?_, ?_, ?_⟩
  · rcases List.mem_cons.mp hparty with rfl | hparty
    · exact frames
    · show ∀ g : Frame, g ∈ _ → g.Placed world.heap.functions (issued log')
      rw [hw, hl]
      exact hp.parties p hparty
  · show Ends (issued log') f.machine.position
    rw [hpos, hl]
    exact hp.position
  · rintro _ _ n ⟨⟩ hgoal
    rw [hl]
    exact hg n hgoal

/-- **A party does something.** -/
theorem perform (hh : host.Honest) {e : Engine} {log deeds : List Deed} {m m' : Moment}
    (hpast : Past host allowed ⟨.work e m, log⟩) (hp : Places ⟨.work e m, log⟩)
    (hm : m.Performs host deeds m') : Places ⟨.work e m', deeds ++ log⟩ := by
  obtain ⟨E, hE, hj⟩ := hpast.joined hh
  have hgoal : m'.party.fiber.goal = m.party.fiber.goal := by
    rcases hm.party with rfl | heq
    · exact (m.party.fiber.goal_step host m.world).1
    · rw [heq]
  have hposition : m'.party.fiber.machine.position = m.party.fiber.machine.position ∨
      m.party.fiber.goal = .program m'.party.fiber.machine.position := by
    rcases hm.party with rfl | heq
    · exact m.party.fiber.position_step host m.world
    · rw [heq]
      exact .inl rfl
  have hissued := hm.issued log
  have hparties : ∀ p ∈ m'.parties, ∀ g ∈ p.fiber.machine.frames.items,
      g.Placed m'.world.heap.functions (issued (deeds ++ log)) := by
    rw [hissued]
    rcases hm.cases with ⟨q, hq, rfl, hworld, hparties⟩ | ⟨rfl, hparties, -, hfunctions⟩
    · obtain ⟨hfunctions, -, -⟩ := ((hpast.compiles hh).parties q hq).step hh m.world
      rw [hworld, hfunctions]
      intro p hmem
      rcases hparties p hmem with rfl | hmem | hmem
      · exact q.fiber.placed_step hE hj (hp.parties q hq)
      · exact fun g hg => absurd hg (Fiber.frames_started hmem)
      · exact hp.parties p hmem
    · rw [hfunctions]
      exact fun p hmem => hp.parties p (hparties p hmem)
  refine ⟨hparties _ List.mem_cons_self, hparties, ?_, ?_⟩
  · rw [hissued]
    rcases hposition with heq | hg
    · show Ends _ m'.party.fiber.machine.position
      rw [heq]
      exact hp.position
    · exact hp.goal e m _ rfl hg
  · rintro _ _ n ⟨⟩ hg
    rw [hissued]
    exact hp.goal e m n rfl (hgoal ▸ hg)

/-- The work ends. -/
theorem finish {e : Engine} {log : List Deed} {m : Moment} {o : Outcome} {s : System}
    (hp : Places ⟨.work e m, log⟩) (he : m.Ends o s) :
    Places ⟨.rest { e with system := s }, log⟩ where
  machine := by
    show ∀ g ∈ s.machine.frames.items, g.Placed s.world.heap.functions (issued log)
    rw [he.machine, he.world]
    exact hp.machine
  parties p hparty := by
    have hparty : p ∈ s.workers.map Worker.party := hparty
    rw [he.workers] at hparty
    show ∀ g : Frame, g ∈ _ → g.Placed s.world.heap.functions (issued log)
    rw [he.world]
    exact hp.parties p (List.mem_cons_of_mem _ hparty)
  position := by
    show Ends (issued log) s.machine.position
    rw [he.machine]
    exact hp.position
  goal _ _ _ h := by cases h

end Places

/-- Where one of the codes ends there is a boundary in all that are no shorter. -/
theorem Ends.boundary {c : Compiler} {E : Environment} {codes : List Code} (hj : c.Joined E codes)
    {code : Code} (hc : code ∈ codes) {n : Nat} (h : Ends codes n) (hle : n ≤ code.size) :
    code.Boundary n := by
  rcases h with rfl | ⟨old, hold, rfl⟩
  · exact .refl 0
  · exact (hj.seams old hold code hc hle).boundary

/-- **In all histories** all frames are placed. -/
theorem Past.places (hh : host.Honest) (hp : h.Past host allowed) : h.Places := by
  refine hp.induction (fun h hf => .fresh hf) fun h h' hpast hp hs => ?_
  cases hs with
  | compile e log program =>
    refine hp.rest rfl (by rfl) (by rfl) ?_ fun code hc => ?_
    · obtain ⟨E, hE, hj⟩ := hpast.joined hh
      obtain ⟨E', hE', -, hl⟩ := hj.sound.compile program
      rw [hE] at hE'
      have kept := hl.le.functions.subset
      rw [hE, hE'] at kept
      exact fun f hf => Array.mem_toList_iff.mp (kept (Array.mem_toList_iff.mpr hf))
    · rw [issued_cons]
      exact List.mem_append_right _ hc
  | set he | setRefused he =>
    obtain ⟨hm, hw⟩ := Engine.stays_set he
    exact hp.rest (congrArg Machine.frames hm) (congrArg Machine.position hm) hw
      (fun f hf => Engine.functions_set he ▸ hf) fun _ hc => hc
  | register he | registerRefused he =>
    obtain ⟨hframes, hposition, hw⟩ := Engine.stays_register he
    exact hp.rest hframes hposition hw (fun f hf => Engine.functions_register he ▸ hf)
      fun _ hc => hc
  | context e log ctx => exact hp.rest rfl (by rfl) (by rfl) (fun f hf => hf) fun _ hc => hc
  | @run e log code hcode ha =>
    obtain ⟨E, hE, hj⟩ := hpast.joined hh
    refine hp.begin (fun g hg => ?_) rfl (fun n hn => ?_) rfl rfl
    · obtain rfl := List.mem_singleton.mp hg
      refine ⟨fun _ => hcode, fun f hf => (by cases hf), ?_⟩
      show code.Boundary (e.system.machine.start code)
      unfold Machine.start
      split
      · exact .refl 0
      · rename_i hle
        exact hp.position.boundary hj hcode (Nat.le_of_not_lt hle)
    · cases hn
      exact .inr ⟨code, hcode, rfl⟩
  | @call e log name callee hg args =>
    exact hp.begin hp.machine rfl (fun n hn => by cases hn) rfl rfl
  | wait e log =>
    refine hp.begin hp.machine rfl (fun n hn => ?_) rfl rfl
    cases hn
    exact .inl rfl
  | perform hm => exact hp.perform hh hpast hm
  | finish he => exact hp.finish he

/-- **What was executed** is an instruction of a code that was given out, or of a function that was
compiled. -/
theorem Past.executed_placed (hh : host.Honest) (hp : h.Past host allowed)
    {later earlier : List Deed} {x : Execution} (hl : h.log = later ++ .executed x :: earlier) :
    ∃ (e : Engine) (m : Moment), Past host allowed ⟨.work e m, earlier⟩ ∧
      x.frame.Placed m.world.heap.functions (issued earlier) ∧
      x.instruction.offset = x.frame.ip ∧ x.frame.ip < x.frame.code.size ∧
      x.frame.code.Has x.instruction := by
  obtain ⟨e, m, hp', q, hq, hx⟩ := hp.follows hl
  obtain ⟨E, hE, hj⟩ := hp'.joined hh
  exact ⟨e, m, hp', q.fiber.placed_execution hE hj ((hp'.places hh).parties q hq) hx⟩

end History

end ScriptEngine
