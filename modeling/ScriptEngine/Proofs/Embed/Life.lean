import ScriptEngine.Proofs.Compiler.Typed
import ScriptEngine.Proofs.Machine.Calls

/-!
# The life of a system

A host compiles batches, runs the codes that it was given and calls the values that it was handed,
in any order; it reads and sets globals, works on the heap with values that it knows, and controls
the context. A system that is treated so executes nothing but the code of its compiler, however the
fibers take turns.

## Main definitions

* `ScriptEngine.Life`: the systems that a host can come to, with their compilers;
* `ScriptEngine.Alive`: the moments of their runs and calls;
* `ScriptEngine.System.Sound`: a system that rests in a sound world.

## Main results

* `ScriptEngine.Life.sound`: every such system is sound;
* `ScriptEngine.Alive.sound`: at every moment, all fibers are;
* `ScriptEngine.Life.of_run`, `ScriptEngine.Life.of_call`: the runs and the calls of systems belong
  to their lives.
-/

namespace ScriptEngine

/-! ### What a host can do -/

/-- A value that carries no code, or one that the host was handed. -/
def Value.IsKnown (known : List Value) (v : Value) : Prop :=
  v.isData = true ∨ v ∈ known

/-- A heap in which no code was ever stored: it obeys every discipline. -/
structure Heap.Bare (h : Heap) : Prop where
  functions : h.functions = #[]
  closures : h.closures = #[]
  sound : ∀ (D : Discipline) (w : D.Stage), D.stores w #[] #[] → h.Sound D w

/-- A step of a host on the heap that makes its result from data and from what it knows. -/
def HeapStep (known : List Value) (step : Heap → Value × Heap) : Prop :=
  ∀ (D : Discipline) (w : D.Stage) (h : Heap), D.values w known → h.Sound D w →
    D.Yields w (step h)

/-- The system whose heap has other functions. -/
def System.withFunctions (s : System) (fs : Array Function) : System :=
  (s.onHeap fun heap => ((), { heap with functions := fs })).2

/-- **The systems that a host can come to**, each with its compiler, the codes that the host was
given, and the values that it was handed. -/
inductive Life (host : Host) : Compiler → List Batch → List Value → System → Prop
  | start {c : Compiler} {config : Config} {registry : Registry} {heap : Heap} {controls : Controls}
    (hc : c.Built #[] []) (hr : c.table.builtins.size ≤ registry.size)
    (hv : ∀ e ∈ registry.entries, e.2.isData = true) (hh : heap.Bare) :
    Life host c [] [] { machine := { config, registry }, world := { heap, controls } }
  | compile {c : Compiler} {batches : List Batch} {known : List Value} {s : System}
    (h : Life host c batches known s) {program : Program} {answer : Except CompileError Code}
    {c' : Compiler} {fs : Array Function}
    (hr : c.compile s.world.heap.functions program = (answer, c', fs)) :
    Life host c' (Batch.ofAnswer program answer ++ batches) known (s.withFunctions fs)
  | declareGlobal {c : Compiler} {batches : List Batch} {known : List Value} {s : System}
    (h : Life host c batches known s) (name : String) :
    Life host (c.declareGlobal name).2 batches known s
  | run {c : Compiler} {batches : List Batch} {known : List Value} {s s' : System}
    (h : Life host c batches known s) {code : Code} (hc : code ∈ batches.map Batch.code)
    (ctx : Context) {m : Moment}
    (hm : (s.begin (.forProgram s.machine ctx code)
      (s.world.ensureGlobals code.globalCount)).Steps host m) {o : Outcome} (he : m.Ends o s') :
    Life host c batches (o.toOption.toList ++ known) s'
  | call {c : Compiler} {batches : List Batch} {known : List Value} {s s' : System}
    (h : Life host c batches known s) {callee : Value} {args : List Value}
    (hc : callee.IsKnown known) (ha : ∀ v ∈ args, v.IsKnown known) (ctx : Context) {m : Moment}
    (hm : (s.begin (.forCall s.machine ctx callee args) s.world).Steps host m) {o : Outcome}
    (he : m.Ends o s') : Life host c batches (o.toOption.toList ++ known) s'
  | global {c : Compiler} {batches : List Batch} {known : List Value} {s : System}
    (h : Life host c batches known s) {slot : Nat} {v : Value} (hv : s.global? slot = some v) :
    Life host c batches (v :: known) s
  | setGlobal {c : Compiler} {batches : List Batch} {known : List Value} {s : System}
    (h : Life host c batches known s) (slot : Nat) {v : Value} (hv : v.IsKnown known) :
    Life host c batches known (s.setGlobal slot v)
  | onHeap {c : Compiler} {batches : List Batch} {known : List Value} {s : System}
    (h : Life host c batches known s) {step : Heap → Value × Heap} (hs : HeapStep known step) :
    Life host c batches ((s.onHeap step).1 :: known) (s.onHeap step).2
  | onControls {c : Compiler} {batches : List Batch} {known : List Value} {s : System}
    (h : Life host c batches known s) (step : Controls → Unit × Controls) :
    Life host c batches known (s.onControls step).2

/-- **The moments of the runs and the calls** in the life of a system, whichever fiber is looked
at. -/
inductive Alive (host : Host) : Compiler → List Batch → Moment → Prop
  | run {c : Compiler} {batches : List Batch} {known : List Value} {s : System}
    (h : Life host c batches known s) {code : Code} (hc : code ∈ batches.map Batch.code)
    (ctx : Context) {m : Moment}
    (hm : (s.begin (.forProgram s.machine ctx code)
      (s.world.ensureGlobals code.globalCount)).Goes host m) : Alive host c batches m
  | call {c : Compiler} {batches : List Batch} {known : List Value} {s : System}
    (h : Life host c batches known s) {callee : Value} {args : List Value}
    (hc : callee.IsKnown known) (ha : ∀ v ∈ args, v.IsKnown known) (ctx : Context) {m : Moment}
    (hm : (s.begin (.forCall s.machine ctx callee args) s.world).Goes host m) :
    Alive host c batches m

/-! ### Sound systems -/

/-- **A system that rests in a sound world**, with the compiler of its code, the codes that were
given out and the values that the host was handed. The next run starts where a code ends. -/
structure System.Sound (T : Typing) (w : Stage) (c : Compiler) (codes : List Code)
    (known : List Value) (s : System) : Prop where
  compiler : c.Sound w.environment
  world : s.world.Sound T w
  registry : s.machine.registry.Sound T w
  rests : s.machine.status ≠ .running
  workers : ∀ p ∈ s.workers.map Worker.party, ∃ F : Floor, F.pending = [] ∧ p.fiber.Sound T F w
  issued : ∀ code ∈ codes, code.Sound w.environment none ∧ code.localCount = 0
  handed : (Typing.discipline T).values w known
  position : s.machine.position = 0 ∨ ∃ code ∈ codes, s.machine.position = code.size

variable {T : Typing} {w w' : Stage} {c : Compiler} {codes : List Code} {batches : List Batch}
  {known : List Value}
  {s s' : System} {host : Host} {m : Moment} {o : Outcome}

/-- What the host knows is a value that exists. -/
theorem Value.IsKnown.exists {v : Value} (h : v.IsKnown known)
    (hk : (Typing.discipline T).values w known) : v.Exists T w :=
  h.elim (Typing.discipline T).data (hk v)

/-- More functions were compiled, or more globals declared. -/
theorem World.Sound.later {world : World} (h : world.Sound T w) (hw : w.Le w')
    {fs : Array Function} (hs : Stage.Stores T w' fs world.heap.closures) :
    World.Sound T w' { world with heap := { world.heap with functions := fs } } :=
  ⟨h.heap.mono (D := Typing.discipline T) hw hs,
    fun v hv => (Typing.discipline T).mono hw (h.globals v hv)⟩

theorem World.Sound.ensureGlobals {world : World} (h : world.Sound T w) (count : Nat) :
    (world.ensureGlobals count).Sound T w := by
  refine ⟨h.heap, fun v hv => ?_⟩
  rcases Array.mem_append.mp hv with hv | hv
  · exact h.globals v hv
  · obtain ⟨-, rfl⟩ := Array.mem_replicate.mp hv
    trivial

theorem World.Sound.setGlobal {world : World} (h : world.Sound T w) (slot : Nat) {v : Value}
    (hv : v.Exists T w) : (world.setGlobal slot v).Sound T w :=
  ⟨h.heap, forall_mem_setIfInBounds (h.ensureGlobals (slot + 1)).globals hv slot⟩

namespace System.Sound

/-- **A run begins** with sound fibers. -/
theorem beginRun (h : s.Sound T w c codes known) (hT : T.Covers w.environment.functions codes)
    (ht : c.Typed w.environment.functions codes) {code : Code} (hc : code ∈ codes) (ctx : Context) :
    Moment.Sound T {} w (s.begin (.forProgram s.machine ctx code)
      (s.world.ensureGlobals code.globalCount)) := by
  refine ⟨h.world.ensureGlobals _, .inl ⟨h.registry, rfl, ?_⟩, h.workers⟩
  obtain ⟨hsound, hlocals⟩ := h.issued code hc
  have hheld := hT.programs code hc
  have whole {c' : Code} (hc' : c' ∈ codes) (hle : c'.size ≤ code.size) :
      code.Boundary c'.size := by
    have hb := ((ht.codes c' hc').1.of_le (ht.codes code hc).1 hle)
    exact ((h.issued c' hc').1.walk.forget).of_words hb.words
  -- the run starts where a code ends that was given out before, or at the start
  have start : s.machine.start code = 0 ∨ s.machine.start code = code.size ∨
      ∃ c' ∈ codes, s.machine.start code = c'.size ∧ c'.size < code.size := by
    unfold Machine.start
    split
    · exact .inl rfl
    · rename_i hle
      rcases h.position with hp | ⟨c', hc', hp⟩
      · exact .inl hp
      · rcases Nat.lt_or_eq_of_le (Nat.le_of_not_lt hle) with hlt | heq
        · exact .inr (.inr ⟨c', hc', hp, hp ▸ hlt⟩)
        · exact .inr (.inl heq)
  have boundary : code.Boundary (s.machine.start code) ∧ s.machine.start code ≤ code.size := by
    rcases start with hs | hs | ⟨c', hc', hs, hlt⟩
    · exact hs ▸ ⟨.refl 0, Nat.zero_le _⟩
    · rw [hs]
      exact ⟨hsound.walk.forget, Nat.le_refl _⟩
    · exact hs ▸ ⟨whole hc' (Nat.le_of_lt hlt), Nat.le_of_lt hlt⟩
  refine ⟨{ code, ip := s.machine.start code }, [], [], rfl, ⟨hsound, hheld, ?_, ?_, fun _ => rfl⟩,
    ⟨boundary.1, ?_⟩, ?_, rfl, .floor⟩
  · exact Nat.le_of_eq hlocals
  · exact fun v hv => absurd hv (Array.not_mem_empty v)
  · exact (Nat.lt_or_eq_of_le boundary.2).imp id fun he => ⟨rfl, he⟩
  · have hitems : (s.machine.enterProgram code).stack.toList = [] := by
      show (s.machine.stack.contents.truncate 0).items = []
      rw [Stack.items_truncate, s.machine.stack.contents.size_eq]
      exact List.drop_eq_nil_of_le (Nat.le_refl _)
    show Segment T w (T.shape code (s.machine.start code)) []
      (s.machine.enterProgram code).stack.toList ∨ _ ∧
        (s.machine.enterProgram code).stack.toList = []
    rw [hitems]
    rcases start with hs | hs | ⟨c', hc', hs, hlt⟩
    · exact .inl (by rw [hs, hheld.start]; exact .empty [])
    · exact .inr ⟨hs, rfl⟩
    · exact .inl (by rw [hs, hT.seams code hc c' hc' hlt]; exact .empty [])

/-- **A call begins** with sound fibers, on the stacks of a machine that rests. -/
theorem beginCall (h : s.Sound T w c codes known) {callee : Value} {args : List Value}
    (hc : callee.IsKnown known) (ha : ∀ v ∈ args, v.IsKnown known) (ctx : Context) :
    Moment.Sound T ⟨[], s.machine.frames.items, s.machine.stack.toList⟩ w
      (s.begin (.forCall s.machine ctx callee args) s.world) :=
  ⟨h.world, .inl ⟨h.registry, rfl, hc.exists h.handed,
    fun v hv => (ha v hv).exists h.handed, .floor⟩, h.workers⟩

/-- **A system at rest after a run or a call.** -/
theorem of_ends (h : s.Sound T w c codes known) (hw : w.Grows w') {F : Floor}
    (hm : m.Sound T F w') (he : m.Ends o s')
    (hp : s'.machine.position = 0 ∨ ∃ code ∈ codes, s'.machine.position = code.size)
    (hg : ∀ c, m.party.fiber.goal = .call c → c.nested = false) :
    s'.Sound T w' c codes (o.toOption.toList ++ known) := by
  obtain ⟨-, g, hgw, hr, hf⟩ := hm.fiber.ended he.outcome
  have hmachine := he.machine
  have hgoal : m.party.fiber.goal = g.goal := by
    rw [hf]
    obtain ⟨m, ctx, control, pending, goal⟩ := g
    obtain ⟨-, rfl⟩ : _ ∧ pending = [] := hr
    cases goal <;> rfl
  rw [hgoal] at hg
  rw [hf] at hmachine
  have ended : (g.deliver o).machine.registry = g.machine.registry ∧
      (g.deliver o).machine.status ≠ .running := by
    have hrun := hgw.running
    clear hf hmachine hgoal hgw
    obtain ⟨m, ctx, control, pending, goal⟩ := g
    obtain ⟨-, rfl⟩ : _ ∧ pending = [] := hr
    have hrun : m.status = .running := hrun
    cases goal with
    | program length =>
      cases o with
      | ok v =>
        refine ⟨rfl, ?_⟩
        show (if m.status = .halted then Status.halted else .returned) ≠ _
        rw [hrun]
        exact Status.noConfusion
      | error e => exact ⟨rfl, Status.noConfusion⟩
    | call c =>
      refine ⟨rfl, ?_⟩
      show Machine.statusAfterCall c _ m.status ≠ _
      rw [hrun]
      unfold Machine.statusAfterCall
      rw [hg c rfl]
      cases o with
      | ok v => exact Status.noConfusion
      | error e => exact Status.noConfusion
  refine ⟨?_, he.world ▸ hm.world, hmachine ▸ ended.1 ▸ hgw.registry, hmachine ▸ ended.2,
    he.workers ▸ hm.others, ?_, ?_, hp⟩
  · rw [hw.environment]
    exact h.compiler
  · rw [hw.environment]
    exact h.issued
  · refine Discipline.values_append.mpr ⟨?_, h.handed.mono hw.le⟩
    have ho := hr.outcome hgw
    cases o with
    | ok v => exact Discipline.values_cons.mpr ⟨ho, Discipline.values_nil⟩
    | error e => exact Discipline.values_nil

/-- **A system whose compiler has gone on.** -/
theorem later (h : s.Sound T w c codes known) {c' : Compiler} {E : Environment}
    (hl : Compiler.Leads c w.environment c' E) (hb : E.builtins = w.environment.builtins)
    (hT : ∀ f ∈ E.functions, f.code.HeldTo T (some 0)) {codes' : List Code}
    (hc : ∀ code ∈ codes', code ∈ codes ∨ code = c'.code)
    (hp : ∀ code ∈ codes, code ∈ codes') :
    System.Sound T ⟨E, w.closures⟩ c' codes' known
      (s.withFunctions E.functions) := by
  have hw : w.Le ⟨E, w.closures⟩ := ⟨hl.le, Nat.le_refl _, hb⟩
  have hh := h.world.heap
  have stores : Stage.Stores T ⟨E, w.closures⟩ E.functions s.world.heap.closures := by
    refine ⟨rfl, hh.code.size, fun cl hcl => ?_, hl.sound.functions, fun k f hf => ?_⟩
    · obtain ⟨hlt, hcells⟩ := hh.code.closures cl hcl
      exact ⟨Nat.lt_of_lt_of_le hlt hl.le.functions_le, hcells.trans (hl.le.cells _ hlt).symm⟩
    · obtain ⟨walk, start, -⟩ := hT f (Array.mem_of_getElem? hf)
      exact ⟨walk, start, nofun⟩
  refine ⟨hl.sound, h.world.later hw stores, h.registry.mono hw, h.rests, fun p hp => ?_,
    fun code hcode => ?_, h.handed.mono hw, ?_⟩
  · obtain ⟨F, hF, hs⟩ := h.workers p hp
    exact ⟨F, hF, hs.mono hw⟩
  · rcases hc code hcode with hcode | rfl
    · exact ⟨(h.issued code hcode).1.mono hl.le, (h.issued code hcode).2⟩
    · exact ⟨hl.sound.code, hl.sound.localCount⟩
  · exact h.position.imp id fun ⟨code, hcode, hs⟩ => ⟨code, hp code hcode, hs⟩

end System.Sound

/-! ### Lives -/

/-- The next run starts behind the program that was run. -/
theorem Fiber.Sound.position {f : Fiber} {F : Floor} (h : f.Sound T F w) (ho : f.outcome? = some o)
    {length : Nat} (hg : f.goal = .program length) : f.machine.position = length := by
  obtain ⟨-, g, -, hr, rfl⟩ := h.ended ho
  obtain ⟨m, ctx, control, pending, goal⟩ := g
  obtain ⟨-, rfl⟩ : _ ∧ pending = [] := hr
  cases goal with
  | program n =>
    obtain rfl := Goal.program.inj hg
    rfl
  | call c => cases hg

/-- The code that is given out is that of the compiler. -/
theorem Compiler.code_of_compile {c c' : Compiler} {fs fs' : Array Function} {program : Program}
    {code : Code} (h : c.compile fs program = (.ok code, c', fs')) : code = c'.code := by
  unfold Compiler.compile at h
  dsimp only at h
  split at h
  · cases h
    rfl
  · cases h

/-- **Every system in its life is sound**, for each typing that covers the codes of its compiler. -/
theorem Life.sound (hh : host.Honest) (h : Life host c batches known s) :
    ∃ fs, c.Built fs batches ∧ ∀ T : Typing, T.Covers fs (batches.map Batch.code) →
      ∃ w, s.Sound T w c (batches.map Batch.code) known ∧ w.environment.functions = fs := by
  induction h with
  -- by induction on the life; the typing covers the codes at its end, and so those at every
  -- earlier moment
  | @start c config registry heap controls hc hr hv hbare =>
    refine ⟨_, hc, fun T _ => ?_⟩
    obtain ⟨E, hE, hsound⟩ := hc.sound
    refine ⟨⟨E, 0⟩, ⟨hsound, ⟨hbare.sound _ _ ?_, fun v hv => absurd hv (Array.not_mem_empty v)⟩,
      ⟨?_, fun e he => (Typing.discipline T).data (hv e he)⟩, Status.noConfusion,
      fun p hp => absurd hp List.not_mem_nil, fun code hcode => absurd hcode List.not_mem_nil,
      Discipline.values_nil, .inl rfl⟩, hE⟩
    · exact ⟨hE.symm, rfl, fun cl hcl => absurd hcl (Array.not_mem_empty cl), hsound.functions,
        fun k f hf => by simp [hE] at hf⟩
    · show E.builtins ≤ registry.size
      rwa [hsound.builtins]
  | @compile c batches known s h program answer c' fs' hr ih =>
    obtain ⟨fs, hb, ih⟩ := ih
    have hfs : s.world.heap.functions = fs := by
      obtain ⟨T, -, hT⟩ := hb.covered
      obtain ⟨w, hs, rfl⟩ := ih T hT
      exact hs.world.heap.code.functions
    rw [hfs] at hr
    have hb' := hb.compile program
    have ht' := hb'.typed
    rw [hr] at hb'
    refine ⟨_, hb', fun T hT => ?_⟩
    obtain ⟨E₀, rfl, hsound⟩ := hb.sound
    obtain ⟨E', hE', hbuiltins, hl⟩ := hsound.compile program
    rw [hr] at hE' hl
    obtain rfl : E'.functions = fs' := hE'
    have hle := hl.le.functions
    -- compiling only adds functions and codes
    have hcover : T.Covers E₀.functions (batches.map Batch.code) := hT.of_subset
      (fun f hf => Array.mem_toList_iff.mp (hle.subset (Array.mem_toList_iff.mpr hf)))
      fun code hc => by
        rw [List.map_append]
        exact List.mem_append_right _ hc
    obtain ⟨w, hs, hfun⟩ := ih T hcover
    obtain ⟨E₁, hE₁, hbuiltins₁, hl₁⟩ := hs.compiler.compile program
    rw [hfun, hr] at hE₁ hl₁
    obtain hE₁ : E₁.functions = E'.functions := hE₁
    refine ⟨⟨E₁, w.closures⟩, hE₁ ▸ hs.later hl₁ hbuiltins₁ (hE₁ ▸ hT.functions) (fun code hc => ?_)
      fun code hc => by
        rw [List.map_append]
        exact List.mem_append_right _ hc, hE₁⟩
    rw [List.map_append] at hc
    rcases List.mem_append.mp hc with hc | hc
    · cases answer with
      | ok new =>
        obtain rfl := List.mem_singleton.mp hc
        exact .inr (Compiler.code_of_compile hr)
      | error e => cases hc
    · exact .inl hc
  | @declareGlobal c batches known s h name ih =>
    obtain ⟨fs, hb, ih⟩ := ih
    refine ⟨fs, hb.declareGlobal name, fun T hT => ?_⟩
    obtain ⟨w, hs, rfl⟩ := ih T hT
    obtain ⟨E, hE, hbuiltins, hl⟩ := hs.compiler.declareGlobal name
    have hsame : s.withFunctions E.functions = s := by
      rw [hE, ← hs.world.heap.code.functions]
      rfl
    have := hs.later hl hbuiltins (hE ▸ hT.functions) (fun _ hc => .inl hc) fun _ hc => hc
    rw [hsame] at this
    exact ⟨⟨E, w.closures⟩, this, hE⟩
  | run h hc ctx hm he ih =>
    obtain ⟨fs, hb, ih⟩ := ih
    refine ⟨fs, hb, fun T hT => ?_⟩
    obtain ⟨w, hs, rfl⟩ := ih T hT
    -- soundness holds when the run begins, through its steps, and when it ends
    obtain ⟨w', hw, hm'⟩ := (hs.beginRun hT hb.typed hc ctx).steps hh rfl hm
    have hposition := hm'.fiber.position he.outcome hm.goal
    refine ⟨w', hs.of_ends hw hm' he (.inr ⟨_, hc, ?_⟩) fun c hg => ?_,
      congrArg Environment.functions hw.environment⟩
    · rw [he.machine, hposition]
    · rw [hm.goal] at hg
      cases hg
  | @call c batches known s s' h callee args hc ha ctx m hm o he ih =>
    obtain ⟨fs, hb, ih⟩ := ih
    refine ⟨fs, hb, fun T hT => ?_⟩
    obtain ⟨w, hs, rfl⟩ := ih T hT
    have hbegin := hs.beginCall hc ha ctx
    obtain ⟨w', hw, hm'⟩ := hbegin.steps hh rfl hm
    -- a call leaves the machine as it found it, but for the ticks
    obtain ⟨ticks, hmachine⟩ := Moment.Sound.call hh hbegin hm he.outcome
    refine ⟨w', hs.of_ends hw hm' he ?_ fun c hg => ?_,
      congrArg Environment.functions hw.environment⟩
    · rw [he.machine, hmachine]
      exact hs.position
    · rw [hm.goal] at hg
      cases hg
      show (s.machine.status == .running) = false
      exact beq_eq_false_iff_ne.mpr hs.rests
  | @global c batches known s h slot v hv ih =>
    obtain ⟨fs, hb, ih⟩ := ih
    refine ⟨fs, hb, fun T hT => ?_⟩
    obtain ⟨w, hs, hfun⟩ := ih T hT
    refine ⟨w, { hs with handed := Discipline.values_cons.mpr ⟨?_, hs.handed⟩ }, hfun⟩
    exact hs.world.globals v (Array.mem_of_getElem? hv)
  | setGlobal h slot hv ih =>
    obtain ⟨fs, hb, ih⟩ := ih
    refine ⟨fs, hb, fun T hT => ?_⟩
    obtain ⟨w, hs, hfun⟩ := ih T hT
    exact ⟨w, { hs with world := hs.world.setGlobal slot (hv.exists hs.handed) }, hfun⟩
  | @onHeap c batches known s h step hstep ih =>
    obtain ⟨fs, hb, ih⟩ := ih
    refine ⟨fs, hb, fun T hT => ?_⟩
    obtain ⟨w, hs, hfun⟩ := ih T hT
    obtain ⟨hv, hheap⟩ := hstep (Typing.discipline T) w s.world.heap hs.handed hs.world.heap
    exact ⟨w, { hs with
      world := ⟨hheap, hs.world.globals⟩
      handed := Discipline.values_cons.mpr ⟨hv, hs.handed⟩ }, hfun⟩
  | onControls h step ih =>
    obtain ⟨fs, hb, ih⟩ := ih
    refine ⟨fs, hb, fun T hT => ?_⟩
    obtain ⟨w, hs, hfun⟩ := ih T hT
    exact ⟨w, { hs with world := ⟨hs.world.heap, hs.world.globals⟩ }, hfun⟩

/-- **At every moment of its life**, all fibers of a system are sound. -/
theorem Alive.sound (hh : host.Honest) (h : Alive host c batches m) :
    ∃ fs, c.Built fs batches ∧ ∀ T : Typing, T.Covers fs (batches.map Batch.code) →
      ∃ w F, F.pending = [] ∧ m.Sound T F w ∧ w.environment.functions = fs := by
  cases h with
  | run h hc ctx hm =>
    obtain ⟨fs, hb, ih⟩ := h.sound hh
    refine ⟨fs, hb, fun T hT => ?_⟩
    obtain ⟨w, hs, rfl⟩ := ih T hT
    obtain ⟨w', F, hw, hF, hm'⟩ := (hs.beginRun hT hb.typed hc ctx).goes hh rfl hm
    exact ⟨w', F, hF, hm', congrArg Environment.functions hw.environment⟩
  | call h hc ha ctx hm =>
    obtain ⟨fs, hb, ih⟩ := h.sound hh
    refine ⟨fs, hb, fun T hT => ?_⟩
    obtain ⟨w, hs, rfl⟩ := ih T hT
    obtain ⟨w', F, hw, hF, hm'⟩ := (hs.beginCall hc ha ctx).goes hh rfl hm
    exact ⟨w', F, hF, hm', congrArg Environment.functions hw.environment⟩

/-! ### Runs and calls of systems -/

/-- **A run** leads to a system that belongs to the same life. -/
theorem Life.of_run (h : Life host c batches known s) {code : Code}
    (hc : code ∈ batches.map Batch.code) {turns : Nat} {ctx : Context}
    (hr : s.run host turns ctx code = some (o, s')) :
    Life host c batches (o.toOption.toList ++ known) s' := by
  obtain ⟨m, hm, he⟩ := System.ends_of_finish? hr
  exact h.run hc ctx hm he

/-- **A call** leads to a system that belongs to the same life. -/
theorem Life.of_call (h : Life host c batches known s) {callee : Value} {args : List Value}
    (hc : callee.IsKnown known) (ha : ∀ v ∈ args, v.IsKnown known) {turns : Nat} {ctx : Context}
    (hr : s.call host turns ctx callee args = some (o, s')) :
    Life host c batches (o.toOption.toList ++ known) s' := by
  obtain ⟨m, hm, he⟩ := System.ends_of_finish? hr
  exact h.call hc ha ctx hm he

end ScriptEngine
