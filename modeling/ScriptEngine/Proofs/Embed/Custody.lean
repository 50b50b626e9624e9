import ScriptEngine.Proofs.Embed.History
import ScriptEngine.Proofs.Machine.Residents

/-!
# Hosts that leave captured variables alone

A host that neither hands out cells nor touches them leaves it to the scripts what becomes of
captured variables. At every moment of a system that is treated so, the cells in the slots of each
activation are its own, closures hold the cells of the variables that their functions refer to, and
no cell is a value.

## Main definitions

* `ScriptEngine.Moment.Tidy`: fibers that keep cells where they belong, and own cells of their own;
* `ScriptEngine.Custody`: the systems that such a host can come to;
* `ScriptEngine.Watched`: the moments of their runs and calls.

## Main results

* `ScriptEngine.Moment.Tidy.performs`: whatever happens, cells stay where they belong;
* `ScriptEngine.Watched.tidy`: at every moment, cells are where they belong.
-/

namespace ScriptEngine

/-- The cells in the slots of the frames of a party. -/
def Party.owned (p : Party) : List (Ref .cell) :=
  p.fiber.machine.frames.items.flatMap Frame.owned

/-- **Fibers that keep cells where they belong**, each of which owns cells of its own. -/
structure Moment.Tidy (R : Residence) (w : Holdings) (m : Moment) : Prop where
  world : R.Governs w m.world
  parties : ∀ p ∈ m.parties, p.fiber.Tidy R w
  owned : (m.parties.flatMap Party.owned).Nodup

variable {R : Residence} {w w' : Holdings} {T : Typing} {F : Floor} {w₀ : Stage} {host : Host}
  {m m' : Moment} {p q : Party} {others others' : List Party} {world : World}

theorem Fiber.Tidy.mono {f : Fiber} (h : f.Tidy R w) (hw : w.Le w') : f.Tidy R w' where
  frames g hg := (h.frames g hg).mono hw
  registry := h.registry
  pending p hp := (h.pending p hp).mono hw
  control := by
    have hc := h.control
    generalize f.control = c at hc
    cases c with
    | dispatch =>
      obtain ⟨cs, htopped, hcarries⟩ := hc
      refine ⟨cs, htopped.mono, fun hne => ?_⟩
      obtain ⟨g, hg, s, k, inner, n, hs, hcaptures, hk, hands, hle, hfree⟩ := hcarries hne
      exact ⟨g, hg, s, k, inner, n, hs, hcaptures.mono fun _ => hw.closure, hk, hands, hle,
        fun j r hr => (hfree j r hr).mono hw⟩
    | invoke callee args entry => exact hc
    | activity a => exact ⟨hc.1, hc.2.1.mono hw, hc.2.2⟩
    | deliver o =>
      cases o with
      | ok v => exact hc
      | error e =>
        obtain ⟨cs, htopped⟩ := hc
        exact ⟨cs, htopped.mono⟩
    | finished o => exact ⟨hc.1.mono hw, hc.2⟩

/-- The cells in the slots of a party exist. -/
theorem Fiber.Tidy.lt_of_owned (h : p.fiber.Tidy R w) {r : Ref .cell} (hr : r ∈ p.owned) :
    r.index < w.origins.length := by
  obtain ⟨g, hg, hr⟩ := List.mem_flatMap.mp hr
  exact (h.frames g hg).lt_of_owned hr

/-- What is known of the cells after the report of a worker. -/
theorem Residence.Governs.report (h : R.Governs w world) {o : Outcome}
    (ho : R.discipline.outcome w o) (thread : Ref .thread) :
    R.Governs w (Worker.report thread o world) where
  heap := h.heap.setThread thread ⟨fun _ ho' => (by cases ho'; exact ho), (h.heap.thread thread).2⟩
  size := h.size
  globals := h.globals

namespace Moment

/-- The party that is looked at does not matter. -/
theorem Tidy.turn (h : Tidy R w ⟨p, others, world⟩) (hp : (p :: others).Perm (q :: others')) :
    Tidy R w ⟨q, others', world⟩ where
  world := h.world
  parties p' hp' := h.parties p' (hp.mem_iff.mpr hp')
  owned := (hp.flatMap_right _).nodup_iff.mp h.owned

theorem parties_own (host : Host) (m : Moment) : (m.own host).parties =
    ⟨m.party.thread, (m.party.fiber.step host m.world).2.1⟩ ::
      ((m.party.fiber.step host m.world).1.started ++ m.others) :=
  rfl

/-- **A step of the party that is looked at.** -/
theorem Tidy.own (hR : R.Sound) (hh : host.Honest) (hsp : host.Spares)
    (hs : m.party.fiber.Sound T F w₀)
    (hF : F.pending = []) (hw : m.world.Sound T w₀) (h : m.Tidy R w) :
    ∃ w', w.Le w' ∧ (m.own host).Tidy R w' ∧
      Alters (m.party.execution? m.world) m.party.fiber.machine.frames.items m.world.heap.cells
        (m.own host).party.fiber.machine.frames.items (m.own host).world.heap.cells := by
  have hparty := h.parties m.party List.mem_cons_self
  obtain ⟨w', hle, hstepped⟩ := hparty.step hR hh hsp m.party.thread hs hF hw h.world
  refine ⟨w', hle, ⟨hstepped.governs, fun p hp => ?_, ?_⟩, hstepped.alters⟩
  · rcases List.mem_cons.mp hp with rfl | hp
    · exact hstepped.fiber
    rcases List.mem_append.mp hp with hp | hp
    · exact hstepped.started p hp
    · exact (h.parties p (List.mem_cons_of_mem _ hp)).mono hle
  · -- nobody owns the cell that is new, and a worker that was started owns none
    have hstarted : (m.party.fiber.step host m.world).1.started.flatMap Party.owned = [] :=
      List.flatMap_eq_nil_iff.mpr fun p hp => by
        unfold Party.owned
        rw [(Fiber.started_step host m.world m.party.fiber p hp).1]
        rfl
    have hfresh : (⟨m.world.heap.cells.size⟩ : Ref .cell) ∉ m.parties.flatMap Party.owned := by
      intro hmem
      obtain ⟨p, hp, hr⟩ := List.mem_flatMap.mp hmem
      have hlt := (h.parties p hp).lt_of_owned hr
      rw [h.world.size] at hlt
      exact absurd hlt (Nat.lt_irrefl _)
    obtain ⟨l, hl, hsub⟩ := (hstepped.alters.owned).append (.refl (m.others.flatMap Party.owned))
    rw [parties_own, List.flatMap_cons, List.flatMap_append, hstarted, List.nil_append]
    exact hl.nodup_iff.mp ((List.nodup_cons.mpr ⟨hfresh, h.owned⟩).sublist hsub)

/-- The worlds differ, but not in what is known of the cells. -/
theorem Tidy.withWorld {world' : World} (h : Tidy R w ⟨p, others, world⟩)
    (hg : R.Governs w world') :
    Tidy R w ⟨p, others, world'⟩ :=
  ⟨hg, h.parties, h.owned⟩

/-- A party leaves. -/
theorem Tidy.without (h : Tidy R w ⟨p, q :: others, world⟩) : Tidy R w ⟨p, others, world⟩ where
  world := h.world
  parties p' hp' := h.parties p' <| by
    rcases List.mem_cons.mp hp' with rfl | hp'
    · exact List.mem_cons_self
    · exact List.mem_cons_of_mem _ (List.mem_cons_of_mem _ hp')
  owned := h.owned.sublist <| List.Sublist.flatMap
    (.cons_cons p (List.sublist_cons_self q others)) _

/-- **What happens to the cells and to the frames of the party that is looked at**: they are altered
in its own step, or the cells are in a step of another party; and otherwise all cells stay. -/
inductive Changes (host : Host) (m : Moment) (deeds : List Deed) (m' : Moment) : Prop
  | own (same : m' = m.own host) (deeds : deeds = m.party.deeds host m.world)
    (alters : Alters (m.party.execution? m.world) m.party.fiber.machine.frames.items
      m.world.heap.cells m'.party.fiber.machine.frames.items m'.world.heap.cells)
  | other {q : Party} (mem : q ∈ m.others) (party : m'.party = m.party)
    (deeds : deeds = q.deeds host m.world)
    (alters : ∃ frames, Alters (q.execution? m.world) q.fiber.machine.frames.items
      m.world.heap.cells
      frames m'.world.heap.cells)
  | none (party : m'.party = m.party) (cells : m'.world.heap.cells = m.world.heap.cells)

/-- **Whatever happens**, cells stay where they belong. -/
theorem Tidy.performs (hR : R.Sound) (hh : host.Honest) (hsp : host.Spares) (hs : m.Sound T F w₀)
    (hF : F.pending = []) (h : m.Tidy R w) {deeds : List Deed} (hm : m.Performs host deeds m') :
    ∃ w', w.Le w' ∧ m'.Tidy R w' ∧ m.Changes host deeds m' := by
  cases hm with
  | own =>
    obtain ⟨w', hw, htidy, halters⟩ := h.own hR hh hsp hs.fiber hF hs.world
    exact ⟨w', hw, htidy, .own rfl rfl halters⟩
  | @other p q others world world' e f hq =>
    obtain ⟨F', hF', hqs⟩ := hs.others q List.mem_cons_self
    have hturn : Tidy R w ⟨q, p :: others, world⟩ := h.turn (.swap q p others)
    obtain ⟨w', hw, htidy, halters⟩ :=
      hturn.own (m := ⟨q, p :: others, world⟩) hR hh hsp hqs hF' hs.world
    have hown : Moment.own host ⟨q, p :: others, world⟩ =
        ⟨⟨q.thread, f⟩, e.started ++ p :: others, world'⟩ := by
      unfold Moment.own
      rw [hq]
    rw [hown] at htidy halters
    refine ⟨w', hw, htidy.turn ?_, .other List.mem_cons_self rfl rfl ⟨_, halters⟩⟩
    exact (List.perm_middle.cons _).trans (.swap _ _ _)
  | @report p thread f others world o hf =>
    have hc := (h.parties ⟨some thread, f⟩ (List.mem_cons_of_mem _ List.mem_cons_self)).control
    rw [Fiber.outcome?_eq_some.mp hf] at hc
    exact ⟨w, .refl w, h.without.withWorld (h.world.report hc.1 thread), .none rfl rfl⟩
  | order hp => exact ⟨w, .refl w, h.turn (hp.cons _), .none rfl rfl⟩
  | controls c =>
    exact ⟨w, .refl w, h.withWorld ⟨h.world.heap, h.world.size, h.world.globals⟩, .none rfl rfl⟩

/-- **Whatever happens one thing after the other**, cells stay where they belong. -/
theorem Tidy.steps (hR : R.Sound) (hh : host.Honest) (hsp : host.Spares) (hs : m.Sound T F w₀)
    (hF : F.pending = []) (h : m.Tidy R w) (hm : m.Steps host m') : ∃ w', w.Le w' ∧
    m'.Tidy R w' := by
  induction hm with
  | refl => exact ⟨w, .refl w, h⟩
  | tail hr hstep ih =>
    obtain ⟨w₁, hw₁, h₁⟩ := ih
    obtain ⟨_, -, hs₁⟩ := hs.steps hh hF hr
    obtain ⟨deeds, hperforms⟩ := hstep.performs
    obtain ⟨w₂, hw₂, h₂, -⟩ := h₁.performs hR hh hsp hs₁ hF hperforms
    exact ⟨w₂, hw₁.trans hw₂, h₂⟩

/-- The same, whichever party is looked at. -/
theorem Tidy.goes (hR : R.Sound) (hh : host.Honest) (hsp : host.Spares) (hs : m.Sound T F w₀)
    (hF : F.pending = []) (h : m.Tidy R w) (hm : m.Goes host m') : ∃ w', w.Le w' ∧
    m'.Tidy R w' := by
  induction hm with
  | refl => exact ⟨w, .refl w, h⟩
  | step hr hstep ih =>
    obtain ⟨w₁, hw₁, h₁⟩ := ih
    obtain ⟨_, _, -, hF₁, hs₁⟩ := hs.goes hh hF hr
    obtain ⟨deeds, hperforms⟩ := hstep.performs
    obtain ⟨w₂, hw₂, h₂, -⟩ := h₁.performs hR hh hsp hs₁ hF₁ hperforms
    exact ⟨w₂, hw₁.trans hw₂, h₂⟩
  | turn _ hp ih =>
    obtain ⟨w₁, hw₁, h₁⟩ := ih
    exact ⟨w₁, hw₁, h₁.turn hp⟩

end Moment

/-! ### What a host can do -/

/-- **The systems that a host can come to** that leaves captured variables alone: what it does on
the heap neither makes cells nor writes to them. -/
inductive Custody (host : Host) : Compiler → List Batch → List Value → System → Prop
  | start {c : Compiler} {config : Config} {registry : Registry} {heap : Heap} {controls : Controls}
    (hc : c.Built #[] []) (hr : c.table.builtins.size ≤ registry.size)
    (hv : ∀ e ∈ registry.entries, e.2.isData = true) (hh : heap.Bare) :
    Custody host c [] [] { machine := { config, registry }, world := { heap, controls } }
  | compile {c : Compiler} {batches : List Batch} {known : List Value} {s : System}
    (h : Custody host c batches known s) {program : Program} {answer : Except CompileError Code}
    {c' : Compiler} {fs : Array Function}
    (hr : c.compile s.world.heap.functions program = (answer, c', fs)) :
    Custody host c' (Batch.ofAnswer program answer ++ batches) known (s.withFunctions fs)
  | declareGlobal {c : Compiler} {batches : List Batch} {known : List Value} {s : System}
    (h : Custody host c batches known s) (name : String) :
    Custody host (c.declareGlobal name).2 batches known s
  | run {c : Compiler} {batches : List Batch} {known : List Value} {s s' : System}
    (h : Custody host c batches known s) {code : Code} (hc : code ∈ batches.map Batch.code)
    (ctx : Context) {m : Moment}
    (hm : (s.begin (.forProgram s.machine ctx code)
      (s.world.ensureGlobals code.globalCount)).Steps host m) {o : Outcome} (he : m.Ends o s') :
    Custody host c batches (o.toOption.toList ++ known) s'
  | call {c : Compiler} {batches : List Batch} {known : List Value} {s s' : System}
    (h : Custody host c batches known s) {callee : Value} {args : List Value}
    (hc : callee.IsKnown known) (ha : ∀ v ∈ args, v.IsKnown known) (ctx : Context) {m : Moment}
    (hm : (s.begin (.forCall s.machine ctx callee args) s.world).Steps host m) {o : Outcome}
    (he : m.Ends o s') : Custody host c batches (o.toOption.toList ++ known) s'
  | global {c : Compiler} {batches : List Batch} {known : List Value} {s : System}
    (h : Custody host c batches known s) {slot : Nat} {v : Value} (hv : s.global? slot = some v) :
    Custody host c batches (v :: known) s
  | setGlobal {c : Compiler} {batches : List Batch} {known : List Value} {s : System}
    (h : Custody host c batches known s) (slot : Nat) {v : Value} (hv : v.IsKnown known) :
    Custody host c batches known (s.setGlobal slot v)
  | onHeap {c : Compiler} {batches : List Batch} {known : List Value} {s : System}
    (h : Custody host c batches known s) {step : Heap → Value × Heap} (hs : HeapStep known step)
    (hspares : Heap.Spares step) :
    Custody host c batches ((s.onHeap step).1 :: known) (s.onHeap step).2
  | onControls {c : Compiler} {batches : List Batch} {known : List Value} {s : System}
    (h : Custody host c batches known s) (step : Controls → Unit × Controls) :
    Custody host c batches known (s.onControls step).2

/-- **The moments of the runs and the calls** under such a host, whichever fiber is looked at. -/
inductive Watched (host : Host) : Compiler → List Batch → Moment → Prop
  | run {c : Compiler} {batches : List Batch} {known : List Value} {s : System}
    (h : Custody host c batches known s) {code : Code} (hc : code ∈ batches.map Batch.code)
    (ctx : Context) {m : Moment}
    (hm : (s.begin (.forProgram s.machine ctx code)
      (s.world.ensureGlobals code.globalCount)).Goes host m) : Watched host c batches m
  | call {c : Compiler} {batches : List Batch} {known : List Value} {s : System}
    (h : Custody host c batches known s) {callee : Value} {args : List Value}
    (hc : callee.IsKnown known) (ha : ∀ v ∈ args, v.IsKnown known) (ctx : Context) {m : Moment}
    (hm : (s.begin (.forCall s.machine ctx callee args) s.world).Goes host m) :
    Watched host c batches m

variable {c : Compiler} {batches : List Batch} {known : List Value} {s s' : System}
  {codes : List Code}
  {fs : Array Function}

/-- Such a host does nothing that a host could not do. -/
theorem Custody.life (h : Custody host c batches known s) : Life host c batches known s := by
  induction h with
  | start hc hr hv hh => exact .start hc hr hv hh
  | compile _ hr ih => exact ih.compile hr
  | declareGlobal _ name ih => exact ih.declareGlobal name
  | run _ hc ctx hm he ih => exact ih.run hc ctx hm he
  | call _ hc ha ctx hm he ih => exact ih.call hc ha ctx hm he
  | global _ hv ih => exact ih.global hv
  | setGlobal _ slot hv ih => exact ih.setGlobal slot hv
  | onHeap _ hs _ ih => exact ih.onHeap hs
  | onControls _ step ih => exact ih.onControls step

/-! ### Systems -/

/-- Scopes for functions and codes of programs, and perhaps for others. -/
structure Residence.Covers (R : Residence) (fs : Array Function) (codes : List Code) : Prop where
  functions : ∀ (k : Nat) (f : Function), fs[k]? = some f → R.functions[k]? = some f
  codes : ∀ code ∈ codes, code ∈ R.codes

/-- **A system at rest**, all cells of which are where they belong. The host knows values only. -/
structure System.Tidy (R : Residence) (w : Holdings) (known : List Value) (s : System) : Prop where
  world : R.Governs w s.world
  registry : ∀ e ∈ s.machine.registry.entries, ∀ r, e.2 ≠ .cell r
  frames : s.machine.frames.items = []
  items : R.discipline.values w s.machine.stack.toList
  workers : ∀ p ∈ s.workers.map Worker.party, p.fiber.Tidy R w
  owned : ((s.workers.map Worker.party).flatMap Party.owned).Nodup
  handed : R.discipline.values w known

/-- What the host knows is a value. -/
theorem Value.IsKnown.value {v : Value} (h : v.IsKnown known) (hk : R.discipline.values w known) :
    R.discipline.value w v :=
  h.elim (R.discipline.data (w := w)) (hk v)

namespace Residence.Governs

theorem ensureGlobals (h : R.Governs w world) (count : Nat) :
    R.Governs w (world.ensureGlobals count) where
  heap := h.heap
  size := h.size
  globals v hv := by
    rcases Array.mem_append.mp (Array.mem_toList_iff.mp hv) with hv | hv
    · exact h.globals v (Array.mem_toList_iff.mpr hv)
    · obtain ⟨-, rfl⟩ := Array.mem_replicate.mp hv
      exact R.discipline.data (w := w) rfl

theorem setGlobal (h : R.Governs w world) (slot : Nat) {v : Value} (hv : R.discipline.value w v) :
    R.Governs w (world.setGlobal slot v) where
  heap := h.heap
  size := h.size
  globals u hu := forall_mem_setIfInBounds
    (fun u hu => (h.ensureGlobals (slot + 1)).globals u (Array.mem_toList_iff.mpr hu)) hv slot u
    (Array.mem_toList_iff.mp hu)

/-- More functions were compiled. -/
theorem later (h : R.Governs w world) (hf : ∀ (k : Nat) (f : Function), fs[k]? = some f →
    R.functions[k]? = some f) :
    R.Governs w { world with heap := { world.heap with functions := fs } } where
  heap := h.heap.mono (D := R.discipline) (.refl w) ⟨hf, h.heap.code.closures, h.heap.code.binds⟩
  size := h.size
  globals := h.globals

end Residence.Governs

namespace System.Tidy

/-- **A run begins.** -/
theorem beginRun (h : s.Tidy R w known) {code : Code} (hc : code ∈ R.codes) (ctx : Context) :
    Moment.Tidy R w (s.begin (.forProgram s.machine ctx code)
      (s.world.ensureGlobals code.globalCount)) where
  world := h.world.ensureGlobals _
  parties p hp := by
    rcases List.mem_cons.mp hp with rfl | hp
    · refine ⟨fun g hg => ?_, h.registry, nofun, .of_values ?_⟩
      · obtain rfl := List.mem_singleton.mp hg
        exact ⟨⟨_, .program rfl hc, .inl rfl⟩, nofun⟩
      · have hitems : (s.machine.stack.contents.truncate 0).items = [] := by
          rw [Stack.items_truncate, s.machine.stack.contents.size_eq]
          exact List.drop_eq_nil_of_le (Nat.le_refl _)
        exact fun v hv => absurd (hitems ▸ hv : v ∈ ([] : List Value)) List.not_mem_nil
    · exact h.workers p hp
  owned := h.owned

/-- **A call begins.** -/
theorem beginCall (h : s.Tidy R w known) {callee : Value} {args : List Value}
    (hc : callee.IsKnown known)
    (ha : ∀ v ∈ args, v.IsKnown known) (ctx : Context) :
    Moment.Tidy R w (s.begin (.forCall s.machine ctx callee args) s.world) where
  world := h.world
  parties p hp := by
    rcases List.mem_cons.mp hp with rfl | hp
    · refine ⟨fun g hg => ?_, h.registry, nofun, hc.value h.handed,
        fun v hv => (ha v hv).value h.handed, h.items⟩
      exact absurd (h.frames ▸ hg : g ∈ ([] : List Frame)) List.not_mem_nil
    · exact h.workers p hp
  owned := by
    show (s.machine.frames.items.flatMap Frame.owned ++ _).Nodup
    rw [h.frames]
    exact h.owned

/-- **The end of a run or a call**, which leaves no frame behind. -/
theorem of_ends (h : s.Tidy R w known) (hm : m.Tidy R w') {o : Outcome} (he : m.Ends o s')
    (hf : s'.machine.frames.items = []) (hi : R.discipline.values w' s'.machine.stack.toList) :
    s'.Tidy R w' (o.toOption.toList ++ known) where
  world := he.world ▸ hm.world
  registry := he.machine ▸ (hm.parties m.party List.mem_cons_self).registry
  frames := hf
  items := hi
  workers := he.workers ▸ fun p hp => hm.parties p (List.mem_cons_of_mem _ hp)
  owned := by
    rw [he.workers]
    exact hm.owned.sublist (List.sublist_append_right _ _)
  handed := by
    refine Discipline.values_append.mpr ⟨?_, h.handed⟩
    have hc := (hm.parties m.party List.mem_cons_self).control
    rw [Fiber.outcome?_eq_some.mp he.outcome] at hc
    cases o with
    | ok v => exact Discipline.values_cons.mpr ⟨hc.1, Discipline.values_nil⟩
    | error e => exact Discipline.values_nil

end System.Tidy

/-- The functions of a heap are those of its compiler. -/
theorem Life.built (hh : host.Honest) (h : Life host c batches known s) :
    c.Built s.world.heap.functions batches := by
  obtain ⟨fs, hb, hsound⟩ := h.sound hh
  obtain ⟨T, -, hT⟩ := hb.covered
  obtain ⟨w, hs, rfl⟩ := hsound T hT
  exact hs.world.heap.code.functions ▸ hb

/-- A compiler only adds functions. -/
theorem Compiler.Built.functions_compile (h : c.Built fs batches) (program : Program) {k : Nat}
    {f : Function} (hf : fs[k]? = some f) : (c.compile fs program).2.2[k]? = some f := by
  obtain ⟨E, rfl, hsound⟩ := h.sound
  obtain ⟨E', hE', -, hl⟩ := hsound.compile program
  obtain ⟨more, hmore⟩ := hl.le.functions
  rw [← hE', ← Array.getElem?_toList, ← hmore]
  rw [← Array.getElem?_toList] at hf
  rw [List.getElem?_append_left (List.getElem?_eq_some_iff.mp hf).1, hf]

/-- A program leaves no frame behind. -/
theorem Fiber.Sound.frames_of_program {f : Fiber} (h : f.Sound T F w₀) {o : Outcome}
    (ho : f.outcome? = some o) {length : Nat} (hg : f.goal = .program length) :
    f.machine.frames.items = [] := by
  obtain ⟨-, g, -, hr, rfl⟩ := h.ended ho
  obtain ⟨m, ctx, control, pending, goal⟩ := g
  obtain ⟨-, rfl⟩ : _ ∧ pending = [] := hr
  cases goal with
  | program n => rfl
  | call c => cases hg

/-- What a system has in its heap belongs to its life. -/
theorem Life.typed (hh : host.Honest) (h : Life host c batches known s) :
    ∃ T w, T.Covers s.world.heap.functions (batches.map Batch.code) ∧
      s.Sound T w c (batches.map Batch.code) known ∧
      w.environment.functions = s.world.heap.functions ∧
      c.Typed s.world.heap.functions (batches.map Batch.code) := by
  obtain ⟨fs, hb, hsound⟩ := h.sound hh
  obtain ⟨T, -, hT⟩ := hb.covered
  obtain ⟨w, hs, rfl⟩ := hsound T hT
  rw [hs.world.heap.code.functions]
  exact ⟨T, w, hT, hs, rfl, hb.typed⟩

/-- Nothing that happens brings other functions. -/
theorem Moment.Sound.functions (h : m.Sound T F w₀) :
    m.world.heap.functions = w₀.environment.functions :=
  h.world.heap.code.functions

/-- A run or a call that has ended brought no functions. -/
theorem Moment.Sound.functions_of_ends (hh : host.Honest) (h : m.Sound T F w₀) (hF : F.pending = [])
    (hs : m.Steps host m') {o : Outcome} (he : m'.Ends o s) :
    s.world.heap.functions = w₀.environment.functions := by
  obtain ⟨w₁, hgrows, hm'⟩ := h.steps hh hF hs
  rw [he.world, hm'.functions, hgrows.environment]

/-- Scopes that cover what there is after a batch was compiled cover what there was before. -/
theorem Residence.Covers.before (hb : c.Built fs batches) {program : Program} {c' : Compiler}
    {answer : Except CompileError Code} {fs' : Array Function}
    (hr : c.compile fs program = (answer, c', fs'))
    (h : R.Covers fs' ((Batch.ofAnswer program answer ++ batches).map Batch.code)) :
    R.Covers fs (batches.map Batch.code) := by
  refine ⟨fun k f hf => h.functions k f ?_, fun code hc => h.codes code ?_⟩
  · have := hb.functions_compile program hf
    rwa [hr] at this
  · rw [List.map_append]
    exact List.mem_append_right _ hc

namespace System.Tidy

/-- **A new system** owns no cells yet: its heap holds no functions, and its values are data. -/
theorem start {config : Config} {registry : Registry} {heap : Heap} {controls : Controls}
    (hv : ∀ e ∈ registry.entries, e.2.isData = true) (hbare : heap.Bare) :
    System.Tidy R ⟨List.replicate heap.cells.size ⟨ScopeTable.root, 0⟩, #[]⟩ []
      { machine := { config, registry }, world := { heap, controls } } where
  world := by
    refine ⟨hbare.sound _ _ ⟨fun k f hf => ?_, rfl, fun _ hc => absurd hc (Array.not_mem_empty _)⟩,
      List.length_replicate, fun _ hv => absurd hv List.not_mem_nil⟩
    exact absurd (Array.getElem?_eq_some_iff.mp hf).1 (Nat.not_lt_zero k)
  registry e he r hr := by
    have hdata := hv e he
    rw [hr] at hdata
    cases hdata
  frames := rfl
  items _ hv := absurd hv List.not_mem_nil
  workers _ hp := absurd hp List.not_mem_nil
  owned := List.nodup_nil
  handed _ hv := absurd hv List.not_mem_nil

/-- **What a host does to the heap** leaves cells where they belong, if it spares them. -/
theorem onHeap (h : s.Tidy R w known) {step : Heap → Value × Heap} (hstep : HeapStep known step)
    (hspares : Heap.Spares step) :
    System.Tidy R w ((s.onHeap step).1 :: known) (s.onHeap step).2 := by
  obtain ⟨hv, hheap⟩ := hstep R.discipline w s.world.heap h.handed h.world.heap
  refine { h with
    world := ⟨hheap, ?_, h.world.globals⟩
    handed := Discipline.values_cons.mpr ⟨hv, h.handed⟩ }
  exact h.world.size.trans (congrArg Array.size (hspares _).symm)

end System.Tidy

/-- **All cells of a system are where they belong**, if its host leaves captured variables alone. -/
theorem Custody.tidy (hh : host.Honest) (hsp : host.Spares) (h : Custody host c batches known s) :
    ∀ {R : Residence}, R.Sound → R.Covers s.world.heap.functions (batches.map Batch.code) →
      ∃ w, s.Tidy R w known := by
  induction h with
  | @start c config registry heap controls hc hr hv hbare =>
    intro R hR hcover
    exact ⟨_, .start hv hbare⟩
  | @compile c batches known s h program answer c' fs hr ih =>
    intro R hR hcover
    obtain ⟨w, hs⟩ := ih hR (hcover.before (h.life.built hh) hr)
    exact ⟨w, { hs with world := hs.world.later hcover.functions }⟩
  | declareGlobal h name ih => exact ih
  | @run c batches known s s' h code hc ctx m hm o he ih =>
    intro R hR hcover
    obtain ⟨T, w₀, hT, hs₀, hfun, ht⟩ := h.life.typed hh
    have hbegin := hs₀.beginRun (hfun ▸ hT) (hfun ▸ ht) hc ctx
    have hsame := (hbegin.functions_of_ends hh rfl hm he).trans hfun
    obtain ⟨w, hs⟩ := ih hR (hsame ▸ hcover)
    obtain ⟨w', -, htidy⟩ := (hs.beginRun (hcover.codes _ hc) ctx).steps hR hh hsp hbegin rfl hm
    -- a program that has ended left no frame, and its goal says what the stack holds
    obtain ⟨_, -, hm₁⟩ := hbegin.steps hh rfl hm
    have hctl := (htidy.parties _ List.mem_cons_self).control
    rw [Fiber.outcome?_eq_some.mp he.outcome] at hctl
    refine ⟨w', hs.of_ends htidy he ?_ ?_⟩
    · rw [he.machine]
      exact hm₁.fiber.frames_of_program he.outcome hm.goal
    · rw [he.machine]
      exact hctl.2 _ hm.goal
  | @call c batches known s s' h callee args hc ha ctx m hm o he ih =>
    intro R hR hcover
    obtain ⟨T, w₀, hT, hs₀, hfun, ht⟩ := h.life.typed hh
    have hbegin := hs₀.beginCall hc ha ctx
    have hsame := (hbegin.functions_of_ends hh rfl hm he).trans hfun
    obtain ⟨w, hs⟩ := ih hR (hsame ▸ hcover)
    obtain ⟨w', -, htidy⟩ := (hs.beginCall hc ha ctx).steps hR hh hsp hbegin rfl hm
    -- a call leaves the machine as it found it, but for the ticks
    obtain ⟨ticks, hmachine⟩ := Moment.Sound.call hh hbegin hm he.outcome
    refine ⟨w', hs.of_ends htidy he ?_ ?_⟩
    · rw [he.machine, hmachine]
      exact hs.frames
    · rw [he.machine, hmachine]
      exact hs.items
  | @global c batches known s h slot v hv ih =>
    intro R hR hcover
    obtain ⟨w, hs⟩ := ih hR hcover
    have hv : s.world.globals[slot]? = some v := hv
    refine ⟨w, { hs with handed := Discipline.values_cons.mpr ⟨?_, hs.handed⟩ }⟩
    exact hs.world.globals v (Array.mem_toList_iff.mpr (Array.mem_of_getElem? hv))
  | setGlobal h slot hv ih =>
    intro R hR hcover
    obtain ⟨w, hs⟩ := ih hR hcover
    exact ⟨w, { hs with world := hs.world.setGlobal slot (hv.value hs.handed) }⟩
  | @onHeap c batches known s h step hstep hspares ih =>
    intro R hR hcover
    obtain ⟨T, w₀, hT, hs₀, hfun, ht⟩ := h.life.typed hh
    obtain ⟨-, hheap₀⟩ := hstep (Typing.discipline T) w₀ s.world.heap hs₀.handed hs₀.world.heap
    have hsame : (step s.world.heap).2.functions = s.world.heap.functions :=
      hheap₀.code.functions.trans hfun
    have hcover : R.Covers (step s.world.heap).2.functions (batches.map Batch.code) := hcover
    obtain ⟨w, hs⟩ := ih hR (hsame ▸ hcover)
    exact ⟨w, hs.onHeap hstep hspares⟩
  | onControls h step ih =>
    intro R hR hcover
    obtain ⟨w, hs⟩ := ih hR hcover
    exact ⟨w, { hs with world := ⟨hs.world.heap, hs.world.size, hs.world.globals⟩ }⟩

/-- **At every moment, all cells are where they belong**, whatever scopes are given to the functions
of the heap and to the codes. -/
theorem Watched.tidy (hh : host.Honest) (hsp : host.Spares) (h : Watched host c batches m) :
    c.Built m.world.heap.functions batches ∧
      ∃ T F w₀, F.pending = [] ∧ m.Sound T F w₀ ∧ ∀ {R : Residence}, R.Sound →
        R.Covers m.world.heap.functions (batches.map Batch.code) → ∃ w, m.Tidy R w := by
  cases h with
  | run h hc ctx hm =>
    obtain ⟨T, w₀, hT, hs₀, hfun, ht⟩ := h.life.typed hh
    have hbegin := hs₀.beginRun (hfun ▸ hT) (hfun ▸ ht) hc ctx
    obtain ⟨w₁, F, hgrows, hF, hm₁⟩ := hbegin.goes hh rfl hm
    have hsame := hm₁.functions.trans ((congrArg _ hgrows.environment).trans hfun)
    refine ⟨hsame ▸ h.life.built hh, T, F, w₁, hF, hm₁, fun hR hcover => ?_⟩
    obtain ⟨w, hs⟩ := h.tidy hh hsp hR (hsame ▸ hcover)
    obtain ⟨w', -, htidy⟩ := (hs.beginRun (hcover.codes _ hc) ctx).goes hR hh hsp hbegin rfl hm
    exact ⟨w', htidy⟩
  | call h hc ha ctx hm =>
    obtain ⟨T, w₀, hT, hs₀, hfun, ht⟩ := h.life.typed hh
    have hbegin := hs₀.beginCall hc ha ctx
    obtain ⟨w₁, F, hgrows, hF, hm₁⟩ := hbegin.goes hh rfl hm
    have hsame := hm₁.functions.trans ((congrArg _ hgrows.environment).trans hfun)
    refine ⟨hsame ▸ h.life.built hh, T, F, w₁, hF, hm₁, fun hR hcover => ?_⟩
    obtain ⟨w, hs⟩ := h.tidy hh hsp hR (hsame ▸ hcover)
    obtain ⟨w', -, htidy⟩ := (hs.beginCall hc ha ctx).goes hR hh hsp hbegin rfl hm
    exact ⟨w', htidy⟩

end ScriptEngine
