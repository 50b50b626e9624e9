import ScriptEngine.Proofs.Machine.Turn

/-!
# Fibers of typed machines

One step of a fiber at work: a turn of the dispatch loop, the entry of a callable, a step of a
builtin, or the hand over of a result. Whatever it is, the fiber stays well typed above its floor,
up to the moment at which it hands a result to those who wait below.

## Main definitions

* `ScriptEngine.Control.Sound`: what a fiber does next fits its stacks;
* `ScriptEngine.Fiber.Working`: a fiber at work above a floor;
* `ScriptEngine.Fiber.Returns`: a fiber has come to the floor with a result.

## Main results

* `ScriptEngine.Fiber.Working.step`: what one step of a fiber at work leads to.
-/

namespace ScriptEngine

/-- **What a fiber does next fits its stacks.** -/
def Control.Sound (T : Typing) (F : Floor) (w : Stage) (pending : List Pending)
    (frames : List Frame) (items : List Value) : Control → Prop
  | .dispatch => Active T F w pending frames items
  | .invoke callee args entry => callee.Exists T w ∧ (Typing.discipline T).values w args ∧
      Awaits T F w (!entry) pending frames items
  | .activity a => a.Sound (Typing.discipline T) w ∧ Awaits T F w false pending frames items
  | .deliver (.ok v) => v.Exists T w ∧ Awaits T F w false pending frames items
  | .deliver (.error e) => e.Allowed T ∧ Unwinds T F w pending frames items
  | .finished _ => False

/-- **A fiber at work** above a floor. -/
structure Fiber.Working (T : Typing) (F : Floor) (w : Stage) (f : Fiber) : Prop where
  registry : f.machine.registry.Sound T w
  running : f.machine.status = .running
  control : f.control.Sound T F w f.pending f.machine.frames.items f.machine.stack.toList

/-- **A fiber comes to the floor** with a result for those who wait there. -/
def Fiber.Returns (pending : List Pending) (f : Fiber) (o : Outcome) : Prop :=
  f.control = .deliver o ∧ f.pending = pending

variable {T : Typing} {F : Floor} {w w' : Stage} {pending : List Pending}

theorem Control.Sound.mono {c : Control} {frames : List Frame} {items : List Value}
    (h : c.Sound T F w pending frames items) (hw : w.Le w') :
    c.Sound T F w' pending frames items := by
  match c with
  | .dispatch => exact Active.mono h hw
  | .invoke callee args entry =>
    obtain ⟨hc, ha, h⟩ := h
    exact ⟨(Typing.discipline T).mono hw hc, Discipline.values.mono ha hw, h.mono hw⟩
  | .activity a =>
    obtain ⟨ha, h⟩ := h
    exact ⟨ha.mono hw, h.mono hw⟩
  | .deliver (.ok v) =>
    obtain ⟨hv, h⟩ := h
    exact ⟨(Typing.discipline T).mono hw hv, h.mono hw⟩
  | .deliver (.error e) =>
    obtain ⟨he, h⟩ := h
    exact ⟨he, h.mono hw⟩
  | .finished o => exact h

/-- What others do meanwhile does not disturb a fiber. -/
theorem Fiber.Working.mono {f : Fiber} (h : f.Working T F w) (hw : w.Le w') :
    f.Working T F w' :=
  ⟨h.registry.mono hw, h.running, h.control.mono hw⟩

/-- **What a step leads to**: a fiber at work in a sound world and, if it started a worker, another
one. -/
def Stepped (T : Typing) (F : Floor) (w : Stage) (r : Event × Fiber × World) : Prop :=
  ∃ w', w.Grows w' ∧ r.2.2.Sound T w' ∧ r.2.1.Working T F w' ∧
    ∀ worker, r.1 = .spawned worker → worker.fiber.Working T {} w'

/-- A step that starts no worker. -/
theorem Stepped.progress {f : Fiber} {world : World} (hw : w.Grows w') (hs : world.Sound T w')
    (hf : f.Working T F w') : Stepped T F w (.progress, f, world) :=
  ⟨w', hw, hs, hf, fun _ h => Event.noConfusion h⟩

namespace Fiber.Working

variable {m : Machine} {ctx : Context} {goal : Goal} {world : World}

/-! ### Turns of the dispatch loop -/

theorem dispatch (hr : m.registry.Sound T w) (hm : m.status = .running)
    (h : Active T F w pending m.frames.items m.stack.toList) (hw : world.Sound T w) :
    Stepped T F w
      (.progress, Fiber.dispatch world ⟨m, ctx, .dispatch, pending, goal⟩) := by
  obtain ⟨hok, herr⟩ := h.turn ctx ⟨m, world⟩ ⟨⟨hw, hr, hm⟩, rfl, rfl⟩
  unfold Fiber.dispatch
  cases ht : Exec.turn ctx ⟨m, world⟩ with
  | ok flow s =>
    have hflow := hok flow s ht
    obtain ⟨m', world'⟩ := s
    cases flow with
    | next =>
      obtain ⟨w', hle, hs, ha⟩ := hflow
      simp only [ht]
      exact .progress hle hs.world ⟨hs.registry, hs.running, ha⟩
    | leave v =>
      obtain ⟨w', hle, hs, hv, ha⟩ := hflow
      simp only [ht]
      exact .progress hle hs.world ⟨hs.registry, hs.running, hv, ha⟩
    | invoke callee args =>
      obtain ⟨w', hle, hs, hc, hargs, ha⟩ := hflow
      simp only [ht]
      exact .progress hle hs.world ⟨hs.registry, hs.running, hc, hargs, ha⟩
  | error e s =>
    obtain ⟨he, w', hle, hs, hu⟩ := herr e s ht
    obtain ⟨m', world'⟩ := s
    simp only [ht]
    exact .progress hle hs.world ⟨hs.registry, hs.running, he, hu⟩

/-! ### Entering callables -/

/-- The slots of a call hold values, and there are as many as the code needs. -/
theorem bindArguments {f : Function} {E : Environment} {own : Nat} (hf : f.Sound E own)
    {args : List Value} (ha : (Typing.discipline T).values w args) :
    f.code.localCount ≤ (Machine.bindArguments f args).size ∧
      ∀ v ∈ Machine.bindArguments f args, v.Exists T w := by
  unfold Machine.bindArguments
  dsimp only
  refine ⟨?_, fun v hv => ?_⟩
  · rw [List.size_toArray, List.length_append, List.length_replicate]
    omega
  · rcases List.mem_append.mp (List.mem_toArray.mp hv) with hv | hv
    · rcases List.mem_append.mp hv with hv | hv
      · exact ha v hv
      · obtain ⟨d, hd, rfl⟩ := List.mem_map.mp hv
        cases d with
        | none => trivial
        | some u =>
          have := hf.defaults u (List.mem_of_mem_drop hd)
          refine (Typing.discipline T).data (v := u) ?_
          cases u with
          | function r => cases this
          | closure r => cases this
          | cell r => cases this
          | iter r => cases this
          | _ => rfl
    · obtain ⟨-, rfl⟩ := List.mem_replicate.mp hv
      trivial

/-- **A function is entered** on a frame that can go on. -/
theorem pushCall {callee : Value} {f : Function} {cells : Array (Ref .cell)} {args : List Value}
    {entry : Bool} (hf : f.Sound w.environment cells.size)
    (ht : f.code.HeldTo T (some cells.size)) (hc : callee.Exists T w)
    (ha : (Typing.discipline T).values w args)
    (h : Awaits T F w (!entry) pending m.frames.items m.stack.toList) :
    (∀ m', m.pushCall callee f cells args entry = .ok m' →
      m'.registry = m.registry ∧ m'.status = m.status ∧
        Active T F w pending m'.frames.items m'.stack.toList) ∧
      ∀ e, m.pushCall callee f cells args entry = .error e → e.Allowed T := by
  unfold Machine.pushCall
  split
  · exact ⟨nofun, by rintro _ ⟨⟩; trivial⟩
  split
  · exact ⟨nofun, by rintro _ ⟨⟩; trivial⟩
  refine ⟨?_, nofun⟩
  rintro _ ⟨⟩
  obtain ⟨hroom, hslots⟩ := bindArguments hf ha
  have hsize : 0 < f.code.size := by
    obtain ⟨i, hi, -⟩ := hf.code.last rfl
    have := hi.offset_lt
    omega
  refine ⟨rfl, rfl, _, m.frames.items, m.stack.toList, rfl, ⟨hf.code, ht, ?_, ?_, nofun⟩,
    ⟨.refl 0, .inl hsize⟩, ?_, m.stack.contents.size_eq, h⟩
  · dsimp only
    split
    · rwa [Array.size_setIfInBounds]
    · exact hroom
  · dsimp only
    split
    · exact fun v hv => .inl (forall_mem_setIfInBounds hslots hc _ v hv)
    · exact fun v hv => .inl (hslots v hv)
  · refine .inl ?_
    show Segment T w (T.shape f.code 0) m.stack.toList m.stack.toList
    rw [ht.start]
    exact .empty _

/-- The function behind a callable exists, with as many cells as it is instantiated with. -/
theorem function? {heap : Heap} (hh : heap.Sound (Typing.discipline T) w) {callee : Value}
    (hc : callee.Exists T w) {f : Function} {cells : Array (Ref .cell)}
    (h : heap.function? callee = some (f, cells)) :
    f.Sound w.environment cells.size ∧ f.code.HeldTo T (some cells.size) := by
  have known {r : Ref .function} (hr : r.index < w.environment.functions.size) :
      w.environment.functions[r.index]? = some (heap.function r) := by
    unfold Heap.function
    rw [hh.code.functions, Array.getD_eq_getD_getElem?, Array.getElem?_eq_getElem hr]
    rfl
  have spec {r : Ref .function} (hr : r.index < w.environment.functions.size) {n : Nat}
      (hn : w.environment.cells r.index = n) :
      (heap.function r).Sound w.environment n ∧ (heap.function r).code.HeldTo T (some n) :=
    hn ▸ ⟨hh.code.sound _ _ (known hr), hh.code.typed _ _ (known hr)⟩
  unfold Heap.function? at h
  split at h
  · cases h
    exact spec hc.1 hc.2
  · rename_i r
    cases h
    have hlt : r.index < heap.closures.size := hh.code.size ▸ hc
    have hmem : heap.closure r ∈ heap.closures := by
      unfold Heap.closure
      rw [Array.getD_eq_getD_getElem?, Array.getElem?_eq_getElem hlt]
      exact Array.getElem_mem hlt
    obtain ⟨hr, hcells⟩ := hh.code.closures _ hmem
    exact spec hr hcells.symm
  · cases h

/-- **A callable is entered**, or refused. -/
theorem invoke {host : Host} (hh : host.Honest) {callee : Value} {args : List Value} {entry : Bool}
    (hr : m.registry.Sound T w) (hm : m.status = .running)
    (hc : callee.Exists T w) (ha : (Typing.discipline T).values w args)
    (h : Awaits T F w (!entry) pending m.frames.items m.stack.toList)
    (hw : world.heap.Sound (Typing.discipline T) w) :
    (Fiber.invoke host world.heap callee args entry ⟨m, ctx, .dispatch, pending, goal⟩).Working
      T F w := by
  have refused {e : RuntimeError} (he : e.Allowed T) :
      Fiber.Working T F w ⟨m, ctx, .deliver (.error e), pending, goal⟩ :=
    ⟨hr, hm, he, h.unwinds⟩
  unfold Fiber.invoke
  dsimp only
  split
  · exact refused trivial
  split
  · rename_i r
    have hact := Builtin.sound_activity (hh.keeps _) (hw.builtin r) ha
    refine ⟨hr, hm, hact, ?_⟩
    cases entry with
    | true => exact h
    | false => exact .operand h
  · rename_i r
    obtain ⟨hcallee, hargs⟩ := hw.partialCall r
    exact ⟨hr, hm, hcallee, Discipline.values_append.mpr ⟨ha, hargs⟩, h⟩
  · split
    · exact refused trivial
    · rename_i f cells hf
      obtain ⟨hs, ht⟩ := function? hw hc hf
      obtain ⟨hok, herr⟩ := pushCall (m := m) hs ht hc ha h
      split
      · rename_i m' hm'
        obtain ⟨hr', hm'', hact⟩ := hok m' hm'
        exact ⟨hr' ▸ hr, hm''.trans hm, hact⟩
      · rename_i e he
        exact refused (herr e he)

/-! ### Builtins -/

/-- What a builtin returns is a value that exists, or an error that is allowed. -/
theorem ofBuiltin {o : Outcome} (h : (Typing.discipline T).outcome w o) :
    (Typing.discipline T).outcome w (Fiber.ofBuiltin o) := by
  unfold Fiber.ofBuiltin
  split
  · split
    · trivial
    · exact h
  · exact h

/-- A result, in the hands of whoever has to deliver it. -/
theorem delivers {o : Outcome} {frames : List Frame} {items : List Value}
    (ho : (Typing.discipline T).outcome w o) (h : Awaits T F w false pending frames items) :
    (Control.deliver o).Sound T F w pending frames items := by
  cases o with
  | ok v => exact ⟨ho, h⟩
  | error e => exact ⟨ho, h.unwinds⟩

/-- The size of a stack of operands is the number of its operands. -/
theorem size_eq_length (stack : OperandStack) : stack.size = stack.toList.length :=
  stack.contents.size_eq

/-- **A step of a builtin.** -/
theorem act {a : Activity} (hr : m.registry.Sound T w)
    (hm : m.status = .running) (ha : a.Sound (Typing.discipline T) w)
    (h : Awaits T F w false pending m.frames.items m.stack.toList) (hw : world.Sound T w) :
    Stepped T F w (Fiber.act world a ⟨m, ctx, .dispatch, pending, goal⟩) := by
  cases a with
  | finish o => exact .progress (.refl w) hw ⟨hr, hm, delivers (ofBuiltin ha) h⟩
  | heap step next =>
    obtain ⟨hh, hn⟩ := ha w (.refl w) world.heap hw.heap
    exact .progress (.refl w) ⟨hh, hw.globals⟩ ⟨hr, hm, hn, h⟩
  | limit query next =>
    exact .progress (.refl w) ⟨hw.heap, hw.globals⟩ ⟨hr, hm, ha _, h⟩
  | cancel next => exact .progress (.refl w) ⟨hw.heap, hw.globals⟩ ⟨hr, hm, ha, h⟩
  | call callee args next =>
    obtain ⟨hc, hargs, hn⟩ := ha
    refine .progress (.refl w) hw ⟨hr, rfl, hc, hargs, .callback ?_ hn h⟩
    show (⟨m.status == .running, m.frames.size, m.stack.size⟩ : Checkpoint) = _
    rw [hm, m.frames.size_eq, size_eq_length]
    rfl
  | spawn callee args next =>
    obtain ⟨hc, hargs, hn⟩ := ha
    refine ⟨w, .refl w, ⟨hw.heap.newThread, hw.globals⟩, ⟨hr, hm, hn _, h⟩, ?_⟩
    intro worker hworker
    obtain rfl := Event.spawned.inj hworker
    exact ⟨hr, rfl, hc, hargs, .floor⟩
  | block operation next =>
    obtain ⟨ho, hn⟩ := ha
    obtain ⟨hp, hh⟩ := Blocking.Sound.round hw.heap ho (ctx.check world.controls)
    have hw' : World.Sound T w ⟨(operation.round (ctx.check world.controls) world.heap).2,
        world.globals, world.controls⟩ := ⟨hh, hw.globals⟩
    unfold Fiber.act
    dsimp only [World.onHeap]
    generalize operation.round (ctx.check world.controls) world.heap = r at hp hw'
    obtain ⟨progress, heap⟩ := r
    cases progress with
    | done o => exact .progress (.refl w) hw' ⟨hr, hm, hn w (.refl w) o hp, h⟩
    | onward operation => exact .progress (.refl w) hw' ⟨hr, hm, ⟨hp, hn⟩, h⟩
    | rest operation =>
      exact ⟨w, .refl w, hw', ⟨hr, hm, ⟨hp, hn⟩, h⟩, fun _ h => Event.noConfusion h⟩

/-! ### Results -/

/-- **A result is handed over** to an instruction or to a builtin above the floor. -/
theorem deliver {o : Outcome} (hr : m.registry.Sound T w)
    (hm : m.status = .running)
    (h : (Control.deliver o).Sound T F w pending m.frames.items m.stack.toList)
    (hp : pending ≠ F.pending) :
    (Fiber.deliver o ⟨m, ctx, .dispatch, pending, goal⟩).Working T F w := by
  have status (failed : Bool) {n k : Nat} :
      Machine.statusAfterCall ⟨true, n, k⟩ failed m.status = .running := by
    rw [hm]
    rfl
  cases o with
  | ok v =>
    obtain ⟨hv, h⟩ := h
    obtain ⟨rest, rfl, ha⟩ | ⟨next, rest, rfl, hn, ha⟩ := h.above_floor hp
    · unfold Fiber.deliver OperandStack.push
      dsimp only
      split
      · rename_i hpush
        split at hpush
        · cases hpush
          exact ⟨hr, hm, ha.active hv⟩
        · cases hpush
      · rename_i hpush
        split at hpush
        · cases hpush
        · cases hpush
          exact ⟨hr, hm, trivial, ha.unwinds⟩
    · exact ⟨hr, status false, hn w (.refl w) (.ok v) hv, ha⟩
  | error e =>
    obtain ⟨he, h⟩ := h
    obtain ⟨rest, rfl, ha⟩ | ⟨next, rest, frames, items, rfl, hf, hi, hn, ha⟩ := h.above_floor hp
    · exact ⟨hr, hm, he, ha⟩
    · refine ⟨hr, status true, hn w (.refl w) (.error e) he, ?_⟩
      show Awaits T F w false _ (m.frames.truncate _).items (m.stack.contents.truncate _).items
      rwa [Stack.truncate_of_suffix hf, Stack.truncate_of_suffix hi]

/-- **Every step of a fiber** that has not come to the floor with a result. -/
theorem step {host : Host} (hh : host.Honest) {f : Fiber} (h : f.Working T F w)
    (hw : world.Sound T w) (hn : ∀ o, ¬ f.Returns F.pending o) :
    Stepped T F w (f.step host world) := by
  obtain ⟨m, ctx, control, pending, goal⟩ := f
  obtain ⟨hr, hm, hc⟩ := h
  cases control with
  | dispatch => exact dispatch hr hm hc hw
  | invoke callee args entry =>
    obtain ⟨hcallee, hargs, ha⟩ := hc
    exact .progress (.refl w) hw (invoke hh hr hm hcallee hargs ha hw.heap)
  | activity a => exact act hr hm hc.1 hc.2 hw
  | deliver o =>
    exact .progress (.refl w) hw (deliver hr hm hc fun hp => hn o ⟨rfl, hp⟩)
  | finished o => exact hc.elim

end Fiber.Working

end ScriptEngine
