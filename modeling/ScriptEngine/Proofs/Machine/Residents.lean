import ScriptEngine.Proofs.Machine.Cells
import ScriptEngine.Proofs.Machine.Moments

/-!
# Fibers that keep cells where they belong

What a fiber does next never gets hold of a cell as a value, whoever waits for the result. A failure
may leave cells on the operand stack that were on their way to a closure, but only above what the
next builtin that called back has left there, so they are gone when that builtin goes on.

## Main definitions

* `ScriptEngine.Fiber.Tidy`: a fiber that keeps cells where they belong;
* `ScriptEngine.Moment.Tidy`: fibers that do so, and own cells of their own.

## Main results

* `ScriptEngine.Fiber.Tidy.step`: what one step of such a fiber leads to.
-/

namespace ScriptEngine

/-- The sizes to which a failure may cut the operand stack, for those that wait for a result. -/
def Pending.base? : Pending → Option Nat
  | .operand => none
  | .callback c _ => some c.base

/-- **Who waits for a result** goes on without cells as values. -/
def Pending.Tidy (R : Residence) (w : Holdings) : Pending → Prop
  | .operand => True
  | .callback _ next => (∀ o, (next o).Spares) ∧
      ∀ w', w.Le w' → ∀ o, R.discipline.outcome w' o → (next o).Sound R.discipline w'

/-- **What a fiber does next**, without cells as values. -/
def Control.Tidy (R : Residence) (w : Holdings) (bases : List Nat) (goal : Goal)
    (frames : List Frame)
    (items : List Value) : Control → Prop
  | .dispatch => R.Loaded w bases frames items
  | .invoke callee args _ => R.discipline.value w callee ∧ R.discipline.values w args ∧
      R.discipline.values w items
  | .activity a => a.Spares ∧ a.Sound R.discipline w ∧ R.discipline.values w items
  | .deliver (.ok v) => R.discipline.value w v ∧ R.discipline.values w items
  | .deliver (.error _) => R.Spoiled w bases items
  | .finished o => R.discipline.outcome w o ∧
      ∀ n, goal = .program n → R.discipline.values w items

/-- **A fiber that keeps cells where they belong.** -/
structure Fiber.Tidy (R : Residence) (w : Holdings) (f : Fiber) : Prop where
  frames : ∀ g ∈ f.machine.frames.items, g.Resides R w
  registry : ∀ e ∈ f.machine.registry.entries, ∀ r, e.2 ≠ .cell r
  pending : ∀ p ∈ f.pending, p.Tidy R w
  control : f.control.Tidy R w (f.pending.filterMap Pending.base?) f.goal f.machine.frames.items
    f.machine.stack.toList

variable {R : Residence} {w w' : Holdings} {bases : List Nat} {goal : Goal} {frames : List Frame}
  {items : List Value} {T : Typing} {F : Floor} {w₀ : Stage} {world : World} {host : Host}

/-! ### Whoever waits -/

theorem Pending.Tidy.mono {p : Pending} (h : p.Tidy R w) (hw : w.Le w') : p.Tidy R w' := by
  cases p with
  | operand => trivial
  | callback c next => exact ⟨h.1, fun w'' hw'' => h.2 w'' (hw.trans hw'')⟩

/-- Who waits finds the operands that were there when it began to. -/
theorem Awaits.base_le {b : Bool} {pending : List Pending}
    (h : Awaits T F w₀ b pending frames items)
    (hF : F.pending = []) : ∀ n ∈ pending.filterMap Pending.base?, n ≤ items.length := by
  induction h with
  | floor => rw [hF]; nofun
  | operand _ ih => exact ih
  | callback checkpoint _ _ ih =>
    subst checkpoint
    exact List.forall_mem_cons.mpr ⟨Nat.le_refl _, ih⟩
  | frame _ _ _ segment _ _ ih =>
    exact fun n hn => Nat.le_trans (ih n hn) segment.suffix.length_le

theorem Unwinds.base_le {pending : List Pending} (h : Unwinds T F w₀ pending frames items)
    (hF : F.pending = []) : ∀ n ∈ pending.filterMap Pending.base?, n ≤ items.length := by
  induction h with
  | floor => rw [hF]; nofun
  | operand _ ih => exact ih
  | callback _ hi awaits => exact fun n hn => Nat.le_trans (awaits.base_le hF n hn) hi.length_le

/-- The innermost frame finds what others wait on below its operands. -/
theorem Active.base_le {pending : List Pending} (h : Active T F w₀ pending frames items)
    (hF : F.pending = []) : ∀ n ∈ pending.filterMap Pending.base?, n ≤ items.length :=
  h.unwinds.base_le hF

namespace Residence

/-- Values that are nothing but values may be cut down to any size. -/
theorem Spoiled.drop (h : R.Spoiled w bases items) {n : Nat} (hn : n ∈ bases) {items' : List Value}
    (hi : items' <:+ items) (hlen : items'.length = n) : R.discipline.values w items' := by
  obtain ⟨cs, rest, rfl, hrest, hle⟩ := h
  have hsuffix : items' <:+ rest := by
    cases cs with
    | nil => exact hi
    | cons r cs =>
      exact List.suffix_of_suffix_length_le hi (List.suffix_append _ _)
        (hlen ▸ hle (List.cons_ne_nil r cs) n hn)
  exact fun v hv => hrest v (hsuffix.subset hv)

/-- What lies on the operand stack after a failure, for those that wait below. -/
theorem Spoiled.of_values (h : R.discipline.values w items) : R.Spoiled w bases items :=
  ⟨[], .of_values h⟩

/-! ### Steps -/

/-- **What a step leads to**: a fiber that keeps cells where they belong, as does a worker that was
started. -/
structure Stepped (R : Residence) (w' : Holdings) (x : Option Execution) (frames : List Frame)
    (cells : Array Value) (r : Event × Fiber × World) : Prop where
  governs : R.Governs w' r.2.2
  fiber : r.2.1.Tidy R w'
  started : ∀ p ∈ r.1.started, p.fiber.Tidy R w'
  alters : Alters x frames cells r.2.1.machine.frames.items r.2.2.heap.cells

end Residence

namespace Fiber.Tidy

variable {m : Machine} {ctx : Context} {pending : List Pending} {control : Control} {f : Fiber}

/-- **A turn of the dispatch loop.** -/
theorem dispatch (hR : R.Sound) (thread : Option (Ref .thread))
    (ha : Active T F w₀ pending m.frames.items m.stack.toList) (hF : F.pending = [])
    (hg : R.Governs w world) (h : Fiber.Tidy R w ⟨m, ctx, .dispatch, pending, goal⟩) :
    ∃ w', w.Le w' ∧
    R.Stepped w' (Exec.execution? thread ctx ⟨m, world⟩) m.frames.items world.heap.cells
      (.progress, Fiber.dispatch world ⟨m, ctx, .dispatch, pending, goal⟩) := by
  obtain ⟨g, fs, below, hitems, hsound, hready, -⟩ := id ha
  obtain ⟨hok, herr⟩ :=
    Residence.turn hR ctx thread (s := ⟨m, world⟩) hsound.code hready.boundary hitems
    (hitems ▸ h.frames) hg h.registry (hitems ▸ h.control) (ha.base_le hF) _ rfl
  rw [← hitems] at hok herr
  have tidy {w' : Holdings} {s : State} {control : Control} (hw : w.Le w')
      (hs : R.After w' (Exec.execution? thread ctx ⟨m, world⟩) m.frames.items world.heap.cells s)
      (hc : control.Tidy R w' (pending.filterMap Pending.base?) goal s.machine.frames.items
        s.machine.stack.toList) :
      ∃ w', w.Le w' ∧ R.Stepped w' (Exec.execution? thread ctx ⟨m, world⟩) m.frames.items
        world.heap.cells (.progress, ⟨s.machine, ctx, control, pending, goal⟩, s.world) :=
    ⟨w', hw, hs.governs, ⟨hs.resides, hs.registry, fun p hp => (h.pending p hp).mono hw, hc⟩,
      fun _ hp => absurd hp List.not_mem_nil, hs.alters⟩
  unfold Fiber.dispatch
  cases ht : Exec.turn ctx ⟨m, world⟩ with
  | ok flow s =>
    obtain ⟨w', hw, hs, hflow⟩ := hok flow s ht
    obtain ⟨m', world'⟩ := s
    cases flow with
    | next =>
      simp only [ht]
      exact tidy hw hs hflow
    | leave v =>
      simp only [ht]
      exact tidy hw hs hflow
    | invoke callee args =>
      simp only [ht]
      exact tidy hw hs hflow
  | error e s =>
    obtain ⟨w', hw, hs, hspoiled⟩ := herr e s ht
    obtain ⟨m', world'⟩ := s
    simp only [ht]
    exact tidy hw hs hspoiled

/-! ### Entering callables -/

/-- **The function behind a callable** is at home, and the cells that it is instantiated with are
those of a closure of a function that is at home there, too. -/
theorem function? (hR : R.Sound) (hg : R.Governs w world)
    (hw : world.heap.Sound (Typing.discipline T) w₀)
    {callee : Value} (hc : callee.Exists T w₀) {f : Function} {cells : Array (Ref .cell)}
    (hf : world.heap.function? callee = some (f, cells)) :
    ∃ (k : Nat) (s : ScopeId), R.functions[k]? = some f ∧ R.homes[k]? = some s ∧
      (cells = #[] ∨ ∃ c ∈ w.closures, c.cells = cells ∧ R.homes[c.function.index]? = some s) := by
  obtain ⟨hfunctions, hclosures, hbinds⟩ := hg.heap.code
  have known {r : Ref .function} (hr : r.index < w₀.environment.functions.size) :
      ∃ s, R.functions[r.index]? = some (world.heap.function r) ∧ R.homes[r.index]? = some s := by
    have hr : r.index < world.heap.functions.size := hw.code.functions ▸ hr
    have hknown := hfunctions r.index (world.heap.function r) (by
      unfold Heap.function
      rw [Array.getD_eq_getD_getElem?, Array.getElem?_eq_getElem hr]
      rfl)
    have hlt : r.index < R.homes.length := hR.length ▸ (Array.getElem?_eq_some_iff.mp hknown).1
    exact ⟨_, hknown, List.getElem?_eq_getElem hlt⟩
  unfold Heap.function? at hf
  split at hf
  · rename_i r
    cases hf
    obtain ⟨s, hknown, hs⟩ := known hc.1
    exact ⟨_, s, hknown, hs, .inl rfl⟩
  · rename_i r
    cases hf
    have hlt : r.index < world.heap.closures.size := hw.code.size ▸ hc
    have hmem : world.heap.closure r ∈ world.heap.closures := by
      unfold Heap.closure
      rw [Array.getD_eq_getD_getElem?, Array.getElem?_eq_getElem hlt]
      exact Array.getElem_mem hlt
    obtain ⟨s, hknown, hs⟩ := known (hw.code.closures _ hmem).1
    exact ⟨_, s, hknown, hs, .inr ⟨_, hclosures ▸ hmem, rfl, hs⟩⟩
  · cases hf

/-- The slots of a call hold values only. -/
theorem bindArguments {f : Function} {E : Environment} {own : Nat} (hf : f.Sound E own)
    {args : List Value} (ha : R.discipline.values w args) :
    ∀ v ∈ Machine.bindArguments f args, R.discipline.value w v := by
  intro v hv
  rcases List.mem_append.mp (List.mem_toArray.mp hv) with hv | hv
  · rcases List.mem_append.mp hv with hv | hv
    · exact ha v hv
    · obtain ⟨d, hd, rfl⟩ := List.mem_map.mp hv
      cases d with
      | none => exact R.discipline.data (w := w) rfl
      | some u =>
        have := hf.defaults u (List.mem_of_mem_drop hd)
        rintro r rfl
        cases this
  · obtain ⟨-, rfl⟩ := List.mem_replicate.mp hv
    exact R.discipline.data (w := w) rfl

/-- A frame whose slots hold values owns no cells. -/
theorem owned_eq_nil {g : Frame} (h : ∀ v ∈ g.locals, ∀ r, v ≠ .cell r) : g.owned = [] :=
  List.filterMap_eq_nil_iff.mpr fun v hv => Value.cell?_eq_none.mpr
    (h v (Array.mem_toList_iff.mp hv))

/-- **A function is entered** on a frame that is at home and owns no cells. -/
theorem pushCall {callee : Value} {f : Function} {cells : Array (Ref .cell)} {args : List Value}
    {entry : Bool} {E : Environment} {own : Nat} (hf : f.Sound E own) {k : Nat} {s : ScopeId}
    (hknown : R.functions[k]? = some f) (hs : R.homes[k]? = some s)
    (hcells : cells = #[] ∨ ∃ c ∈ w.closures, c.cells = cells ∧ R.homes[c.function.index]? = some s)
    (hc : R.discipline.value w callee) (ha : R.discipline.values w args) {m' : Machine}
    (h : m.pushCall callee f cells args entry = .ok m') :
    m'.registry = m.registry ∧ m'.stack = m.stack ∧ ∃ g : Frame,
      m'.frames.items = g :: m.frames.items ∧ g.Resides R w ∧ g.owned = [] := by
  obtain ⟨-, -, -, rfl⟩ := Machine.pushCall_eq_ok h
  have hslots : ∀ v ∈ (if f.code.name.isSome then
      (Machine.bindArguments f args).setIfInBounds f.parameters.length callee
      else Machine.bindArguments f args), R.discipline.value w v := by
    split
    · exact forall_mem_setIfInBounds (bindArguments hf ha) hc _
    · exact bindArguments hf ha
  refine ⟨rfl, rfl, _, rfl, ⟨⟨s, .function rfl rfl hknown hs, hcells⟩, fun j r hj => ?_⟩,
    owned_eq_nil hslots⟩
  exact absurd rfl (hslots _ (Array.mem_of_getElem? hj) r)

/-- **A callable is entered**, or refused. -/
theorem invoke (hR : R.Sound) (hh : host.Honest) (hsp : host.Spares) {callee : Value}
    {args : List Value}
    {entry : Bool} (hc : callee.Exists T w₀) (hw : world.heap.Sound (Typing.discipline T) w₀)
    (hg : R.Governs w world)
    (h : Fiber.Tidy R w ⟨m, ctx, .invoke callee args entry, pending, goal⟩) (cells : Array Value) :
    (Fiber.invoke host world.heap callee args entry ⟨m, ctx, .dispatch, pending, goal⟩).Tidy R w ∧
      Alters none m.frames.items cells (Fiber.invoke host world.heap callee args entry
        ⟨m, ctx, .dispatch, pending, goal⟩).machine.frames.items cells := by
  obtain ⟨hcallee, hargs, hitems⟩ := h.control
  have refused (e : RuntimeError) :
      Fiber.Tidy R w ⟨m, ctx, .deliver (.error e), pending, goal⟩ ∧
        Alters none m.frames.items cells m.frames.items cells :=
    ⟨⟨h.frames, h.registry, h.pending, .of_values hitems⟩, .leave 0⟩
  unfold Fiber.invoke
  dsimp only
  split
  · exact refused _
  split
  · rename_i r
    have hsound := Builtin.sound_activity (hh.keeps R.discipline) (hg.heap.builtin r) hargs
    have hspares := Builtin.spares_activity hsp (world.heap.builtin r) args
    refine ⟨⟨h.frames, h.registry, ?_, hspares, hsound, hitems⟩, .leave 0⟩
    cases entry with
    | true => exact h.pending
    | false => exact List.forall_mem_cons.mpr ⟨trivial, h.pending⟩
  · rename_i r
    obtain ⟨hcallee, hbound⟩ := hg.heap.partialCall r
    exact ⟨⟨h.frames, h.registry, h.pending, hcallee, Discipline.values_append.mpr ⟨hargs, hbound⟩,
      hitems⟩, .leave 0⟩
  · split
    · exact refused _
    · rename_i f fcells hf
      obtain ⟨k, s, hknown, hs, hcells⟩ := function? hR hg hw hc hf
      obtain ⟨hsound, -⟩ := Fiber.Working.function? hw hc hf
      split
      · rename_i m' hm'
        obtain ⟨hr, hstack, g, hframes, hresides, howned⟩ :=
          pushCall hsound hknown hs hcells hcallee hargs hm'
        refine ⟨⟨?_, hr ▸ h.registry, h.pending, .of_values ?_⟩, ?_⟩
        · rw [hframes]
          exact List.forall_mem_cons.mpr ⟨hresides, h.frames⟩
        · rw [hstack]
          exact hitems
        · rw [hframes]
          exact .enter howned
      · exact refused _

/-! ### Builtins -/

/-- A builtin hands out no cells. -/
theorem ofBuiltin {o : Outcome} (h : R.discipline.outcome w o) :
    R.discipline.outcome w (Fiber.ofBuiltin o) := by
  unfold Fiber.ofBuiltin
  split
  · split
    · trivial
    · exact h
  · exact h

/-- A result, in the hands of whoever has to deliver it. -/
theorem delivers {o : Outcome} (ho : R.discipline.outcome w o) (hi : R.discipline.values w items) :
    (Control.deliver o).Tidy R w bases goal frames items := by
  cases o with
  | ok v => exact ⟨ho, hi⟩
  | error e => exact .of_values hi

/-- **A step of a builtin.** -/
theorem act {a : Activity} (hg : R.Governs w world)
    (h : Fiber.Tidy R w ⟨m, ctx, .activity a, pending, goal⟩) :
    R.Stepped w none m.frames.items world.heap.cells
      (Fiber.act world a ⟨m, ctx, .dispatch, pending, goal⟩) := by
  obtain ⟨hspares, hsound, hitems⟩ := h.control
  -- the frames and the operands stay, and so do all cells
  have goOn {e : Event} {control : Control} {world' : World} (hg' : R.Governs w world')
      (hcells : world'.heap.cells = world.heap.cells)
      (hc : control.Tidy R w (pending.filterMap Pending.base?) goal m.frames.items m.stack.toList)
      (hstarted : ∀ p ∈ e.started, p.fiber.Tidy R w) :
      R.Stepped w none m.frames.items world.heap.cells
        (e, ⟨m, ctx, control, pending, goal⟩, world') :=
    ⟨hg', ⟨h.frames, h.registry, h.pending, hc⟩, hstarted, hcells ▸ .leave 0⟩
  have onHeap {heap : Heap} (hh : heap.Sound R.discipline w)
      (hcells : heap.cells = world.heap.cells) :
      R.Governs w ⟨heap, world.globals, world.controls⟩ :=
    ⟨hh, hg.size.trans (congrArg Array.size hcells.symm), hg.globals⟩
  have nobody : ∀ p ∈ ([] : List Party), p.fiber.Tidy R w := fun _ hp => absurd hp List.not_mem_nil
  cases a with
  | finish o => exact goOn hg rfl (delivers (ofBuiltin hsound) hitems) nobody
  | heap step next =>
    obtain ⟨hh, hn⟩ := hsound w (.refl w) world.heap hg.heap
    exact goOn (onHeap hh (hspares.1 _)) (hspares.1 _) ⟨hspares.2 _, hn, hitems⟩ nobody
  | limit query next =>
    exact goOn ⟨hg.heap, hg.size, hg.globals⟩ rfl ⟨hspares _, hsound _, hitems⟩ nobody
  | cancel next => exact goOn ⟨hg.heap, hg.size, hg.globals⟩ rfl ⟨hspares, hsound, hitems⟩ nobody
  | call callee args next =>
    obtain ⟨hc, hargs, hn⟩ := hsound
    exact ⟨hg, ⟨h.frames, h.registry,
      List.forall_mem_cons.mpr ⟨⟨hspares, hn⟩, h.pending⟩, hc, hargs, hitems⟩, nobody, .leave 0⟩
  | spawn callee args next =>
    obtain ⟨hc, hargs, hn⟩ := hsound
    refine goOn (onHeap hg.heap.newThread rfl) rfl ⟨hspares _, hn _, hitems⟩ fun p hp => ?_
    obtain rfl := List.mem_singleton.mp hp
    exact ⟨nofun, h.registry, nofun, hc, hargs, Discipline.values_nil⟩
  | block operation next =>
    obtain ⟨ho, hn⟩ := hsound
    obtain ⟨hp, hh⟩ := Blocking.Sound.round hg.heap ho (ctx.check world.controls)
    have hcells := Blocking.spares_round (ctx.check world.controls) operation world.heap
    unfold Fiber.act
    dsimp only [World.onHeap] at hcells ⊢
    generalize operation.round (ctx.check world.controls) world.heap = r at hp hh hcells
    obtain ⟨progress, heap⟩ := r
    have hg' := onHeap hh hcells
    cases progress with
    | done o => exact goOn hg' hcells ⟨hspares o, hn w (.refl w) o hp, hitems⟩ nobody
    | onward operation => exact goOn hg' hcells ⟨hspares, ⟨hp, hn⟩, hitems⟩ nobody
    | rest operation => exact goOn hg' hcells ⟨hspares, ⟨hp, hn⟩, hitems⟩ nobody

/-! ### Results -/

/-- **A result is handed over** to an instruction or to a builtin. -/
theorem deliver {o : Outcome}
    (hw : (Control.deliver o).Sound T F w₀ pending m.frames.items m.stack.toList)
    (hp : pending ≠ F.pending) (h : Fiber.Tidy R w ⟨m, ctx, .deliver o, pending, goal⟩)
    (cells : Array Value) :
    (Fiber.deliver o ⟨m, ctx, .dispatch, pending, goal⟩).Tidy R w ∧
      Alters none m.frames.items cells
        (Fiber.deliver o ⟨m, ctx, .dispatch, pending, goal⟩).machine.frames.items cells := by
  cases o with
  | ok v =>
    obtain ⟨hv, hitems⟩ := h.control
    obtain ⟨-, hw⟩ := hw
    obtain ⟨rest, rfl, -⟩ | ⟨next, rest, rfl, -⟩ := hw.above_floor hp
    · obtain ⟨-, hpending⟩ := List.forall_mem_cons.mp h.pending
      unfold Fiber.deliver OperandStack.push
      dsimp only
      split
      · rename_i hpush
        split at hpush
        · cases hpush
          exact ⟨⟨h.frames, h.registry, hpending,
            .of_values (Discipline.values_cons.mpr ⟨hv, hitems⟩)⟩, .leave 0⟩
        · cases hpush
      · exact ⟨⟨h.frames, h.registry, hpending, .of_values hitems⟩, .leave 0⟩
    · obtain ⟨⟨hspares, hsound⟩, hpending⟩ := List.forall_mem_cons.mp h.pending
      exact ⟨⟨h.frames, h.registry, hpending, hspares _, hsound w (.refl w) (.ok v) hv, hitems⟩,
        .leave 0⟩
  | error e =>
    obtain ⟨-, hw⟩ := hw
    obtain ⟨rest, rfl, -⟩ | ⟨next, rest, frames, items, rfl, hf, hi, -⟩ := hw.above_floor hp
    · exact ⟨⟨h.frames, h.registry, (List.forall_mem_cons.mp h.pending).2, h.control⟩, .leave 0⟩
    · obtain ⟨⟨hspares, hsound⟩, hpending⟩ := List.forall_mem_cons.mp h.pending
      -- whatever a closure was to be made of is gone
      have hvalues := Residence.Spoiled.drop h.control List.mem_cons_self hi rfl
      refine ⟨⟨fun g hg => h.frames g ?_, h.registry, hpending, hspares _,
        hsound w (.refl w) (.error e) trivial, ?_⟩, ?_⟩
      · exact hf.subset (Stack.truncate_of_suffix hf ▸ hg)
      · show R.discipline.values w (m.stack.contents.truncate _).items
        rwa [Stack.truncate_of_suffix hi]
      · show Alters none _ cells (m.frames.truncate _).items cells
        rw [Stack.items_truncate]
        exact .leave _

/-- **The end of the work of a fiber.** A program leaves its value on the operand stack, and nothing
else. -/
theorem finish {o : Outcome} (h : Fiber.Tidy R w ⟨m, ctx, .deliver o, [], goal⟩)
    (cells : Array Value) :
    (Fiber.deliver o ⟨m, ctx, .dispatch, [], goal⟩).Tidy R w ∧
      Alters none m.frames.items cells
        (Fiber.deliver o ⟨m, ctx, .dispatch, [], goal⟩).machine.frames.items cells := by
  have ho : R.discipline.outcome w o := by
    cases o with
    | ok v => exact h.control.1
    | error e => trivial
  cases goal with
  | program length =>
    refine ⟨⟨fun _ hg => absurd hg List.not_mem_nil, h.registry,
      fun _ hp => absurd hp List.not_mem_nil, ho, fun _ _ => ?_⟩, ?_⟩
    · have hempty : (m.stack.truncate 0).toList = [] := by
        show (m.stack.contents.truncate 0).items = []
        rw [Stack.items_truncate, m.stack.contents.size_eq]
        exact List.drop_eq_nil_of_le (Nat.le_refl _)
      have pushed {v : Value} (hv : R.discipline.value w v) : R.discipline.values w
          (((m.stack.truncate 0).push v).toOption.getD (m.stack.truncate 0)).toList := by
        unfold OperandStack.push
        generalize m.stack.truncate 0 = rest at hempty
        obtain ⟨contents, limit⟩ := rest
        have hempty : contents.items = [] := hempty
        dsimp only
        split
        · refine Discipline.values_cons.mpr ⟨hv, ?_⟩
          exact fun u hu => absurd (hempty ▸ hu) List.not_mem_nil
        · exact fun u hu => absurd (show u ∈ ([] : List Value) from hempty ▸ hu) List.not_mem_nil
      cases o with
      | ok v => exact pushed ho
      | error e => exact pushed (R.discipline.data (w := w) rfl)
    · show Alters none m.frames.items cells [] cells
      have hleave : Alters none m.frames.items cells
          (m.frames.items.drop m.frames.items.length) cells :=
        .leave _
      rwa [List.drop_length] at hleave
  | call c =>
    cases o with
    | ok v =>
      exact ⟨⟨h.frames, h.registry, fun _ hp => absurd hp List.not_mem_nil, ho, nofun⟩, .leave 0⟩
    | error e =>
      have hframes : (m.frames.truncate c.depth).items = m.frames.items.drop
          (m.frames.size - c.depth) :=
        Stack.items_truncate ..
      refine ⟨⟨fun g hg => h.frames g ?_, h.registry, fun _ hp => absurd hp List.not_mem_nil, ho,
        nofun⟩, ?_⟩
      · have hg : g ∈ (m.frames.truncate c.depth).items := hg
        exact List.mem_of_mem_drop (hframes ▸ hg)
      · show Alters none _ cells (m.frames.truncate _).items cells
        rw [hframes]
        exact .leave _

/-- **Every step of a fiber that keeps cells where they belong.** -/
theorem step (hR : R.Sound) (hh : host.Honest) (hsp : host.Spares) (thread : Option (Ref .thread))
    (hs : f.Sound T F w₀) (hF : F.pending = []) (hw : world.Sound T w₀) (hg : R.Governs w world)
    (h : f.Tidy R w) :
    ∃ w', w.Le w' ∧ R.Stepped w' (f.execution? thread world) f.machine.frames.items world.heap.cells
      (f.step host world) := by
  obtain ⟨m, ctx, control, pending, goal⟩ := f
  -- no instruction is executed, and what is known of the cells stays
  have quiet {f' : Fiber} (h : f'.Tidy R w ∧
      Alters none m.frames.items world.heap.cells f'.machine.frames.items world.heap.cells) :
      ∃ w', w.Le w' ∧ R.Stepped w' none m.frames.items world.heap.cells (.progress, f', world) :=
    ⟨w, .refl w, hg, h.1, fun _ hp => absurd hp List.not_mem_nil, h.2⟩
  rcases hs with hs | ⟨-, g, o, -, hr, hf⟩
  · cases control with
    | dispatch => exact dispatch hR thread hs.control hF hg h
    | invoke callee args entry => exact quiet (invoke hR hh hsp hs.control.1 hw.heap hg h _)
    | activity a => exact ⟨w, .refl w, act hg h⟩
    | deliver o =>
      by_cases hp : pending = []
      · subst hp
        exact quiet (finish h _)
      · exact quiet (deliver hs.control (fun he => hp (he.trans hF)) h _)
    | finished o => exact hs.control.elim
  · have hc := hr.deliver.1
    rw [← hf] at hc
    obtain rfl : control = .finished o := hc
    exact ⟨w, .refl w, hg, h, fun _ hp => absurd hp List.not_mem_nil, .leave 0⟩

end Fiber.Tidy

end ScriptEngine
