import ScriptEngine.Proofs.Machine.Outcomes
import ScriptEngine.Proofs.Machine.Paths

/-!
# Places in a frame

Code that only computes changes nothing of a machine but the offset in the innermost frame, the
operands and the ticks. So where it leads to is the same machine in another place.

## Main definitions

* `ScriptEngine.Machine.placed`: a machine in another place.

## Main results

* `ScriptEngine.Exec.path_const`, `ScriptEngine.Exec.path_negate`,
  `ScriptEngine.Exec.path_operator`: instructions that only compute;
* `ScriptEngine.Exec.Path.goes`: a path is what a fiber does;
* `ScriptEngine.Fiber.goes_endProgram`: what a fiber does at the end of a program.
-/

namespace ScriptEngine

/-- **A machine in another place**: at another offset in its innermost frame, with other
operands. -/
def Machine.placed (m : Machine) (offset : Nat) (vs : List Value) (ticks : UInt32) : Machine :=
  { m with
    stack := ⟨.ofList vs, m.stack.limit⟩
    frames := m.frames.mapTop ({ · with ip := offset })
    ticks }

/-- A machine whose innermost frame runs a code. -/
def Machine.IsIn (m : Machine) (c : Code) : Prop :=
  ∃ g, m.frames.top? = some g ∧ g.code = c

namespace Exec

variable {ctx : Context} {m : Machine} {w : World} {c : Code} {p : Nat} {u v : Value}
  {vs : List Value} {k : UInt32}

theorem behind_placed (i : Instruction) :
    (m.placed p vs k).behind i = m.placed i.stop vs (k + 1) := by
  obtain ⟨config, stack, ⟨frames, size, hsize⟩, registry, position, status, ticks⟩ := m
  cases frames <;> rfl

theorem stands_placed (hm : m.IsIn c) (hroom : vs.length ≤ m.stack.limit) :
    (m.placed p vs k).Stands c p vs := by
  obtain ⟨config, stack, ⟨frames, size, hsize⟩, registry, position, status, ticks⟩ := m
  obtain ⟨g, htop, rfl⟩ := hm
  cases frames with
  | nil => cases htop
  | cons g' gs =>
    cases htop
    exact ⟨⟨_, rfl, rfl, rfl⟩, rfl, hroom⟩

theorem push_placed (hroom : vs.length < m.stack.limit) :
    push v ⟨m.placed p vs k, w⟩ = .ok () ⟨m.placed p (v :: vs) k, w⟩ := by
  have hpush : (m.placed p vs k).stack.push v = .ok ⟨.ofList (v :: vs), m.stack.limit⟩ :=
    if_pos hroom
  rw [push_eq, hpush]
  rfl

theorem pop_placed : pop ⟨m.placed p (v :: vs) k, w⟩ = .ok v ⟨m.placed p vs k, w⟩ := rfl

/-- The path of an instruction that leaves the machine in another place. -/
theorem Path.single_placed {i : Instruction} {t : State} (hm : m.IsIn c) (hc : c.Has i)
    (ha : ctx.Allows w.controls) (hroom : vs.length ≤ m.stack.limit)
    (hx : execute ctx i ⟨m.placed i.stop vs (k + 1), w⟩ = .ok .next t) :
    Path ctx ⟨m.placed i.offset vs k, w⟩ [i] t :=
  .single (stands_placed hm hroom) hc ha (by rwa [behind_placed])

/-- A constant is pushed. -/
theorem path_const {i : Word} (hm : m.IsIn c) (hc : c.Has ⟨p, .loadConst, [i]⟩)
    (hv : c.constants[i.toNat]? = some v) (ha : ctx.Allows w.controls)
    (hroom : vs.length < m.stack.limit) :
    Path ctx ⟨m.placed p vs k, w⟩
      [⟨p, .loadConst, [i]⟩] ⟨m.placed (p + 2) (v :: vs) (k + 1), w⟩ := by
  refine .single_placed hm hc ha (Nat.le_of_lt hroom) ?_
  have hconstant : constant i ⟨m.placed (p + 2) vs (k + 1), w⟩ =
      .ok v ⟨m.placed (p + 2) vs (k + 1), w⟩ := by
    obtain ⟨config, stack, ⟨frames, size, hsize⟩, registry, position, status, ticks⟩ := m
    obtain ⟨g, htop, rfl⟩ := hm
    cases frames with
    | nil => cases htop
    | cons g' gs =>
      cases htop
      have hv : g.code.constants[i.toNat]? = some v := hv
      unfold constant frame
      simp only [bind_assoc, get_bind, Stack.top?, Machine.placed, Stack.mapTop, List.head?_cons,
        pure_bind, hv]
      rfl
  exact bind_eq_ok.mpr ⟨(), _, bind_eq_ok.mpr ⟨v, _, hconstant, push_placed hroom⟩, rfl⟩

/-- The top operand is negated. -/
theorem path_negate (hm : m.IsIn c) (hc : c.Has ⟨p, .unaryNegative, []⟩)
    (ha : ctx.Allows w.controls) (hroom : vs.length < m.stack.limit) :
    Path ctx ⟨m.placed p (v :: vs) k, w⟩ [⟨p, .unaryNegative, []⟩]
      ⟨m.placed (p + 1) (w.heap.negate v :: vs) (k + 1), w⟩ := by
  refine .single_placed hm hc ha hroom ?_
  exact bind_eq_ok.mpr ⟨(), _, bind_eq_ok.mpr ⟨v, _, pop_placed,
    bind_eq_ok.mpr ⟨w.heap.negate v, _, rfl, push_placed hroom⟩⟩, rfl⟩

/-- The two top operands are taken, and the result of an operator is pushed. -/
theorem path_operator {op : BinaryOperator} (hm : m.IsIn c) (hc : c.Has ⟨p, .binaryOp, [op.word]⟩)
    (ha : ctx.Allows w.controls) (hroom : vs.length + 1 < m.stack.limit) :
    Path ctx ⟨m.placed p (u :: v :: vs) k, w⟩ [⟨p, .binaryOp, [op.word]⟩]
      ⟨m.placed (p + 2) ((w.heap.binary op v u).1 :: vs) (k + 1),
        { w with heap := (w.heap.binary op v u).2 }⟩ := by
  refine .single_placed hm hc ha hroom ?_
  have hoperator (s : State) : binaryOperator op.word s = .ok op s := by
    unfold binaryOperator
    rw [BinaryOperator.ofWord?_word]
    rfl
  exact bind_eq_ok.mpr ⟨(), _, bind_eq_ok.mpr ⟨op, _, hoperator _, bind_eq_ok.mpr ⟨u, _, pop_placed,
    bind_eq_ok.mpr ⟨v, _, pop_placed, bind_eq_ok.mpr ⟨(w.heap.binary op v u).1, _, rfl,
      push_placed (by omega)⟩⟩⟩⟩, rfl⟩

/-! ### Fibers -/

/-- **A path is what a fiber does** that is in the dispatch loop. -/
theorem Path.goes {host : Host} {s t : State} {is : List Instruction} (h : Path ctx s is t)
    (pending : List Pending) (goal : Goal) :
    Fiber.Goes host is.length ⟨s.machine, ctx, .dispatch, pending, goal⟩ s.world
      ⟨t.machine, ctx, .dispatch, pending, goal⟩ t.world := by
  induction h with
  | refl => exact .refl _ _
  | step hn ht _ ih =>
    refine .step ?_ ih
    unfold Fiber.step Fiber.dispatch
    dsimp only
    rw [ht]

end Exec

/-! ### The end of a program -/

/-- A stack without its operands. -/
theorem OperandStack.truncate_zero (s : OperandStack) : s.truncate 0 = ⟨.empty, s.limit⟩ := by
  obtain ⟨contents, limit⟩ := s
  have hitems : (contents.truncate 0).items = [] := by
    rw [Stack.items_truncate, contents.size_eq]
    exact List.drop_length
  exact congrArg (OperandStack.mk · limit) (Stack.eq_of_items hitems)

/-- **The last turn of a program** takes the value on top and leaves nothing else. -/
theorem Exec.turn_end {ctx : Context} {m : Machine} {w : World} {g : Frame} {v : Value}
    {vs : List Value} (hframes : m.frames.items = [g]) (hfunction : g.function = none)
    (hbase : g.base = 0) (hip : g.code.size ≤ g.ip) (hstack : m.stack.toList = v :: vs)
    (ha : ctx.Allows w.controls) :
    Exec.turn ctx ⟨m, w⟩ = .ok (.leave v)
      ⟨{ m with stack := m.stack.truncate 0, frames := .empty, ticks := m.ticks + 1 }, w⟩ := by
  have hcheck : Exec.precheck ctx ⟨m, w⟩ = .ok () (Exec.ticked ⟨m, w⟩) :=
    Exec.precheck_eq_ok.mpr ⟨ha.1, fun _ => ha.2, rfl⟩
  obtain ⟨config, ⟨⟨items, size, rfl⟩, limit⟩, ⟨frames, count, rfl⟩, registry, position, status,
    ticks⟩ := m
  obtain rfl : frames = [g] := hframes
  obtain rfl : items = v :: vs := hstack
  rw [Exec.turn_eq]
  show EStateM.bind (Exec.precheck ctx) _ _ = _
  unfold EStateM.bind
  rw [hcheck]
  dsimp only
  unfold Exec.fetchAndExecute
  rw [get_bind]
  dsimp only [Exec.ticked, Stack.top?, List.head?_cons]
  rw [if_neg (Nat.not_lt.mpr hip), hfunction]
  dsimp only
  unfold Exec.endProgram
  rw [hbase]
  show EStateM.Result.ok _ (State.mk ⟨config, OperandStack.truncate 0 ⟨⟨vs, _, _⟩, limit⟩,
    Stack.truncate ⟨[g], 1, rfl⟩ 0, registry, position, status, ticks + 1⟩ w) = _
  rw [OperandStack.truncate_zero, OperandStack.truncate_zero]
  rfl

namespace Fiber

variable {ctx : Context} {m : Machine} {w : World} {g : Frame} {v : Value} {vs : List Value}

/-- **The end of a program** hands over the value that is on top. -/
theorem goes_endProgram {host : Host} {length : Nat} (hframes : m.frames.items = [g])
    (hfunction : g.function = none) (hbase : g.base = 0) (hip : g.code.size ≤ g.ip)
    (hstack : m.stack.toList = v :: vs) (ha : ctx.Allows w.controls) :
    Goes host 2 ⟨m, ctx, .dispatch, [], .program length⟩ w
      ⟨{ m with ticks := m.ticks + 1 }.leaveProgram length (.ok v), ctx, .finished (.ok v), [],
        .program length⟩ w := by
  have hturn := Exec.turn_end hframes hfunction hbase hip hstack ha
  refine .step (show _ = (Event.progress, Fiber.mk
    { m with stack := m.stack.truncate 0, frames := .empty, ticks := m.ticks + 1 }
    ctx (.deliver (.ok v)) [] (.program length), w) from ?_) (.single ?_)
  · unfold Fiber.step Fiber.dispatch
    dsimp only
    rw [hturn]
  · have hleave : Machine.leaveProgram
        { m with stack := m.stack.truncate 0, frames := .empty, ticks := m.ticks + 1 }
          length (.ok v) =
        Machine.leaveProgram { m with ticks := m.ticks + 1 } length (.ok v) := by
      unfold Machine.leaveProgram
      dsimp only
      rw [OperandStack.truncate_zero, OperandStack.truncate_zero]
    rw [← hleave]
    rfl

end Fiber

end ScriptEngine
