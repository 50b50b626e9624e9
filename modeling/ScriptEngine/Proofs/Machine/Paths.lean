import ScriptEngine.Proofs.Code.Walk
import ScriptEngine.Proofs.Machine.Executions

/-!
# Paths through code

What a machine executes instruction by instruction in one frame, as long as nothing interrupts it.

## Main definitions

* `ScriptEngine.Machine.Stands`: a machine stands at an offset of a code, with given operands;
* `ScriptEngine.Exec.Path`: instructions that are executed one after the other.

## Main results

* `ScriptEngine.Exec.path_copy`, `ScriptEngine.Exec.path_jumpIf`, `ScriptEngine.Exec.path_choose`,
  `ScriptEngine.Exec.path_nop`: the paths of single instructions.
-/

namespace ScriptEngine

/-- **A machine stands at an offset of a code**, with the given operands, top first. -/
structure Machine.Stands (m : Machine) (c : Code) (offset : Nat) (vs : List Value) : Prop where
  frame : ∃ g, m.frames.top? = some g ∧ g.code = c ∧ g.ip = offset
  operands : m.stack.toList = vs
  bounded : m.stack.size ≤ m.stack.limit

/-- Nothing interrupts what runs under a context. -/
def Context.Allows (ctx : Context) (c : Controls) : Prop :=
  ctx.checkCancelled c = .ok () ∧ ctx.checkDeadline c = .ok ()

/-- The words of the operators that choose an operand. -/
def BinaryOperator.choice (both : Bool) : BinaryOperator :=
  if both then .and else .or

/-- The jump that leaves a short circuit. -/
def Opcode.shortcut (both : Bool) : Opcode :=
  if both then .popJumpForwardIfFalse else .popJumpForwardIfTrue

namespace Exec

/-- **A path**: instructions that are executed one after the other. -/
inductive Path (ctx : Context) : State → List Instruction → State → Prop where
  | refl (s : State) : Path ctx s [] s
  | step {s t u : State} {g : Frame} {i : Instruction} {is : List Instruction}
    (hn : next? ctx s = some (g, i)) (ht : turn ctx s = .ok .next t) (h : Path ctx t is u) :
    Path ctx s (i :: is) u

variable {ctx : Context} {s t u : State} {c : Code} {i : Instruction} {offset : Nat} {v : Value}
  {vs : List Value}

theorem Path.trans {is js : List Instruction} (h : Path ctx s is t) (h' : Path ctx t js u) :
    Path ctx s (is ++ js) u := by
  induction h with
  | refl s => exact h'
  | step hn ht _ ih => exact .step hn ht (ih h')

/-- An instruction at which a machine stands is the next one. -/
theorem next?_of_stands (hs : s.machine.Stands c i.offset vs) (hc : c.Has i)
    (ha : ctx.Allows s.world.controls) : ∃ g, next? ctx s = some (g, i) := by
  obtain ⟨g, htop, rfl, hip⟩ := hs.frame
  have hcheck : precheck ctx s = .ok () (ticked s) := precheck_eq_ok.mpr ⟨ha.1, fun _ => ha.2, rfl⟩
  refine ⟨g, ?_⟩
  unfold next?
  rw [hcheck, htop]
  dsimp only [Option.bind_some]
  rw [hip, if_pos hc.offset_lt, hc.fetch]
  rfl

/-- Behind an instruction. -/
theorem stands_behind (hs : s.machine.Stands c offset vs) (i : Instruction) :
    (s.machine.behind i).Stands c i.stop vs := by
  obtain ⟨g, htop, hcode, -⟩ := hs.frame
  refine ⟨⟨{ g with ip := i.stop }, ?_, hcode, rfl⟩, hs.operands, hs.bounded⟩
  have htop : s.machine.frames.items.head? = some g := htop
  obtain ⟨gs, hgs⟩ : ∃ gs, s.machine.frames.items = g :: gs := by
    cases hi : s.machine.frames.items with
    | nil =>
      rw [hi] at htop
      cases htop
    | cons g' gs =>
      rw [hi] at htop
      cases htop
      exact ⟨gs, rfl⟩
  exact congrArg List.head? (Stack.items_mapTop _ _ hgs)

/-- The path of a single instruction. -/
theorem Path.single (hs : s.machine.Stands c i.offset vs) (hc : c.Has i)
    (ha : ctx.Allows s.world.controls)
    (hx : execute ctx i ⟨s.machine.behind i, s.world⟩ = .ok .next t) : Path ctx s [i] t := by
  obtain ⟨g, hn⟩ := next?_of_stands hs hc ha
  exact .step hn ((turn_of_next? hn).trans hx) (.refl t)

/-! ### Operands and jumps -/

theorem pop_of_stands (hs : s.machine.Stands c offset (v :: vs)) :
    ∃ t, pop s = .ok v t ∧ t.machine.Stands c offset vs ∧ t.world = s.world ∧
      t.machine.stack.size < t.machine.stack.limit := by
  obtain ⟨⟨config, ⟨⟨items, size, rfl⟩, limit⟩, frames, registry, position, status, ticks⟩,
    world⟩ := s
  obtain ⟨hframe, hoperands, hbounded⟩ := hs
  obtain rfl : items = v :: vs := hoperands
  have hlt : vs.length < limit := hbounded
  exact ⟨_, rfl, ⟨hframe, rfl, Nat.le_of_lt hlt⟩, rfl, hlt⟩

theorem push_of_stands (hs : s.machine.Stands c offset vs)
    (hroom : s.machine.stack.size < s.machine.stack.limit) (v : Value) :
    ∃ t, push v s = .ok () t ∧ t.machine.Stands c offset (v :: vs) ∧ t.world = s.world := by
  have hpush : s.machine.stack.push v =
      .ok ⟨s.machine.stack.contents.push v, s.machine.stack.limit⟩ := if_pos hroom
  refine ⟨⟨{ s.machine with stack := ⟨s.machine.stack.contents.push v, s.machine.stack.limit⟩ },
    s.world⟩, ?_, ⟨hs.frame, congrArg (v :: ·) hs.operands, hroom⟩, rfl⟩
  rw [push_eq, hpush]

theorem jump_of_stands (hs : s.machine.Stands c offset vs) {target : Nat} (ht : target ≤ c.size) :
    ∃ t, jump target s = .ok () t ∧ t.machine.Stands c target vs ∧ t.world = s.world := by
  obtain ⟨⟨config, stack, ⟨frames, size, hsize⟩, registry, position, status, ticks⟩, world⟩ := s
  obtain ⟨⟨g, htop, rfl, -⟩, hoperands, hbounded⟩ := hs
  cases frames with
  | nil => cases htop
  | cons g' gs =>
    cases htop
    unfold jump frame
    simp only [bind_assoc, get_bind, Stack.top?, List.head?_cons, pure_bind, if_pos ht]
    exact ⟨_, rfl, ⟨⟨_, rfl, rfl, rfl⟩, hoperands, hbounded⟩, rfl⟩

/-! ### Instructions -/

/-- The top operand is copied. -/
theorem path_copy (hs : s.machine.Stands c offset (v :: vs)) (hc : c.Has ⟨offset, .copy, [0]⟩)
    (ha : ctx.Allows s.world.controls)
    (hroom : s.machine.stack.size < s.machine.stack.limit) :
    ∃ t, Path ctx s [⟨offset, .copy, [0]⟩] t ∧
      t.machine.Stands c (offset + 2) (v :: v :: vs) ∧ t.world = s.world := by
  have hb := stands_behind hs ⟨offset, .copy, [0]⟩
  obtain ⟨t, ht, hstands, hworld⟩ := push_of_stands (s := ⟨_, s.world⟩) hb hroom v
  refine ⟨t, .single hs hc ha ?_, hstands, hworld⟩
  have hpeek : peek 0 ⟨s.machine.behind ⟨offset, .copy, [0]⟩, s.world⟩ = .ok v
      ⟨s.machine.behind ⟨offset, .copy, [0]⟩, s.world⟩ := by
    have hlist : s.machine.stack.contents.items = v :: vs := hs.operands
    unfold peek onStack Machine.behind OperandStack.peek
    dsimp only
    rw [hlist]
    rfl
  show (proceed (peek 0 >>= push) : Exec Flow) _ = _
  exact bind_eq_ok.mpr ⟨(), t, bind_eq_ok.mpr ⟨v, _, hpeek, ht⟩, rfl⟩

/-- The top operand is taken, and decides about a jump. -/
theorem path_jumpIf {both : Bool} {d : Word} (hs : s.machine.Stands c offset (v :: vs))
    (hc : c.Has ⟨offset, .shortcut both, [d]⟩) (ha : ctx.Allows s.world.controls)
    (ht : offset + d.toNat ≤ c.size) :
    ∃ t, Path ctx s [⟨offset, .shortcut both, [d]⟩] t ∧
      t.machine.Stands c
        (if s.world.heap.isTruthy v = both then offset + 2 else offset + d.toNat) vs ∧
      t.world = s.world := by
  have hb := stands_behind hs ⟨offset, .shortcut both, [d]⟩
  obtain ⟨t, hpop, hstands, hworld, -⟩ := pop_of_stands (s := ⟨_, s.world⟩) hb
  have hread : readHeap (·.isTruthy v) t = .ok (s.world.heap.isTruthy v) t := by
    rw [show s.world = t.world from hworld.symm]
    rfl
  have hexecute (s' : State) : execute ctx ⟨offset, .shortcut both, [d]⟩ s' =
      proceed (jumpIf ⟨offset, .shortcut both, [d]⟩ !both) s' := by
    cases both <;> rfl
  by_cases htruth : s.world.heap.isTruthy v = both
  · rw [if_pos htruth]
    refine ⟨t, .single hs hc ha ?_, hstands, hworld⟩
    rw [hexecute]
    refine bind_eq_ok.mpr
      ⟨(), t, bind_eq_ok.mpr ⟨v, t, hpop, bind_eq_ok.mpr ⟨_, t, hread, ?_⟩⟩, rfl⟩
    rw [htruth, if_neg (by cases both <;> decide)]
    rfl
  · rw [if_neg htruth]
    obtain ⟨u, hjump, hstands', hworld'⟩ := jump_of_stands hstands ht
    refine ⟨u, .single hs hc ha ?_, hstands', hworld'.trans hworld⟩
    rw [hexecute]
    refine bind_eq_ok.mpr
      ⟨(), u, bind_eq_ok.mpr ⟨v, t, hpop, bind_eq_ok.mpr ⟨_, t, hread, ?_⟩⟩, rfl⟩
    rw [if_pos (by revert htruth; cases both <;> cases s.world.heap.isTruthy v <;> decide)]
    exact hjump

/-- The right operand is taken and the left one, and the truth of the left one decides which of them
is pushed. -/
theorem path_choose {both : Bool} {u v : Value} (hs : s.machine.Stands c offset (u :: v :: vs))
    (hc : c.Has ⟨offset, .binaryOp, [(BinaryOperator.choice both).word]⟩)
    (ha : ctx.Allows s.world.controls) :
    ∃ t, Path ctx s [⟨offset, .binaryOp, [(BinaryOperator.choice both).word]⟩] t ∧
      t.machine.Stands c (offset + 2) ((if s.world.heap.isTruthy v = both then u else v) :: vs) ∧
      t.world = s.world := by
  have hb := stands_behind hs ⟨offset, .binaryOp, [(BinaryOperator.choice both).word]⟩
  obtain ⟨t₁, hright, hstands, hworld₁, -⟩ := pop_of_stands (s := ⟨_, s.world⟩) hb
  obtain ⟨t₂, hleft, hstands, hworld₂, hroom⟩ := pop_of_stands hstands
  obtain ⟨t, hpush, hstands, hworld₃⟩ := push_of_stands hstands hroom
    (if s.world.heap.isTruthy v = both then u else v)
  have hworld : t₂.world = s.world := hworld₂.trans hworld₁
  have hchoose : onHeap (fun h => h.binary (.choice both) v u) t₂ =
      .ok (if s.world.heap.isTruthy v = both then u else v) t₂ := by
    rw [← hworld]
    obtain ⟨machine, heap, globals, controls⟩ := t₂
    unfold onHeap onWorld World.onHeap Heap.binary BinaryOperator.choice
    dsimp only
    cases both <;> cases heap.isTruthy v <;> rfl
  have hoperator (s' : State) :
      binaryOperator (BinaryOperator.choice both).word s' = .ok (.choice both) s' := by
    unfold binaryOperator
    rw [BinaryOperator.ofWord?_word]
    rfl
  refine ⟨t, .single hs hc ha ?_, hstands, hworld₃.trans hworld⟩
  show (proceed (binaryOperator (BinaryOperator.choice both).word >>= fun op =>
    pushBinary fun left right h => h.binary op left right) : Exec Flow) _ = _
  exact bind_eq_ok.mpr ⟨(), t, bind_eq_ok.mpr ⟨_, _, hoperator _, bind_eq_ok.mpr ⟨u, t₁, hright,
    bind_eq_ok.mpr ⟨v, t₂, hleft, bind_eq_ok.mpr ⟨_, t₂, hchoose, hpush⟩⟩⟩⟩, rfl⟩

/-- Nothing happens. -/
theorem path_nop (hs : s.machine.Stands c offset vs) (hc : c.Has ⟨offset, .nop, []⟩)
    (ha : ctx.Allows s.world.controls) :
    ∃ t, Path ctx s [⟨offset, .nop, []⟩] t ∧ t.machine.Stands c (offset + 1) vs ∧
      t.world = s.world :=
  ⟨_, .single hs hc ha rfl, stands_behind hs ⟨offset, .nop, []⟩, rfl⟩

end Exec

end ScriptEngine
