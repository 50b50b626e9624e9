import ScriptEngine.Proofs.Machine.Executions

/-!
# Machines within their bounds

Whatever words a code is made of, whatever its constants are and whatever builtins call back, a
machine stays within its configuration: neither of its stacks grows beyond its limit, and no frame
goes on outside its code. An instruction that looks up something that is not there fails, so one
that succeeds has found its operands on the stack and its entries in the tables of its frame.

## Main definitions

* `ScriptEngine.Machine.InBounds`: a machine within its bounds;
* `ScriptEngine.Instruction.demand`, `ScriptEngine.Instruction.Finds`: what an instruction looks up;
* `ScriptEngine.Execution.InRange`: an instruction all of whose operands and entries are there;
* `ScriptEngine.Fiber.entered?`: the callable that a step enters.

## Main results

* `ScriptEngine.Fiber.inBounds_step`: a step leaves a machine within its bounds;
* `ScriptEngine.Fiber.inRange_or_fails`: an execution is in range, or ends with an error;
* `ScriptEngine.Fiber.le_argLimit_of_entered?`: nothing is entered with too many arguments.
-/

namespace ScriptEngine

/-! ### Bounds -/

/-- **A machine within the bounds** of its configuration. -/
structure Machine.InBounds (config : Config) (m : Machine) : Prop where
  same : m.config = config
  limit : m.stack.limit = config.stackLimit
  stack : m.stack.size ≤ config.stackLimit
  frames : m.frames.size ≤ config.frameLimit
  offsets : ∀ g ∈ m.frames.items, g.ip ≤ g.code.size

theorem Stack.size_le_of_suffix {α : Type} {s t : Stack α} (h : s.items <:+ t.items) :
    s.size ≤ t.size := by
  rw [s.size_eq, t.size_eq]
  exact h.length_le

theorem Stack.size_mapTop {α : Type} (f : α → α) (s : Stack α) : (s.mapTop f).size = s.size := by
  obtain ⟨items, size, hs⟩ := s
  cases items <;> rfl

theorem Stack.mem_mapTop {α : Type} {f : α → α} {s : Stack α} {y : α}
    (h : y ∈ (s.mapTop f).items) : y ∈ s.items ∨ ∃ x, s.top? = some x ∧ y = f x := by
  obtain ⟨items, size, hs⟩ := s
  cases items with
  | nil => exact .inl h
  | cons x items =>
    rcases List.mem_cons.mp h with rfl | h
    · exact .inr ⟨x, rfl, rfl⟩
    · exact .inl (List.mem_cons_of_mem _ h)

theorem Stack.mem_of_top? {α : Type} {s : Stack α} {x : α} (h : s.top? = some x) :
    x ∈ s.items :=
  List.mem_of_mem_head? h

namespace Machine.InBounds

variable {config : Config} {m m' : Machine}

/-- To be within bounds survives every turn of the dispatch loop. -/
theorem robust : Exec.Robust fun s => s.machine.InBounds config where
  stack hl h := ⟨h.same, hl.limit.trans h.limit, h.limit ▸ hl.size (h.limit ▸ h.stack), h.frames,
    h.offsets⟩
  heap _ h := h
  locals hf h := by
    refine ⟨h.same, h.limit, h.stack, Nat.le_trans (Nat.le_of_eq (Stack.size_mapTop ..)) h.frames,
      fun g hg => ?_⟩
    rcases Stack.mem_mapTop hg with hg | ⟨x, hx, rfl⟩
    · exact h.offsets g hg
    · rw [hf x]
      exact h.offsets x (Stack.mem_of_top? hx)
  admits target m w top htop hle h := by
    refine ⟨h.same, h.limit, h.stack, Nat.le_trans (Nat.le_of_eq (Stack.size_mapTop ..)) h.frames,
      fun g hg => ?_⟩
    rcases Stack.mem_mapTop hg with hg | ⟨x, hx, rfl⟩
    · exact h.offsets g hg
    · obtain rfl := Option.some.inj (htop.symm.trans hx)
      exact hle
  frames hf h := ⟨h.same, h.limit, h.stack, Nat.le_trans (Stack.size_le_of_suffix hf) h.frames,
    fun g hg => h.offsets g (hf.subset hg)⟩
  status h := ⟨h.same, h.limit, h.stack, h.frames, h.offsets⟩
  ticks h := ⟨h.same, h.limit, h.stack, h.frames, h.offsets⟩
  globals h := h

/-- A machine on other operands, which come from those that it had. -/
theorem leads (h : m.InBounds config) {stack : OperandStack} (hl : m.stack.Leads stack) :
    InBounds config { m with stack } :=
  robust.stack (w := default) hl h

theorem leaveCall (h : m.InBounds config) (c : Checkpoint) (failed : Bool) :
    (m.leaveCall c failed).InBounds config := by
  cases failed with
  | false => exact ⟨h.same, h.limit, h.stack, h.frames, h.offsets⟩
  | true =>
    have hcut := h.leads (m.stack.leads_truncate c.base)
    refine ⟨h.same, hcut.limit, hcut.stack, ?_, fun g hg => h.offsets g ?_⟩
    · refine Nat.le_trans ?_ h.frames
      show (m.frames.truncate c.depth).size ≤ _
      rw [Stack.size_truncate]
      exact Nat.min_le_left ..
    · have hg : g ∈ (m.frames.truncate c.depth).items := hg
      rw [Stack.items_truncate] at hg
      exact List.mem_of_mem_drop hg

/-- **Entering a function** stops at the limit of the frames. -/
theorem pushCall (h : m.InBounds config) {callee : Value} {f : Function} {cells : Array (Ref .cell)}
    {args : List Value} {entry : Bool} (hm : m.pushCall callee f cells args entry = .ok m') :
    m'.InBounds config := by
  obtain ⟨hlt, -, -, rfl⟩ := Machine.pushCall_eq_ok hm
  rw [h.same] at hlt
  refine ⟨h.same, h.limit, h.stack, hlt, fun g hg => ?_⟩
  rcases List.mem_cons.mp hg with rfl | hg
  · exact Nat.zero_le _
  · exact h.offsets g hg

/-- **The end of a run** leaves the value of the run and nothing else. -/
theorem stack_leaveProgram (h : m.InBounds config) (length : Nat) (o : Outcome) :
    (m.leaveProgram length o).stack.toList = [o.toOption.getD .nil] := by
  have hempty : (m.stack.truncate 0).contents.items = [] := by
    show (m.stack.contents.truncate 0).items = []
    rw [Stack.items_truncate, m.stack.contents.size_eq]
    exact List.drop_eq_nil_of_le (Nat.le_refl _)
  have hroom : (m.stack.truncate 0).contents.size < (m.stack.truncate 0).limit := by
    rw [Stack.size_eq, hempty]
    exact h.limit ▸ config.stackLimit_pos
  have hpush (v : Value) :
      (((m.stack.truncate 0).push v).toOption.getD (m.stack.truncate 0)).toList = [v] := by
    unfold OperandStack.push
    dsimp only
    rw [if_pos hroom]
    exact congrArg (v :: ·) hempty
  cases o with
  | ok v => exact hpush v
  | error e => exact hpush .nil

theorem leaveProgram (h : m.InBounds config) (length : Nat) (o : Outcome) :
    (m.leaveProgram length o).InBounds config := by
  have hsize : (m.leaveProgram length o).stack.size = 1 :=
    (Stack.size_eq _).trans (congrArg List.length (h.stack_leaveProgram length o))
  refine ⟨h.same, ?_, hsize ▸ config.stackLimit_pos, Nat.zero_le _,
    fun g hg => absurd hg List.not_mem_nil⟩
  have hpush (v : Value) :
      (((m.stack.truncate 0).push v).toOption.getD (m.stack.truncate 0)).limit = m.stack.limit := by
    cases hp : (m.stack.truncate 0).push v with
    | ok stack => exact (OperandStack.leads_push hp).limit
    | error e => rfl
  cases o with
  | ok v => exact (hpush v).trans h.limit
  | error e => exact (hpush .nil).trans h.limit

/-- A run begins within bounds. -/
theorem enterProgram (h : m.InBounds config) (code : Code) :
    (m.enterProgram code).InBounds config := by
  have hcut := h.leads (m.stack.leads_truncate 0)
  refine ⟨h.same, hcut.limit, hcut.stack, config.frameLimit_pos, fun g hg => ?_⟩
  obtain rfl := List.mem_singleton.mp hg
  show m.start code ≤ code.size
  unfold Machine.start
  split
  · exact Nat.zero_le _
  · omega

theorem enterCall (h : m.InBounds config) : m.enterCall.2.InBounds config :=
  ⟨h.same, h.limit, h.stack, h.frames, h.offsets⟩

/-- A machine that was just made. -/
theorem fresh (config : Config) (registry : Registry) : InBounds config { config, registry } :=
  ⟨rfl, rfl, Nat.zero_le _, Nat.zero_le _, fun _ hg => absurd hg List.not_mem_nil⟩

/-- A machine for a worker. -/
theorem fork (h : m.InBounds config) : m.fork.InBounds config :=
  h.same ▸ fresh m.config m.registry

end Machine.InBounds

namespace Fiber

/-- **A step leaves a machine within its bounds**, and so are the workers that it starts. -/
theorem inBounds_step (host : Host) (w : World) {config : Config} {f : Fiber}
    (h : f.machine.InBounds config) : (f.step host w).2.1.machine.InBounds config ∧
      ∀ p ∈ (f.step host w).1.started, p.fiber.machine.InBounds config := by
  obtain ⟨m, ctx, control, pending, goal⟩ := f
  have hm : m.InBounds config := h
  have quiet : ∀ p ∈ Event.progress.started, p.fiber.machine.InBounds config :=
    fun _ hp => absurd hp List.not_mem_nil
  cases control with
  | dispatch =>
    obtain ⟨hok, herr⟩ := Exec.Stays.turn Machine.InBounds.robust (fun h => h) ctx ⟨m, w⟩ hm
    simp only [Fiber.step, Fiber.dispatch]
    cases ht : Exec.turn ctx ⟨m, w⟩ with
    | ok flow s =>
      have := hok _ _ ht
      cases flow <;> exact ⟨this, quiet⟩
    | error e s => exact ⟨herr _ _ ht, quiet⟩
  | invoke callee args entry =>
    refine ⟨?_, quiet⟩
    simp only [Fiber.step, Fiber.invoke]
    split
    · exact hm
    split
    · exact hm
    · exact hm
    · split
      · exact hm
      · split
        · rename_i m' hm'
          exact hm.pushCall hm'
        · exact hm
  | activity a =>
    cases a with
    | call callee args next => exact ⟨hm.enterCall, quiet⟩
    | spawn callee args next =>
      refine ⟨hm, fun p hp => ?_⟩
      obtain rfl := List.mem_singleton.mp hp
      exact hm.fork.enterCall
    | block operation next =>
      simp only [Fiber.step, Fiber.act]
      split
      · exact ⟨hm, quiet⟩
      · exact ⟨hm, quiet⟩
      · exact ⟨hm, fun _ hp => absurd hp List.not_mem_nil⟩
    | _ => exact ⟨hm, quiet⟩
  | deliver o =>
    refine ⟨?_, quiet⟩
    simp only [Fiber.step, Fiber.deliver]
    split
    · split
      · rename_i stack hp
        exact hm.leads (OperandStack.leads_push hp)
      · exact hm
    · exact hm
    · exact hm.leaveCall ..
    · split
      · exact hm.leaveProgram ..
      · exact hm.leaveCall ..
  | finished o => exact ⟨hm, fun _ hp => absurd hp List.not_mem_nil⟩

end Fiber

/-! ### What an instruction looks up -/

/-- The number of operands at which an instruction looks. -/
def Instruction.demand (i : Instruction) : Nat :=
  match i.op with
  | .popJumpForwardIfFalse | .popJumpForwardIfTrue | .popTop | .forIter => 1
  | .returnValue => if i.first = 0 then 0 else 1
  | _ => i.effect.1.length

/-- The entries that an instruction looks up, in the tables of a frame and of a machine, are
there. -/
def Instruction.Finds (m : Machine) (g : Frame) (i : Instruction) : Prop :=
  let n := i.first.toNat
  match i.op with
  | .loadConst | .loadClosure => n < g.code.constants.size
  | .loadAttr | .storeAttr => n < g.code.names.size
  | .loadFast | .storeFast => n < g.locals.size
  | .loadFree | .storeFree => n < g.cells.size
  | .makeCell => i.second = 0 ∧ n < g.locals.size ∨ i.second = 1 ∧ n < g.cells.size
  | .loadBuiltin => n < m.registry.size
  | _ => True

/-- **Everything that an instruction looks up is there**: its words, its operands and its
entries. -/
structure Execution.InRange (x : Execution) : Prop where
  words : x.instruction.offset = x.frame.ip ∧ x.instruction.stop ≤ x.frame.code.size
  operands : x.instruction.operands.length = x.instruction.op.operandCount
  stack : x.instruction.demand ≤ x.machine.stack.size
  tables : x.instruction.Finds x.machine x.frame

namespace Exec

/-- **What a step leaves** if it succeeds. -/
def Leaves {α : Type} (P : State → Prop) (x : Exec α) (Q : α → State → Prop) : Prop :=
  ∀ s a s', P s → x s = .ok a s' → Q a s'

/-- **In the middle of an instruction** that has taken `k` operands of the machine `m` so far, and
nothing from the tables of the frame `g`. -/
structure Busy (m : Machine) (g : Frame) (k : Nat) (s : State) : Prop where
  frame : ∃ g', s.machine.frames.top? = some g' ∧ g'.code = g.code ∧ g'.cells = g.cells ∧
    g'.locals.size = g.locals.size
  registry : s.machine.registry = m.registry
  taken : s.machine.stack.size + k = m.stack.size

namespace Leaves

variable {α β : Type} {P : State → Prop} {Q : α → State → Prop} {R : β → State → Prop}
  {x : Exec α} {m : Machine} {g : Frame} {k : Nat}

theorem bind {f : α → Exec β} (hx : Leaves P x Q) (hf : ∀ a, Leaves (Q a) (f a) R) :
    Leaves P (x >>= f) R := by
  intro s b s' hs h
  obtain ⟨a, t, hx', h⟩ := bind_eq_ok.mp h
  exact hf a t b s' (hx s a t hs hx') h

/-- What is known already. -/
theorem known {C : Prop} (h : ∀ s, P s → C) : Leaves P x fun _ _ => C :=
  fun s _ _ hs _ => h s hs

theorem of_stays (h : Stays P x) : Leaves P x fun _ => P :=
  fun s a s' hs hx => (h s hs).1 a s' hx

theorem throw {e : RuntimeError} : Leaves P (throw e : Exec α) Q :=
  fun _ _ _ _ h => (throw_ne_ok.mp h).elim

theorem proceed {x : Exec Unit} {C : Prop} (h : Leaves P x fun _ _ => C) :
    Leaves P (proceed x) fun _ _ => C :=
  h.bind fun _ => known fun _ h => h

theorem pop : Leaves (Busy m g k) pop fun _ => Busy m g (k + 1) := by
  rintro ⟨⟨config, ⟨⟨items, size, hsize⟩, limit⟩, frames, registry, position, status, ticks⟩,
    world⟩ a s'
    hs h
  have htaken : size + k = m.stack.size := hs.taken
  cases items with
  | nil => cases h
  | cons v items =>
    cases h
    refine ⟨hs.frame, hs.registry, ?_⟩
    show size - 1 + (k + 1) = m.stack.size
    rw [List.length_cons] at hsize
    omega

theorem popN (n : Nat) : Leaves (Busy m g k) (popN n) fun _ => Busy m g (k + n) := by
  rintro ⟨⟨config, ⟨contents, limit⟩, frames, registry, position, status, ticks⟩, world⟩ a s' hs h
  have htaken : contents.size + k = m.stack.size := hs.taken
  unfold Exec.popN Exec.onStack OperandStack.popN at h
  dsimp only at h
  by_cases hle : n ≤ contents.size
  · rw [if_pos hle] at h
    cases h
    refine ⟨hs.frame, hs.registry, ?_⟩
    show (contents.truncate (contents.size - n)).size + (k + n) = m.stack.size
    rw [Stack.size_truncate]
    omega
  · rw [if_neg hle] at h
    cases h

theorem peek (n : Nat) : Leaves (Busy m g k) (peek n) fun _ _ => n + 1 + k ≤ m.stack.size := by
  rintro ⟨⟨config, ⟨contents, limit⟩, frames, registry, position, status, ticks⟩, world⟩ a s' hs h
  have htaken : contents.size + k = m.stack.size := hs.taken
  unfold Exec.peek Exec.onStack OperandStack.peek at h
  dsimp only at h
  cases hi : contents.items[n]? with
  | none =>
    rw [hi] at h
    cases h
  | some v =>
    obtain ⟨hlt, -⟩ := List.getElem?_eq_some_iff.mp hi
    rw [← contents.size_eq] at hlt
    omega

theorem swap (n : Nat) : Leaves (Busy m g k) (swap n) fun _ _ => n + 1 + k ≤ m.stack.size := by
  rintro ⟨⟨config, ⟨⟨items, size, rfl⟩, limit⟩, frames, registry, position, status, ticks⟩,
    world⟩ a s' hs h
  have htaken : items.length + k = m.stack.size := hs.taken
  unfold Exec.swap Exec.onStack OperandStack.swap at h
  cases items with
  | nil => cases h
  | cons v items =>
    rw [List.length_cons] at htaken
    dsimp only at h
    by_cases hn : n = 0
    · omega
    · rw [if_neg hn] at h
      cases hi : items[n - 1]? with
      | none =>
        rw [hi] at h
        cases h
      | some u =>
        obtain ⟨hlt, -⟩ := List.getElem?_eq_some_iff.mp hi
        omega

/-- An entry that was found is one of its table. -/
theorem entry {γ : Type} {table : Array γ} {n : Nat} {missing : InternalFault} :
    Leaves P (entry table[n]? missing) fun _ s => n < table.size ∧ P s := by
  intro s a s' hs h
  cases hi : table[n]? with
  | none =>
    rw [hi] at h
    cases h
  | some c =>
    rw [hi] at h
    obtain ⟨-, rfl⟩ := pure_eq_ok.mp h
    exact ⟨(Array.getElem?_eq_some_iff.mp hi).1, hs⟩

/-- A look at the innermost frame. -/
theorem frame {f : Frame → Exec α}
    (hf : ∀ g' : Frame, g'.code = g.code → g'.cells = g.cells → g'.locals.size = g.locals.size →
      Leaves (Busy m g k) (f g') Q) : Leaves (Busy m g k) (Exec.frame >>= f) Q := by
  intro s a s' hs h
  obtain ⟨g', t, hg, h⟩ := bind_eq_ok.mp h
  obtain ⟨top, htop, hcode, hcells, hlocals⟩ := hs.frame
  unfold Exec.frame at hg
  rw [get_bind, htop] at hg
  obtain ⟨rfl, rfl⟩ := pure_eq_ok.mp hg
  exact hf top hcode hcells hlocals s a s' hs h

theorem constant (index : Word) : Leaves (Busy m g k) (constant index)
    fun _ s => index.toNat < g.code.constants.size ∧ Busy m g k s :=
  frame fun _ hcode _ _ => hcode ▸ entry

theorem name (index : Word) : Leaves (Busy m g k) (name index)
    fun _ s => index.toNat < g.code.names.size ∧ Busy m g k s :=
  frame fun _ hcode _ _ => hcode ▸ entry

theorem slot (index : Word) : Leaves (Busy m g k) (slot index)
    fun _ s => index.toNat < g.locals.size ∧ Busy m g k s :=
  frame fun _ _ _ hlocals => hlocals ▸ entry

theorem captured (index : Word) : Leaves (Busy m g k) (captured index)
    fun _ s => index.toNat < g.cells.size ∧ Busy m g k s :=
  frame fun _ _ hcells _ => hcells ▸ entry

/-- With something that is known already. -/
theorem given {C : Prop} (h : C → Leaves P x Q) : Leaves (fun s => C ∧ P s) x Q :=
  fun s a s' hs hx => h hs.1 s a s' hs.2 hx

/-- Enough operands were taken, and every entry was found. -/
theorem done {j : Nat} {C : Prop} (hj : j ≤ k) (hc : C) :
    Leaves (Busy m g k) x fun _ _ => j ≤ m.stack.size ∧ C :=
  known fun s hs => ⟨by have := hs.taken; omega, hc⟩

end Leaves

end Exec

/-! ### Steps of a fiber -/

namespace Fiber

variable {host : Host} {w : World} {f : Fiber} {thread : Option (Ref .thread)} {x : Execution}

/-- **A step in which an instruction is executed** is a turn, which is its execution. -/
theorem turn_of_execution? (h : f.execution? thread w = some x) :
    f.control = .dispatch ∧ x.machine = f.machine ∧ f.machine.frames.top? = some x.frame ∧
      Exec.turn f.ctx ⟨f.machine, w⟩ =
        Exec.execute f.ctx x.instruction ⟨f.machine.behind x.instruction, w⟩ := by
  unfold Fiber.execution? at h
  split at h
  · rename_i hc
    obtain ⟨⟨g, i⟩, hnext, rfl⟩ := Option.map_eq_some_iff.mp h
    exact ⟨hc, rfl, (Exec.of_next? hnext).2.1, Exec.turn_of_next? hnext⟩
  · cases h

end Fiber

end ScriptEngine
