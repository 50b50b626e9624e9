import ScriptEngine.Machine.Fiber
import ScriptEngine.Proofs.Code.Typed
import ScriptEngine.Proofs.Heap.Operations
import ScriptEngine.Proofs.Step

/-!
# What no instruction changes

Most of what a machine knows stays as it is while it executes, whatever the code is. An instruction
works on operands, on variables of the innermost frame and on objects of the heap; so what is blind
to these survives every instruction but the few that leave a frame or store into a global.

## Main definitions

* `ScriptEngine.Exec.Stays`: steps that keep a property of states;
* `ScriptEngine.Exec.Blind`: properties that do not look at what most instructions work on;
* `ScriptEngine.Exec.Lasting`: properties that do not look at what instructions work on, halts
  apart;
* `ScriptEngine.Exec.Robust`: properties that do not look at what turns of the dispatch loop work
  on;
* `ScriptEngine.Machine.Same`: two machines differ in their stacks, their status and their ticks
  only.

## Main results

* `ScriptEngine.Exec.Stays.execute`: what an instruction keeps;
* `ScriptEngine.Exec.Stays.turn`: what every turn of the dispatch loop keeps;
* `ScriptEngine.Fiber.same_step`: a step of a fiber that does not end its run leaves the machine the
  same.
-/

namespace ScriptEngine

/-- **A function that is entered** is given a number of arguments that it takes, and there is room
for its frame, which is all that is new. -/
theorem Machine.pushCall_eq_ok {m m' : Machine} {callee : Value} {f : Function}
    {cells : Array (Ref .cell)} {args : List Value} {entry : Bool}
    (h : m.pushCall callee f cells args entry = .ok m') :
    m.frames.size < m.config.frameLimit ∧ f.requiredArgs ≤ args.length ∧
      args.length ≤ f.parameters.length ∧
      m' = { m with
        frames := m.frames.push
          { function := some f
            code := f.code
            cells
            locals := if f.code.name.isSome then
                (bindArguments f args).setIfInBounds f.parameters.length callee
              else bindArguments f args
            base := m.stack.size
            entry } } := by
  unfold Machine.pushCall at h
  split at h
  · cases h
  rename_i hroom
  split at h
  · cases h
  rename_i hcount
  obtain ⟨hle, hle'⟩ := not_or.mp hcount
  cases h
  exact ⟨Nat.lt_of_not_le hroom, Nat.le_of_not_lt hle, Nat.le_of_not_lt hle', rfl⟩

/-! ### The functions of a heap -/

/-- **The discipline of functions**: they keep each of the properties, and nothing is said of
values. -/
def Discipline.functions {ι : Type} (P : ι → Array Function → Prop) : Discipline where
  Stage := ι
  le _ _ := True
  refl _ := trivial
  trans _ _ := trivial
  value _ _ := True
  mono _ _ := trivial
  data _ := trivial
  error _ := True
  ordinary _ := trivial
  stores i fs _ := P i fs

section

variable {ι : Type} {P : ι → Array Function → Prop} {i : ι}

theorem Discipline.values_functions {vs : List Value} : (Discipline.functions P).values i vs :=
  fun _ _ => trivial

theorem Discipline.outcome_functions {o : Outcome} : (Discipline.functions P).outcome i o := by
  cases o <;> trivial

/-- A heap obeys the discipline of functions if its functions have the property. -/
theorem Heap.sound_functions {h : Heap} (hP : P i h.functions) : h.Sound (.functions P) i where
  code := hP
  lists _ _ := Discipline.values_functions
  maps _ _ _ _ _ := trivial
  builtins _ _ _ _ _ := Discipline.values_functions
  partialCalls _ _ := ⟨trivial, Discipline.values_functions⟩
  cells _ _ := trivial
  iterators _ _ _ _ := ⟨trivial, trivial⟩
  channels _ _ := ⟨Discipline.values_functions, fun _ _ => trivial⟩
  threads _ _ := ⟨fun _ _ => Discipline.outcome_functions, fun _ _ => Discipline.outcome_functions⟩

end

/-- Every heap obeys the discipline by which the functions stay the same. -/
theorem Heap.sound_code (h : Heap) : h.Sound (.functions fun fs gs => gs = fs) h.functions :=
  Heap.sound_functions rfl

/-- An instruction is fetched with all its operands. -/
theorem Code.of_fetch {c : Code} {offset : Nat} {i : Instruction}
    (h : c.fetch offset = .ok i) :
    i.offset = offset ∧ i.operands.length = i.op.operandCount ∧ i.stop ≤ c.size := by
  unfold Code.fetch at h
  dsimp only at h
  split at h
  · cases h
  · split at h
    · rename_i op _ hle
      cases h
      have hlen : (c.words.extract (offset + 1) (offset + 1 + op.operandCount)).toList.length =
          op.operandCount := by
        have hle : offset + 1 + op.operandCount ≤ c.words.size := hle
        rw [Array.length_toList, Array.size_extract]
        omega
      refine ⟨rfl, hlen, ?_⟩
      unfold Instruction.stop
      rwa [hlen]
    · cases h

/-! ### Stacks -/

/-- Two stacks of the same items are the same. -/
theorem Stack.eq_of_items {α : Type} {s t : Stack α} (h : s.items = t.items) : s = t := by
  obtain ⟨items, _, rfl⟩ := s
  obtain ⟨items', _, rfl⟩ := t
  obtain rfl : items = items' := h
  rfl

namespace OperandStack

/-- **A stack that comes about from another one**: the limit is the same, and a stack below it stays
below it. -/
structure Leads (s s' : OperandStack) : Prop where
  limit : s'.limit = s.limit
  size : s.size ≤ s.limit → s'.size ≤ s.limit

variable {s s' : OperandStack}

theorem Leads.of_le (hl : s'.limit = s.limit) (hs : s'.size ≤ s.size) : s.Leads s' :=
  ⟨hl, fun h => Nat.le_trans hs h⟩

theorem leads_push {v : Value} (h : s.push v = .ok s') : s.Leads s' := by
  unfold push at h
  dsimp only at h
  split at h
  · rename_i hlt
    cases h
    exact ⟨rfl, fun _ => hlt⟩
  · cases h

theorem toList_push {v : Value} (h : s.push v = .ok s') : s'.toList = v :: s.toList := by
  unfold push at h
  dsimp only at h
  split at h
  · cases h
    rfl
  · cases h

theorem leads_pop {v : Value} (h : s.pop = .ok (v, s')) : s.Leads s' := by
  obtain ⟨⟨items, size, hsize⟩, limit⟩ := s
  cases items with
  | nil => cases h
  | cons x items =>
    cases h
    exact .of_le rfl (Nat.sub_le ..)

theorem leads_truncate (s : OperandStack) (size : Nat) : s.Leads (s.truncate size) :=
  .of_le rfl (by
    show (s.contents.truncate size).size ≤ s.contents.size
    rw [Stack.size_truncate]
    exact Nat.min_le_left ..)

theorem leads_popN {n : Nat} {vs : List Value} (h : s.popN n = .ok (vs, s')) : s.Leads s' := by
  unfold popN at h
  dsimp only at h
  split at h
  · cases h
    exact s.leads_truncate _
  · cases h

theorem leads_swap {distance : Nat} (h : s.swap distance = .ok s') : s.Leads s' := by
  obtain ⟨⟨items, size, rfl⟩, limit⟩ := s
  unfold swap at h
  split at h
  · cases h
  · rename_i top rest heq
    split at h
    · cases h
      exact .of_le rfl (Nat.le_refl _)
    · split at h
      · cases h
      · cases h
        obtain rfl : items = top :: rest := heq
        exact .of_le rfl (Nat.le_of_eq (congrArg (· + 1) List.length_set))

end OperandStack

/-- The instructions that build a value and charge for it. -/
def Opcode.builds : Opcode → Bool
  | .buildList | .buildMap | .buildSet | .buildString => true
  | _ => false

namespace Exec

/-- A push, with all that it does to the state. -/
theorem push_eq (v : Value) (s : State) :
    push v s = match s.machine.stack.push v with
      | .ok stack => .ok () ⟨{ s.machine with stack }, s.world⟩
      | .error e => .error e s := by
  obtain ⟨⟨config, stack, frames, registry, position, status, ticks⟩, world⟩ := s
  unfold push onStack
  dsimp only
  cases stack.push v <;> rfl

/-! ### Steps that keep a property -/

/-- **Steps that keep a property** of states, whether they succeed or fail. -/
def Stays {α : Type} (R : State → Prop) (x : Exec α) : Prop :=
  Ensures R x (fun _ => R) fun _ => R

/-- A property that is blind to operands, as long as their number stays below the limit. -/
def BlindToOperands (R : State → Prop) : Prop :=
  ∀ {m : Machine} {w : World} {stack : OperandStack}, m.stack.Leads stack → R ⟨m, w⟩ →
    R ⟨{ m with stack }, w⟩

/-- A property that is blind to the controls. -/
def BlindToControls (R : State → Prop) : Prop :=
  ∀ {m : Machine} {w : World} {controls : Controls}, R ⟨m, w⟩ → R ⟨m, { w with controls }⟩

/-- **A property that is blind to most of what instructions work on**: to operands, to objects of
the heap other than functions, and to the variables of the innermost frame. -/
structure Blind (R : State → Prop) : Prop where
  stack : BlindToOperands R
  heap {m : Machine} {w : World} {heap : Heap} (hf : heap.functions = w.heap.functions)
    (h : R ⟨m, w⟩) : R ⟨m, { w with heap }⟩
  locals {m : Machine} {w : World} {f : Frame → Frame}
    (hf : ∀ g, f g = { g with locals := (f g).locals }) (h : R ⟨m, w⟩) :
    R ⟨{ m with frames := m.frames.mapTop f }, w⟩

/-- **A property that survives a jump** inside the code of the innermost frame. -/
def Admits (R : State → Prop) (target : Nat) : Prop :=
  ∀ {m : Machine} {w : World} {g : Frame}, m.frames.top? = some g → target ≤ g.code.size →
    R ⟨m, w⟩ → R ⟨{ m with frames := m.frames.mapTop ({ · with ip := target }) }, w⟩

namespace Stays

variable {α β : Type} {R : State → Prop}

theorem pure (a : α) : Stays R (Pure.pure a) :=
  Ensures.pure fun _ h => h

theorem throw (e : RuntimeError) : Stays R (throw e : Exec α) :=
  Ensures.throw fun _ h => h

theorem bind {x : Exec α} {f : α → Exec β} (hx : Stays R x) (hf : ∀ a, Stays R (f a)) :
    Stays R (x >>= f) :=
  Ensures.bind hx hf

theorem get : Stays R (MonadState.get : Exec State) := by
  intro s hs
  refine ⟨fun a s' h => ?_, fun e s' h => by cases h⟩
  cases h
  exact hs

theorem ite {p : Prop} [Decidable p] {x y : Exec α} (hx : Stays R x) (hy : Stays R y) :
    Stays R (if p then x else y) := by
  split
  · exact hx
  · exact hy

theorem forM {γ : Type} {f : γ → Exec PUnit} (l : List γ) (h : ∀ c, Stays R (f c)) :
    Stays R (l.forM f) :=
  Ensures.forM fun c _ => h c

theorem mapM {γ : Type} {f : γ → Exec α} (h : ∀ c, Stays R (f c)) :
    ∀ l : List γ, Stays R (l.mapM f)
  | [] => by
    rw [List.mapM_nil]
    exact pure _
  | c :: l => by
    rw [List.mapM_cons]
    exact (h c).bind fun _ => (mapM h l).bind fun _ => pure _

theorem entry (x : Option α) (missing : InternalFault) : Stays R (entry x missing) := by
  unfold Exec.entry
  split
  · exact pure _
  · exact throw _

theorem frame : Stays R frame :=
  get.bind fun s => by
    split
    · exact pure _
    · exact throw _

theorem slot (index : Word) : Stays R (slot index) :=
  frame.bind fun _ => entry _ _

theorem captured (index : Word) : Stays R (captured index) :=
  frame.bind fun _ => entry _ _

theorem constant (index : Word) : Stays R (constant index) :=
  frame.bind fun _ => entry _ _

theorem name (index : Word) : Stays R (name index) :=
  frame.bind fun _ => entry _ _

theorem onFrames {f : Stack Frame → α × Stack Frame}
    (hf : ∀ {m : Machine} {w : World}, R ⟨m, w⟩ → R ⟨{ m with frames := (f m.frames).2 }, w⟩) :
    Stays R (onFrames f) := by
  rintro ⟨⟨config, stack, frames, registry, position, status, ticks⟩, world⟩ hs
  refine ⟨fun a s' h => ?_, fun e s' h => by cases h⟩
  cases h
  exact hf hs

theorem onWorld {f : World → α × World}
    (hf : ∀ {m : Machine} {w : World}, R ⟨m, w⟩ → R ⟨m, (f w).2⟩) : Stays R (onWorld f) := by
  rintro ⟨machine, world⟩ hs
  refine ⟨fun a s' h => ?_, fun e s' h => by cases h⟩
  cases h
  exact hf hs

theorem readHeap (f : Heap → α) : Stays R (readHeap f) :=
  onWorld (f := World.onHeap fun h => (f h, h)) fun h => h

theorem typeName (v : Value) : Stays R (typeName v) :=
  readHeap _

theorem observe (ask : Controls → Except Interrupt Unit) : Stays R (observe ask) :=
  get.bind fun s => by
    split
    · exact pure _
    · exact throw _

theorem proceed {x : Exec Unit} (hx : Stays R x) : Stays R (proceed x) :=
  hx.bind fun _ => pure _

theorem jump {target : Nat} (hj : Admits R target) : Stays R (jump target) := by
  rintro ⟨⟨config, stack, frames, registry, position, status, ticks⟩, world⟩ hs
  unfold Exec.jump Exec.frame
  cases ht : frames.top? with
  | none =>
    simp only [bind_assoc, get_bind, ht]
    exact throw _ _ hs
  | some g =>
    simp only [bind_assoc, get_bind, ht, pure_bind]
    by_cases hle : target ≤ g.code.size
    · rw [if_pos hle]
      refine ⟨fun a s' h => ?_, fun e s' h => by cases h⟩
      cases h
      exact hj ht hle hs
    · rw [if_neg hle]
      exact throw _ _ hs

/-! ### Steps on operands -/

section

variable (hS : BlindToOperands R)
include hS

theorem onStack {f : OperandStack → Except RuntimeError (α × OperandStack)}
    (hf : ∀ s a s', f s = .ok (a, s') → s.Leads s') : Stays R (onStack f) := by
  rintro ⟨⟨config, stack, frames, registry, position, status, ticks⟩, world⟩ hs
  unfold Exec.onStack
  dsimp only
  split
  · rename_i a stack' heq
    refine ⟨fun a s' h => ?_, fun e s' h => by cases h⟩
    cases h
    exact hS (hf _ _ _ heq) hs
  · refine ⟨fun a s' h => (by cases h), fun e s' h => ?_⟩
    cases h
    exact hs

theorem push (v : Value) : Stays R (push v) :=
  onStack hS fun s a s' h => by
    cases hp : s.push v with
    | ok t =>
      rw [hp] at h
      cases h
      exact OperandStack.leads_push hp
    | error e =>
      rw [hp] at h
      cases h

theorem pop : Stays R pop :=
  onStack hS fun _ _ _ => OperandStack.leads_pop

theorem popN (n : Nat) : Stays R (popN n) :=
  onStack hS fun _ _ _ => OperandStack.leads_popN

theorem peek (distance : Nat) : Stays R (peek distance) :=
  onStack hS fun s a s' h => by
    cases hp : s.peek distance with
    | ok v =>
      rw [hp] at h
      cases h
      exact .of_le rfl (Nat.le_refl _)
    | error e =>
      rw [hp] at h
      cases h

theorem swap (distance : Nat) : Stays R (swap distance) :=
  onStack hS fun s a s' h => by
    cases hp : s.swap distance with
    | ok t =>
      rw [hp] at h
      cases h
      exact OperandStack.leads_swap hp
    | error e =>
      rw [hp] at h
      cases h

theorem truncate (size : Nat) : Stays R (truncate size) :=
  onStack hS fun s a s' h => by
    cases h
    exact s.leads_truncate size

theorem popOrNil : Stays R popOrNil :=
  get.bind fun _ => ite (pure _) (pop hS)

end

/-! ### Instructions -/

section

variable (hR : Blind R)
include hR

theorem setSlot (index : Word) (v : Value) : Stays R (setSlot index v) := by
  unfold Exec.setSlot Exec.modifyFrame
  exact onFrames fun h => hR.locals (fun _ => rfl) h

theorem onHeap {f : Heap → α × Heap} (hf : ∀ h, (f h).2.functions = h.functions) :
    Stays R (onHeap f) :=
  onWorld fun h => hR.heap (hf _) h

theorem onHeapOrRaise {f : Heap → Except Fault α × Heap}
    (hf : ∀ h, (f h).2.functions = h.functions) : Stays R (onHeapOrRaise f) :=
  (onHeap hR hf).bind fun r => by
    cases r with
    | ok a => exact pure a
    | error fault => exact throw _

omit hR in
/-- A value that was built is charged for, and so it changes the controls. -/
theorem pushBuilt (hS : BlindToOperands R) (hc : BlindToControls R) (ctx : Context) (v : Value) :
    Stays R (pushBuilt ctx v) := by
  refine (readHeap _).bind fun cost => .bind ?_ fun _ => push hS v
  refine .bind (onWorld fun h => ?_) fun r => ?_
  · exact hc h
  · cases r with
    | ok u => exact pure _
    | error e => exact throw _

omit hR in
theorem loadLocal (index : Word) : Stays R (loadLocal index) :=
  (slot index).bind fun v => by
    split
    · exact readHeap _
    · exact pure _

theorem storeLocal (index : Word) (v : Value) : Stays R (storeLocal index v) :=
  (slot index).bind fun u => by
    split
    · exact onHeap hR fun _ => rfl
    · exact setSlot hR _ _

theorem cellOf (index : Word) : Stays R (cellOf index) :=
  (slot index).bind fun v => by
    split
    · exact pure _
    · exact (onHeap hR fun _ => rfl).bind fun r => (setSlot hR _ _).bind fun _ => pure r

omit hR in
theorem asCell (v : Value) : Stays R (asCell v) := by
  unfold Exec.asCell
  split
  · exact pure _
  · exact (typeName _).bind fun _ => throw _

theorem bindClosure (index count : Word) : Stays R (bindClosure index count) := by
  refine (constant index).bind fun v => ?_
  have rest (r : Ref .function) : Stays R (do
      let cells ← (← Exec.popN count.toNat).mapM Exec.asCell
      return Value.closure (← Exec.onHeap (·.newClosure ⟨r, cells.toArray⟩))) :=
    (popN hR.stack _).bind fun vs => (mapM asCell vs).bind fun cells =>
      (onHeap hR fun _ => rfl).bind fun c => pure _
  dsimp only
  split
  · exact (pure _).bind rest
  · exact (readHeap _).bind rest
  · exact (throw _).bind rest

omit hR in
theorem entriesOf (flat : List Value) : Stays R (entriesOf flat) := by
  refine mapM (fun e => ?_) _
  obtain ⟨key, v⟩ := e
  dsimp only
  split
  · exact pure _
  · exact (typeName _).bind fun _ => throw _

theorem unpack (count : Nat) (v : Value) : Stays R (unpack count v) := by
  refine (readHeap _).bind fun r => ?_
  split
  · exact (typeName v).bind fun _ => throw _
  · rename_i items
    dsimp only
    split
    · exact (throw _).bind fun _ => forM _ (push hR.stack)
    · exact forM _ (push hR.stack)

omit hR in
theorem jumpBack {i : Instruction} (hj : Admits R (i.offset - i.first.toNat)) :
    Stays R (jumpBack i) := by
  unfold Exec.jumpBack
  dsimp only
  split
  · exact (throw _).bind fun _ => jump hj
  · exact jump hj

theorem jumpIf {i : Instruction} (truth : Bool) (hj : Admits R (i.offset + i.first.toNat)) :
    Stays R (jumpIf i truth) :=
  (pop hR.stack).bind fun _ => (readHeap _).bind fun _ => ite (jump hj) (pure _)

theorem startIteration : Stays R startIteration :=
  (pop hR.stack).bind fun v => (onHeap hR fun h => (h.sound_code.iterate v).code).bind fun r => by
    split
    · exact push hR.stack _
    · exact (typeName v).bind fun _ => throw _

theorem iteration {i : Instruction} (hj : Admits R (i.offset + i.first.toNat)) :
    Stays R (iteration i) := by
  refine (peek hR.stack 0).bind fun v => ?_
  split
  · rename_i r
    refine (onHeap hR fun h => (h.sound_code.next r).1.code).bind fun r => ?_
    split
    · rename_i key u
      have keys : Stays R (if 1 ≤ i.second then Exec.push key else Pure.pure ()) :=
        ite (push hR.stack _) (pure _)
      dsimp only
      split
      · exact (push hR.stack _).bind fun _ => keys
      · exact keys
    · exact (pop hR.stack).bind fun _ => jump hj
  · exact throw _

theorem pushBinary {f : Value → Value → Heap → Value × Heap}
    (hf : ∀ left right h, (f left right h).2.functions = h.functions) : Stays R (pushBinary f) :=
  (pop hR.stack).bind fun _ => (pop hR.stack).bind fun _ => (onHeap hR (hf _ _)).bind
    (push hR.stack)

/-- **What an instruction keeps** that neither leaves a frame nor stores into a global: every blind
property that survives its jump. -/
theorem execute (ctx : Context) {i : Instruction}
    (hj : ∀ target, i.target? = some target → Admits R target)
    (hb : i.op.builds = true → ∀ v, Stays R (Exec.pushBuilt ctx v)) (hret : i.op ≠ .returnValue)
    (hhalt : i.op ≠ .halt) (hstore : i.op ≠ .storeGlobal) : Stays R (execute ctx i) := by
  unfold Instruction.target? at hj
  unfold Exec.execute
  cases hop : i.op
  all_goals simp only [hop] at hj hb ⊢
  case nop => exact pure _
  case halt => exact absurd hop hhalt
  case call => exact (popN hR.stack _).bind fun _ => (pop hR.stack).bind fun _ => pure _
  case returnValue => exact absurd hop hret
  case jumpBackward => exact (jumpBack (hj _ rfl)).proceed
  case jumpForward => exact (jump (hj _ rfl)).proceed
  case popJumpForwardIfFalse => exact (jumpIf hR _ (hj _ rfl)).proceed
  case popJumpForwardIfTrue => exact (jumpIf hR _ (hj _ rfl)).proceed
  case loadAttr =>
    refine proceed ((name _).bind fun n => (pop hR.stack).bind fun object =>
      (onHeap hR fun h => (h.sound_code.getAttr object n).1.code).bind fun r => ?_)
    split
    · exact push hR.stack _
    · exact (typeName object).bind fun _ => throw _
  case loadFast => exact proceed ((loadLocal _).bind (push hR.stack))
  case loadFree => exact proceed ((captured _).bind fun _ => (readHeap _).bind (push hR.stack))
  case loadGlobal => exact proceed ((onWorld fun h => h).bind (push hR.stack))
  case loadConst => exact proceed ((constant _).bind (push hR.stack))
  case loadBuiltin => exact proceed (get.bind fun _ => (entry _ _).bind (push hR.stack))
  case storeAttr =>
    exact proceed ((name _).bind fun n => (pop hR.stack).bind fun object =>
      (pop hR.stack).bind fun v =>
      onHeapOrRaise hR fun h => (h.sound_code.setAttr object n v).code)
  case storeFast => exact proceed ((pop hR.stack).bind (storeLocal hR _))
  case storeFree =>
    exact proceed ((pop hR.stack).bind fun _ => (captured _).bind fun _ => onHeap hR fun _ => rfl)
  case storeGlobal => exact absurd hop hstore
  case binaryOp =>
    exact proceed ((entry _ _).bind fun op => pushBinary hR fun left right h =>
      ((h.sound_code.binary op trivial trivial).2.code : (h.binary op left right).2.functions = _))
  case compareOp => exact proceed ((entry _ _).bind fun _ => pushBinary hR fun _ _ _ => rfl)
  case unaryNegative =>
    exact proceed ((pop hR.stack).bind fun _ => (readHeap _).bind (push hR.stack))
  case unaryNot =>
    exact proceed ((pop hR.stack).bind fun _ => (readHeap _).bind fun _ => push hR.stack _)
  case buildList =>
    exact proceed ((popN hR.stack _).bind fun _ => (onHeap hR fun _ => rfl).bind (hb rfl))
  case buildMap =>
    exact proceed ((popN hR.stack _).bind fun vs => (entriesOf vs).bind fun _ =>
      (onHeap hR fun _ => rfl).bind (hb rfl))
  case buildSet =>
    exact proceed ((popN hR.stack _).bind fun vs =>
      (onHeapOrRaise hR fun h => (h.sound_code.buildSet vs).1.code).bind (hb rfl))
  case buildString =>
    exact proceed ((popN hR.stack _).bind fun _ => (readHeap _).bind fun _ => hb rfl _)
  case binarySubscr =>
    exact proceed ((pop hR.stack).bind fun _ => (pop hR.stack).bind fun _ =>
      (readHeap _).bind (push hR.stack))
  case storeSubscr =>
    exact proceed ((pop hR.stack).bind fun index => (pop hR.stack).bind fun object =>
      (pop hR.stack).bind fun v =>
      onHeapOrRaise hR fun h => (h.sound_code.setItem object index (v := v) trivial).code)
  case containsOp =>
    refine proceed
      ((pop hR.stack).bind fun _ => (pop hR.stack).bind fun _ => (readHeap _).bind fun v => ?_)
    split
    · exact push hR.stack _
    · exact push hR.stack _
  case length => exact proceed ((pop hR.stack).bind fun _ => (readHeap _).bind (push hR.stack))
  case slice =>
    exact proceed ((pop hR.stack).bind fun start => (pop hR.stack).bind fun stop =>
      (pop hR.stack).bind fun object =>
      (onHeap hR fun h => (h.sound_code.slice object start stop).2.code).bind (push hR.stack))
  case unpack => exact proceed ((pop hR.stack).bind (unpack hR _))
  case swap => exact (swap hR.stack _).proceed
  case copy => exact proceed ((peek hR.stack _).bind (push hR.stack))
  case popTop => exact proceed ((pop hR.stack).bind fun _ => pure _)
  case pushNil => exact (push hR.stack _).proceed
  case pushFalse => exact (push hR.stack _).proceed
  case pushTrue => exact (push hR.stack _).proceed
  case forIter => exact (iteration hR (hj _ rfl)).proceed
  case getIter => exact (startIteration hR).proceed
  case loadClosure => exact proceed ((bindClosure hR _ _).bind (push hR.stack))
  case makeCell =>
    refine proceed ?_
    split
    · exact (cellOf hR _).bind fun _ => push hR.stack _
    · exact (captured _).bind fun _ => push hR.stack _
    · exact throw _
  case bindPartial =>
    exact proceed ((popN hR.stack _).bind fun _ => (pop hR.stack).bind fun _ =>
      (onHeap hR fun _ => rfl).bind fun _ => push hR.stack _)

end

end Stays

/-! ### Turns of the dispatch loop -/

/-- A property that is blind to the status. -/
def BlindToStatus (R : State → Prop) : Prop :=
  ∀ {m : Machine} {w : World} {status : Status}, R ⟨m, w⟩ → R ⟨{ m with status }, w⟩

/-- **A property that survives every instruction but a halt** in which nothing is charged for: it is
blind to most of what instructions work on and to the globals, and survives jumps and frames that
are left. -/
structure Lasting (R : State → Prop) : Prop extends Blind R where
  admits (target : Nat) : Admits R target
  frames {m : Machine} {w : World} {frames : Stack Frame}
    (hf : frames.items <:+ m.frames.items) (h : R ⟨m, w⟩) : R ⟨{ m with frames }, w⟩
  globals {m : Machine} {w : World} {globals : Array Value} (h : R ⟨m, w⟩) :
    R ⟨m, { w with globals }⟩

/-- **A property that survives every turn of the dispatch loop** in which nothing is charged for: it
is lasting, and blind to the status and the ticks. -/
structure Robust (R : State → Prop) : Prop extends Lasting R where
  status {m : Machine} {w : World} {status : Status} (h : R ⟨m, w⟩) : R ⟨{ m with status }, w⟩
  ticks {m : Machine} {w : World} {ticks : UInt32} (h : R ⟨m, w⟩) : R ⟨{ m with ticks }, w⟩

namespace Stays

variable {R : State → Prop}

section

variable (hR : Lasting R)
include hR

theorem dropFrame {α : Type} (f : Stack Frame → α) :
    Stays R (Exec.onFrames fun frames => (f frames, frames.truncate (frames.size - 1))) := by
  refine onFrames fun {m} {w} h => hR.frames ?_ h
  rw [Stack.items_truncate]
  exact List.drop_suffix _ _

theorem leaveFrame (v : Value) : Stays R (leaveFrame v) := by
  refine (dropFrame hR _).bind fun r => ?_
  split
  · exact throw _
  · refine (truncate hR.stack _).bind fun _ => ?_
    split
    · exact pure _
    · exact (push hR.stack v).bind fun _ => pure _

theorem halt (hs : BlindToStatus R) : Stays R halt := by
  refine (popOrNil hR.stack).bind fun v => .bind ?_ fun _ => .bind ?_ fun _ => pure _
  · exact onFrames fun h => hR.frames (List.nil_suffix) h
  · rintro ⟨⟨config, stack, frames, registry, position, status, ticks⟩, world⟩ h
    refine ⟨fun a s' heq => ?_, fun e s' heq => by cases heq⟩
    cases heq
    exact hs h

theorem endProgram (g : Frame) : Stays R (endProgram g) := by
  have cut (v : Value) : Stays R (do
      Exec.truncate g.base
      return Flow.leave v) :=
    (truncate hR.stack _).bind fun _ => pure _
  refine (dropFrame hR _).bind fun _ => get.bind fun s => ?_
  dsimp only
  split
  · exact (pop hR.stack).bind cut
  · exact (pure _).bind cut

theorem anyExecute (ctx : Context) {i : Instruction} (hs : i.op = .halt → BlindToStatus R)
    (hb : i.op.builds = true → ∀ v, Stays R (Exec.pushBuilt ctx v)) :
    Stays R (Exec.execute ctx i) := by
  by_cases hret : i.op = .returnValue
  · unfold Exec.execute
    simp only [hret]
    split
    · exact (pure _).bind (leaveFrame hR)
    · exact (pop hR.stack).bind (leaveFrame hR)
  by_cases hhalt : i.op = .halt
  · have hs : BlindToStatus R := hs hhalt
    unfold Exec.execute
    simp only [hhalt]
    exact halt hR hs
  by_cases hstore : i.op = .storeGlobal
  · unfold Exec.execute
    simp only [hstore]
    exact ((pop hR.stack).bind fun _ => onWorld fun {m w} h =>
      hR.globals (m := m) (w := w) h).proceed
  · exact execute hR.toBlind ctx (fun target _ => hR.admits target) hb hret hhalt hstore

/-- The instruction of a turn, which may be a halt or one that builds a value if the property
survives that. -/
theorem fetchAndExecute (ctx : Context) {s : State} (hs : R s)
    (hh : ∀ g i, s.machine.frames.top? = some g → g.ip < g.code.size →
      g.code.fetch g.ip = .ok i → i.op = .halt → BlindToStatus R)
    (hb : ∀ g i, s.machine.frames.top? = some g → g.ip < g.code.size →
      g.code.fetch g.ip = .ok i → i.op.builds = true → ∀ v, Stays R (Exec.pushBuilt ctx v)) :
    Ensures (· = s) (fetchAndExecute ctx) (fun _ => R) fun _ => R := by
  refine .get ?_
  rintro _ rfl
  rename_i s
  have here : ∀ t, t = s → R t := fun t ht => ht ▸ hs
  cases htop : s.machine.frames.top? with
  | none =>
    exact ((popOrNil hR.stack).bind fun _ => pure _).mono here (fun _ _ h => h) fun _ _ h => h
  | some g =>
    dsimp only
    by_cases hlt : g.ip < g.code.size
    · rw [if_pos hlt]
      cases hfetch : g.code.fetch g.ip with
      | error e => exact (throw e).mono here (fun _ _ h => h) fun _ _ h => h
      | ok i =>
        refine Ensures.bind (Q := fun _ => R) ?_ fun _ =>
          anyExecute hR ctx (hh g i htop hlt hfetch) (hb g i htop hlt hfetch)
        rintro _ rfl
        obtain ⟨⟨config, stack, frames, registry, position, status, ticks⟩, world⟩ := ‹State›
        refine ⟨fun a s' h => ?_, fun e s' h => by cases h⟩
        cases h
        exact hR.admits i.stop htop (Code.of_fetch hfetch).2.2 hs
    · rw [if_neg hlt]
      split
      · exact (throw _).mono here (fun _ _ h => h) fun _ _ h => h
      · exact (endProgram hR g).mono here (fun _ _ h => h) fun _ _ h => h

end

variable (hR : Robust R)
include hR

theorem tick : Stays R tick := by
  rintro ⟨⟨config, stack, frames, registry, position, status, ticks⟩, world⟩ hs
  refine ⟨fun a s' h => ?_, fun e s' h => by cases h⟩
  cases h
  exact hR.ticks hs

/-- **What every turn of the dispatch loop keeps.** -/
theorem turn_of_built (ctx : Context) (hb : ∀ v, Stays R (Exec.pushBuilt ctx v)) :
    Stays R (turn ctx) := by
  have rest : Stays R (Exec.fetchAndExecute ctx) := fun s hs =>
    fetchAndExecute hR.toLasting ctx hs (fun _ _ _ _ _ _ => hR.status)
      (fun _ _ _ _ _ _ => hb) s rfl
  refine (observe _).bind fun _ => (tick hR).bind fun late => ?_
  dsimp only
  split
  · exact (observe _).bind fun _ => rest
  · exact rest

/-- The same for a property that is blind to the controls. -/
theorem turn (hc : BlindToControls R) (ctx : Context) : Stays R (turn ctx) :=
  turn_of_built hR ctx (pushBuilt hR.stack hc ctx)

end Stays

end Exec

/-! ### Machines at work -/

/-- **Machines that differ in their stacks, their status and their ticks only.** -/
structure Machine.Same (m m' : Machine) : Prop where
  config : m'.config = m.config
  limit : m'.stack.limit = m.stack.limit
  registry : m'.registry = m.registry
  position : m'.position = m.position

namespace Machine.Same

theorem refl (m : Machine) : m.Same m :=
  ⟨rfl, rfl, rfl, rfl⟩

theorem trans {m₁ m₂ m₃ : Machine} (h : m₁.Same m₂) (h' : m₂.Same m₃) : m₁.Same m₃ :=
  ⟨h'.config.trans h.config, h'.limit.trans h.limit, h'.registry.trans h.registry,
    h'.position.trans h.position⟩

/-- To be the same as a machine survives every turn. -/
theorem robust (m : Machine) : Exec.Robust fun s => m.Same s.machine where
  stack hl h := ⟨h.config, hl.limit.trans h.limit, h.registry, h.position⟩
  heap _ h := h
  locals _ h := ⟨h.config, h.limit, h.registry, h.position⟩
  admits _ _ _ _ _ _ h := ⟨h.config, h.limit, h.registry, h.position⟩
  frames _ h := ⟨h.config, h.limit, h.registry, h.position⟩
  status h := ⟨h.config, h.limit, h.registry, h.position⟩
  ticks h := ⟨h.config, h.limit, h.registry, h.position⟩
  globals h := h

end Machine.Same

/-- The end of a call of the host leaves a machine the same. -/
theorem Machine.same_leaveCall (m : Machine) (c : Checkpoint) (failed : Bool) :
    m.Same (m.leaveCall c failed) := by
  refine ⟨rfl, ?_, rfl, rfl⟩
  show (if _ then m.stack.truncate _ else m.stack).limit = _
  split <;> rfl

namespace Fiber

/-- A step does not change what a fiber was started for, nor its context. -/
theorem goal_step (host : Host) (world : World) (f : Fiber) :
    (f.step host world).2.1.goal = f.goal ∧ (f.step host world).2.1.ctx = f.ctx := by
  obtain ⟨m, ctx, control, pending, goal⟩ := f
  cases control with
  | dispatch =>
    simp only [Fiber.step, Fiber.dispatch]
    split <;> exact ⟨rfl, rfl⟩
  | invoke callee args entry =>
    simp only [Fiber.step, Fiber.invoke]
    split
    · exact ⟨rfl, rfl⟩
    split
    · exact ⟨rfl, rfl⟩
    · exact ⟨rfl, rfl⟩
    · split
      · exact ⟨rfl, rfl⟩
      · split <;> exact ⟨rfl, rfl⟩
  | activity a =>
    cases a with
    | block operation next =>
      simp only [Fiber.step, Fiber.act]
      split <;> exact ⟨rfl, rfl⟩
    | _ => exact ⟨rfl, rfl⟩
  | deliver o =>
    simp only [Fiber.step, Fiber.deliver]
    split
    · split <;> exact ⟨rfl, rfl⟩
    · exact ⟨rfl, rfl⟩
    · exact ⟨rfl, rfl⟩
    · split <;> exact ⟨rfl, rfl⟩
  | finished o => exact ⟨rfl, rfl⟩

/-- **Every step of a fiber** leaves the machine the same, unless it ends the run of a program. -/
theorem same_step (host : Host) (world : World) (f : Fiber)
    (hd : f.pending = [] → ∀ o, f.control = .deliver o → ∃ c, f.goal = .call c) :
    f.machine.Same (f.step host world).2.1.machine := by
  obtain ⟨m, ctx, control, pending, goal⟩ := f
  cases control with
  | dispatch =>
    obtain ⟨hok, herr⟩ := Exec.Stays.turn (Machine.Same.robust m) (fun h => h) ctx ⟨m, world⟩
      (.refl m)
    simp only [Fiber.step, Fiber.dispatch]
    cases ht : Exec.turn ctx ⟨m, world⟩ with
    | ok flow s =>
      have := hok _ _ ht
      cases flow <;> simpa only [ht] using this
    | error e s =>
      have := herr _ _ ht
      simpa only [ht] using this
  | invoke callee args entry =>
    simp only [Fiber.step, Fiber.invoke]
    split
    · exact .refl m
    split
    · exact .refl m
    · exact .refl m
    · split
      · exact .refl m
      · split
        · rename_i m' hm
          obtain ⟨-, -, -, rfl⟩ := Machine.pushCall_eq_ok hm
          exact ⟨rfl, rfl, rfl, rfl⟩
        · exact .refl m
  | activity a =>
    cases a with
    | call callee args next => exact ⟨rfl, rfl, rfl, rfl⟩
    | block operation next =>
      simp only [Fiber.step, Fiber.act]
      split <;> exact .refl m
    | _ => exact .refl m
  | deliver o =>
    simp only [Fiber.step, Fiber.deliver]
    split
    · split
      · rename_i stack hs
        unfold OperandStack.push at hs
        dsimp only at hs
        split at hs
        · cases hs
          exact ⟨rfl, rfl, rfl, rfl⟩
        · cases hs
      · exact .refl m
    · exact .refl m
    · exact m.same_leaveCall _ _
    · obtain ⟨c, rfl⟩ := hd rfl o rfl
      exact m.same_leaveCall c _
  | finished o => exact .refl m

end Fiber

end ScriptEngine
