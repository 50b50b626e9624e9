import ScriptEngine.Proofs.Heap.Cells
import ScriptEngine.Proofs.Heap.Operations
import ScriptEngine.Proofs.Machine.Executions

/-!
# Values that a machine handles

An instruction takes its operands from the stack and leaves its result there. If all values that a
machine can reach obey a discipline, so do those that it works with. The instructions that make a
cell, write to one or bind a function to some are the exceptions, which are looked at apart.

## Main definitions

* `ScriptEngine.Exec.Under`: all that a machine can reach obeys a discipline;
* `ScriptEngine.Exec.Gives`: steps that keep it so, and yield a result of a certain kind;
* `ScriptEngine.Opcode.isCellular`: the instructions that work on cells.

## Main results

* `ScriptEngine.Exec.Gives.execute`: the other instructions keep it so.
-/

namespace ScriptEngine

/-- What an instruction hands on obeys a discipline. -/
def Flow.Sound (D : Discipline) (w : D.Stage) : Flow → Prop
  | .next => True
  | .leave v => D.value w v
  | .invoke callee args => D.value w callee ∧ D.values w args

/-- **The instructions that work on cells**: they make one, write to one or bind a function to
some. -/
def Opcode.isCellular : Opcode → Bool
  | .storeFast | .storeFree | .makeCell | .loadClosure => true
  | _ => false

/-- A content of a slot: a value that obeys a discipline, or a cell. -/
def Discipline.slot (D : Discipline) (w : D.Stage) (v : Value) : Prop :=
  D.value w v ∨ ∃ r, v = .cell r

namespace Exec

/-- **All that a machine can reach obeys a discipline**, with the given cells in the heap and the
given frame on top of the others, wherever it has come to. -/
structure Under (D : Discipline) (w : D.Stage) (cells : Array Value) (frames : List Frame → Prop)
    (s : State) : Prop where
  frames : frames s.machine.frames.items
  stack : D.values w s.machine.stack.toList
  heap : s.world.heap.Sound D w
  cells : s.world.heap.cells = cells
  globals : ∀ v ∈ s.world.globals, D.value w v
  registry : ∀ e ∈ s.machine.registry.entries, D.value w e.2

/-- A frame on top of the others, wherever it has come to. -/
def OnTop (f : Frame) (fs gs : List Frame) : Prop :=
  ∃ ip, gs = { f with ip } :: fs

/-- **Steps that keep to a discipline**, with a result of a certain kind. -/
def Gives (D : Discipline) (w : D.Stage) (cells : Array Value) (frames : List Frame → Prop)
    {α : Type} (x : Exec α) (A : α → Prop) : Prop :=
  Ensures (Under D w cells frames) x (fun a s => A a ∧ Under D w cells frames s)
    fun _ => Under D w cells frames

variable {D : Discipline} {w : D.Stage} {cells : Array Value} {P : List Frame → Prop} {f : Frame}
  {fs : List Frame} {α β : Type}

namespace Gives

variable {A : α → Prop} {B : β → Prop}

theorem bind {x : Exec α} {g : α → Exec β} (hx : Gives D w cells P x A)
    (hg : ∀ a, A a → Gives D w cells P (g a) B) : Gives D w cells P (x >>= g) B :=
  Ensures.bind hx fun a s hs => hg a hs.1 s hs.2

theorem pure {a : α} (ha : A a) : Gives D w cells P (pure a) A :=
  Ensures.pure fun _ hs => ⟨ha, hs⟩

theorem throw (e : RuntimeError) : Gives D w cells P (throw e : Exec α) A :=
  Ensures.throw fun _ hs => hs

theorem get {g : State → Exec β} (hg : ∀ s, Under D w cells P s → Gives D w cells P (g s) B) :
    Gives D w cells P (MonadState.get >>= g) B :=
  Ensures.get fun s hs => Ensures.mono (hg s hs) (fun _ ht => ht ▸ hs)
    (fun _ _ h => h) fun _ _ h => h

theorem ite {p : Prop} [Decidable p] {x y : Exec α} (hx : p → Gives D w cells P x A)
    (hy : ¬p → Gives D w cells P y A) : Gives D w cells P (if p then x else y) A := by
  split
  · exact hx ‹_›
  · exact hy ‹_›

theorem proceed {x : Exec Unit} {B : Unit → Prop} (hx : Gives D w cells P x B) :
    Gives D w cells P (Exec.proceed x) (Flow.Sound D w) :=
  hx.bind fun _ _ => pure trivial

theorem forM {γ : Type} {g : γ → Exec PUnit} : ∀ {l : List γ},
    (∀ c ∈ l, Gives D w cells P (g c) fun _ => True) → Gives D w cells P (l.forM g) fun _ => True
  | [], _ => pure trivial
  | c :: _, h => (h c (List.mem_cons_self ..)).bind fun _ _ =>
      forM fun d hd => h d (List.mem_cons_of_mem c hd)

theorem mapM {γ : Type} {g : γ → Exec α} : ∀ {l : List γ}, (∀ c ∈ l, Gives D w cells P (g c) A) →
    Gives D w cells P (l.mapM g) fun as => ∀ a ∈ as, A a
  | [], _ => by
    rw [List.mapM_nil]
    exact pure nofun
  | c :: l, h => by
    rw [List.mapM_cons]
    refine (h c (List.mem_cons_self ..)).bind fun a ha =>
      (mapM fun d hd => h d (List.mem_cons_of_mem c hd)).bind fun as has => pure fun b hb => ?_
    rcases List.mem_cons.mp hb with rfl | hb
    · exact ha
    · exact has b hb

theorem entry {x : Option α} (missing : InternalFault) (h : ∀ a, x = some a → A a) :
    Gives D w cells P (Exec.entry x missing) A := by
  unfold Exec.entry
  split
  · exact pure (h _ rfl)
  · exact throw _

/-! ### Operands -/

/-- A step on the operand stack. -/
theorem onStack {g : OperandStack → Except RuntimeError (α × OperandStack)}
    (h : ∀ st a st', D.values w st.toList → g st = .ok (a, st') → A a ∧ D.values w st'.toList) :
    Gives D w cells P (Exec.onStack g) A := by
  rintro ⟨⟨config, stack, frames, registry, position, status, ticks⟩, world⟩ hs
  unfold Exec.onStack
  dsimp only
  cases hg : g stack with
  | ok r =>
    obtain ⟨a, st'⟩ := r
    refine ⟨fun b s' hb => ?_, fun e s' hb => by cases hb⟩
    cases hb
    obtain ⟨ha, hst⟩ := h stack a st' hs.stack hg
    exact ⟨ha, hs.frames, hst, hs.heap, hs.cells, hs.globals, hs.registry⟩
  | error e =>
    refine ⟨fun b s' hb => (by cases hb), fun e' s' hb => ?_⟩
    cases hb
    exact hs

theorem push {v : Value} (hv : D.value w v) : Gives D w cells P (Exec.push v) fun _ => True := by
  refine onStack fun st a st' hst h => ⟨trivial, ?_⟩
  cases hp : st.push v with
  | ok t =>
    rw [hp] at h
    cases h
    rw [OperandStack.toList_push hp]
    exact Discipline.values_cons.mpr ⟨hv, hst⟩
  | error e =>
    rw [hp] at h
    cases h

theorem pop : Gives D w cells P Exec.pop (D.value w) := by
  refine onStack fun st v st' hst h => ?_
  obtain ⟨⟨_ | ⟨u, items⟩, size, hsize⟩, limit⟩ := st
  · cases h
  · cases h
    exact Discipline.values_cons.mp hst

theorem popN (n : Nat) : Gives D w cells P (Exec.popN n) (D.values w) := by
  refine onStack fun st vs st' hst h => ?_
  unfold OperandStack.popN at h
  dsimp only at h
  split at h
  · cases h
    refine ⟨(hst.take n).reverse, fun v hv => ?_⟩
    have hv : v ∈ (st.contents.truncate (st.contents.size - n)).items := hv
    rw [Stack.items_truncate] at hv
    exact hst v (List.mem_of_mem_drop hv)
  · cases h

theorem peek (n : Nat) : Gives D w cells P (Exec.peek n) (D.value w) := by
  refine onStack fun st v st' hst h => ?_
  unfold OperandStack.peek at h
  split at h
  · rename_i u hu
    cases h
    exact ⟨hst _ (List.mem_of_getElem? hu), hst⟩
  · cases h

theorem swap (n : Nat) : Gives D w cells P (Exec.swap n) fun _ => True := by
  refine onStack fun st a st' hst h => ⟨trivial, ?_⟩
  obtain ⟨⟨items, size, rfl⟩, limit⟩ := st
  cases hs : OperandStack.swap ⟨⟨items, items.length, rfl⟩, limit⟩ n with
  | error e =>
    rw [hs] at h
    cases h
  | ok t =>
    rw [hs] at h
    cases h
    unfold OperandStack.swap at hs
    split at hs
    · cases hs
    · rename_i top rest heq
      obtain rfl : items = top :: rest := heq
      obtain ⟨htop, hrest⟩ := Discipline.values_cons.mp hst
      split at hs
      · cases hs
        exact hst
      · split at hs
        · cases hs
        · rename_i v hv
          cases hs
          refine Discipline.values_cons.mpr ⟨hrest _ (List.mem_of_getElem? hv), fun u hu => ?_⟩
          rcases List.mem_or_eq_of_mem_set hu with hu | rfl
          · exact hrest u hu
          · exact htop

theorem truncate (n : Nat) : Gives D w cells P (Exec.truncate n) fun _ => True := by
  refine onStack fun st a st' hst h => ⟨trivial, fun v hv => ?_⟩
  cases h
  have hv : v ∈ (st.contents.truncate n).items := hv
  rw [Stack.items_truncate] at hv
  exact hst v (List.mem_of_mem_drop hv)

theorem popOrNil : Gives D w cells P Exec.popOrNil (D.value w) :=
  get fun _ _ => ite (fun _ => pure (D.data rfl)) fun _ => pop

/-! ### The world -/

/-- A step on the world. -/
theorem onWorld {g : World → α × World}
    (h : ∀ world : World, world.heap.Sound D w → world.heap.cells = cells →
      (∀ v ∈ world.globals, D.value w v) → A (g world).1 ∧ (g world).2.heap.Sound D w ∧
        (g world).2.heap.cells = cells ∧ ∀ v ∈ (g world).2.globals, D.value w v) :
    Gives D w cells P (Exec.onWorld g) A := by
  rintro ⟨machine, world⟩ hs
  refine ⟨fun a s' heq => ?_, fun e s' heq => by cases heq⟩
  cases heq
  obtain ⟨ha, hheap, hcells, hglobals⟩ := h world hs.heap hs.cells hs.globals
  exact ⟨ha, hs.frames, hs.stack, hheap, hcells, hglobals, hs.registry⟩

/-- A step on the heap that leaves the cells as they are. -/
theorem onHeap {g : Heap → α × Heap} (hg : Heap.Spares g)
    (h : ∀ heap : Heap, heap.Sound D w → A (g heap).1 ∧ (g heap).2.Sound D w) :
    Gives D w cells P (Exec.onHeap g) A :=
  onWorld fun world hheap hcells hglobals =>
    ⟨(h world.heap hheap).1, (h world.heap hheap).2, (hg world.heap).trans hcells, hglobals⟩

theorem readHeap {g : Heap → α} (h : ∀ heap : Heap, heap.Sound D w → A (g heap)) :
    Gives D w cells P (Exec.readHeap g) A :=
  onHeap (fun _ => rfl) fun heap hheap => ⟨h heap hheap, hheap⟩

/-- Plain data that is read off the heap. -/
theorem readData {g : Heap → Value} (h : ∀ heap, (g heap).isData = true) :
    Gives D w cells P (Exec.readHeap g) (D.value w) :=
  readHeap fun heap _ => D.data (h heap)

theorem onHeapOrRaise {g : Heap → Except Fault α × Heap} (hg : Heap.Spares g)
    (h : ∀ heap : Heap, heap.Sound D w → (g heap).2.Sound D w ∧ ∀ a, (g heap).1 = .ok a → A a) :
    Gives D w cells P (Exec.onHeapOrRaise g) A := by
  refine (onHeap (A := fun r => ∀ a, r = .ok a → A a) hg fun heap hheap =>
    ⟨(h heap hheap).2, (h heap hheap).1⟩).bind fun r hr => ?_
  cases r with
  | ok a => exact pure (hr a rfl)
  | error fault => exact throw _

theorem typeName (v : Value) : Gives D w cells P (Exec.typeName v) fun _ => True :=
  readHeap fun _ _ => trivial

/-- A value that was built is charged for. -/
theorem pushBuilt (ctx : Context) {v : Value} (hv : D.value w v) :
    Gives D w cells P (Exec.pushBuilt ctx v) fun _ => True := by
  refine (readHeap (A := fun _ => True) fun _ _ => trivial).bind fun cost _ =>
    .bind (A := fun _ => True) ?_ fun _ _ => push hv
  refine (onWorld (A := fun _ => True) fun world hheap hcells hglobals =>
    ⟨trivial, hheap, hcells, hglobals⟩).bind fun r _ => ?_
  cases r with
  | ok u => exact pure trivial
  | error e => exact throw _

/-! ### The innermost frame -/

theorem frame : Gives D w cells (OnTop f fs) Exec.frame fun g => ∃ ip, g = { f with ip } := by
  refine get fun s hs => ?_
  obtain ⟨ip, hip⟩ := hs.frames
  have htop : s.machine.frames.top? = some { f with ip } := by
    unfold Stack.top?
    rw [hip]
    rfl
  rw [htop]
  exact pure ⟨ip, rfl⟩

theorem modifyFrame {g : Frame → Frame} (hg : ∀ ip, ∃ ip', g { f with ip } = { f with ip := ip' }) :
    Gives D w cells (OnTop f fs) (Exec.modifyFrame g) fun _ => True := by
  rintro ⟨⟨config, stack, frames, registry, position, status, ticks⟩, world⟩ hs
  refine ⟨fun a s' heq => ?_, fun e s' heq => by cases heq⟩
  cases heq
  obtain ⟨ip, hip⟩ := hs.frames
  obtain ⟨ip', hg⟩ := hg ip
  exact ⟨trivial, ⟨ip', (Stack.items_mapTop g frames hip).trans (by rw [hg])⟩, hs.stack, hs.heap,
    hs.cells, hs.globals, hs.registry⟩

theorem jump (target : Nat) : Gives D w cells (OnTop f fs) (Exec.jump target) fun _ => True :=
  frame.bind fun _ _ => ite (fun _ => modifyFrame fun _ => ⟨target, rfl⟩) fun _ => throw _

theorem slot (hl : ∀ v ∈ f.locals, D.slot w v) (index : Word) :
    Gives D w cells (OnTop f fs) (Exec.slot index) (D.slot w) :=
  frame.bind fun g hg => entry _ fun v hv => by
    obtain ⟨ip, rfl⟩ := hg
    exact hl v (Array.mem_of_getElem? hv)

theorem constant (hk : ∀ v ∈ f.code.constants, D.value w v) (index : Word) :
    Gives D w cells (OnTop f fs) (Exec.constant index) (D.value w) :=
  frame.bind fun g hg => entry _ fun v hv => by
    obtain ⟨ip, rfl⟩ := hg
    exact hk v (Array.mem_of_getElem? hv)

theorem captured (index : Word) :
    Gives D w cells (OnTop f fs) (Exec.captured index) fun _ => True :=
  frame.bind fun _ _ => entry _ fun _ _ => trivial

theorem name (index : Word) : Gives D w cells (OnTop f fs) (Exec.name index) fun _ => True :=
  frame.bind fun _ _ => entry _ fun _ _ => trivial

theorem loadLocal (hl : ∀ v ∈ f.locals, D.slot w v) (index : Word) :
    Gives D w cells (OnTop f fs) (Exec.loadLocal index) (D.value w) :=
  (slot hl index).bind fun v hv => by
    split
    · exact readHeap fun heap hheap => hheap.cell _
    · rename_i hcell
      exact pure (hv.resolve_right fun ⟨r, hr⟩ => hcell r hr)

/-! ### Containers and control -/

theorem mem_pairs {γ : Type} : ∀ {l : List γ} {e : γ × γ}, e ∈ pairs l → e.2 ∈ l
  | x :: y :: rest, e, h => by
    rcases List.mem_cons.mp h with rfl | h
    · exact List.mem_cons_of_mem _ List.mem_cons_self
    · exact List.mem_cons_of_mem _ (List.mem_cons_of_mem _ (mem_pairs h))

theorem entriesOf {flat : List Value} (hv : D.values w flat) :
    Gives D w cells P (Exec.entriesOf flat) fun es => ∀ e ∈ es, D.value w e.2 := by
  refine mapM fun e he => ?_
  obtain ⟨key, v⟩ := e
  have hv : D.value w v := hv v (mem_pairs he)
  dsimp only
  split
  · exact pure hv
  · exact (typeName _).bind fun _ _ => throw _

theorem unpack (count : Nat) (v : Value) :
    Gives D w cells P (Exec.unpack count v) fun _ => True := by
  refine (readHeap (A := fun items => ∀ vs, items = some vs → D.values w vs)
    fun heap hheap vs hvs => hheap.items? hvs).bind fun items hitems => ?_
  cases items with
  | none => exact (typeName v).bind fun _ _ => throw _
  | some items =>
    have all : Gives D w cells P (items.forM Exec.push) fun _ => True :=
      forM fun u hu => push (hitems items rfl u hu)
    dsimp only
    exact ite (fun _ => (throw _ : Gives D w cells P _ fun _ => True).bind fun _ _ =>
      all) fun _ => all

theorem jumpBack (i : Instruction) :
    Gives D w cells (OnTop f fs) (Exec.jumpBack i) fun _ => True := by
  unfold Exec.jumpBack
  exact ite (fun _ => (throw _ : Gives D w cells _ _ fun _ => True).bind fun _ _ => jump _)
    fun _ => jump _

theorem jumpIf (i : Instruction) (truth : Bool) :
    Gives D w cells (OnTop f fs) (Exec.jumpIf i truth) fun _ => True :=
  pop.bind fun _ _ => (readHeap (A := fun _ => True) fun _ _ => trivial).bind fun _ _ =>
    ite (fun _ => jump _) fun _ => pure trivial

theorem iteration (i : Instruction) :
    Gives D w cells (OnTop f fs) (Exec.iteration i) fun _ => True := by
  refine (peek 0).bind fun v _ => ?_
  cases v with
  | iter r =>
    refine (onHeap (A := fun e => ∀ key v, e = some (key, v) → D.value w key ∧ D.value w v)
      (Heap.spares_next r) fun heap hheap => ⟨(hheap.next r).2, (hheap.next r).1⟩).bind
        fun e he => ?_
    cases e with
    | none => exact pop.bind fun _ _ => jump _
    | some e =>
      obtain ⟨hkey, hv⟩ := he e.1 e.2 rfl
      have rest : Gives D w cells (OnTop f fs)
          (if 1 ≤ i.second then Exec.push e.1 else Pure.pure ())
          fun _ => True := ite (fun _ => push hkey) fun _ => pure trivial
      exact ite (fun _ => (push hv).bind fun _ _ => rest) fun _ => rest
  | _ => exact throw _

theorem startIteration (hi : ∀ r, D.value w (.iter r)) :
    Gives D w cells P Exec.startIteration fun _ => True := by
  refine pop.bind fun v _ => (onHeap (A := fun _ => True) (Heap.spares_iterate v) fun heap hheap =>
    ⟨trivial, hheap.iterate v⟩).bind fun r _ => ?_
  cases r with
  | some r => exact push (hi r)
  | none => exact (typeName v).bind fun _ _ => throw _

theorem pushBinary {g : Value → Value → Heap → Value × Heap}
    (hg : ∀ left right, Heap.Spares (g left right))
    (h : ∀ left right, D.value w left → D.value w right → ∀ heap : Heap, heap.Sound D w →
      D.Yields w (g left right heap)) : Gives D w cells P (Exec.pushBinary g) fun _ => True :=
  pop.bind fun right hr => pop.bind fun left hl =>
    (onHeap (hg left right) (h left right hl hr)).bind fun _ hv => push hv

/-- A result of the heap that is pushed. -/
theorem pushRead {g : Heap → Value} (h : ∀ heap : Heap, heap.Sound D w → D.value w (g heap)) :
    Gives D w cells P (do Exec.push (← Exec.readHeap g)) fun _ => True :=
  (readHeap h).bind fun _ hv => push hv

/-- **The instructions that leave no frame and do not work on cells.** -/
theorem execute (ctx : Context) {i : Instruction} (hi : ∀ r, D.value w (.iter r))
    (hl : ∀ v ∈ f.locals, D.slot w v) (hk : ∀ v ∈ f.code.constants, D.value w v)
    (hc : i.op.isCellular = false) (hret : i.op ≠ .returnValue) (hhalt : i.op ≠ .halt) :
    Gives D w cells (OnTop f fs) (Exec.execute ctx i) (Flow.Sound D w) := by
  -- one case for each instruction: what it takes is sound, the heap answers with sound values
  -- only, and these it puts back; those that work on cells have lemmas of their own
  unfold Exec.execute
  cases hop : i.op
  all_goals simp only [hop] at hc ⊢
  case halt => exact absurd hop hhalt
  case returnValue => exact absurd hop hret
  case storeFast => cases hc
  case storeFree => cases hc
  case makeCell => cases hc
  case loadClosure => cases hc
  case nop => exact pure trivial
  case call => exact (popN _).bind fun _ hargs => pop.bind fun _ hcallee => pure ⟨hcallee, hargs⟩
  case jumpBackward => exact (jumpBack i).proceed
  case jumpForward => exact (jump _).proceed
  case popJumpForwardIfFalse => exact (jumpIf i _).proceed
  case popJumpForwardIfTrue => exact (jumpIf i _).proceed
  case loadAttr =>
    refine proceed (B := fun _ => True) ((name _).bind fun n _ => pop.bind fun object _ =>
      (onHeap (A := fun r => ∀ v, r = some v → D.value w v) (Heap.spares_getAttr object n)
        fun heap hheap => ⟨(hheap.getAttr object n).2, (hheap.getAttr object n).1⟩).bind
          fun r hr => ?_)
    cases r with
    | some v => exact push (hr v rfl)
    | none => exact (typeName object).bind fun _ _ => throw _
  case loadFast => exact proceed ((loadLocal hl _).bind fun _ hv => push hv)
  case loadFree =>
    exact proceed ((captured _).bind fun _ _ => pushRead fun heap hheap => hheap.cell _)
  case loadGlobal =>
    refine proceed ((onWorld (A := D.value w) fun world hheap hcells hglobals =>
      ⟨?_, hheap, hcells, hglobals⟩).bind fun _ hv => push hv)
    -- a slot that does not exist reads as nil
    cases hg : world.global? i.first.toNat with
    | none => exact D.data rfl
    | some v => exact hglobals v (Array.mem_of_getElem? hg)
  case loadConst => exact proceed ((constant hk _).bind fun _ hv => push hv)
  case loadBuiltin =>
    refine proceed
      (get fun s hs => (entry (A := D.value w) _ fun v hv => ?_).bind fun _ hv => push hv)
    obtain ⟨e, he, rfl⟩ := Option.map_eq_some_iff.mp hv
    exact hs.registry e (Array.mem_of_getElem? he)
  case storeAttr =>
    exact proceed ((name _).bind fun n _ => pop.bind fun object _ => pop.bind fun v _ =>
      onHeapOrRaise (A := fun _ => True) (Heap.spares_setAttr object n v) fun heap hheap =>
        ⟨hheap.setAttr object n v, fun _ _ => trivial⟩)
  case storeGlobal =>
    refine proceed (B := fun _ => True) (pop.bind fun v hv =>
      onWorld fun world hheap hcells hglobals => ⟨trivial, hheap, hcells, ?_⟩)
    -- the slots made on the way to this one hold nil
    refine forall_mem_setIfInBounds (fun u hu => ?_) hv _
    rcases Array.mem_append.mp hu with hu | hu
    · exact hglobals u hu
    · exact (Array.mem_replicate.mp hu).2 ▸ D.data rfl
  case binaryOp =>
    exact proceed ((entry (A := fun _ => True) _ fun _ _ => trivial).bind fun op _ =>
      pushBinary (Heap.spares_binary op) fun left right hleft hright heap hheap =>
        hheap.binary op hleft hright)
  case compareOp =>
    exact proceed ((entry (A := fun _ => True) _ fun _ _ => trivial).bind fun op _ =>
      pushBinary (fun _ _ _ => rfl) fun left right _ _ heap hheap =>
        hheap.yields (heap.isData_compareBy op left right))
  case unaryNegative =>
    exact proceed (pop.bind fun v _ => pushRead fun heap _ => D.data (heap.isData_negate v))
  case unaryNot =>
    exact proceed (pop.bind fun v _ => (readHeap (A := fun _ => True) fun _ _ => trivial).bind
      fun _ _ => push (D.data rfl))
  case buildList =>
    exact proceed ((popN _).bind fun items hitems =>
      (onHeap (Heap.spares_buildList items) fun heap hheap => hheap.buildList hitems).bind
        fun _ hv => pushBuilt ctx hv)
  case buildMap =>
    exact proceed ((popN _).bind fun flat hflat => (entriesOf hflat).bind fun entries hentries =>
      (onHeap (Heap.spares_buildMap entries) fun heap hheap => hheap.buildMap hentries).bind
        fun _ hv => pushBuilt ctx hv)
  case buildSet =>
    exact proceed ((popN _).bind fun items _ =>
      (onHeapOrRaise (Heap.spares_buildSet items) fun heap hheap => hheap.buildSet items).bind
        fun _ hv => pushBuilt ctx hv)
  case buildString =>
    exact proceed ((popN _).bind fun _ _ => (readHeap (A := fun _ => True) fun _ _ => trivial).bind
      fun _ _ => pushBuilt ctx (D.data rfl))
  case binarySubscr =>
    exact proceed (pop.bind fun index _ => pop.bind fun object _ =>
      pushRead fun heap hheap => hheap.getItem object index)
  case storeSubscr =>
    exact proceed (pop.bind fun index _ => pop.bind fun object _ => pop.bind fun v hv =>
      onHeapOrRaise (A := fun _ => True) (Heap.spares_setItem object index v) fun heap hheap =>
        ⟨hheap.setItem object index hv, fun _ _ => trivial⟩)
  case containsOp =>
    refine proceed (B := fun _ => True) (pop.bind fun item _ => pop.bind fun container _ =>
      (readData fun heap => heap.isData_contains container item).bind fun v hv => ?_)
    split
    · exact push (D.data rfl)
    · exact push hv
  case length =>
    exact proceed (pop.bind fun v _ => pushRead fun heap _ => D.data (heap.isData_length v))
  case slice =>
    exact proceed (pop.bind fun start _ => pop.bind fun stop _ => pop.bind fun object _ =>
      (onHeap (Heap.spares_slice object start stop) fun heap hheap =>
        hheap.slice object start stop).bind fun _ hv => push hv)
  case unpack => exact proceed (pop.bind fun v _ => unpack _ v)
  case swap => exact (swap _).proceed
  case copy => exact proceed ((peek _).bind fun _ hv => push hv)
  case popTop => exact proceed (B := fun _ => True) (pop.bind fun _ _ => pure trivial)
  case pushNil => exact (push (D.data rfl)).proceed
  case pushFalse => exact (push (D.data rfl)).proceed
  case pushTrue => exact (push (D.data rfl)).proceed
  case forIter => exact (iteration i).proceed
  case getIter => exact (startIteration hi).proceed
  case bindPartial =>
    exact proceed ((popN _).bind fun args hargs => pop.bind fun callee hcallee =>
      (onHeap (A := fun _ => True) (fun _ => rfl) fun heap hheap =>
        ⟨trivial, hheap.newPartialCall ⟨hcallee, hargs⟩⟩).bind fun _ _ => push (D.data rfl))

end Gives

/-! ### Frames that are left -/

/-- The frames behind an instruction: on the innermost one if it goes on there, or without it or
any. -/
def Leaving (f : Frame) (fs gs : List Frame) : Prop :=
  OnTop f fs gs ∨ gs = fs ∨ gs = []

theorem Under.mono {Q : List Frame → Prop} {s : State} (h : Under D w cells P s)
    (hQ : ∀ gs, P gs → Q gs) : Under D w cells Q s :=
  ⟨hQ _ h.frames, h.stack, h.heap, h.cells, h.globals, h.registry⟩

/-- Steps that make one kind of frames out of another. -/
def Turns (D : Discipline) (w : D.Stage) (cells : Array Value) (P Q : List Frame → Prop)
    (x : Exec Flow) : Prop :=
  Ensures (Under D w cells P) x (fun a s => Flow.Sound D w a ∧ Under D w cells Q s)
    fun _ => Under D w cells Q

variable {Q : List Frame → Prop}

theorem Gives.turns {x : Exec Flow} (h : Gives D w cells P x (Flow.Sound D w))
    (hQ : ∀ gs, P gs → Q gs) :
    Turns D w cells P Q x :=
  Ensures.mono h (fun _ h => h) (fun _ _ h => ⟨h.1, h.2.mono hQ⟩) fun _ _ h => h.mono hQ

theorem Turns.bind {A : α → Prop} {x : Exec α} {g : α → Exec Flow} (hx : Gives D w cells P x A)
    (hg : ∀ a, A a → Turns D w cells P Q (g a)) (hQ : ∀ gs, P gs → Q gs) :
    Turns D w cells P Q (x >>= g) :=
  Ensures.bind (Ensures.mono hx (fun _ h => h) (fun _ _ h => h) fun _ _ h => h.mono hQ)
    fun a s hs => hg a hs.1 s hs.2

/-- Other frames are on the stack, and then some steps. -/
theorem Turns.onFrames {g : Stack Frame → α × Stack Frame} {k : α → Exec Flow}
    (hg : ∀ frames : Stack Frame, P frames.items → (g frames).2.items = fs)
    (hk : ∀ a, Gives D w cells (· = fs) (k a) (Flow.Sound D w)) (hQ : Q fs) :
    Turns D w cells P Q (Exec.onFrames g >>= k) := by
  refine Ensures.bind (Q := fun _ => Under D w cells (· = fs)) ?_ fun a =>
    (hk a).turns fun gs hgs => hgs ▸ hQ
  rintro ⟨⟨config, stack, frames, registry, position, status, ticks⟩, world⟩ hs
  refine ⟨fun a s' heq => ?_, fun e s' heq => by cases heq⟩
  cases heq
  exact ⟨hg frames hs.frames, hs.stack, hs.heap, hs.cells, hs.globals, hs.registry⟩

theorem items_dropTop {g : Frame} {gs : List Frame} {frames : Stack Frame}
    (h : frames.items = g :: gs) :
    (frames.truncate (frames.size - 1)).items = gs := by
  rw [Stack.items_truncate, frames.size_eq, h, List.length_cons, Nat.add_sub_cancel,
    Nat.add_sub_cancel_left]
  rfl

theorem Turns.leaveFrame {v : Value} (hv : D.value w v) :
    Turns D w cells (OnTop f fs) (Leaving f fs) (Exec.leaveFrame v) := by
  refine .onFrames (fun frames ⟨ip, hip⟩ => items_dropTop hip) (fun r => ?_) (.inr (.inl rfl))
  cases r with
  | none => exact .throw _
  | some g =>
    refine (Gives.truncate _).bind fun _ _ => .ite (fun _ => .pure hv) fun _ => ?_
    exact (Gives.push hv).bind fun _ _ => .pure trivial

theorem Turns.halt : Turns D w cells (OnTop f fs) (Leaving f fs) Exec.halt := by
  refine .bind .popOrNil (fun v hv => ?_) fun _ => .inl
  have empty : Leaving f fs [] := .inr (.inr rfl)
  refine .onFrames (fun _ _ => rfl) (fun _ => ?_) empty
  refine Gives.bind (A := fun _ => True) ?_ fun _ _ => .pure hv
  rintro ⟨⟨config, stack, frames, registry, position, status, ticks⟩, world⟩ hs
  refine ⟨fun a s' heq => ?_, fun e s' heq => by cases heq⟩
  cases heq
  exact ⟨trivial, hs.frames, hs.stack, hs.heap, hs.cells, hs.globals, hs.registry⟩

theorem Turns.endProgram (g : Frame) :
    Turns D w cells (OnTop f fs) (· = fs) (Exec.endProgram g) := by
  refine .onFrames (fun frames ⟨ip, hip⟩ => items_dropTop hip) (fun _ => ?_) rfl
  have cut {x : Exec Value} (hx : Gives D w cells (· = fs) x (D.value w)) :
      Gives D w cells (· = fs) (do
        let v ← x
        Exec.truncate g.base
        return Flow.leave v) (Flow.Sound D w) :=
    hx.bind fun v hv => (Gives.truncate _).bind fun _ _ => .pure hv
  refine .get fun s _ => ?_
  dsimp only
  split
  · exact cut .pop
  · exact cut (.pure (D.data rfl))

/-- **The instructions that do not work on cells.** -/
theorem Turns.execute (ctx : Context) {i : Instruction} (hi : ∀ r, D.value w (.iter r))
    (hl : ∀ v ∈ f.locals, D.slot w v) (hk : ∀ v ∈ f.code.constants, D.value w v)
    (hc : i.op.isCellular = false) :
    Turns D w cells (OnTop f fs) (Leaving f fs) (Exec.execute ctx i) := by
  by_cases hret : i.op = .returnValue
  · unfold Exec.execute
    simp only [hret]
    split
    · exact .bind (.pure (D.data rfl)) (fun _ => leaveFrame) fun _ => .inl
    · exact .bind .pop (fun _ => leaveFrame) fun _ => .inl
  by_cases hhalt : i.op = .halt
  · unfold Exec.execute
    simp only [hhalt]
    exact halt
  · exact (Gives.execute ctx hi hl hk hc hret hhalt).turns fun _ => .inl

end Exec

end ScriptEngine
