import ScriptEngine.Proofs.Machine.Primitives

/-!
# Instructions on typed machines

Each instruction of sound code, executed in its frame, leads to a place in the same frame where
control can go on, with the operand stack in the shape that the place asks for; or it calls, or it
fails with an error that is allowed. Returns leave the frame, and follow with whole turns.

## Main definitions

* `ScriptEngine.Executes`: an instruction that lies in the code of its frame;
* `ScriptEngine.After`: what an instruction leads to.

## Main results

* `ScriptEngine.Executes.execute`: every instruction but a return.
-/

namespace ScriptEngine

open Exec

/-- **An instruction of the code of its frame.** -/
structure Executes (T : Typing) (w : Stage) (f : Frame) (i : Instruction) : Prop where
  sound : f.Sound T w
  legal : i.Legal w.environment f.code (f.own.getD 0) (f.code.Target f.own)
  fits : i.Fits T.exact (T.shape f.code)
  stop : i.op ≠ .returnValue → f.code.Target f.own i.stop

section

variable (T : Typing) (w₀ : Stage) (f : Frame) (fs : List Frame) (below : List Value)
  (i : Instruction)

/-- **What an instruction leads to**, if it does not leave the frame. A call leaves the frame ready
for the value of the call. -/
def After : Flow → State → Prop
  | .next, s => ∃ w p σ, f.code.Target f.own p ∧ σ.Fills T.exact (T.shape f.code p) ∧
      Holds T w₀ f fs below w p σ s
  | .invoke callee args, s => ∃ w σ, Shape.Fills T.exact (.value :: σ) (T.shape f.code i.stop) ∧
      Holds T w₀ f fs below w i.stop σ s ∧ callee.Exists T w ∧
      (Typing.discipline T).values w args
  | .leave _, _ => False

/-- The instruction is executed in its frame. -/
def Leads (x : Exec Flow) : Prop :=
  Ensures (Holds T w₀ f fs below w₀ i.stop (T.shape f.code i.offset)) x
    (After T w₀ f fs below i) (Fails T w₀ f fs below)

end

variable {T : Typing} {w : Stage} {f : Frame} {fs : List Frame} {below : List Value}
  {i : Instruction} {ctx : Context}

/-! ### Steps of instructions -/

namespace Takes

variable {w₀ : Stage} {p : Nat} {σ : Shape}

/-- The content of a variable, whether it has a cell or not. -/
theorem loadLocal {index : Word} (h : index.toNat < f.code.localCount) :
    Takes T w₀ f fs below w p (loadLocal index) σ (Value.Exists T w) σ := by
  refine bind (slot h) fun v hv => ?_
  split
  · exact readHeap fun heap hh => hh.cell _
  · rename_i hne
    exact pure (hv.resolve_right fun ⟨r, hr⟩ => hne r hr)

theorem storeLocal {index : Word} (h : index.toNat < f.code.localCount) {v : Value}
    (hv : v.Exists T w) :
    Takes T w₀ f fs below w p (storeLocal index v) σ (fun _ => True) σ := by
  refine bind (slot h) fun u _ => ?_
  split
  · exact onHeap fun heap hh => ⟨trivial, hh.setCell _ hv⟩
  · exact setSlot index (.inl hv)

theorem cellOf {index : Word} (h : index.toNat < f.code.localCount) :
    Takes T w₀ f fs below w p (cellOf index) σ (fun _ => True) σ := by
  refine bind (slot h) fun v hv => ?_
  split
  · exact pure trivial
  · rename_i hne
    have hv := hv.resolve_right fun ⟨r, hr⟩ => hne r hr
    refine bind (onHeap (A := fun _ => True) fun heap hh => ⟨trivial, hh.newCell hv⟩) fun r _ => ?_
    exact bind (setSlot index (.inr ⟨r, rfl⟩)) fun _ _ => pure trivial

/-- What was taken for a cell is one, if the typing is exact. -/
theorem asCell {v : Value} (hv : Kind.cell.Admits T w v) :
    Takes T w₀ f fs below w p (asCell v) σ (fun _ => True) σ := by
  unfold Exec.asCell
  split
  · exact pure trivial
  · rename_i hne
    refine bind (typeName _) fun name _ => throw ?_
    rcases hv with ⟨r, rfl⟩ | ⟨hT, -⟩
    · exact absurd rfl (hne r)
    · exact hT

/-- A step for keys and values keeps the stack as it is. -/
theorem entriesOf {flat : List Value} (h : (Typing.discipline T).values w flat) :
    Takes T w₀ f fs below w p (entriesOf flat) σ (fun es => ∀ e ∈ es, e.2.Exists T w) σ := by
  have hp : ∀ e ∈ pairs flat, e.2.Exists T w := by
    intro e he
    have : ∀ vs : List Value, (∀ v ∈ vs, v.Exists T w) → ∀ e ∈ pairs vs, e.2.Exists T w := by
      intro vs
      induction vs using pairs.induct with
      | case1 x y rest ih =>
        intro hv e he
        rcases List.mem_cons.mp he with rfl | he
        · exact hv y (by simp)
        · exact ih (fun v hm => hv v (by simp [hm])) e he
      | case2 vs hne =>
        intro _ e he
        unfold pairs at he
        split at he
        · exact absurd rfl (hne _ _ _)
        · cases he
    exact this flat h e he
  refine (mapM (A := fun e => e.2.Exists T w) fun e he => ?_).mono fun es hes => hes.2
  obtain ⟨key, v⟩ := e
  dsimp only
  split
  · exact pure (hp _ he)
  · exact bind (typeName _) fun name _ => throw trivial

/-- Pushing values, the first of them first. -/
theorem pushAll : ∀ {vs : List Value} {n : Nat}, (Typing.discipline T).values w vs →
    Takes T w₀ f fs below w p (vs.forM Exec.push) (values n ++ σ) (fun _ => True)
      (values (n + vs.length) ++ σ)
  | [], _, _ => pure trivial
  | v :: vs, n, h => by
    obtain ⟨hv, hvs⟩ := Discipline.values_cons.mp h
    refine bind (pushValue hv) fun _ _ => ?_
    have rest : Takes T w₀ f fs below w p (vs.forM Exec.push)
        (values (n + 1) ++ σ) (fun _ => True)
        (values (n + 1 + vs.length) ++ σ) := pushAll hvs
    rw [Nat.add_assoc, Nat.add_comm 1] at rest
    exact rest

theorem unpack {count : Nat} (v : Value) :
    Takes T w₀ f fs below w p (unpack count v) σ (fun _ => True)
      (values count ++ σ) := by
  refine bind (readHeap (A := fun r => ∀ items, r = some items →
    (Typing.discipline T).values w items) fun heap hh items hi => hh.items? hi) fun r hr => ?_
  cases r with
  | none => exact bind (typeName _) fun name _ => throw trivial
  | some items =>
    dsimp only
    split
    · exact throw trivial
    · rename_i hlen
      have all : Takes T w₀ f fs below w p (items.forM Exec.push)
          (values 0 ++ σ) (fun _ => True)
          (values (0 + items.length) ++ σ) := pushAll (hr items rfl)
      rw [Nat.zero_add, not_not.mp hlen] at all
      exact all

/-- **An iterator** over the top value. -/
theorem startIteration :
    Takes T w₀ f fs below w p startIteration (.value :: σ) (fun _ => True)
      (.iterator :: σ) := by
  refine bind pop fun v _ => ?_
  refine bind (onHeap (A := fun _ => True) fun heap hh => ⟨trivial, hh.iterate v⟩) fun r _ => ?_
  cases r with
  | none => exact bind (typeName _) fun name _ => throw trivial
  | some r => exact push (k := .iterator) (.inl ⟨r, rfl⟩)

/-- An operator on the two top values. -/
theorem pushBinary {g : Value → Value → Heap → Value × Heap}
    (h : ∀ left right, left.Exists T w → right.Exists T w → ∀ heap : Heap,
      heap.Sound (Typing.discipline T) w → (Typing.discipline T).Yields w (g left right heap)) :
    Takes T w₀ f fs below w p (pushBinary g) (.value :: .value :: σ)
      (fun _ => True) (.value :: σ) := by
  refine bind pop fun right hr => ?_
  refine bind pop fun left hl => ?_
  refine bind (onHeap fun heap hh => h left right hl hr heap hh) fun v hv => ?_
  exact pushValue hv

end Takes

namespace Executes

variable {σ : Shape}

/-- The next instruction follows. -/
theorem next (h : Executes T w f i) (hop : i.op ≠ .returnValue)
    (hσ : σ.Fills T.exact (T.shape f.code i.stop)) {s : State}
    (hs : Holds T w f fs below w i.stop σ s) : After T w f fs below i .next s :=
  ⟨w, i.stop, σ, h.stop hop, hσ, hs⟩

/-- An instruction that goes on in its frame. -/
theorem proceeds {step : Exec Unit} (hx : execute ctx i = proceed step)
    (ho : T.shape f.code i.offset = σ)
    (hs : Ensures (Holds T w f fs below w i.stop σ) step (fun _ => After T w f fs below i .next)
      (Fails T w f fs below)) : Leads T w f fs below i (execute ctx i) := by
  unfold Leads
  rw [hx, ho]
  exact hs.bind fun _ => .pure fun _ h => h

/-- An instruction that goes on with the next one. -/
theorem straight (h : Executes T w f i) (hs : i.op.isStraight = true) {step : Exec Unit}
    (hx : execute ctx i = proceed step)
    (hstep : ∀ σ, Takes T w f fs below w i.stop step (i.effect.1 ++ σ) (fun _ => True)
      (i.effect.2 ++ σ)) : Leads T w f fs below i (execute ctx i) := by
  obtain ⟨σ, ho, he⟩ := h.fits.straight (.inl hs)
  have hop : i.op ≠ .returnValue := fun hr => by
    rw [hr] at hs
    cases hs
  exact proceeds hx ho (Ensures.mono (hstep σ) (fun _ h => h) (fun _ _ hs' => h.next hop he hs'.2)
    fun _ _ h => h)

/-! ### Variables and constants -/

/-- A cell that the code of a frame refers to is one of its own. -/
theorem lt_cells {n : Nat} (h : n < f.own.getD 0) : n < f.cells.size := by
  unfold Frame.own at h
  split at h
  · exact h
  · exact absurd h (Nat.not_lt_zero n)

theorem pushNil (h : Executes T w f i) (hop : i.op = .pushNil) :
    Leads T w f fs below i (execute ctx i) := by
  refine h.straight (by rw [hop]; rfl) (by simp only [execute, hop]; rfl) fun σ => ?_
  simp only [Instruction.effect, hop]
  exact .pushValue trivial

theorem pushTrue (h : Executes T w f i) (hop : i.op = .pushTrue) :
    Leads T w f fs below i (execute ctx i) := by
  refine h.straight (by rw [hop]; rfl) (by simp only [execute, hop]; rfl) fun σ => ?_
  simp only [Instruction.effect, hop]
  exact .pushValue trivial

theorem pushFalse (h : Executes T w f i) (hop : i.op = .pushFalse) :
    Leads T w f fs below i (execute ctx i) := by
  refine h.straight (by rw [hop]; rfl) (by simp only [execute, hop]; rfl) fun σ => ?_
  simp only [Instruction.effect, hop]
  exact .pushValue trivial

theorem nop (h : Executes T w f i) (hop : i.op = .nop) :
    Leads T w f fs below i (execute ctx i) := by
  have hx : execute ctx i = proceed (pure ()) := by
    simp only [execute, hop]
    rfl
  refine h.straight (by rw [hop]; rfl) hx fun σ => ?_
  simp only [Instruction.effect, hop]
  exact .pure trivial

/-- **A constant** is a literal or a function that needs no cells. -/
theorem loadConst (h : Executes T w f i) (hop : i.op = .loadConst) :
    Leads T w f fs below i (execute ctx i) := by
  refine h.straight (by rw [hop]; rfl) (by simp only [execute, hop]; rfl) fun σ => ?_
  have hl := h.legal
  simp only [Instruction.Legal, Instruction.effect, hop] at hl ⊢
  obtain ⟨v, hv, hr⟩ := hl
  refine Takes.bind (.constant hv) fun u hu => ?_
  rw [hu]
  refine .pushValue ?_
  have hc := h.sound.code.constants v (Array.mem_of_getElem? hv)
  cases v with
  | function r => exact ⟨hc, hr r rfl⟩
  | closure r => cases hc
  | cell r => cases hc
  | iter r => cases hc
  | _ => trivial

theorem loadFast (h : Executes T w f i) (hop : i.op = .loadFast) :
    Leads T w f fs below i (execute ctx i) := by
  refine h.straight (by rw [hop]; rfl) (by simp only [execute, hop]; rfl) fun σ => ?_
  have hl := h.legal
  simp only [Instruction.Legal, Instruction.effect, hop] at hl ⊢
  exact Takes.bind (.loadLocal hl) fun v hv => .pushValue hv

theorem loadFree (h : Executes T w f i) (hop : i.op = .loadFree) :
    Leads T w f fs below i (execute ctx i) := by
  refine h.straight (by rw [hop]; rfl) (by simp only [execute, hop]; rfl) fun σ => ?_
  have hl := h.legal
  simp only [Instruction.Legal, Instruction.effect, hop] at hl ⊢
  refine Takes.bind (.captured (lt_cells hl)) fun r _ => ?_
  exact Takes.bind (.readHeap fun heap hh => hh.cell r) fun v hv => .pushValue hv

theorem loadGlobal (h : Executes T w f i) (hop : i.op = .loadGlobal) :
    Leads T w f fs below i (execute ctx i) := by
  refine h.straight (by rw [hop]; rfl) (by simp only [execute, hop]; rfl) fun σ => ?_
  simp only [Instruction.effect, hop]
  refine Takes.bind (.onWorld (A := Value.Exists T w) fun world hw => ⟨?_, hw⟩)
    fun v hv => .pushValue hv
  show ((world.globals[i.first.toNat]?).getD .nil).Exists T w
  cases hg : world.globals[i.first.toNat]? with
  | none => trivial
  | some v => exact hw.globals v (Array.mem_of_getElem? hg)

theorem loadBuiltin (h : Executes T w f i) (hop : i.op = .loadBuiltin) :
    Leads T w f fs below i (execute ctx i) := by
  refine h.straight (by rw [hop]; rfl) (by simp only [execute, hop]; rfl) fun σ => ?_
  have hl := h.legal
  simp only [Instruction.Legal, Instruction.effect, hop] at hl ⊢
  refine .get fun s hs => ?_
  have hlt := Nat.lt_of_lt_of_le hl (Nat.le_trans hs.grows.le.environment.builtins hs.registry.room)
  have hg : s.machine.registry.get? i.first.toNat =
      some (s.machine.registry.entries[i.first.toNat]).2 := by
    unfold Registry.get?
    rw [Array.getElem?_eq_getElem hlt]
    rfl
  refine Takes.bind (.entry hg _) ?_
  rintro _ rfl
  exact .pushValue (hs.registry.values _ (Array.getElem_mem hlt))

theorem storeFast (h : Executes T w f i) (hop : i.op = .storeFast) :
    Leads T w f fs below i (execute ctx i) := by
  refine h.straight (by rw [hop]; rfl) (by simp only [execute, hop]; rfl) fun σ => ?_
  have hl := h.legal
  simp only [Instruction.Legal, Instruction.effect, hop] at hl ⊢
  exact Takes.bind .pop fun v hv => .storeLocal hl hv

theorem storeFree (h : Executes T w f i) (hop : i.op = .storeFree) :
    Leads T w f fs below i (execute ctx i) := by
  refine h.straight (by rw [hop]; rfl) (by simp only [execute, hop]; rfl) fun σ => ?_
  have hl := h.legal
  simp only [Instruction.Legal, Instruction.effect, hop] at hl ⊢
  refine Takes.bind .pop fun v hv => ?_
  refine Takes.bind (.captured (lt_cells hl)) fun r _ => ?_
  exact .onHeap fun heap hh => ⟨trivial, hh.setCell r hv⟩

theorem storeGlobal (h : Executes T w f i) (hop : i.op = .storeGlobal) :
    Leads T w f fs below i (execute ctx i) := by
  refine h.straight (by rw [hop]; rfl) (by simp only [execute, hop]; rfl) fun σ => ?_
  simp only [Instruction.effect, hop]
  refine Takes.bind .pop fun v hv => ?_
  refine .onWorld fun world hw => ⟨trivial, hw.heap, ?_⟩
  refine forall_mem_setIfInBounds (fun u hu => ?_) hv _
  rcases Array.mem_append.mp hu with hu | hu
  · exact hw.globals u hu
  · obtain ⟨-, rfl⟩ := Array.mem_replicate.mp hu
    trivial

/-- **The cell of a variable**, or one that was captured. -/
theorem makeCell (h : Executes T w f i) (hop : i.op = .makeCell) :
    Leads T w f fs below i (execute ctx i) := by
  refine h.straight (by rw [hop]; rfl) (by simp only [execute, hop]; rfl) fun σ => ?_
  have hl := h.legal
  simp only [Instruction.Legal, Instruction.effect, hop] at hl ⊢
  rcases hl with ⟨hs, hl⟩ | ⟨hs, hl⟩
  · rw [hs]
    exact Takes.bind (.cellOf hl) fun r _ => .push (k := .cell) (.inl ⟨r, rfl⟩)
  · rw [hs]
    exact Takes.bind (.captured (lt_cells hl)) fun r _ => .push (k := .cell) (.inl ⟨r, rfl⟩)

/-! ### Operators -/

theorem binaryOp (h : Executes T w f i) (hop : i.op = .binaryOp) :
    Leads T w f fs below i (execute ctx i) := by
  refine h.straight (by rw [hop]; rfl) (by simp only [execute, hop]; rfl) fun σ => ?_
  have hl := h.legal
  simp only [Instruction.Legal, Instruction.effect, hop] at hl ⊢
  obtain ⟨op, hw⟩ := Option.isSome_iff_exists.mp hl
  refine Takes.bind (.entry hw _) fun op _ => ?_
  exact .pushBinary fun left right hl hr heap hh => hh.binary op hl hr

theorem compareOp (h : Executes T w f i) (hop : i.op = .compareOp) :
    Leads T w f fs below i (execute ctx i) := by
  refine h.straight (by rw [hop]; rfl) (by simp only [execute, hop]; rfl) fun σ => ?_
  have hl := h.legal
  simp only [Instruction.Legal, Instruction.effect, hop] at hl ⊢
  obtain ⟨op, hw⟩ := Option.isSome_iff_exists.mp hl
  refine Takes.bind (.entry hw _) fun op _ => ?_
  exact .pushBinary fun left right _ _ heap hh => hh.yields (heap.isData_compareBy op left right)

theorem unaryNegative (h : Executes T w f i) (hop : i.op = .unaryNegative) :
    Leads T w f fs below i (execute ctx i) := by
  refine h.straight (by rw [hop]; rfl) (by simp only [execute, hop]; rfl) fun σ => ?_
  simp only [Instruction.effect, hop]
  refine Takes.bind .pop fun v _ => ?_
  refine Takes.bind (.readHeap (A := Value.Exists T w) fun heap _ =>
    (Typing.discipline T).data (heap.isData_negate v)) fun u hu => .pushValue hu

theorem unaryNot (h : Executes T w f i) (hop : i.op = .unaryNot) :
    Leads T w f fs below i (execute ctx i) := by
  refine h.straight (by rw [hop]; rfl) (by simp only [execute, hop]; rfl) fun σ => ?_
  simp only [Instruction.effect, hop]
  refine Takes.bind .pop fun v _ => ?_
  exact Takes.bind (.readHeap (A := fun _ => True) fun _ _ => trivial) fun b _ => .pushValue trivial

theorem loadAttr (h : Executes T w f i) (hop : i.op = .loadAttr) :
    Leads T w f fs below i (execute ctx i) := by
  refine h.straight (by rw [hop]; rfl) (by simp only [execute, hop]; rfl) fun σ => ?_
  have hl := h.legal
  simp only [Instruction.Legal, Instruction.effect, hop] at hl ⊢
  refine Takes.bind (.name hl) fun name _ => ?_
  refine Takes.bind .pop fun object _ => ?_
  refine Takes.bind (.onHeap (A := fun r => ∀ v, r = some v → v.Exists T w) fun heap hh =>
    (hh.getAttr object name).symm) fun r hr => ?_
  cases r with
  | none => exact Takes.bind (.typeName _) fun _ _ => .throw trivial
  | some v => exact .pushValue (hr v rfl)

theorem storeAttr (h : Executes T w f i) (hop : i.op = .storeAttr) :
    Leads T w f fs below i (execute ctx i) := by
  refine h.straight (by rw [hop]; rfl) (by simp only [execute, hop]; rfl) fun σ => ?_
  have hl := h.legal
  simp only [Instruction.Legal, Instruction.effect, hop] at hl ⊢
  refine Takes.bind (.name hl) fun name _ => ?_
  refine Takes.bind .pop fun object _ => ?_
  refine Takes.bind .pop fun v _ => ?_
  exact .onHeapOrRaise fun heap hh => ⟨fun _ _ => trivial, hh.setAttr object name v⟩

/-! ### Containers -/

theorem binarySubscr (h : Executes T w f i) (hop : i.op = .binarySubscr) :
    Leads T w f fs below i (execute ctx i) := by
  refine h.straight (by rw [hop]; rfl) (by simp only [execute, hop]; rfl) fun σ => ?_
  simp only [Instruction.effect, hop]
  refine Takes.bind .pop fun index _ => ?_
  refine Takes.bind .pop fun object _ => ?_
  exact Takes.bind (.readHeap fun heap hh => hh.getItem object index) fun v hv => .pushValue hv

theorem storeSubscr (h : Executes T w f i) (hop : i.op = .storeSubscr) :
    Leads T w f fs below i (execute ctx i) := by
  refine h.straight (by rw [hop]; rfl) (by simp only [execute, hop]; rfl) fun σ => ?_
  simp only [Instruction.effect, hop]
  refine Takes.bind .pop fun index _ => ?_
  refine Takes.bind .pop fun object _ => ?_
  refine Takes.bind .pop fun v hv => ?_
  exact .onHeapOrRaise fun heap hh => ⟨fun _ _ => trivial, hh.setItem object index hv⟩

theorem containsOp (h : Executes T w f i) (hop : i.op = .containsOp) :
    Leads T w f fs below i (execute ctx i) := by
  refine h.straight (by rw [hop]; rfl) (by simp only [execute, hop]; rfl) fun σ => ?_
  simp only [Instruction.effect, hop]
  refine Takes.bind .pop fun item _ => ?_
  refine Takes.bind .pop fun container _ => ?_
  refine Takes.bind (.readHeap (A := Value.Exists T w) fun heap _ =>
    (Typing.discipline T).data (heap.isData_contains container item)) fun v hv => ?_
  dsimp only
  split
  · exact .pushValue trivial
  · exact .pushValue hv

theorem length (h : Executes T w f i) (hop : i.op = .length) :
    Leads T w f fs below i (execute ctx i) := by
  refine h.straight (by rw [hop]; rfl) (by simp only [execute, hop]; rfl) fun σ => ?_
  simp only [Instruction.effect, hop]
  refine Takes.bind .pop fun v _ => ?_
  refine Takes.bind (.readHeap (A := Value.Exists T w) fun heap _ =>
    (Typing.discipline T).data (heap.isData_length v)) fun u hu => .pushValue hu

theorem slice (h : Executes T w f i) (hop : i.op = .slice) :
    Leads T w f fs below i (execute ctx i) := by
  refine h.straight (by rw [hop]; rfl) (by simp only [execute, hop]; rfl) fun σ => ?_
  simp only [Instruction.effect, hop]
  refine Takes.bind .pop fun start _ => ?_
  refine Takes.bind .pop fun stop _ => ?_
  refine Takes.bind .pop fun object _ => ?_
  exact Takes.bind (.onHeap fun heap hh => hh.slice object start stop) fun v hv => .pushValue hv

theorem unpack (h : Executes T w f i) (hop : i.op = .unpack) :
    Leads T w f fs below i (execute ctx i) := by
  refine h.straight (by rw [hop]; rfl) (by simp only [execute, hop]; rfl) fun σ => ?_
  simp only [Instruction.effect, hop]
  refine Takes.bind .pop fun v _ => ?_
  exact .unpack v

theorem getIter (h : Executes T w f i) (hop : i.op = .getIter) :
    Leads T w f fs below i (execute ctx i) := by
  refine h.straight (by rw [hop]; rfl) (by simp only [execute, hop]; rfl) fun σ => ?_
  simp only [Instruction.effect, hop]
  exact .startIteration

/-! ### New containers -/

/-- Taking values. -/
theorem popValues {w₀ : Stage} {p n : Nat} {σ : Shape} :
    Takes T w₀ f fs below w p (popN n) (values n ++ σ)
      (fun vs => (Typing.discipline T).values w vs) σ :=
  Takes.mono (.popN (k := .value)) fun _ hvs => hvs.2

theorem buildList (h : Executes T w f i) (hop : i.op = .buildList) :
    Leads T w f fs below i (execute ctx i) := by
  refine h.straight (by rw [hop]; rfl) (by simp only [execute, hop]; rfl) fun σ => ?_
  simp only [Instruction.effect, hop]
  refine Takes.bind popValues fun items hi => ?_
  exact Takes.bind (.onHeap fun heap hh => hh.buildList hi) fun v hv => .pushBuilt ctx hv

theorem buildMap (h : Executes T w f i) (hop : i.op = .buildMap) :
    Leads T w f fs below i (execute ctx i) := by
  refine h.straight (by rw [hop]; rfl) (by simp only [execute, hop]; rfl) fun σ => ?_
  simp only [Instruction.effect, hop]
  refine Takes.bind popValues fun flat hf => ?_
  refine Takes.bind (.entriesOf hf) fun entries he => ?_
  exact Takes.bind (.onHeap fun heap hh => hh.buildMap he) fun v hv => .pushBuilt ctx hv

theorem buildSet (h : Executes T w f i) (hop : i.op = .buildSet) :
    Leads T w f fs below i (execute ctx i) := by
  refine h.straight (by rw [hop]; rfl) (by simp only [execute, hop]; rfl) fun σ => ?_
  simp only [Instruction.effect, hop]
  refine Takes.bind popValues fun items _ => ?_
  refine Takes.bind (.onHeapOrRaise (A := Value.Exists T w) fun heap hh =>
    (hh.buildSet items).symm) fun v hv => .pushBuilt ctx hv

theorem buildString (h : Executes T w f i) (hop : i.op = .buildString) :
    Leads T w f fs below i (execute ctx i) := by
  refine h.straight (by rw [hop]; rfl) (by simp only [execute, hop]; rfl) fun σ => ?_
  simp only [Instruction.effect, hop]
  refine Takes.bind popValues fun parts _ => ?_
  exact Takes.bind (.readHeap (A := fun _ => True) fun _ _ => trivial)
    fun s _ => .pushBuilt ctx trivial

/-! ### The operand stack -/

theorem swap (h : Executes T w f i) (hop : i.op = .swap) :
    Leads T w f fs below i (execute ctx i) := by
  refine h.straight (by rw [hop]; rfl) (by simp only [execute, hop]; rfl) fun σ => ?_
  simp only [Instruction.effect, hop]
  exact .swap

theorem copy (h : Executes T w f i) (hop : i.op = .copy) :
    Leads T w f fs below i (execute ctx i) := by
  refine h.straight (by rw [hop]; rfl) (by simp only [execute, hop]; rfl) fun σ => ?_
  simp only [Instruction.effect, hop]
  exact Takes.bind (.peek (k := .value)) fun v hv => .pushValue hv

/-- A pop takes an entry of any kind. -/
theorem popTop (h : Executes T w f i) (hop : i.op = .popTop) :
    Leads T w f fs below i (execute ctx i) := by
  have hf := h.fits
  simp only [Instruction.Fits, hop] at hf
  obtain ⟨k, σ, ho, hs⟩ := hf
  have hx : execute ctx i = proceed (do let _ ← pop) := by
    simp only [execute, hop]
  exact proceeds hx ho (Takes.andThen (.pop (k := k)) fun _ _ => .pure fun _ hs' =>
    h.next (by rw [hop]; simp) hs hs')

/-! ### Calls -/

/-- **A call** takes its arguments and the callable below them. -/
theorem call (h : Executes T w f i) (hop : i.op = .call) :
    Leads T w f fs below i (execute ctx i) := by
  obtain ⟨σ, ho, hs⟩ := h.fits.straight (.inr hop)
  have hx : execute ctx i = do
      let args ← popN i.first.toNat
      return .invoke (← pop) args := by
    simp only [execute, hop]
  unfold Leads
  rw [hx, ho]
  simp only [Instruction.effect, hop, List.append_assoc] at hs ⊢
  refine Takes.andThen popValues fun vs hvs => Takes.andThen
    (.pop (k := .value)) fun callee hc => ?_
  exact Ensures.pure fun s hs' => ⟨w, σ, hs, hs', hc, hvs⟩

theorem bindPartial (h : Executes T w f i) (hop : i.op = .bindPartial) :
    Leads T w f fs below i (execute ctx i) := by
  refine h.straight (by rw [hop]; rfl) (by simp only [execute, hop]; rfl) fun σ => ?_
  simp only [Instruction.effect, hop, List.append_assoc]
  refine Takes.bind popValues fun vs hvs => Takes.bind (.pop (k := .value)) fun callee hc => ?_
  refine Takes.bind (.onHeap (A := fun _ => True) fun heap hh => ⟨trivial, ?_⟩) fun r _ =>
    .pushValue trivial
  exact hh.newPartialCall ⟨hc, hvs⟩

/-- A function bound to the cells on top, as many as it is instantiated with. -/
theorem bindClosure (h : Executes T w f i) {w₀ : Stage} {p : Nat} {σ : Shape}
    {r : Ref .function} {index count : Word}
    (hr : f.code.constants[index.toNat]? = some (.function r))
    (hcells : w.environment.cells r.index = count.toNat) :
    Ensures (Holds T w₀ f fs below w p (List.replicate count.toNat .cell ++ σ))
      (Exec.bindClosure index count)
      (fun v s => ∃ w', v.Exists T w' ∧ Holds T w₀ f fs below w' p σ s)
      (Fails T w₀ f fs below) := by
  refine Takes.andThen (.constant hr) ?_
  rintro _ rfl
  refine Takes.andThen (.pure (A := fun g => g = r) rfl) ?_
  rintro _ rfl
  refine Takes.andThen (.popN (k := .cell)) fun vs hvs => ?_
  refine Takes.andThen (.mapM fun v hv => .asCell (hvs.2 v hv)) fun rs hrs => ?_
  refine Ensures.bind (Takes.newClosure (h.sound.code.constant_lt hr) ?_) fun _ =>
    .pure fun _ hs => hs
  rw [List.size_toArray, hrs.1, hvs.1, hcells]

/-- **A closure** of a function with as many cells as the function is instantiated with. -/
theorem loadClosure (h : Executes T w f i) (hop : i.op = .loadClosure) :
    Leads T w f fs below i (execute ctx i) := by
  obtain ⟨σ, ho, hs⟩ := h.fits.straight (.inl (by rw [hop]; rfl))
  have hl := h.legal
  have hx : execute ctx i = proceed (do push (← Exec.bindClosure i.first i.second)) := by
    simp only [execute, hop]
  simp only [Instruction.effect, Instruction.Legal, hop] at ho hs hl
  obtain ⟨r, hr, hcells⟩ := hl
  refine proceeds hx ho (Ensures.bind (h.bindClosure hr hcells) fun v => ?_)
  refine Ensures.of_exists fun w' => Ensures.of_and fun hv => ?_
  refine Ensures.mono (Takes.pushValue hv) (fun _ h => h) (fun _ s hs' => ?_) fun _ _ h => h
  exact ⟨w', i.stop, _, h.stop (by rw [hop]; simp), hs, hs'.2⟩

/-! ### Control -/

/-- **A jump to a target** that expects no more than what lies on the stack. -/
theorem jump {target : Nat} (ht : f.code.Target f.own target)
    (hσ : σ.Fills T.exact (T.shape f.code target)) :
    Ensures (Holds T w f fs below w i.stop σ) (Exec.jump target)
      (fun _ => After T w f fs below i .next) (Fails T w f fs below) := by
  have hle : target ≤ f.code.size := by
    rcases ht.2 with h | ⟨-, h⟩
    · exact Nat.le_of_lt h
    · exact Nat.le_of_eq h
  exact Ensures.mono (Takes.jump hle) (fun _ h => h) (fun _ _ hs => ⟨w, target, σ, ht, hσ, hs⟩)
    fun _ _ h => h

theorem jumpForward (h : Executes T w f i) (hop : i.op = .jumpForward) :
    Leads T w f fs below i (execute ctx i) := by
  have hf := h.fits
  have hl := h.legal
  simp only [Instruction.Fits, Instruction.Legal, hop] at hf hl
  have hx : execute ctx i = proceed (jumpAhead i) := by
    simp only [execute, hop]
  exact proceeds hx rfl (jump hl.2 hf)

theorem jumpBackward (h : Executes T w f i) (hop : i.op = .jumpBackward) :
    Leads T w f fs below i (execute ctx i) := by
  have hf := h.fits
  have hl := h.legal
  simp only [Instruction.Fits, Instruction.Legal, hop] at hf hl
  have hx : execute ctx i = proceed (jumpBack i) := by
    simp only [execute, hop]
  refine proceeds hx rfl ?_
  unfold Exec.jumpBack
  rw [if_neg (Nat.not_lt.mpr hl.1)]
  exact jump hl.2 hf

/-- **A conditional jump** takes the condition, whether it jumps or not. -/
theorem jumpIf (h : Executes T w f i) (hop : i.op ≠ .returnValue) (truth : Bool)
    (hx : execute ctx i = proceed (Exec.jumpIf i truth))
    (hl : f.code.Target f.own (i.offset + i.first.toNat))
    (hf : ∃ σ : Shape, T.shape f.code i.offset = .value :: σ ∧
      σ.Fills T.exact (T.shape f.code i.stop) ∧
      σ.Fills T.exact (T.shape f.code (i.offset + i.first.toNat))) :
    Leads T w f fs below i (execute ctx i) := by
  obtain ⟨σ, ho, hs, ht⟩ := hf
  refine proceeds hx ho (Takes.andThen .pop fun v _ => ?_)
  refine Takes.andThen (.readHeap (A := fun _ => True) fun _ _ => trivial) fun b _ => ?_
  split
  · exact jump hl ht
  · exact .pure fun _ hs' => h.next hop hs hs'

theorem popJumpForwardIfFalse (h : Executes T w f i) (hop : i.op = .popJumpForwardIfFalse) :
    Leads T w f fs below i (execute ctx i) := by
  have hf := h.fits
  have hl := h.legal
  simp only [Instruction.Fits, Instruction.Legal, hop] at hf hl
  exact h.jumpIf (by rw [hop]; simp) false (by simp only [execute, hop]) hl.2 hf

theorem popJumpForwardIfTrue (h : Executes T w f i) (hop : i.op = .popJumpForwardIfTrue) :
    Leads T w f fs below i (execute ctx i) := by
  have hf := h.fits
  have hl := h.legal
  simp only [Instruction.Fits, Instruction.Legal, hop] at hf hl
  exact h.jumpIf (by rw [hop]; simp) true (by simp only [execute, hop]) hl.2 hf

/-- What a loop binds of an entry, the key on top. -/
theorem bindEntry {p : Nat} {names : Word} {σ : Shape} {key v : Value} (hk : key.Exists T w)
    (hv : v.Exists T w) :
    Takes T w f fs below w p
      (do
        if 2 ≤ names then push v
        if 1 ≤ names then push key)
      σ (fun _ => True) (values (min names.toNat 2) ++ σ) := by
  have h₂ : 2 ≤ names ↔ 2 ≤ names.toNat := UInt16.le_iff_toNat_le
  have h₁ : 1 ≤ names ↔ 1 ≤ names.toNat := UInt16.le_iff_toNat_le
  simp only [h₁, h₂]
  generalize names.toNat = n
  match n with
  | 0 => exact .pure trivial
  | 1 => exact .pushValue hk
  | n + 2 =>
    rw [if_pos (by omega), if_pos (by omega), Nat.min_eq_right (by omega)]
    exact Takes.bind (.pushValue hv) fun _ _ => .pushValue hk

/-- **The next round of a loop**, or its end. What lies on top is an iterator, if the typing is
exact. -/
theorem forIter (h : Executes T w f i) (hop : i.op = .forIter) :
    Leads T w f fs below i (execute ctx i) := by
  have hf := h.fits
  have hl := h.legal
  simp only [Instruction.Fits, Instruction.Legal, hop] at hf hl
  obtain ⟨σ, ho, ht, hs⟩ := hf
  have hx : execute ctx i = proceed (iteration i) := by
    simp only [execute, hop]
  refine proceeds hx ho ?_
  refine Takes.andThen (.peek (k := .iterator) (n := 0) (σ := σ)) fun u hu => ?_
  split
  · rename_i r
    refine Takes.andThen (.onHeap (A := fun e => ∀ key v, e = some (key, v) →
      key.Exists T w ∧ v.Exists T w) fun heap hh => (hh.next r).symm) fun e he => ?_
    cases e with
    | none => exact Takes.andThen (.pop (k := .iterator)) fun _ _ => jump hl.2 ht
    | some entry =>
      obtain ⟨key, v⟩ := entry
      obtain ⟨hk, hv⟩ := he key v rfl
      exact Ensures.mono (bindEntry hk hv) (fun _ h => h)
        (fun _ _ hs' => h.next (by rw [hop]; simp) hs hs'.2) fun _ _ h => h
  · rename_i hno
    refine Ensures.throw fun s hs' => ⟨?_, _, _, _, hs'⟩
    rcases hu with ⟨r, rfl⟩ | ⟨hT, -⟩
    · exact absurd rfl (hno r)
    · exact hT

/-! ### All instructions -/

/-- **Every instruction but a return** goes on in its frame, calls or fails. -/
theorem execute (h : Executes T w f i) (hop : i.op ≠ .returnValue) (ctx : Context) :
    Leads T w f fs below i (execute ctx i) := by
  match hi : i.op with
  | .nop => exact h.nop hi
  | .halt =>
    have hl := h.legal
    simp only [Instruction.Legal, hi] at hl
  | .call => exact h.call hi
  | .returnValue => exact absurd hi hop
  | .jumpBackward => exact h.jumpBackward hi
  | .jumpForward => exact h.jumpForward hi
  | .popJumpForwardIfFalse => exact h.popJumpForwardIfFalse hi
  | .popJumpForwardIfTrue => exact h.popJumpForwardIfTrue hi
  | .loadAttr => exact h.loadAttr hi
  | .loadFast => exact h.loadFast hi
  | .loadFree => exact h.loadFree hi
  | .loadGlobal => exact h.loadGlobal hi
  | .loadConst => exact h.loadConst hi
  | .loadBuiltin => exact h.loadBuiltin hi
  | .storeAttr => exact h.storeAttr hi
  | .storeFast => exact h.storeFast hi
  | .storeFree => exact h.storeFree hi
  | .storeGlobal => exact h.storeGlobal hi
  | .binaryOp => exact h.binaryOp hi
  | .compareOp => exact h.compareOp hi
  | .unaryNegative => exact h.unaryNegative hi
  | .unaryNot => exact h.unaryNot hi
  | .buildList => exact h.buildList hi
  | .buildMap => exact h.buildMap hi
  | .buildSet => exact h.buildSet hi
  | .buildString => exact h.buildString hi
  | .binarySubscr => exact h.binarySubscr hi
  | .storeSubscr => exact h.storeSubscr hi
  | .containsOp => exact h.containsOp hi
  | .length => exact h.length hi
  | .slice => exact h.slice hi
  | .unpack => exact h.unpack hi
  | .swap => exact h.swap hi
  | .copy => exact h.copy hi
  | .popTop => exact h.popTop hi
  | .pushNil => exact h.pushNil hi
  | .pushFalse => exact h.pushFalse hi
  | .pushTrue => exact h.pushTrue hi
  | .forIter => exact h.forIter hi
  | .getIter => exact h.getIter hi
  | .loadClosure => exact h.loadClosure hi
  | .makeCell => exact h.makeCell hi
  | .bindPartial => exact h.bindPartial hi

end Executes

end ScriptEngine
