import ScriptEngine.Proofs.Code.Legal
import ScriptEngine.Proofs.Plan.Shape

/-!
# Typed code

Code whose instructions agree about the operand stack. A typing gives each offset of a code a shape,
and an instruction fits a typing if it leads from the shape at its own offset to the shapes at all
offsets at which control can go on. An exact typing tells all entries that lie on the stack at an
offset, from wherever it was come to. Not all code that the compiler emits has one, because a break
inside an operand leaves entries behind; but all of it has a typing that tells the entries that are
there at least.

## Main definitions

* `ScriptEngine.Instruction.effect`: what an instruction takes from the stack and leaves there;
* `ScriptEngine.Instruction.Fits`: an instruction agrees with the shapes of a code;
* `ScriptEngine.Typing`: shapes for the offsets of all codes;
* `ScriptEngine.Code.Typed`: all instructions of a code agree with its shapes.
-/

namespace ScriptEngine

/-- **What an instruction takes from the operand stack and leaves there**, if it goes on with the
next one and treats all kinds of entries alike. -/
def Instruction.effect (i : Instruction) : Shape × Shape :=
  let n := i.first.toNat
  match i.op with
  | .call | .bindPartial => (values n ++ [.value], [.value])
  | .loadAttr | .unaryNegative | .unaryNot | .length => ([.value], [.value])
  | .loadFast | .loadFree | .loadGlobal | .loadConst | .loadBuiltin
  | .pushNil | .pushFalse | .pushTrue => ([], [.value])
  | .storeAttr => (values 2, [])
  | .storeFast | .storeFree | .storeGlobal => ([.value], [])
  | .binaryOp | .compareOp | .binarySubscr | .containsOp => (values 2, [.value])
  | .buildList | .buildSet | .buildString => (values n, [.value])
  | .buildMap => (values (n * 2), [.value])
  | .storeSubscr => (values 3, [])
  | .slice => (values 3, [.value])
  | .unpack => ([.value], values n)
  | .swap => (values (n + 1), values (n + 1))
  | .copy => (values (n + 1), values (n + 2))
  | .getIter => ([.value], [.iterator])
  | .loadClosure => (List.replicate i.second.toNat .cell, [.value])
  | .makeCell => ([], [.cell])
  | _ => ([], [])

/-- **An instruction agrees with shapes** for the offsets of its code. -/
def Instruction.Fits (exact : Bool) (Φ : Nat → Shape) (i : Instruction) : Prop :=
  match i.op with
  | .jumpForward => (Φ i.offset).Fills exact (Φ (i.offset + i.first.toNat))
  | .jumpBackward => (Φ i.offset).Fills exact (Φ (i.offset - i.first.toNat))
  | .popJumpForwardIfFalse | .popJumpForwardIfTrue =>
    ∃ ρ : Shape, Φ i.offset = .value :: ρ ∧ ρ.Fills exact (Φ i.stop) ∧
      ρ.Fills exact (Φ (i.offset + i.first.toNat))
  | .forIter =>
    ∃ ρ : Shape, Φ i.offset = .iterator :: ρ ∧ ρ.Fills exact (Φ (i.offset + i.first.toNat)) ∧
      Shape.Fills exact (values (min i.second.toNat 2) ++ .iterator :: ρ) (Φ i.stop)
  | .returnValue => i.first ≠ 0 → ∃ ρ, Φ i.offset = .value :: ρ
  -- a loop that is left drops its iterator
  | .popTop => ∃ (k : Kind) (ρ : Shape), Φ i.offset = k :: ρ ∧ ρ.Fills exact (Φ i.stop)
  | .halt => False
  | _ => ∃ ρ : Shape, Φ i.offset = i.effect.1 ++ ρ ∧ Shape.Fills exact (i.effect.2 ++ ρ) (Φ i.stop)

/-- **A typing**: shapes for the offsets of all codes. If it is `exact`, an offset is only ever come
to with a stack of its shape, and otherwise with at least as many entries. -/
structure Typing where
  exact : Bool
  shape : Code → Nat → Shape

/-- **Typed code.** It starts on an empty stack, and the code of a program, which belongs to no
function, ends with a value at most. -/
structure Code.Typed (exact : Bool) (Φ : Nat → Shape) (own : Option Nat) (c : Code) : Prop where
  walk : c.Walks (Instruction.Fits exact Φ) 0 c.size
  start : Φ 0 = []
  stop : own = none → Φ c.size = [.value] ∨ Φ c.size = []

/-- Code that is typed as a typing says. -/
abbrev Code.HeldTo (T : Typing) (own : Option Nat) (c : Code) : Prop :=
  c.Typed T.exact (T.shape c) own

/-- The instructions that go on with the next one and treat all kinds of entries alike. -/
def Opcode.isStraight : Opcode → Bool
  | .jumpForward | .jumpBackward | .popJumpForwardIfFalse | .popJumpForwardIfTrue | .forIter
  | .returnValue | .popTop | .halt | .call => false
  | _ => true

/-- The offset to which an instruction may jump. -/
def Instruction.target? (i : Instruction) : Option Nat :=
  match i.op with
  | .jumpForward | .popJumpForwardIfFalse | .popJumpForwardIfTrue | .forIter =>
    some (i.offset + i.first.toNat)
  | .jumpBackward => some (i.offset - i.first.toNat)
  | _ => none

/-- The targets of legal instructions are targets. -/
theorem Instruction.Legal.target {E : Environment} {c : Code} {own : Nat} {target : Nat → Prop}
    {i : Instruction} (h : i.Legal E c own target) {x : Nat} (hx : i.target? = some x) :
    target x := by
  unfold Instruction.target? at hx
  unfold Instruction.Legal at h
  split at hx
  case h_6 => cases hx
  all_goals
    rename_i hop
    simp only [hop] at h
    obtain rfl := Option.some.inj hx
    exact h.2

namespace Instruction.Fits

variable {exact : Bool} {Φ Ψ : Nat → Shape} {i : Instruction}

/-- An instruction depends on the shapes at its own offset and where control goes on. -/
theorem congr (h : i.Fits exact Ψ) (ho : Φ i.offset = Ψ i.offset) (hs : Φ i.stop = Ψ i.stop)
    (ht : ∀ x, i.target? = some x → Φ x = Ψ x) : i.Fits exact Φ := by
  unfold Instruction.target? at ht
  unfold Instruction.Fits at h ⊢
  cases hop : i.op
  all_goals simp only [hop] at h ht ⊢
  case jumpForward | jumpBackward | popJumpForwardIfFalse | popJumpForwardIfTrue | forIter =>
    simp only [ho, hs, ht _ rfl]
    exact h
  all_goals
    simp only [ho, hs]
    exact h

/-- Where nothing is expected any more, everything will do. -/
theorem forget {Φ : Nat → Shape} (h : i.Fits false Φ) {p : Nat} (hp : i.offset ≠ p) :
    i.Fits false (fun q => if q = p then [] else Φ q) := by
  have fills {σ : Shape} {q : Nat} (hσ : σ.Fills false (Φ q)) :
      σ.Fills false (if q = p then [] else Φ q) := by
    split
    · exact ⟨Nat.zero_le _, nofun⟩
    · exact hσ
  unfold Instruction.Fits at h ⊢
  cases hop : i.op
  all_goals simp only [hop, if_neg hp] at h ⊢
  case jumpForward | jumpBackward => exact fills h
  case popJumpForwardIfFalse | popJumpForwardIfTrue | forIter =>
    obtain ⟨ρ, ho, h₁, h₂⟩ := h
    exact ⟨ρ, ho, fills h₁, fills h₂⟩
  case returnValue => exact h
  case popTop =>
    obtain ⟨k, ρ, ho, h⟩ := h
    exact ⟨k, ρ, ho, fills h⟩
  all_goals
    obtain ⟨ρ, ho, h⟩ := h
    exact ⟨ρ, ho, fills h⟩

theorem straight (h : i.Fits exact Φ) (hop : i.op.isStraight = true ∨ i.op = .call) :
    ∃ ρ : Shape, Φ i.offset = i.effect.1 ++ ρ ∧ Shape.Fills exact (i.effect.2 ++ ρ) (Φ i.stop) := by
  unfold Instruction.Fits at h
  split at h
  case h_9 => exact h
  all_goals
    rename_i heq
    rcases hop with hop | hop
    · rw [heq] at hop
      cases hop
    · rw [heq] at hop
      cases hop

end Instruction.Fits

end ScriptEngine
