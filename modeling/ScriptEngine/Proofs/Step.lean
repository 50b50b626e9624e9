/-!
# Steps that can fail

Inversion of steps that keep the state they failed in, and what holds of the states in which they
end.

## Main definitions

* `ScriptEngine.Ensures`: what a step from certain states ends with, whether it succeeds or fails;
* `ScriptEngine.Lockstep`: what two steps from related states end with.

## Main results

* `ScriptEngine.bind_eq_ok`, `ScriptEngine.bind_eq_error`: how two steps in a row succeed and fail.
-/

namespace ScriptEngine

variable {ε σ α β : Type} {s s' : σ}

theorem bind_eq_ok {x : EStateM ε σ α} {f : α → EStateM ε σ β} {b : β} :
    (x >>= f) s = .ok b s' ↔ ∃ a m, x s = .ok a m ∧ f a m = .ok b s' := by
  show EStateM.bind x f s = _ ↔ _
  unfold EStateM.bind
  cases h : x s with
  | ok a m =>
    constructor
    · exact fun hf => ⟨a, m, rfl, hf⟩
    · rintro ⟨_, _, ⟨⟩, hf⟩
      exact hf
  | error e m => simp

/-- What comes after a step that is known. -/
theorem bind_of_ok {x : EStateM ε σ α} {f : α → EStateM ε σ β} {a : α} (h : x s = .ok a s') :
    (x >>= f) s = f a s' := by
  show EStateM.bind x f s = _
  unfold EStateM.bind
  rw [h]

theorem bind_of_error {x : EStateM ε σ α} {f : α → EStateM ε σ β} {e : ε} (h : x s = .error e s') :
    (x >>= f) s = .error e s' := by
  show EStateM.bind x f s = _
  unfold EStateM.bind
  rw [h]

theorem bind_eq_error {x : EStateM ε σ α} {f : α → EStateM ε σ β} {e : ε} :
    (x >>= f) s = .error e s' ↔
      x s = .error e s' ∨ ∃ a m, x s = .ok a m ∧ f a m = .error e s' := by
  show EStateM.bind x f s = _ ↔ _
  unfold EStateM.bind
  cases h : x s with
  | ok a m =>
    constructor
    · exact fun hf => .inr ⟨a, m, rfl, hf⟩
    · rintro (h | ⟨_, _, ⟨⟩, hf⟩)
      · cases h
      · exact hf
  | error e m => simp

/-- Reading the state succeeds. -/
theorem get_bind (f : σ → EStateM ε σ β) (s : σ) : ((get : EStateM ε σ σ) >>= f) s = f s s := rfl

theorem pure_eq_ok {a b : α} : (pure a : EStateM ε σ α) s = .ok b s' ↔ a = b ∧ s = s' := by
  show EStateM.Result.ok a s = _ ↔ _
  simp

theorem pure_ne_error {a : α} {e : ε} : (pure a : EStateM ε σ α) s = .error e s' ↔ False := by
  show EStateM.Result.ok a s = _ ↔ _
  simp

theorem throw_ne_ok {e : ε} {b : α} : (throw e : EStateM ε σ α) s = .ok b s' ↔ False := by
  show EStateM.Result.error e s = _ ↔ _
  simp

theorem throw_eq_error {e e' : ε} :
    (throw e : EStateM ε σ α) s = .error e' s' ↔ e = e' ∧ s = s' := by
  show EStateM.Result.error e s = _ ↔ _
  simp

theorem get_eq_ok {t : σ} : (get : EStateM ε σ σ) s = .ok t s' ↔ s = t ∧ s = s' := by
  show EStateM.Result.ok s s = _ ↔ _
  simp

/-- **What a step ends with.** From a state with `P` it succeeds in one with `Q` or fails in one
with `E`. -/
def Ensures (P : σ → Prop) (x : EStateM ε σ α) (Q : α → σ → Prop) (E : ε → σ → Prop) : Prop :=
  ∀ s, P s → (∀ a s', x s = .ok a s' → Q a s') ∧ ∀ e s', x s = .error e s' → E e s'

namespace Ensures

variable {P P' : σ → Prop} {Q Q' : α → σ → Prop} {R : β → σ → Prop} {E E' : ε → σ → Prop}
  {x : EStateM ε σ α}

theorem bind {f : α → EStateM ε σ β} (hx : Ensures P x Q E) (hf : ∀ a, Ensures (Q a) (f a) R E) :
    Ensures P (x >>= f) R E := by
  intro s hs
  obtain ⟨hok, herr⟩ := hx s hs
  refine ⟨fun b s' h => ?_, fun e s' h => ?_⟩
  · obtain ⟨a, m, hm, h⟩ := bind_eq_ok.mp h
    exact (hf a m (hok a m hm)).1 b s' h
  · rcases bind_eq_error.mp h with h | ⟨a, m, hm, h⟩
    · exact herr e s' h
    · exact (hf a m (hok a m hm)).2 e s' h

theorem pure {a : α} (h : ∀ s, P s → Q a s) : Ensures P (pure a : EStateM ε σ α) Q E := by
  intro s hs
  refine ⟨fun b s' hb => ?_, fun e s' he => (pure_ne_error.mp he).elim⟩
  obtain ⟨rfl, rfl⟩ := pure_eq_ok.mp hb
  exact h s hs

theorem throw {e : ε} (h : ∀ s, P s → E e s) : Ensures P (throw e : EStateM ε σ α) Q E := by
  intro s hs
  refine ⟨fun b s' hb => (throw_ne_ok.mp hb).elim, fun e' s' he => ?_⟩
  obtain ⟨rfl, rfl⟩ := throw_eq_error.mp he
  exact h s hs

/-- A look at the state, with whose result the next step begins. -/
theorem get {f : σ → EStateM ε σ β} (hf : ∀ s, P s → Ensures (fun t => t = s) (f s) R E) :
    Ensures P (get >>= f) R E := by
  intro s hs
  obtain ⟨hok, herr⟩ := hf s hs s rfl
  exact ⟨fun b s' h => hok b s' h, fun e s' h => herr e s' h⟩

theorem mono (h : Ensures P x Q E) (hP : ∀ s, P' s → P s) (hQ : ∀ a s, Q a s → Q' a s)
    (hE : ∀ e s, E e s → E' e s) : Ensures P' x Q' E' := by
  intro s hs
  obtain ⟨hok, herr⟩ := h s (hP s hs)
  exact ⟨fun a s' hx => hQ a s' (hok a s' hx), fun e s' hx => hE e s' (herr e s' hx)⟩

/-- The same step for each item of a list. -/
theorem forM {γ : Type} {f : γ → EStateM ε σ PUnit} : ∀ {l : List γ},
    (∀ c ∈ l, Ensures P (f c) (fun _ => P) E) → Ensures P (l.forM f) (fun _ => P) E
  | [], _ => pure fun _ h => h
  | c :: _, h => bind (h c (List.mem_cons_self ..)) fun _ =>
      forM fun d hd => h d (List.mem_cons_of_mem c hd)

end Ensures

/-- **Two runs side by side**: both succeed, or both fail for the same reason, unless the second one
gives up. -/
inductive Lockstep {τ : Type} (S : α → β → σ → τ → Prop) (E : ε → σ → τ → Prop)
    (G : ε → τ → Prop) : EStateM.Result ε σ α → EStateM.Result ε τ β → Prop where
  | ok {a : α} {b : β} {s : σ} {t : τ} (h : S a b s t) : Lockstep S E G (.ok a s) (.ok b t)
  | error {e : ε} {s : σ} {t : τ} (h : E e s t) : Lockstep S E G (.error e s) (.error e t)
  | gaveUp {r : EStateM.Result ε σ α} {e : ε} {t : τ} (h : G e t) : Lockstep S E G r (.error e t)

namespace Lockstep

variable {τ γ δ : Type} {t : τ} {S S' : α → β → σ → τ → Prop} {T : γ → δ → σ → τ → Prop}
  {E E' : ε → σ → τ → Prop} {G : ε → τ → Prop}

/-- **One step after another**, on both sides. -/
theorem bind {x : EStateM ε σ α} {y : EStateM ε τ β} {f : α → EStateM ε σ γ}
    {g : β → EStateM ε τ δ} {F : ε → σ → τ → Prop} (h : Lockstep S F G (x s) (y t))
    (hf : ∀ a b s' t', S a b s' t' → Lockstep T E G (f a s') (g b t'))
    (hE : ∀ e s' t', F e s' t' → E e s' t') :
    Lockstep T E G ((x >>= f) s) ((y >>= g) t) := by
  show Lockstep T E G (EStateM.bind x f s) (EStateM.bind y g t)
  unfold EStateM.bind
  generalize x s = r, y t = r' at h
  cases h with
  | ok h => exact hf _ _ _ _ h
  | error h => exact .error (hE _ _ _ h)
  | gaveUp h => exact .gaveUp h

/-- Steps that succeed come first. -/
theorem after {x : EStateM ε σ α} {y : EStateM ε τ β} {f : α → EStateM ε σ γ}
    {g : β → EStateM ε τ δ} {a : α} {b : β} {s' : σ} {t' : τ} (hx : x s = .ok a s')
    (hy : y t = .ok b t') (h : Lockstep T E G (f a s') (g b t')) :
    Lockstep T E G ((x >>= f) s) ((y >>= g) t) := by
  show Lockstep T E G (EStateM.bind x f s) (EStateM.bind y g t)
  unfold EStateM.bind
  rw [hx, hy]
  exact h

theorem mono {r : EStateM.Result ε σ α} {r' : EStateM.Result ε τ β} (h : Lockstep S E G r r')
    (hS : ∀ a b s' t', S a b s' t' → S' a b s' t') (hE : ∀ e s' t', E e s' t' → E' e s' t') :
    Lockstep S' E' G r r' := by
  cases h with
  | ok h => exact .ok (hS _ _ _ _ h)
  | error h => exact .error (hE _ _ _ h)
  | gaveUp h => exact .gaveUp h

/-- What is known of two ends: that they are the ends of these runs. -/
theorem ends {r : EStateM.Result ε σ α} {r' : EStateM.Result ε τ β} (h : Lockstep S E G r r') :
    Lockstep (fun a b s' t' => S a b s' t' ∧ r = .ok a s' ∧ r' = .ok b t') E G r r' := by
  cases h with
  | ok h => exact .ok ⟨h, rfl, rfl⟩
  | error h => exact .error h
  | gaveUp h => exact .gaveUp h

end Lockstep

end ScriptEngine
