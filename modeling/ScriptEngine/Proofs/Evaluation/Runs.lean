import ScriptEngine.Proofs.Embed.Globals
import ScriptEngine.Proofs.Evaluation.Evaluator
import ScriptEngine.Proofs.Heap.Iterators
import ScriptEngine.Proofs.Machine.Outcomes
import ScriptEngine.Proofs.Machine.Paths

/-!
# Runs that follow an evaluation

A program without functions runs in one frame. All that tells two moments of its run apart is the
offset in the code, the operands and the world, and of the world an evaluation sees the variables
that are visible there. So a run follows an evaluation if it comes from place to place in worlds
that show the stores of the evaluation.

## Main definitions

* `ScriptEngine.Ground`: what stays as it is while a program runs;
* `ScriptEngine.Ground.fiber`: the fiber of the program at an offset, with given operands;
* `ScriptEngine.Ground.Comes`: the fiber comes somewhere, unless it finds no room for an operand;
* `ScriptEngine.World.store`: the store that a world shows;
* `ScriptEngine.Ground.Follows`: from a place, a run follows an evaluation.

## Main results

* `ScriptEngine.Ground.Follows.bind`: a run follows one evaluation after another;
* `ScriptEngine.Ground.step_fiber`: a step of the program is the execution of an instruction.
-/

namespace ScriptEngine

/-! ### Places -/

/-- **The ground on which a program runs**: what no instruction of it changes. -/
structure Ground where
  host : Host
  machine : Machine
  code : Code
  setting : Setting

namespace Ground

variable (G : Ground)

/-- The machine at an offset, with the given operands. -/
def machineAt (offset : Nat) (vs : List Value) (ticks : UInt32) : Machine :=
  { G.machine with
    stack := ⟨.ofList vs, G.machine.stack.limit⟩
    frames := .ofList [{ code := G.code, ip := offset }]
    ticks }

/-- A fiber that runs the program. -/
def fiberOf (m : Machine) (control : Control) : Fiber :=
  ⟨m, G.setting.ctx, control, [], .program G.code.size⟩

/-- **The fiber of the program at an offset**, with the given operands. -/
def fiber (offset : Nat) (vs : List Value) (ticks : UInt32) : Fiber :=
  G.fiberOf (G.machineAt offset vs ticks) .dispatch

/-- The program has failed. -/
def Fails (e : RuntimeError) (F : Fiber) : Prop :=
  ∃ m, F = G.fiberOf m (.deliver (.error e))

section Steps

variable {G} {i : Instruction} {w : World}

theorem next?_machineAt (vs : List Value) (k : UInt32) (hc : G.code.Has i)
    (ha : G.setting.ctx.Allows w.controls) :
    Exec.next? G.setting.ctx ⟨G.machineAt i.offset vs k, w⟩ =
      some ({ code := G.code, ip := i.offset }, i) := by
  have hcheck : Exec.precheck G.setting.ctx ⟨G.machineAt i.offset vs k, w⟩ =
      .ok () (Exec.ticked ⟨G.machineAt i.offset vs k, w⟩) :=
    Exec.precheck_eq_ok.mpr ⟨ha.1, fun _ => ha.2, rfl⟩
  have htop : (G.machineAt i.offset vs k).frames.top? = some { code := G.code, ip := i.offset } :=
    rfl
  unfold Exec.next?
  rw [hcheck]
  dsimp only
  rw [htop]
  dsimp only [Option.bind_some]
  rw [if_pos hc.offset_lt, hc.fetch]
  rfl

/-- **A step of the program** is the execution of an instruction. -/
theorem step_fiber (vs : List Value) (k : UInt32) (hc : G.code.Has i)
    (ha : G.setting.ctx.Allows w.controls) :
    (G.fiber i.offset vs k).step G.host w =
      match Exec.execute G.setting.ctx i ⟨G.machineAt i.stop vs (k + 1), w⟩ with
      | .ok .next s => (.progress, G.fiberOf s.machine .dispatch, s.world)
      | .ok (.leave v) s => (.progress, G.fiberOf s.machine (.deliver (.ok v)), s.world)
      | .ok (.invoke callee args) s =>
        (.progress, G.fiberOf s.machine (.invoke callee args false), s.world)
      | .error e s => (.progress, G.fiberOf s.machine (.deliver (.error e)), s.world) := by
  have hturn := Exec.turn_of_next? (next?_machineAt vs k hc ha)
  have hbehind : (G.machineAt i.offset vs k).behind i = G.machineAt i.stop vs (k + 1) := rfl
  unfold fiber fiberOf Fiber.step Fiber.dispatch
  dsimp only
  rw [hturn, hbehind]
  cases Exec.execute G.setting.ctx i ⟨G.machineAt i.stop vs (k + 1), w⟩ with
  | ok flow s => cases flow <;> rfl
  | error e s => rfl

end Steps

/-! ### Coming somewhere -/

/-- **The fiber comes somewhere**, in at least the given number of steps, unless it finds no room
for an operand before. -/
def Comes (n : Nat) (P : Fiber → World → Prop) (F : Fiber) (w : World) : Prop :=
  ∃ m F' w', Fiber.Goes G.host m F w F' w' ∧ (n ≤ m ∧ P F' w' ∨ G.Fails .stackOverflow F')

namespace Comes

variable {G} {n m : Nat} {P R : Fiber → World → Prop} {F F₁ : Fiber} {w w₁ : World}

theorem refl (h : P F w) : G.Comes 0 P F w :=
  ⟨0, F, w, .refl F w, .inl ⟨Nat.le_refl 0, h⟩⟩

theorem step (h : F.step G.host w = (.progress, F₁, w₁)) (hc : G.Comes n P F₁ w₁) :
    G.Comes (n + 1) P F w := by
  obtain ⟨m, F', w', hgoes, h'⟩ := hc
  exact ⟨m + 1, F', w', .step h hgoes, h'.imp_left fun h => ⟨Nat.succ_le_succ h.1, h.2⟩⟩

theorem of_step (h : F.step G.host w = (.progress, F₁, w₁)) (hc : G.Comes n P F₁ w₁) :
    G.Comes n P F w := by
  obtain ⟨m, F', w', hgoes, h'⟩ := hc
  exact ⟨m + 1, F', w', .step h hgoes, h'.imp_left fun h => ⟨Nat.le_succ_of_le h.1, h.2⟩⟩

theorem mono (h : G.Comes n P F w) (hn : m ≤ n) (hP : ∀ F' w', P F' w' → R F' w') :
    G.Comes m R F w := by
  obtain ⟨k, F', w', hgoes, h'⟩ := h
  exact ⟨k, F', w', hgoes, h'.imp_left fun h => ⟨Nat.le_trans hn h.1, hP _ _ h.2⟩⟩

/-- **One way after another.** -/
theorem bind (h : G.Comes n P F w) (hP : ∀ F' w', P F' w' → G.Comes m R F' w') :
    G.Comes m R F w := by
  obtain ⟨k, F', w', hgoes, ⟨-, h'⟩ | hfull⟩ := h
  · obtain ⟨k', F'', w'', hgoes', h''⟩ := hP _ _ h'
    exact ⟨k + k', F'', w'', hgoes.trans hgoes',
      h''.imp_left fun h => ⟨Nat.le_trans h.1 (Nat.le_add_left ..), h.2⟩⟩
  · exact ⟨k, F', w', hgoes, .inr hfull⟩

/-- The fiber finds no room for an operand. -/
theorem overflow (h : G.Fails .stackOverflow F) : G.Comes n P F w :=
  ⟨0, F, w, .refl F w, .inr h⟩

end Comes

end Ground

/-! ### Stores -/

/-- **The names that are visible at a place**: their symbols, newest first, and the number of slots
that were given out. -/
structure Names where
  symbols : List Symbol
  slots : Nat

/-- More names are visible, in new slots. -/
def Names.Grows (ν ν' : Names) : Prop :=
  ν.slots ≤ ν'.slots ∧ ∃ δ, ν'.symbols = δ ++ ν.symbols ∧ ∀ s ∈ δ, ν.slots ≤ s.index.toNat

/-- **The store that a world shows** where the given symbols are visible. -/
def World.store (w : World) (symbols : List Symbol) : Store where
  bindings := symbols.map fun s => (s.name, w.content s.index.toNat)
  heap := w.heap.bare
  controls := w.controls

namespace Names.Grows

variable {ν ν' ν'' : Names}

theorem refl (ν : Names) : ν.Grows ν :=
  ⟨Nat.le_refl _, [], rfl, fun _ hs => absurd hs List.not_mem_nil⟩

/-- No more names are visible, but more slots were given out. -/
theorem of_slots {symbols : List Symbol} {slots slots' : Nat} (h : slots ≤ slots') :
    Names.Grows ⟨symbols, slots⟩ ⟨symbols, slots'⟩ :=
  ⟨h, [], rfl, fun _ hs => absurd hs List.not_mem_nil⟩

theorem trans (h : ν.Grows ν') (h' : ν'.Grows ν'') : ν.Grows ν'' := by
  obtain ⟨hle, δ, hδ, hs⟩ := h
  obtain ⟨hle', δ', hδ', hs'⟩ := h'
  refine ⟨Nat.le_trans hle hle', δ' ++ δ, by rw [hδ', hδ, List.append_assoc], fun s hm => ?_⟩
  rcases List.mem_append.mp hm with hm | hm
  · exact Nat.le_trans hle (hs' s hm)
  · exact hs s hm

end Names.Grows

/-! ### Following an evaluation -/

/-- **Where a break and a continue lead to**, with the operands that are there. -/
structure Escape where
  exit : Nat
  next : Nat
  operands : List Value

def Escape.target (j : Escape) (isBreak : Bool) : Nat :=
  if isBreak then j.exit else j.next

namespace Ground

variable (G : Ground)

/-- **Worlds in which a program runs**: nothing interrupts it, and no value is an iterator. -/
structure Fits (w : World) : Prop where
  allows : G.setting.ctx.Allows w.controls
  heap : w.heap.Sound Discipline.plain ()
  globals : ∀ slot, Discipline.plain.value () (w.content slot)

/-- **A later world**: the iterators are still as they were, and so are all slots that had not been
given out. -/
structure Later (slots : Nat) (w w' : World) : Prop where
  fits : G.Fits w'
  iterators : w.heap.iterators.toList <+: w'.heap.iterators.toList
  spares : ∀ slot, slots ≤ slot → w'.content slot = w.content slot

namespace Later

variable {G} {slots slots' : Nat} {w w' w'' : World}

theorem refl (h : G.Fits w) : G.Later slots w w :=
  ⟨h, List.prefix_rfl, fun _ _ => rfl⟩

theorem trans (h : G.Later slots w w') (h' : G.Later slots' w' w'') (hs : slots ≤ slots') :
    G.Later slots' w w'' :=
  ⟨h'.fits, h.iterators.trans h'.iterators,
    fun slot hle => (h'.spares slot hle).trans (h.spares slot (Nat.le_trans hs hle))⟩

theorem mono (h : G.Later slots w w') (hs : slots ≤ slots') : G.Later slots' w w' :=
  ⟨h.fits, h.iterators, fun slot hle => h.spares slot (Nat.le_trans hs hle)⟩

end Later

variable {α β : Type}

/-- **The run of a fiber ends as an evaluation does.** The run began in the world `w₀`, where the
given symbols were visible, and the names are visible where it leads to. After a failure, what was
to be declared later is as it was. An evaluation that is given up stands for a run of at least `N`
steps. -/
def Ends (J : Option Escape) (N : Nat) (w₀ : World) (symbols : List Symbol) (ν : Names)
    (Q : α → Nat → List Value → Prop) (F : Fiber) (w : World) :
    EStateM.Result Stop Store α → Prop
  | .ok v τ =>
    G.Comes 0 (fun F' w' => ∃ q us k, F' = G.fiber q us k ∧ Q v q us ∧ τ = w'.store ν.symbols ∧
      G.Later ν.slots w₀ w') F w
  | .error (.leave isBreak) τ =>
    G.Comes 0 (fun F' w' => ∃ j δ k, J = some j ∧ F' = G.fiber (j.target isBreak) j.operands k ∧
      τ = w'.store (δ ++ symbols) ∧ G.Later ν.slots w₀ w') F w
  | .error (.failure e) τ =>
    G.Comes 0 (fun F' w' => ∃ ε δ, G.Fails e F' ∧ ν.symbols = ε ++ (δ ++ symbols) ∧
      τ = w'.store (δ ++ symbols) ∧
      (∀ s ∈ ε, w'.content s.index.toNat = w₀.content s.index.toNat) ∧ G.Later ν.slots w₀ w') F w
  | .error .unfinished _ => G.Comes N (fun _ _ => True) F w

/-- **From a place, a run follows an evaluation**: from an offset and operands in any world, it ends
as the evaluation does in the store that the world shows. -/
def Follows (J : Option Escape) (N : Nat) (ν : Names) (p : Nat) (vs : List Value) (x : Eval α)
    (ν' : Names) (Q : α → Nat → List Value → Prop) : Prop :=
  ∀ k w, G.Fits w → G.Ends J N w ν.symbols ν' Q (G.fiber p vs k) w (x (w.store ν.symbols))

variable {G} {J : Option Escape} {N M : Nat} {w₀ w₁ w : World} {symbols symbols₁ : List Symbol}
  {ν ν₁ ν₂ : Names} {Q : α → Nat → List Value → Prop} {R : β → Nat → List Value → Prop} {F : Fiber}

namespace Ends

/-- A run that comes to where it ends as an evaluation does. -/
theorem of_comes {r : EStateM.Result Stop Store α}
    (h : G.Comes 0 (fun F' w' => G.Ends J N w₀ symbols ν Q F' w' r) F w) :
    G.Ends J N w₀ symbols ν Q F w r := by
  match r with
  | .ok _ _ | .error (.leave _) _ | .error (.failure _) _ | .error .unfinished _ =>
    exact h.bind fun _ _ h' => h'

theorem mono {r : EStateM.Result Stop Store α} {Q' : α → Nat → List Value → Prop}
    (h : G.Ends J N w₀ symbols ν Q F w r) (hN : M ≤ N) (hQ : ∀ v q us, Q v q us → Q' v q us) :
    G.Ends J M w₀ symbols ν Q' F w r := by
  match r with
  | .ok _ _ =>
    refine Comes.mono h (Nat.le_refl 0) fun F' w' => ?_
    rintro ⟨q, us, k, hF, hQ', hτ, hw⟩
    exact ⟨q, us, k, hF, hQ _ _ _ hQ', hτ, hw⟩
  | .error (.leave _) _ | .error (.failure _) _ => exact h
  | .error .unfinished _ => exact Comes.mono h hN fun _ _ h => h

/-- **A run that began earlier**, where fewer names were visible. -/
theorem rebase {r : EStateM.Result Stop Store α} (h : G.Ends J N w₁ ν.symbols ν₁ Q F w r)
    (hw : G.Later ν.slots w₀ w₁) {δ : List Symbol} (hδ : ν.symbols = δ ++ symbols)
    (hg : ν.Grows ν₁) : G.Ends J N w₀ symbols ν₁ Q F w r := by
  match r with
  | .ok _ _ =>
    refine Comes.mono h (Nat.le_refl 0) fun F' w' => ?_
    rintro ⟨q, us, k, hF, hQ, hτ, hw'⟩
    exact ⟨q, us, k, hF, hQ, hτ, hw.trans hw' hg.1⟩
  | .error (.leave _) _ =>
    refine Comes.mono h (Nat.le_refl 0) fun F' w' => ?_
    rintro ⟨j, δ', k, hJ, hF, hτ, hw'⟩
    exact ⟨j, δ' ++ δ, k, hJ, hF, by rw [hτ, hδ, List.append_assoc], hw.trans hw' hg.1⟩
  | .error (.failure _) _ =>
    refine Comes.mono h (Nat.le_refl 0) fun F' w' => ?_
    rintro ⟨ε, δ', hF, hν, hτ, hε, hw'⟩
    refine ⟨ε, δ' ++ δ, hF, by rw [hν, hδ, List.append_assoc], by rw [hτ, hδ, List.append_assoc],
      fun s hs => (hε s hs).trans (hw.spares _ ?_), hw.trans hw' hg.1⟩
    -- what was not declared yet has a new slot
    obtain ⟨-, δ₁, hδ₁, hslots⟩ := hg
    have hsplit : δ₁ = ε ++ δ' := by
      rw [hν, ← List.append_assoc] at hδ₁
      exact (List.append_cancel_right hδ₁).symm
    exact hslots s (hsplit ▸ List.mem_append_left δ' hs)
  | .error .unfinished _ => exact h

/-- **One evaluation after another**, where it is known of what comes between them that it is later
than the start of the first one. -/
theorem andThen {x : Eval α} {f : α → Eval β} {σ : Store}
    (hx : G.Ends J N w₁ symbols ν₁ Q F w (x σ)) (hx' : G.Ends J N w₀ symbols ν₁ Q F w (x σ))
    (hf : ∀ v q us k w', Q v q us → G.Later ν₁.slots w₁ w' →
      G.Ends J N w₀ symbols ν₂ R (G.fiber q us k) w' (f v (w'.store ν₁.symbols)))
    (hg : ν₁.Grows ν₂) : G.Ends J N w₀ symbols ν₂ R F w ((x >>= f) σ) := by
  show G.Ends J N w₀ symbols ν₂ R F w (EStateM.bind x f σ)
  unfold EStateM.bind
  match x σ, hx, hx' with
  | .ok v τ, hx, _ =>
    refine of_comes (Comes.mono hx (Nat.le_refl 0) fun F' w' => ?_)
    rintro ⟨q, us, k, rfl, hQ, rfl, hw⟩
    exact hf v q us k w' hQ hw
  | .error (.leave _) τ, _, hx =>
    refine Comes.mono hx (Nat.le_refl 0) fun F' w' => ?_
    rintro ⟨j, δ, k, hJ, hF, hτ, hw⟩
    exact ⟨j, δ, k, hJ, hF, hτ, hw.mono hg.1⟩
  | .error (.failure _) τ, _, hx =>
    refine Comes.mono hx (Nat.le_refl 0) fun F' w' => ?_
    rintro ⟨ε, δ, hF, hν, hτ, hε, hw⟩
    obtain ⟨hle, δ₁, hδ₁, hslots⟩ := hg
    refine ⟨δ₁ ++ ε, δ, hF, by rw [hδ₁, hν, List.append_assoc], hτ, fun s hs => ?_, hw.mono hle⟩
    rcases List.mem_append.mp hs with hs | hs
    · exact hw.spares _ (hslots s hs)
    · exact hε s hs
  | .error .unfinished τ, _, hx => exact hx

/-- **One evaluation after another.** -/
theorem bind {x : Eval α} {f : α → Eval β} {σ : Store} (hx : G.Ends J N w₀ symbols ν₁ Q F w (x σ))
    (hf : ∀ v q us k w', Q v q us → G.Later ν₁.slots w₀ w' →
      G.Ends J N w₀ symbols ν₂ R (G.fiber q us k) w' (f v (w'.store ν₁.symbols)))
    (hg : ν₁.Grows ν₂) : G.Ends J N w₀ symbols ν₂ R F w ((x >>= f) σ) :=
  andThen hx hx hf hg

end Ends

namespace Follows

variable {p : Nat} {vs : List Value} {x : Eval α}

theorem mono {Q' : α → Nat → List Value → Prop} (h : G.Follows J N ν p vs x ν₁ Q) (hN : M ≤ N)
    (hQ : ∀ v q us, Q v q us → Q' v q us) : G.Follows J M ν p vs x ν₁ Q' :=
  fun k w hw => (h k w hw).mono hN hQ

/-- **One evaluation after another.** -/
theorem bind {f : α → Eval β} (hx : G.Follows J N ν p vs x ν₁ Q)
    (hf : ∀ v q us, Q v q us → G.Follows J N ν₁ q us (f v) ν₂ R) (hg : ν.Grows ν₁)
    (hg' : ν₁.Grows ν₂) : G.Follows J N ν p vs (x >>= f) ν₂ R := by
  intro k w hw
  refine (hx k w hw).bind (fun v q us k' w' hQ hlater => ?_) hg'
  obtain ⟨-, δ, hδ, -⟩ := hg
  exact (hf v q us hQ k' w' hlater.fits).rebase hlater hδ hg'

/-- The result is one that the evaluation yields. -/
theorem yielding (h : G.Follows J N ν p vs x ν₁ Q) :
    G.Follows J N ν p vs x ν₁ fun v q us => Q v q us ∧ x.Yields v := by
  intro k w hw
  have hends := h k w hw
  generalize hr : x (w.store ν.symbols) = r at hends ⊢
  match r, hends with
  | .ok v τ, hends =>
    refine Comes.mono hends (Nat.le_refl 0) fun F' w' => ?_
    rintro ⟨q, us, k, hF, hQ, hτ, hw'⟩
    exact ⟨q, us, k, hF, ⟨hQ, _, _, hr⟩, hτ, hw'⟩
  | .error (.leave _) _, hends | .error (.failure _) _, hends
  | .error .unfinished _, hends => exact hends

/-- Nothing is left to be done. -/
theorem pure (v : α) (h : Q v p vs) : G.Follows J N ν p vs (pure v) ν Q :=
  fun k _ hw => .refl ⟨p, vs, k, rfl, h, rfl, .refl hw⟩

/-- The evaluation says that the run leads nowhere special: it has given up. -/
theorem unfinished : G.Follows J 0 ν p vs (throw .unfinished : Eval α) ν₁ Q :=
  fun _ _ _ => .refl trivial

end Follows

end Ground

end ScriptEngine
