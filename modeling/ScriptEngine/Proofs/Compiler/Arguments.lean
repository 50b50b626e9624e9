import ScriptEngine.Proofs.Compiler.WellFormed
import ScriptEngine.Proofs.Layout.Frames
import ScriptEngine.Proofs.Machine.Arguments

/-!
# Calls of compiled functions

A machine binds arguments by position, and a compiler gives slots to names. Both agree for every
function that was ever compiled, so a call gives to each parameter its argument or its own default,
and to a named function itself.

## Main definitions

* `ScriptEngine.Fiber.Unwinds`: how partial calls around a callee are unwound;
* `ScriptEngine.Fiber.Enters`: how a function is entered.

## Main results

* `ScriptEngine.Compiler.Built.framed`: the slots of compiled functions are those of their scopes;
* `ScriptEngine.Compiler.Built.arguments_bound`: how arguments are bound.
-/

namespace ScriptEngine

open ScopeTable

/-! ### Calls -/

/-- **One past the last parameter without a default.** -/
def Function.NeedsUpTo (f : Function) (r : Nat) : Prop :=
  (∀ i, r = i + 1 → f.defaults[i]? = some none) ∧
    ∀ i, r ≤ i → i < f.parameters.length → ∃ v, f.defaults[i]? = some (some v)

theorem Function.Padded.needsUpTo {f : Function} (h : f.Padded) : f.NeedsUpTo f.requiredArgs :=
  ⟨fun _ hi => default_of_eq_succ hi, fun _ hi hlt => default_of_le hi (h ▸ hlt)⟩

namespace Fiber

/-- **How partial calls around a callee are unwound.** The callee is called with the given arguments
and those that the partial calls bind, if these are not too many together. If they are, the call
fails while partial calls are unwound. -/
structure Unwinds (host : Host) (ws : Nat → World) (F : Fiber) (f callee : Value)
    (layers : List PartialCall) (args : List Value) (entry : Bool) : Prop where
  enters : args.length + (PartialCall.bound layers).length ≤ F.machine.config.argLimit →
    Through host ws layers.length (F.invoking callee args entry)
      (F.invoking f (args ++ PartialCall.bound layers) entry)
  fails : F.machine.config.argLimit < args.length + (PartialCall.bound layers).length →
    ∃ n ≤ layers.length, ∃ (c : Value) (xs : List Value), F.machine.config.argLimit < xs.length ∧
      Through host ws n (F.invoking callee args entry) (F.invoking c xs entry) ∧
      (F.invoking c xs entry).step host (ws n) = (.progress,
        F.refused (.typeError (.argumentLimit F.machine.config.argLimit xs.length)), ws n)

/-- **How a function is entered**, if there is room for a frame: exactly with the numbers of
arguments that it takes, and in a frame that binds them. -/
structure Enters (host : Host) (w : World) (F : Fiber) (f : Function) (callee : Value)
    (cells : Array (Ref .cell)) (args : List Value) (entry : Bool) : Prop where
  needs : f.NeedsUpTo f.requiredArgs
  accepted : F.machine.frames.size < F.machine.config.frameLimit →
    ((∃ g, (F.invoking callee args entry).step host w = (.progress, F.entering g, w)) ↔
      f.requiredArgs ≤ args.length ∧ args.length ≤ f.parameters.length)
  binds : ∀ g, (F.invoking callee args entry).step host w = (.progress, F.entering g, w) →
    g.Binds f callee cells args
  rejected : F.machine.frames.size < F.machine.config.frameLimit →
    ¬(f.requiredArgs ≤ args.length ∧ args.length ≤ f.parameters.length) →
    (F.invoking callee args entry).step host w = (.progress,
      F.refused (.argumentCount (f.name.getD "func") (Machine.arity f) args.length), w)
  full : F.machine.config.frameLimit ≤ F.machine.frames.size →
    (F.invoking callee args entry).step host w = (.progress, F.refused .stackOverflow, w)

variable {host : Host} {w : World} {F : Fiber} {f : Function} {callee : Value}
  {cells : Array (Ref .cell)} {args : List Value} {entry : Bool}

/-- A fiber that entered a function and one whose call failed. -/
theorem entering_ne_refused (F : Fiber) (g : Frame) (e : RuntimeError) :
    F.entering g ≠ F.refused e := by
  intro h
  have hcontrol : Control.dispatch = .deliver (.error e) := congrArg Fiber.control h
  cases hcontrol

/-- **Every function** with a default, or none, for each of its parameters is entered like this. -/
theorem enters (hp : f.Padded) (hf : w.heap.function? callee = some (f, cells))
    (hle : args.length ≤ F.machine.config.argLimit) :
    F.Enters host w f callee cells args entry := by
  have hstep : (F.invoking callee args entry).step host w = _ := step_function hf hle
  have hfull (h : F.machine.config.frameLimit ≤ F.machine.frames.size) :
      (F.invoking callee args entry).step host w = (.progress, F.refused .stackOverflow, w) := by
    rw [hstep, Machine.pushCall_full h]
  have hrejected (hroom : F.machine.frames.size < F.machine.config.frameLimit)
      (h : ¬(f.requiredArgs ≤ args.length ∧ args.length ≤ f.parameters.length)) :
      (F.invoking callee args entry).step host w = (.progress,
        F.refused (.argumentCount (f.name.getD "func") (Machine.arity f) args.length), w) := by
    rw [hstep, Machine.pushCall_refused hroom h]
  have haccepted (hroom : F.machine.frames.size < F.machine.config.frameLimit)
      (h : f.requiredArgs ≤ args.length ∧ args.length ≤ f.parameters.length) :
      (F.invoking callee args entry).step host w = (.progress,
        F.entering (Machine.callFrame callee f cells args entry F.machine), w) := by
    rw [hstep, Machine.pushCall_accepted hroom h.1 h.2]
    rfl
  -- a frame was pushed exactly when there was room and the number of arguments was right
  have hentered {g : Frame}
      (h : (F.invoking callee args entry).step host w = (.progress, F.entering g, w)) :
      F.machine.frames.size < F.machine.config.frameLimit ∧
        f.requiredArgs ≤ args.length ∧ args.length ≤ f.parameters.length := by
    by_cases hroom : F.machine.frames.size < F.machine.config.frameLimit
    · refine ⟨hroom, Classical.not_not.mp fun hnot => ?_⟩
      rw [hrejected hroom hnot] at h
      exact entering_ne_refused F g _ (congrArg (fun x => x.2.1) h).symm
    · rw [hfull (Nat.le_of_not_lt hroom)] at h
      exact absurd (congrArg (fun x => x.2.1) h).symm (entering_ne_refused F g _)
  refine ⟨hp.needsUpTo,
    fun hroom => ⟨fun ⟨g, hg⟩ => (hentered hg).2, fun h => ⟨_, haccepted hroom h⟩⟩,
    fun g hg => ?_, hrejected, hfull⟩
  obtain ⟨hroom, h⟩ := hentered hg
  rw [haccepted hroom h] at hg
  have hframes : F.machine.frames.push (Machine.callFrame callee f cells args entry F.machine) =
      F.machine.frames.push g := congrArg (fun x => x.2.1.machine.frames) hg
  obtain ⟨rfl, -⟩ := List.cons.inj (congrArg Stack.items hframes)
  exact Machine.binds_callFrame hp h.1 h.2

/-- A function that takes no arguments is not entered without any, because there is no room for its
frame: the number of arguments alone does not decide. -/
theorem full_refuses :
    ∃ (F : Fiber) (w : World) (f : Function), f.Padded ∧
      w.heap.function? (.function ⟨0⟩) = some (f, #[]) ∧
      f.requiredArgs ≤ ([] : List Value).length ∧ ([] : List Value).length ≤ f.parameters.length ∧
      (F.invoking (.function ⟨0⟩) [] false).step default w =
        (.progress, F.refused .stackOverflow, w) ∧
      ¬∃ g, (F.invoking (.function ⟨0⟩) [] false).step default w =
        (.progress, F.entering g, w) := by
  let f : Function := ⟨some "f", [], [], .ofParts #[] #[]⟩
  let F : Fiber := {
    machine := { config := Config.standard.withFrameLimit 1, frames := .ofList [default] }
    ctx := {}, control := .dispatch, goal := .program 0 }
  have hstep : (F.invoking (.function ⟨0⟩) [] false).step default
      { heap := { functions := #[f] } } =
      (.progress, F.refused .stackOverflow, { heap := { functions := #[f] } }) := rfl
  refine ⟨F, { heap := { functions := #[f] } }, f, rfl, rfl, by decide, by decide, hstep, ?_⟩
  rintro ⟨g, hg⟩
  rw [hstep] at hg
  exact entering_ne_refused F g _ (congrArg (fun x => x.2.1) hg).symm

end Fiber

/-! ### Compiled functions -/

/-- New builtins do not matter to functions. -/
theorem Function.Framed.of_scopes {t t' : ScopeTable} {f : Function} (h : f.Framed t)
    (hs : t'.scopes = t.scopes) : f.Framed t' := by
  have hscope : ∀ s : ScopeId, t'.scope s = t.scope s := fun s => by
    rw [ScopeTable.scope, ScopeTable.scope, hs]
  have hget : ∀ (s : ScopeId) (name : String), t'.get? s name = t.get? s name := fun s name => by
    rw [get?, get?, hscope]
  obtain ⟨s, hlt, hkind, hparams, hself⟩ := h.scope
  refine ⟨h.padded, h.name, h.fits, h.self, s, hs ▸ hlt, by rw [hscope, hkind], fun i n hi => ?_,
    fun n hn hnot => ?_⟩
  · rw [hget, hparams i n hi]
  · rw [hget, hself n hn hnot]

namespace Compiler

variable {c : Compiler} {E : Environment} {fs : Array Function} {batches : List Batch}

/-- **A batch** leaves all functions framed, whether it is accepted or refused. -/
theorem Sound.framed_compile (h : c.Sound E) (hf : ∀ f ∈ E.functions, f.Framed c.table)
    (program : Program) : ∀ f ∈ (c.compile E.functions program).2.2,
      f.Framed (c.compile E.functions program).2.1.table := by
  cases hs : Generate.statements program (c.starting E.functions) with
  | error e s =>
    rw [h.compile_of_error hs]
    obtain ⟨-, herr⟩ :=
      (Plan.ofStatements program).keeps_emit False.elim c.table root [] True _ h.inside
    rw [Plan.emit_ofStatements] at herr
    exact fun f hmem => (hf f hmem).grows (herr e s hs).grows
  | ok u s =>
    rw [h.compile_of_ok hs]
    intro f hmem
    obtain ⟨S, hfunctions, -, hscope, -, -, hlaid⟩ := h.laid hs
    have hsees := h.sees hscope
    have hgrows : c.table.Grows s.table := (hlaid.spans hsees).grows
    obtain ⟨k, hk, rfl⟩ := Array.getElem_of_mem hmem
    by_cases hold : k < E.functions.size
    · -- a function of an earlier batch
      obtain ⟨rest, hrest⟩ : E.functions.toList <+: s.functions.toList :=
        (h.emits hs).grows.functions
      have hget : s.functions[k] = E.functions[k] := by
        rw [← Array.getElem_toList hk, ← Array.getElem_toList hold]
        simp only [← hrest]
        exact List.getElem_append_left _
      rw [hget]
      exact (hf _ (Array.getElem_mem hold)).grows hgrows
    · obtain ⟨f, hf', hframed⟩ := (Plan.Laid.made _ hlaid hsees).framed hsees k
        (Nat.le_of_not_lt hold) hk
      rw [hfunctions] at hf'
      rw [Array.getElem?_eq_getElem hk] at hf'
      exact Option.some.inj hf' ▸ hframed

/-- **Every compiled function** is framed. -/
theorem Built.framed (h : Built c fs batches) : ∀ f ∈ fs, f.Framed c.table := by
  induction h with
  | withBuiltins => exact fun f hf => absurd hf (Array.not_mem_empty f)
  | withSource => exact fun f hf => absurd hf (Array.not_mem_empty f)
  | @addBuiltin c fs batches h name ih =>
    obtain ⟨E, -, hs⟩ := h.sound
    exact fun f hf => (ih f hf).of_scopes (scopes_addBuiltin hs.table name).2
  | @declareGlobal c fs batches h name ih =>
    obtain ⟨E, -, hs⟩ := h.sound
    intro f hf
    obtain heq | ⟨symbol, t, hd, heq⟩ := c.declareGlobal_cases name
    · rw [heq]
      exact ih f hf
    · rw [heq]
      exact (ih f hf).grows (declare_spec hs.table hs.table.nonempty hd).2.1
  | compile h program ih =>
    obtain ⟨E, rfl, hs⟩ := h.sound
    exact hs.framed_compile ih program

/-- **Arguments are bound by position.** Whatever partial calls stand around a callee, it is called
with the given arguments and those that they bind, or the call fails before anything is entered. A
function is entered with the numbers of arguments that it takes, if there is room for a frame, and
with nothing else; its parameters hold their arguments or their own defaults. The slots that a call
fills are those that the compiler gave to the names. -/
theorem Built.arguments_bound (h : Built c fs batches) :
    (∀ (host : Host) (ws : Nat → World) (F : Fiber) (f callee : Value) (layers : List PartialCall)
      (args : List Value) (entry : Bool), (∀ n, (ws n).heap.Tower f callee layers) →
        F.Unwinds host ws f callee layers args entry) ∧
    (∀ (host : Host) (w : World) (F : Fiber) (f : Function) (callee : Value)
      (cells : Array (Ref .cell)) (args : List Value) (entry : Bool), f.Padded →
        w.heap.function? callee = some (f, cells) → args.length ≤ F.machine.config.argLimit →
          F.Enters host w f callee cells args entry) ∧
    (∀ name parameters defaults code,
      (Function.ofParts name parameters defaults code).Padded) ∧
    ∀ f ∈ fs, f.Padded ∧ f.Framed c.table := by
  refine ⟨fun host ws F f callee layers args entry hw => ⟨Fiber.through_of_le hw,
    Fiber.through_of_lt hw⟩, fun host w F f callee cells args entry hp hf hle =>
    Fiber.enters hp hf hle, Function.padded_ofParts, fun f hf => ?_⟩
  have hframed := h.framed f hf
  exact ⟨hframed.padded, hframed⟩

/-- A partial call of a function with two defaults, beside a function that was compiled. -/
theorem Built.partial_bound :
    ∃ (c : Compiler) (compiled f : Function) (w : World), compiled.Framed c.table ∧ f.Padded ∧
      f.requiredArgs = 1 ∧ f.parameters.length = 3 ∧
      w.heap.Tower (.function ⟨0⟩) (.partialCall ⟨0⟩) [⟨.function ⟨0⟩, [.int 2]⟩] ∧
      ({ machine := {}, ctx := {}, control := .dispatch, goal := .program 0 } : Fiber).Unwinds
        default
        (fun _ => w) (.function ⟨0⟩) (.partialCall ⟨0⟩) [⟨.function ⟨0⟩, [.int 2]⟩] [.int 1] false ∧
      ({ machine := {}, ctx := {}, control := .dispatch, goal := .program 0 } : Fiber).Enters
        default
        w f (.function ⟨0⟩) #[] [.int 1, .int 2] false := by
  let program : Program := [.expr (.func (.mk none [] []))]
  have fresh : Compiler.withBuiltins [] = .ok {} := rfl
  have accepted : (Compiler.compile {} #[] program).2.2[0]?.isSome = true := by decide +kernel
  obtain ⟨compiled, hcompiled⟩ := Option.isSome_iff_exists.mp accepted
  let f : Function :=
    .ofParts (some "f") ["x", "y", "z"] [none, some (.int 5), some (.int 6)] (.ofParts #[] #[])
  let w : World :=
    { heap := { functions := #[f], partialCalls := #[⟨.function ⟨0⟩, [.int 2]⟩] } }
  have htower : w.heap.Tower (.function ⟨0⟩) (.partialCall ⟨0⟩) [⟨.function ⟨0⟩, [.int 2]⟩] :=
    .layer rfl .base
  obtain ⟨hunwinds, henters, hpadded, hframed⟩ :=
    ((Built.withBuiltins fresh).compile program).arguments_bound
  exact ⟨_, compiled, f, w, (hframed compiled (Array.mem_of_getElem? hcompiled)).2, hpadded _ _ _ _,
    rfl, rfl, htower, hunwinds _ _ _ _ _ _ _ _ fun _ => htower,
    henters _ _ _ _ _ _ _ _ (hpadded _ _ _ _) rfl (by decide)⟩

end Compiler

end ScriptEngine
