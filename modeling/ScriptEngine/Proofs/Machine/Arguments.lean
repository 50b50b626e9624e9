import Mathlib.Data.List.DropRight
import ScriptEngine.Proofs.Machine.Usage

/-!
# Arguments

What a callee is called with. Each partial call around it puts the arguments that it binds behind
those that were given, and the limit on arguments applies after every one of them. A function then
takes all of them or is not entered: its parameters hold the arguments, and the defaults where there
are fewer arguments than parameters.

## Main definitions

* `ScriptEngine.Heap.Tower`: partial calls around a callee;
* `ScriptEngine.Fiber.Through`: steps in which a fiber unwinds partial calls;
* `ScriptEngine.Frame.Binds`: the frame of a call, with the content of its slots.

## Main results

* `ScriptEngine.Function.default_of_le`, `ScriptEngine.Function.default_of_eq_succ`: which arguments
  a function needs;
* `ScriptEngine.Fiber.through_of_le`, `ScriptEngine.Fiber.through_of_lt`: how partial calls are
  unwound, within the limit and beyond it;
* `ScriptEngine.Machine.pushCall_accepted`, `ScriptEngine.Machine.pushCall_refused`: when a function
  is entered, and with which slots.
-/

namespace ScriptEngine

/-! ### Functions -/

namespace Function

variable {f : Function} {i : Nat}

theorem requiredArgs_eq (f : Function) :
    f.requiredArgs = (f.defaults.rdropWhile Option.isSome).length :=
  List.length_reverse.symm

/-- Behind the arguments that a function needs, all parameters have defaults. -/
theorem default_of_le (h : f.requiredArgs ≤ i) (hi : i < f.defaults.length) :
    ∃ v, f.defaults[i]? = some (some v) := by
  have hsplit := List.rdropWhile_append_rtakeWhile (p := Option.isSome) (l := f.defaults)
  have hget : f.defaults[i]? =
      (f.defaults.rtakeWhile Option.isSome)[i - f.requiredArgs]? := by
    conv_lhs => rw [← hsplit]
    rw [List.getElem?_append_right (by rwa [← requiredArgs_eq]), ← requiredArgs_eq]
  rw [List.getElem?_eq_getElem hi] at hget ⊢
  have hsome := List.mem_rtakeWhile_imp (List.mem_of_getElem? hget.symm)
  obtain ⟨v, hv⟩ := Option.isSome_iff_exists.mp hsome
  exact ⟨v, congrArg some hv⟩

/-- The last of the arguments that a function needs has no default. -/
theorem default_of_eq_succ (h : f.requiredArgs = i + 1) : f.defaults[i]? = some none := by
  have hne : f.defaults.rdropWhile Option.isSome ≠ [] := by
    rw [requiredArgs_eq] at h
    exact List.ne_nil_of_length_eq_add_one h
  have hlast := List.rdropWhile_last_not _ _ hne
  obtain ⟨rest, hrest⟩ := List.rdropWhile_prefix Option.isSome f.defaults
  rw [← hrest, List.getElem?_append_left (by rw [← requiredArgs_eq]; omega)]
  rw [List.getLast_eq_getElem] at hlast
  rw [List.getElem?_eq_getElem (by rw [← requiredArgs_eq]; omega)]
  rw [requiredArgs_eq] at h
  simp only [h, Nat.add_sub_cancel] at hlast
  exact congrArg some (Option.not_isSome_iff_eq_none.mp hlast)

end Function

/-! ### Slots -/

namespace Machine

variable {f : Function} {args : List Value} {i : Nat}

/-- The arguments, and behind them the defaults of the other parameters. -/
def boundArgs (f : Function) (args : List Value) : List Value :=
  args ++ (f.defaults.drop args.length).map (·.getD .nil)

theorem length_boundArgs (h : args.length ≤ f.defaults.length) :
    (boundArgs f args).length = f.defaults.length := by
  unfold boundArgs
  rw [List.length_append, List.length_map, List.length_drop]
  omega

theorem bindArguments_eq (f : Function) (args : List Value) :
    bindArguments f args = (boundArgs f args ++
      List.replicate (f.code.localCount - (boundArgs f args).length) Value.nil).toArray := rfl

/-- The slots of the arguments. -/
theorem bindArguments_of_lt (h : i < args.length) : (bindArguments f args)[i]? = args[i]? := by
  rw [bindArguments_eq, List.getElem?_toArray, List.getElem?_append_left, boundArgs,
    List.getElem?_append_left h]
  unfold boundArgs
  rw [List.length_append]
  omega

/-- The slots of the other parameters. -/
theorem bindArguments_default (h : args.length ≤ i) {v : Value}
    (hv : f.defaults[i]? = some (some v)) : (bindArguments f args)[i]? = some v := by
  have hi : i < f.defaults.length := (List.getElem?_eq_some_iff.mp hv).1
  have hbound : (boundArgs f args)[i]? = some v := by
    unfold boundArgs
    rw [List.getElem?_append_right h, List.getElem?_map, List.getElem?_drop,
      Nat.add_sub_cancel' h, hv]
    rfl
  rw [bindArguments_eq, List.getElem?_toArray,
    List.getElem?_append_left (List.getElem?_eq_some_iff.mp hbound).1, hbound]

/-- All further slots. -/
theorem bindArguments_rest (h : args.length ≤ f.defaults.length) (hi : f.defaults.length ≤ i)
    (hl : i < f.code.localCount) : (bindArguments f args)[i]? = some .nil := by
  rw [bindArguments_eq, List.getElem?_toArray,
    List.getElem?_append_right (by rwa [length_boundArgs h]), length_boundArgs h,
    List.getElem?_replicate, if_pos (by omega)]

theorem size_bindArguments (h : args.length ≤ f.defaults.length)
    (hl : f.defaults.length ≤ f.code.localCount) :
    (bindArguments f args).size = f.code.localCount := by
  rw [bindArguments_eq, List.size_toArray, List.length_append, length_boundArgs h,
    List.length_replicate]
  omega

end Machine

/-- **The frame of a call**: parameters hold the arguments and then their own defaults, a named
function finds itself in the slot behind them, and all further slots hold nil. -/
structure Frame.Binds (f : Function) (callee : Value) (cells : Array (Ref .cell))
    (args : List Value) (g : Frame) : Prop where
  function : g.function = some f
  code : g.code = f.code
  start : g.ip = 0
  cells : g.cells = cells
  argument : ∀ i < args.length, g.locals[i]? = args[i]?
  default : ∀ i, args.length ≤ i → i < f.parameters.length →
    ∃ v, f.defaults[i]? = some (some v) ∧ g.locals[i]? = some v
  self : f.code.name.isSome → f.parameters.length < f.code.localCount →
    g.locals[f.parameters.length]? = some callee
  rest : ∀ i, f.parameters.length ≤ i → (f.code.name.isSome → i ≠ f.parameters.length) →
    i < f.code.localCount → g.locals[i]? = some .nil

namespace Machine

variable {f : Function} {callee : Value} {cells : Array (Ref .cell)} {args : List Value}
  {entry : Bool} {m : Machine}

/-- The frame that a call pushes. -/
def callFrame (callee : Value) (f : Function) (cells : Array (Ref .cell)) (args : List Value)
    (entry : Bool) (m : Machine) : Frame :=
  { function := some f, code := f.code, cells
    locals := if f.code.name.isSome then
      (bindArguments f args).setIfInBounds f.parameters.length callee else bindArguments f args
    base := m.stack.size, entry }

/-- **What the frame of a call holds**, if the function takes the arguments. -/
theorem binds_callFrame (hp : f.Padded) (hle : f.requiredArgs ≤ args.length)
    (hmost : args.length ≤ f.parameters.length) :
    (callFrame callee f cells args entry m).Binds f callee cells args := by
  have hlocals (i : Nat) (hi : f.code.name.isSome → i ≠ f.parameters.length) :
      (callFrame callee f cells args entry m).locals[i]? = (bindArguments f args)[i]? := by
    unfold callFrame
    dsimp only
    split
    · rename_i hname
      exact Array.getElem?_setIfInBounds_ne (Ne.symm (hi hname))
    · rfl
  refine ⟨rfl, rfl, rfl, rfl, fun i hi => ?_, fun i hi hlt => ?_, fun hname hlt => ?_,
    fun i hi hne hlt => ?_⟩
  · rw [hlocals i fun _ => by omega, bindArguments_of_lt hi]
  · obtain ⟨v, hv⟩ := Function.default_of_le (Nat.le_trans hle hi) (hp ▸ hlt)
    refine ⟨v, hv, ?_⟩
    rw [hlocals i fun _ => by omega, bindArguments_default hi hv]
  · unfold callFrame
    dsimp only
    have hsize : f.parameters.length < (bindArguments f args).size := by
      rw [size_bindArguments (hp ▸ hmost) (by rw [hp]; omega)]
      exact hlt
    rw [if_pos hname, Array.getElem?_setIfInBounds_self_of_lt hsize]
  · rw [hlocals i hne, bindArguments_rest (hp ▸ hmost) (hp ▸ hi) hlt]

/-- A call with a number of arguments that the function takes. -/
theorem pushCall_accepted (hroom : m.frames.size < m.config.frameLimit)
    (hle : f.requiredArgs ≤ args.length) (hmost : args.length ≤ f.parameters.length) :
    m.pushCall callee f cells args entry =
      .ok { m with frames := m.frames.push (callFrame callee f cells args entry m) } := by
  unfold pushCall
  rw [if_neg (Nat.not_le.mpr hroom), if_neg (by omega)]
  rfl

/-- A call with another number of arguments. -/
theorem pushCall_refused (hroom : m.frames.size < m.config.frameLimit)
    (h : ¬(f.requiredArgs ≤ args.length ∧ args.length ≤ f.parameters.length)) :
    m.pushCall callee f cells args entry =
      .error (.argumentCount (f.name.getD "func") (arity f) args.length) := by
  unfold pushCall
  rw [if_neg (Nat.not_le.mpr hroom), if_pos (by omega)]

/-- A call for which there is no room. -/
theorem pushCall_full (hfull : m.config.frameLimit ≤ m.frames.size) :
    m.pushCall callee f cells args entry = .error .stackOverflow :=
  if_pos hfull

end Machine

/-! ### Partial calls -/

/-- **Partial calls around a callee**, the outermost one first. -/
inductive Heap.Tower (h : Heap) (f : Value) : Value → List PartialCall → Prop
  | base : Tower h f f []
  | layer {r : Ref .partialCall} {p : PartialCall} {layers : List PartialCall}
    (hp : h.partialCall r = p) (inner : Tower h f p.callee layers) :
    Tower h f (.partialCall r) (p :: layers)

/-- The same partial call stands around the rest of a tower in all heaps in which the tower
stands. -/
theorem Heap.Tower.unwound {ws : Nat → World} {f callee : Value} {p : PartialCall}
    {layers : List PartialCall} (h : ∀ n, (ws n).heap.Tower f callee (p :: layers)) :
    ∃ r, callee = .partialCall r ∧
      ∀ n, (ws n).heap.partialCall r = p ∧ (ws n).heap.Tower f p.callee layers := by
  cases callee with
  | partialCall r =>
    refine ⟨r, rfl, fun n => ?_⟩
    cases h n with
    | layer hp inner => exact ⟨hp, inner⟩
  | _ => cases h 0

/-- The arguments that partial calls bind, in the order in which they are passed on. -/
def PartialCall.bound (layers : List PartialCall) : List Value :=
  layers.flatMap PartialCall.args

@[simp] theorem PartialCall.bound_nil : bound [] = [] := rfl

@[simp] theorem PartialCall.bound_cons (p : PartialCall) (layers : List PartialCall) :
    bound (p :: layers) = p.args ++ bound layers := rfl

namespace Fiber

variable {host : Host} {w : World} {F : Fiber} {f callee : Value} {layers : List PartialCall}
  {args : List Value} {entry : Bool}

/-- **Steps in which a fiber unwinds partial calls**, as many as given, each in the next of the
given worlds, which it leaves as it is. -/
def Through (host : Host) : (Nat → World) → Nat → Fiber → Fiber → Prop
  | _, 0, F, F' => F' = F
  | ws, n + 1, F, F' => ∃ (r : Ref .partialCall) (args : List Value) (entry : Bool) (F₁ : Fiber),
      F.control = .invoke (.partialCall r) args entry ∧
        F.step host (ws 0) = (.progress, F₁, ws 0) ∧ Through host (fun i => ws (i + 1)) n F₁ F'

/-- A fiber that entered a function. -/
def entering (F : Fiber) (g : Frame) : Fiber :=
  { F with machine := { F.machine with frames := F.machine.frames.push g }, control := .dispatch }

/-- A fiber whose call of a callable failed. -/
def refused (F : Fiber) (e : RuntimeError) : Fiber :=
  { F with control := .deliver (.error e) }

/-- A fiber that is about to enter a callable. -/
def invoking (F : Fiber) (callee : Value) (args : List Value) (entry : Bool) : Fiber :=
  { F with control := .invoke callee args entry }

/-- More arguments than the limit. -/
theorem step_tooMany (h : F.machine.config.argLimit < args.length) :
    (F.invoking callee args entry).step host w =
      (.progress, F.refused (.typeError (.argumentLimit F.machine.config.argLimit args.length)),
        w) := by
  obtain ⟨m, ctx, control, pending, goal⟩ := F
  unfold invoking refused step invoke
  dsimp only
  rw [if_pos h]

/-- **A partial call** is replaced by its callee, with the arguments that it binds behind those that
were given. -/
theorem step_partialCall {r : Ref .partialCall} (h : args.length ≤ F.machine.config.argLimit) :
    (F.invoking (.partialCall r) args entry).step host w =
      (.progress, F.invoking (w.heap.partialCall r).callee
        (args ++ (w.heap.partialCall r).args) entry, w) := by
  obtain ⟨m, ctx, control, pending, goal⟩ := F
  unfold invoking step invoke
  dsimp only
  rw [if_neg (Nat.not_lt.mpr h)]

/-- **A builtin** gets exactly the arguments. -/
theorem step_builtin {r : Ref .builtin} (h : args.length ≤ F.machine.config.argLimit) :
    (F.invoking (.builtin r) args entry).step host w =
      (.progress, { F with
        control := .activity ((w.heap.builtin r).activity host args)
        pending := if entry then F.pending else .operand :: F.pending }, w) := by
  obtain ⟨m, ctx, control, pending, goal⟩ := F
  unfold invoking step invoke
  dsimp only
  rw [if_neg (Nat.not_lt.mpr h)]

/-- **A function** is entered, or the call fails. -/
theorem step_function {g : Function} {cells : Array (Ref .cell)}
    (hg : w.heap.function? callee = some (g, cells))
    (h : args.length ≤ F.machine.config.argLimit) :
    (F.invoking callee args entry).step host w =
      (.progress, match F.machine.pushCall callee g cells args entry with
        | .ok m => { F with machine := m, control := .dispatch }
        | .error e => F.refused e, w) := by
  obtain ⟨m, ctx, control, pending, goal⟩ := F
  unfold invoking refused step invoke
  dsimp only
  rw [if_neg (Nat.not_lt.mpr h)]
  cases callee with
  | function r => cases hcall : m.pushCall (.function r) g cells args entry <;> simp [hg, hcall]
  | closure r => cases hcall : m.pushCall (.closure r) g cells args entry <;> simp [hg, hcall]
  | _ => cases hg

/-- **Partial calls are unwound**, one in each step and whatever others do meanwhile, until their
callee is entered with all arguments. -/
theorem through_of_le {ws : Nat → World} (hw : ∀ n, (ws n).heap.Tower f callee layers)
    (hle : args.length + (PartialCall.bound layers).length ≤ F.machine.config.argLimit) :
    Through host ws layers.length (F.invoking callee args entry)
      (F.invoking f (args ++ PartialCall.bound layers) entry) := by
  induction layers generalizing ws callee args with
  | nil =>
    cases hw 0
    rw [PartialCall.bound_nil, List.append_nil]
    rfl
  | cons p layers ih =>
    rw [PartialCall.bound_cons, List.length_append] at hle
    obtain ⟨r, rfl, hinner⟩ := Heap.Tower.unwound hw
    refine ⟨r, args, entry, _, rfl, step_partialCall (by omega), ?_⟩
    rw [(hinner 0).1, PartialCall.bound_cons, ← List.append_assoc]
    refine ih (fun n => (hinner (n + 1)).2) ?_
    rw [List.length_append]
    omega

/-- **Beyond the limit** the call fails at the first layer with too many arguments, before anything
is entered. -/
theorem through_of_lt {ws : Nat → World} (hw : ∀ n, (ws n).heap.Tower f callee layers)
    (hlt : F.machine.config.argLimit < args.length + (PartialCall.bound layers).length) :
    ∃ n ≤ layers.length, ∃ (c : Value) (xs : List Value), F.machine.config.argLimit < xs.length ∧
      Through host ws n (F.invoking callee args entry) (F.invoking c xs entry) ∧
      (F.invoking c xs entry).step host (ws n) = (.progress,
        F.refused (.typeError (.argumentLimit F.machine.config.argLimit xs.length)), ws n) := by
  induction layers generalizing ws callee args with
  | nil =>
    have hlt : F.machine.config.argLimit < args.length := by simpa using hlt
    exact ⟨0, Nat.le_refl _, callee, args, hlt, rfl, step_tooMany hlt⟩
  | cons p layers ih =>
    by_cases hmany : F.machine.config.argLimit < args.length
    · exact ⟨0, Nat.zero_le _, callee, args, hmany, rfl, step_tooMany hmany⟩
    rw [PartialCall.bound_cons, List.length_append] at hlt
    obtain ⟨r, rfl, hinner⟩ := Heap.Tower.unwound hw
    have hlonger : F.machine.config.argLimit <
        (args ++ p.args).length + (PartialCall.bound layers).length := by
      rw [List.length_append]
      omega
    obtain ⟨n, hn, c, xs, hxs, hthrough, hstep⟩ := ih (fun n => (hinner (n + 1)).2) hlonger
    refine ⟨n + 1, Nat.succ_le_succ hn, c, xs, hxs,
      ⟨r, args, entry, _, rfl, step_partialCall (Nat.le_of_not_lt hmany), ?_⟩, hstep⟩
    rw [(hinner 0).1]
    exact hthrough

end Fiber

end ScriptEngine
