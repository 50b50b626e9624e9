import ScriptEngine.Proofs.Machine.Arguments
import ScriptEngine.Proofs.Machine.Paths

/-!
# Inside one activation

A fiber on its own, from one place in the code of its innermost frame to another one. Whatever it
does in between, calls included, it comes back to the same frame, below which nothing has changed.

## Main definitions

* `ScriptEngine.Fiber.Runs`: steps of a fiber on its own;
* `ScriptEngine.Fiber.At`, `ScriptEngine.Fiber.Calls`: a fiber that goes on at an offset, at once or
  after a call;
* `ScriptEngine.Fiber.Follows`: the same activation, later.

## Main results

* `ScriptEngine.Fiber.step_at`: an instruction that goes on, as a step of the fiber;
* `ScriptEngine.Fiber.step_call`: a call takes its callee and its arguments;
* `ScriptEngine.Fiber.call_bound`: arguments that are bound and handed on lie behind the value that
  waited below them.
-/

namespace ScriptEngine

/-- The world with one more partial call. -/
def World.withPartial (w : World) (p : PartialCall) : World :=
  { w with heap := (w.heap.newPartialCall p).2 }

namespace Fiber

variable {host : Host} {F F₁ F₂ F₃ : Fiber} {w w₁ w₂ w₃ : World} {c : Code} {offset next : Nat}
  {vs below : List Value}

/-! ### Runs -/

/-- **Steps of a fiber on its own.** -/
inductive Runs (host : Host) : Fiber → World → Fiber → World → Prop
  | refl (F : Fiber) (w : World) : Runs host F w F w
  | step {F F₁ F₂ : Fiber} {w w₁ w₂ : World} {e : Event} (h : F.step host w = (e, F₁, w₁))
    (hr : Runs host F₁ w₁ F₂ w₂) : Runs host F w F₂ w₂

theorem Runs.single {e : Event} (h : F.step host w = (e, F₁, w₁)) : Runs host F w F₁ w₁ :=
  .step h (.refl _ _)

theorem Runs.trans (h : Runs host F w F₁ w₁) (h' : Runs host F₁ w₁ F₂ w₂) :
    Runs host F w F₂ w₂ := by
  induction h with
  | refl => exact h'
  | step hs _ ih => exact .step hs (ih h')

/-! ### Places -/

/-- **A fiber goes on at an offset of a code**, with the given operands. -/
structure At (F : Fiber) (c : Code) (offset : Nat) (vs : List Value) : Prop where
  control : F.control = .dispatch
  stands : F.machine.Stands c offset vs

/-- **A fiber is about to enter a callable**, and goes on at an offset with what the callable
returns above the given operands. -/
structure Calls (F : Fiber) (c : Code) (offset : Nat) (below : List Value) (callee : Value)
    (args : List Value) : Prop where
  control : F.control = .invoke callee args false
  stands : F.machine.Stands c offset below

/-- **The same activation, later**: in its frame only the offset and the variables may have changed,
and nothing in the frames around it. -/
structure Follows (F F' : Fiber) : Prop where
  ctx : F'.ctx = F.ctx
  pending : F'.pending = F.pending
  goal : F'.goal = F.goal
  config : F'.machine.config = F.machine.config
  registry : F'.machine.registry = F.machine.registry
  limit : F'.machine.stack.limit = F.machine.stack.limit
  frames : ∃ g ip locals rest, F.machine.frames.items = g :: rest ∧
    F'.machine.frames.items = { g with ip, locals } :: rest

/-- **The same activation**, elsewhere in its code and with other operands. -/
structure Resumes (F F' : Fiber) : Prop where
  follows : F.Follows F'
  locals : F'.machine.frames.top?.map Frame.locals = F.machine.frames.top?.map Frame.locals

theorem Follows.trans (h : F.Follows F₁) (h' : F₁.Follows F₂) : F.Follows F₂ := by
  obtain ⟨g, ip, locals, rest, hg, hg₁⟩ := h.frames
  obtain ⟨_, ip', locals', _, hg₁', hg₂⟩ := h'.frames
  obtain ⟨rfl, rfl⟩ := List.cons.inj (hg₁.symm.trans hg₁')
  exact ⟨h'.ctx.trans h.ctx, h'.pending.trans h.pending, h'.goal.trans h.goal,
    h'.config.trans h.config, h'.registry.trans h.registry, h'.limit.trans h.limit,
    g, ip', locals', rest, hg, hg₂⟩

theorem Resumes.trans (h : F.Resumes F₁) (h' : F₁.Resumes F₂) : F.Resumes F₂ :=
  ⟨h.follows.trans h'.follows, h'.locals.trans h.locals⟩

/-- The frame of a machine that stands somewhere. -/
theorem frames_of_stands {m : Machine} (h : m.Stands c offset vs) :
    ∃ g rest, m.frames.items = g :: rest ∧ g.code = c ∧ g.ip = offset := by
  obtain ⟨g, htop, hcode, hip⟩ := h.frame
  have htop : m.frames.items.head? = some g := htop
  cases hi : m.frames.items with
  | nil =>
    rw [hi] at htop
    cases htop
  | cons g' rest =>
    rw [hi] at htop
    cases htop
    exact ⟨g, rest, rfl, hcode, hip⟩

theorem At.follows (h : F.At c offset vs) : F.Follows F := by
  obtain ⟨g, rest, hg, -⟩ := frames_of_stands h.stands
  exact ⟨rfl, rfl, rfl, rfl, rfl, rfl, g, g.ip, g.locals, rest, hg, hg⟩

/-! ### Instructions -/

/-- A fiber in the middle of an instruction, behind which it goes on with other operands. -/
def behind (F : Fiber) (i : Instruction) (stack : OperandStack) (control : Control) : Fiber :=
  { F with machine := { F.machine.behind i with stack }, control }

variable {i : Instruction} {stack : OperandStack} {control : Control}

theorem behind_stands (h : F.At c i.offset vs) (hs : stack.size ≤ stack.limit) :
    (F.behind i stack control).machine.Stands c i.stop stack.toList := by
  have hstands : (F.machine.behind i).Stands c i.stop vs :=
    Exec.stands_behind (s := ⟨F.machine, default⟩) h.stands i
  exact ⟨hstands.frame, rfl, hs⟩

theorem behind_resumes (h : F.At c i.offset vs) (hl : stack.limit = F.machine.stack.limit) :
    F.Resumes (F.behind i stack control) := by
  obtain ⟨g, rest, hg, -⟩ := frames_of_stands h.stands
  have hframes : (F.behind i stack control).machine.frames.items =
      { g with ip := i.stop } :: rest :=
    Exec.Stack.items_mapTop _ _ hg
  refine ⟨⟨rfl, rfl, rfl, rfl, rfl, hl, g, i.stop, g.locals, rest, hg, hframes⟩, ?_⟩
  unfold Stack.top?
  rw [hg, hframes]
  rfl

/-- A step in which an instruction is executed. -/
theorem step_at (host : Host) (h : F.At c i.offset vs) (hc : c.Has i)
    (ha : F.ctx.Allows w.controls) {flow : Flow}
    (hx : Exec.execute F.ctx i ⟨F.machine.behind i, w⟩ =
      .ok flow ⟨{ F.machine.behind i with stack }, w₁⟩) :
    F.step host w = (.progress, F.behind i stack (match flow with
      | .next => .dispatch
      | .leave v => .deliver (.ok v)
      | .invoke callee args => .invoke callee args false), w₁) := by
  obtain ⟨g, hn⟩ : ∃ g, Exec.next? F.ctx ⟨F.machine, w⟩ = some (g, i) :=
    Exec.next?_of_stands h.stands hc ha
  have hturn := (Exec.turn_of_next? hn).trans hx
  obtain ⟨m, ctx, control, pending, goal⟩ := F
  obtain rfl : control = .dispatch := h.control
  unfold step dispatch behind
  dsimp only at hturn ⊢
  rw [hturn]
  cases flow <;> rfl

/-! ### Operands of calls -/

section Operands

variable {S : OperandStack} {xs ys : List Value} {x y : Value}

theorem popN_of_toList (h : S.toList = xs.reverse ++ ys) :
    ∃ T, S.popN xs.length = .ok (xs, T) ∧ T.toList = ys ∧ T.limit = S.limit ∧
      T.size + xs.length = S.size := by
  obtain ⟨⟨items, size, rfl⟩, limit⟩ := S
  obtain rfl : items = xs.reverse ++ ys := h
  have hsize : (xs.reverse ++ ys).length = ys.length + xs.length := by
    rw [List.length_append, List.length_reverse, Nat.add_comm]
  refine ⟨⟨(Stack.mk (xs.reverse ++ ys) _ rfl).truncate
    ((xs.reverse ++ ys).length - xs.length), limit⟩, ?_, ?_, rfl, ?_⟩
  · unfold OperandStack.popN
    dsimp only
    rw [if_pos (by omega), List.take_left' (List.length_reverse), List.reverse_reverse]
  · show Stack.items _ = ys
    rw [Stack.items_truncate]
    exact List.drop_left' (by rw [List.length_reverse]; dsimp only; omega)
  · show Stack.size _ + _ = (xs.reverse ++ ys).length
    rw [Stack.size_truncate]
    dsimp only
    omega

theorem pop_of_toList (h : S.toList = x :: ys) :
    ∃ T, S.pop = .ok (x, T) ∧ T.toList = ys ∧ T.limit = S.limit ∧ T.size + 1 = S.size := by
  obtain ⟨⟨items, size, rfl⟩, limit⟩ := S
  obtain rfl : items = x :: ys := h
  exact ⟨_, rfl, rfl, rfl, rfl⟩

theorem push_of_lt (h : S.size < S.limit) (x : Value) :
    ∃ T, S.push x = .ok T ∧ T.toList = x :: S.toList ∧ T.limit = S.limit ∧ T.size = S.size + 1 :=
  ⟨⟨S.contents.push x, S.limit⟩, if_pos h, rfl, rfl, rfl⟩

theorem swap_of_toList (h : S.toList = x :: y :: ys) :
    ∃ T, S.swap 1 = .ok T ∧ T.toList = y :: x :: ys ∧ T.limit = S.limit ∧ T.size = S.size := by
  obtain ⟨⟨items, size, rfl⟩, limit⟩ := S
  obtain rfl : items = x :: y :: ys := h
  exact ⟨_, rfl, rfl, rfl, rfl⟩

theorem onStack_of_ok {α : Type} {f : OperandStack → Except RuntimeError (α × OperandStack)}
    {m : Machine} {a : α} {T : OperandStack} (h : f m.stack = .ok (a, T)) :
    Exec.onStack f ⟨m, w⟩ = .ok a ⟨{ m with stack := T }, w⟩ := by
  obtain ⟨config, stack, frames, registry, position, status, ticks⟩ := m
  unfold Exec.onStack
  dsimp only at h ⊢
  rw [h]

end Operands

/-! ### Calls -/

variable {n : Word} {args : List Value} {callee v : Value}

/-- **A call** takes its arguments and its callee. -/
theorem step_call (host : Host) (h : F.At c offset (args.reverse ++ callee :: below))
    (hc : c.Has ⟨offset, .call, [n]⟩) (hn : n.toNat = args.length) (ha : F.ctx.Allows w.controls) :
    ∃ G, F.step host w = (.progress, G, w) ∧ G.Calls c (offset + 2) below callee args ∧
      F.Resumes G := by
  obtain ⟨T, hargs, hT, hlimit, hsize⟩ := popN_of_toList h.stands.operands
  obtain ⟨U, hcallee, hU, hlimit', hsize'⟩ := pop_of_toList hT
  have hbounded := h.stands.bounded
  let i : Instruction := ⟨offset, .call, [n]⟩
  have hx : Exec.execute F.ctx i ⟨F.machine.behind i, w⟩ =
      .ok (.invoke callee args) ⟨{ F.machine.behind i with stack := U }, w⟩ := by
    show (do
      let args ← Exec.popN n.toNat
      return .invoke (← Exec.pop) args : Exec Flow) _ = _
    rw [hn]
    exact bind_eq_ok.mpr ⟨args, _, onStack_of_ok hargs,
      bind_eq_ok.mpr ⟨callee, _, onStack_of_ok hcallee, rfl⟩⟩
  refine ⟨_, step_at host h hc ha hx, ⟨rfl, hU ▸ behind_stands h ?_⟩,
    behind_resumes h (hlimit'.trans hlimit)⟩
  rw [hlimit', hlimit]
  omega

/-- The two top operands change places. -/
theorem step_swap (host : Host) {x y : Value} (h : F.At c offset (x :: y :: vs))
    (hc : c.Has ⟨offset, .swap, [1]⟩) (ha : F.ctx.Allows w.controls) :
    ∃ G, F.step host w = (.progress, G, w) ∧ G.At c (offset + 2) (y :: x :: vs) ∧ F.Resumes G := by
  obtain ⟨T, hswap, hT, hlimit, hsize⟩ := swap_of_toList h.stands.operands
  have hbounded := h.stands.bounded
  let i : Instruction := ⟨offset, .swap, [1]⟩
  have hx : Exec.execute F.ctx i ⟨F.machine.behind i, w⟩ =
      .ok .next ⟨{ F.machine.behind i with stack := T }, w⟩ := by
    show (Exec.proceed (Exec.swap 1) : Exec Flow) _ = _
    refine bind_eq_ok.mpr ⟨(), _, onStack_of_ok ?_, rfl⟩
    show Except.map _ (F.machine.stack.swap 1) = _
    rw [hswap]
    rfl
  refine ⟨_, step_at host h hc ha hx, ⟨rfl, hT ▸ behind_stands h ?_⟩, behind_resumes h hlimit⟩
  rw [hlimit]
  omega

/-- **Arguments are bound** to a callee. -/
theorem step_bindPartial (host : Host) (h : F.At c offset (args.reverse ++ callee :: vs))
    (hc : c.Has ⟨offset, .bindPartial, [n]⟩) (hn : n.toNat = args.length)
    (ha : F.ctx.Allows w.controls) :
    ∃ G, F.step host w = (.progress, G, w.withPartial ⟨callee, args⟩) ∧
      G.At c (offset + 2) (.partialCall ⟨w.heap.partialCalls.size⟩ :: vs) ∧ F.Resumes G := by
  obtain ⟨T, hargs, hT, hlimit, hsize⟩ := popN_of_toList h.stands.operands
  obtain ⟨U, hcallee, hU, hlimit', hsize'⟩ := pop_of_toList hT
  have hbounded := h.stands.bounded
  have hroom : U.size < U.limit := by
    rw [hlimit', hlimit]
    omega
  obtain ⟨V, hpush, hV, hlimit'', hsize''⟩ :=
    push_of_lt hroom (.partialCall ⟨w.heap.partialCalls.size⟩)
  let i : Instruction := ⟨offset, .bindPartial, [n]⟩
  have hx : Exec.execute F.ctx i ⟨F.machine.behind i, w⟩ =
      .ok .next ⟨{ F.machine.behind i with stack := V }, w.withPartial ⟨callee, args⟩⟩ := by
    show (Exec.proceed (do
      let args ← Exec.popN n.toNat
      let callee ← Exec.pop
      Exec.push (.partialCall (← Exec.onHeap (·.newPartialCall ⟨callee, args⟩)))) : Exec Flow) _ = _
    rw [hn]
    refine bind_eq_ok.mpr ⟨(), _, bind_eq_ok.mpr ⟨args, _, onStack_of_ok hargs,
      bind_eq_ok.mpr ⟨callee, _, onStack_of_ok hcallee, bind_eq_ok.mpr ⟨_, _, rfl,
        onStack_of_ok ?_⟩⟩⟩, rfl⟩
    rw [hpush]
    rfl
  refine ⟨_, step_at host h hc ha hx, ⟨rfl, (hV.trans (congrArg _ hU)) ▸ behind_stands h ?_⟩,
    behind_resumes h (hlimit''.trans (hlimit'.trans hlimit))⟩
  rw [hlimit'', hsize'']
  exact hroom

/-- **A callable without arguments of its own** is called with the value that waited below it. -/
theorem call_plain (host : Host) (h : F.At c offset (callee :: v :: below))
    (hs : c.Has ⟨offset, .swap, [1]⟩)
    (hc : c.Has ⟨offset + 2, .call, [1]⟩) (ha : F.ctx.Allows w.controls) :
    ∃ G, Runs host F w G w ∧ G.Calls c (offset + 4) below callee [v] ∧ F.Resumes G := by
  obtain ⟨F₁, h₁, at₁, r₁⟩ := step_swap host h hs ha
  have at₁ : F₁.At c (offset + 2) ([v].reverse ++ callee :: below) := at₁
  obtain ⟨G, h₂, calls, r₂⟩ := step_call host at₁ hc rfl (r₁.follows.ctx ▸ ha)
  exact ⟨G, (Runs.single h₁).trans (.single h₂), calls, r₁.trans r₂⟩

/-- **Arguments that are bound to a callee** lie behind the value that waited below it. -/
theorem call_bound (host : Host) (h : F.At c offset (args.reverse ++ callee :: v :: below))
    (hb : c.Has ⟨offset, .bindPartial, [n]⟩) (hn : n.toNat = args.length)
    (hs : c.Has ⟨offset + 2, .swap, [1]⟩) (hc : c.Has ⟨offset + 4, .call, [1]⟩)
    (ha : F.ctx.Allows w.controls) (hone : 0 < F.machine.config.argLimit) :
    ∃ G, Runs host F w G (w.withPartial ⟨callee, args⟩) ∧
      G.Calls c (offset + 6) below callee (v :: args) ∧ F.Resumes G := by
  obtain ⟨F₁, h₁, at₁, r₁⟩ := step_bindPartial host h hb hn ha
  have ha₁ : F₁.ctx.Allows (w.withPartial ⟨callee, args⟩).controls := r₁.follows.ctx ▸ ha
  obtain ⟨F₂, h₂, calls₂, r₂⟩ := call_plain host at₁ hs hc ha₁
  have r := r₁.trans r₂
  -- the limit on arguments is met by the value alone, before the partial call is unwound
  have hle : [v].length ≤ F₂.machine.config.argLimit := r.follows.config ▸ hone
  have h₃ : (F₂.invoking (.partialCall ⟨w.heap.partialCalls.size⟩) [v] false).step host
      (w.withPartial ⟨callee, args⟩) = _ := step_partialCall hle
  have hlast : (w.withPartial ⟨callee, args⟩).heap.partialCall ⟨w.heap.partialCalls.size⟩ =
      ⟨callee, args⟩ := by
    show (w.heap.partialCalls.push _).getD _ _ = _
    simp
  rw [hlast, show F₂.invoking (.partialCall ⟨w.heap.partialCalls.size⟩) [v] false = F₂ by
    rw [invoking, ← calls₂.control]] at h₃
  refine ⟨_, (Runs.single h₁).trans (h₂.trans (.single h₃)), ⟨rfl, calls₂.stands⟩, r.trans ?_⟩
  obtain ⟨g, rest, hg, -⟩ := frames_of_stands calls₂.stands
  exact ⟨⟨rfl, rfl, rfl, rfl, rfl, rfl, g, g.ip, g.locals, rest, hg, hg⟩, rfl⟩

end Fiber

end ScriptEngine
