import ScriptEngine.Proofs.Layout.Pipes
import ScriptEngine.Proofs.Machine.Activations

/-!
# Runs of pipes

A pipe evaluates its first stage. Each later stage evaluates its callee and its arguments above the
value so far, and calls the callee with this value in front of the arguments.

The nested call of the same stages evaluates all callees before the first call. So it agrees with
the pipe as long as no call of a stage changes the callee of a later one. What an expression without
side effects is worth is said of a situation, which an evaluation leaves as it is: wherever in a
code the expression lies, and whatever operands wait below it, it yields the same value.

## Main definitions

* `ScriptEngine.Fiber.Evaluates`, `ScriptEngine.Fiber.ComesBack`: what code and calls come back
  with;
* `ScriptEngine.Fiber.Piped`: what the later stages of a pipe do;
* `ScriptEngine.Situation`: what is known of an activation and of the world;
* `ScriptEngine.Situation.Yields`, `ScriptEngine.Situation.Answers`: what expressions and calls lead
  to in a situation;
* `ScriptEngine.Situation.Serves`: the calls of the stages of a pipe.

## Main results

* `ScriptEngine.Fiber.Piped.runs`: a pipe does this;
* `ScriptEngine.Situation.Serves.pipe`, `ScriptEngine.Situation.Serves.nested`: a pipe and the
  nested call of its stages lead to the same.
-/

namespace ScriptEngine

/-- **The same text**: the same words, constants and names. -/
structure Code.SameText (c c' : Code) : Prop where
  words : c'.words = c.words
  constants : c'.constants = c.constants
  names : c'.names = c.names

theorem Code.SameText.refl (c : Code) : c.SameText c :=
  ⟨rfl, rfl, rfl⟩

theorem Code.SameText.has {c c' : Code} (h : c.SameText c') {i : Instruction}
    (hi : c.Has i) : c'.Has i :=
  hi.of_words fun _ _ hw => h.words ▸ hw

/-- **The world in which a stage is called**, once its callee and its arguments are known: a stage
that is written as a call has bound them. -/
def Expr.handed (stage : Expr) (callee : Value) (args : List Value) (w : World) : World :=
  if stage.isCall then w.withPartial ⟨callee, args⟩ else w

namespace Fiber

variable {host : Host} {F G : Fiber} {w : World} {S : Site} {c : Code} {a b : Point}
  {callee v : Value}
  {args vs below : List Value} {stage : Expr}

/-! ### Evaluation -/

/-- **Code between two offsets is evaluated**, and leaves values above the given operands. -/
structure Evaluates (host : Host) (c : Code) (start stop : Nat) (vs below : List Value) (F : Fiber)
    (w : World) (F' : Fiber) (w' : World) : Prop where
  start : F.At c start below
  runs : Runs host F w F' w'
  stop : F'.At c stop (vs.reverse ++ below)
  follows : F.Follows F'

/-- **A call comes back** with a value, which lies above the given operands. -/
structure ComesBack (host : Host) (c : Code) (next : Nat) (callee : Value)
    (args : List Value) (v : Value)
    (below : List Value) (F : Fiber) (w : World) (F' : Fiber) (w' : World) : Prop where
  calls : F.Calls c next below callee args
  runs : Runs host F w F' w'
  stop : F'.At c next (v :: below)
  follows : F.Follows F'

/-- **The value so far is handed over** to a stage whose callee and arguments lie above it. -/
theorem handsOver (host : Host) (h : F.At c a.offset (args.reverse ++ callee :: v :: below))
    (hh : S.HandsOver stage a b) (hc : S.code.SameText c)
    (hcount : args.length = stage.writtenArgs.length) (ha : F.ctx.Allows w.controls)
    (hone : 0 < F.machine.config.argLimit) :
    ∃ G, Runs host F w G (stage.handed callee args w) ∧
      G.Calls c b.offset below callee (v :: args) ∧ F.Resumes G := by
  unfold Site.HandsOver at hh
  unfold Expr.handed
  split at hh
  · rename_i hcall
    obtain ⟨n, x, y, hn, hbind, hswap, hcallat⟩ := hh
    have hx : x.offset = a.offset + 2 := hbind.offset
    have hy : y.offset = a.offset + 4 := hswap.offset.trans (congrArg (· + 2) hx)
    have hb : b.offset = a.offset + 6 := hcallat.offset.trans (congrArg (· + 2) hy)
    rw [if_pos hcall, hb]
    exact call_bound host h (hc.has hbind.has) (hn.trans hcount.symm) (hx ▸ hc.has hswap.has)
      (hy ▸ hc.has hcallat.has) ha hone
  · rename_i hcall
    obtain ⟨x, hswap, hcallat⟩ := hh
    have hx : x.offset = a.offset + 2 := hswap.offset
    have hb : b.offset = a.offset + 4 := hcallat.offset.trans (congrArg (· + 2) hx)
    have hargs : args = [] := by
      have hplain := (stage.stage_cases.resolve_left fun ⟨_, _, h⟩ => hcall (h ▸ rfl)).resolve_left
        fun ⟨_, _, _, h⟩ => hcall (h ▸ rfl)
      rw [hplain.writtenArgs] at hcount
      exact List.eq_nil_of_length_eq_zero hcount
    subst hargs
    rw [if_neg hcall, hb]
    exact call_plain host h (hc.has hswap.has) (hx ▸ hc.has hcallat.has) ha

/-- **What the later stages of a pipe do** with a value: each evaluates its callee and its
arguments, and what comes back from the call of this callee is the value for the next stage. -/
inductive Piped (host : Host) (c : Code) (below : List Value) :
    List Spot → Value → Fiber → World → Value → Fiber → World → Prop
  | done (v : Value) (F : Fiber) (w : World) : Piped host c below [] v F w v F w
  | stage {x : Spot} {xs : List Spot} {v callee v₁ v' : Value} {args : List Value}
    {F F₁ F₂ F₃ F' : Fiber} {w w₁ w₂ w₃ w' : World}
    (hcallee : Evaluates host c x.start.offset x.called.offset [callee] (v :: below) F w F₁ w₁)
    (hargs : Evaluates host c x.called.offset x.bound.offset args
      (callee :: v :: below) F₁ w₁ F₂ w₂)
    (count : args.length = x.stage.writtenArgs.length)
    (free : F₂.ctx.Allows w₂.controls)
    (hcall : ∀ G u, Runs host F₂ w₂ G u → G.Calls c x.next.offset below callee (v :: args) →
      F₂.Resumes G → u = x.stage.handed callee args w₂ →
        ComesBack host c x.next.offset callee (v :: args) v₁ below G u F₃ w₃)
    (rest : Piped host c below xs v₁ F₃ w₃ v' F' w') :
    Piped host c below (x :: xs) v F w v' F' w'

/-- **The later stages of a pipe** do what stages do. -/
theorem Piped.runs {xs : List Spot} {v v' : Value} {F F' : Fiber} {w w' : World}
    (h : Piped host c below xs v F w v' F' w') (hrow : Spot.Row S a xs b) (hc : S.code.SameText c)
    (hone : 0 < F.machine.config.argLimit) (hat : F.At c a.offset (v :: below)) :
    Runs host F w F' w' ∧ F'.At c b.offset (v' :: below) ∧ F.Follows F' := by
  induction h generalizing a with
  | done v F w =>
    obtain rfl : b = a := hrow
    exact ⟨.refl F w, hat, hat.follows⟩
  | @stage x xs v callee v₁ v' args F F₁ F₂ F₃ F' w w₁ w₂ w₃ w' hcallee hargs count free
    hcall rest ih =>
    obtain ⟨-, hlies, hrow⟩ := hrow
    have hfollows := hcallee.follows.trans hargs.follows
    obtain ⟨G, hruns, hcalls, hresumes⟩ :=
      handsOver host hargs.stop hlies.handsOver hc count free (hfollows.config ▸ hone)
    have hreturns := hcall G _ hruns hcalls hresumes rfl
    have hfollows := hfollows.trans (hresumes.follows.trans hreturns.follows)
    obtain ⟨hruns', hat', hfollows'⟩ := ih hrow (hfollows.config ▸ hone) hreturns.stop
    exact ⟨hcallee.runs.trans (hargs.runs.trans (hruns.trans (hreturns.runs.trans hruns'))), hat',
      hfollows.trans hfollows'⟩

/-- **A fiber failed** in an activation, or further inside, and hands the error on. -/
structure Fails (F F' : Fiber) (e : RuntimeError) : Prop where
  control : F'.control = .deliver (.error e)
  pending : F'.pending = F.pending

end Fiber

open Fiber

/-! ### Situations -/

/-- **A situation**: what is known of an activation and of the world, by the site and the scopes
that its code was compiled with. It does not depend on the place in this code or on the operands,
nor on partial calls that nobody refers to. In a situation nothing interrupts a fiber. -/
structure Situation where
  holds : Site → ScopeTable → Fiber → World → Prop
  free : ∀ {S t F w}, holds S t F w → F.ctx.Allows w.controls
  takes : ∀ {S t F w}, holds S t F w → 0 < F.machine.config.argLimit
  resumes : ∀ {S t F F' w}, holds S t F w → F.Resumes F' → holds S t F' w
  binds : ∀ {S t F w} (p : PartialCall), holds S t F w → holds S t F (w.withPartial p)

namespace Situation

variable {host : Host} {K K₀ K₁ K' : Situation} {room : Nat} {S : Site} {t : ScopeTable} {c : Code}
  {below vs : List Value} {F G F' : Fiber} {w u w' : World} {offset : Nat}

/-- **What an evaluation leads to**: values above the given operands, in a situation, or a
failure. -/
def Results (K : Situation) (S : Site) (t : ScopeTable) (c : Code) (offset : Nat)
    (below : List Value)
    (F : Fiber) : Except RuntimeError (List Value) → Fiber → World → Prop
  | .ok vs, F', w' => F'.At c offset (vs.reverse ++ below) ∧ F.Follows F' ∧ K.holds S t F' w'
  | .error e, F', _ => F.Fails F' e

/-- **What a plan yields** in a situation, and in which situation it leaves the world, wherever its
code lies and whatever the operands are, as long as there is room for some more. -/
def Yields (host : Host) (K K' : Situation) (room : Nat) (p : Plan)
    (o : Except RuntimeError (List Value)) : Prop :=
  ∀ ⦃S : Site⦄ ⦃c : Code⦄ ⦃a b : Point⦄ ⦃F : Fiber⦄ ⦃w : World⦄ ⦃below : List Value⦄,
    p.Laid S a b → S.code.SameText c → F.At c a.offset below → K.holds S a.table F w →
    below.length + room ≤ F.machine.stack.limit →
      ∃ F' w', Runs host F w F' w' ∧ K'.Results S b.table c b.offset below F o F' w'

/-- **What a call leads to** in a situation, wherever it comes from. -/
def Answers (host : Host) (K K' : Situation) (room : Nat) (callee : Value) (args : List Value)
    (o : Outcome) : Prop :=
  ∀ ⦃S : Site⦄ ⦃t : ScopeTable⦄ ⦃c : Code⦄ ⦃offset : Nat⦄ ⦃F : Fiber⦄ ⦃w : World⦄
    ⦃below : List Value⦄,
    F.Calls c offset below callee args → K.holds S t F w →
    below.length + room ≤ F.machine.stack.limit →
      ∃ F' w', Runs host F w F' w' ∧ K'.Results S t c offset below F (o.map ([·])) F' w'

/-- **The calls of the stages of a pipe**, the first of which gets the given value. Each callee
yields the same before the first call and before its own one, and the arguments do before their own
one. A call that fails is the last one. -/
inductive Serves (host : Host) (room : Nat) (K₀ : Situation) :
    List Expr → Situation → Value → Situation → Outcome → Prop
  | done (K : Situation) (v : Value) : Serves host room K₀ [] K v K (.ok v)
  | stage {s : Expr} {stages : List Expr} {K K₁ K' : Situation} {v callee v₁ : Value}
    {args : List Value} {o : Outcome}
    (early : Yields host K₀ K₀ room s.calleePlan (.ok [callee]))
    (late : Yields host K K room s.calleePlan (.ok [callee]))
    (hargs : Yields host K K room (Plan.ofExprs s.writtenArgs) (.ok args))
    (count : args.length = s.writtenArgs.length)
    (call : Answers host K K₁ room callee (v :: args) (.ok v₁))
    (rest : Serves host room K₀ stages K₁ v₁ K' o) : Serves host room K₀ (s :: stages) K v K' o
  | fails {s : Expr} {stages : List Expr} {K K' : Situation} {v callee : Value} {args : List Value}
    {e : RuntimeError}
    (early : Yields host K₀ K₀ room s.calleePlan (.ok [callee]))
    (late : Yields host K K room s.calleePlan (.ok [callee]))
    (hargs : Yields host K K room (Plan.ofExprs s.writtenArgs) (.ok args))
    (count : args.length = s.writtenArgs.length)
    (call : Answers host K K' room callee (v :: args) (.error e))
    (others : ∀ s' ∈ stages, ∃ f, Yields host K₀ K₀ room s'.calleePlan (.ok [f])) :
    Serves host room K₀ (s :: stages) K v K' (.error e)

/-! ### Expressions and calls in a situation -/

theorem Results.of_follows {o : Except RuntimeError (List Value)} (hf : F.Follows G)
    (h : K.Results S t c offset below G o F' w') : K.Results S t c offset below F o F' w' := by
  cases o with
  | ok vs => exact ⟨h.1, hf.trans h.2.1, h.2.2⟩
  | error e => exact ⟨h.control, h.pending.trans hf.pending⟩

theorem Yields.mono {p : Plan} {o : Except RuntimeError (List Value)} {room' : Nat}
    (h : Yields host K K' room p o) (hr : room ≤ room') : Yields host K K' room' p o :=
  fun _ _ _ _ _ _ _ hp hc hat hK hroom => h hp hc hat hK (by omega)

/-- Nothing is evaluated. -/
theorem Yields.skip : Yields host K K 0 .skip (.ok []) := by
  intro S c a b F w below hlaid hc hat hK hroom
  obtain rfl : b = a := hlaid
  exact ⟨F, w, .refl F w, hat, hat.follows, hK⟩

/-- **An instruction that pushes a value** and does nothing else. -/
theorem pushes {a b : Point} {op : Opcode} {operands : List Word} {v : Value}
    (hat : S.At a op operands b) (hc : S.code.SameText c) (hF : F.At c a.offset below)
    (hK : K.holds S a.table F w) (hroom : below.length + 1 ≤ F.machine.stack.limit)
    (hx : ∀ stack, F.machine.stack.push v = .ok stack →
      Exec.execute F.ctx ⟨a.offset, op, operands⟩ ⟨F.machine.behind ⟨a.offset, op, operands⟩, w⟩ =
        .ok .next ⟨{ F.machine.behind ⟨a.offset, op, operands⟩ with stack }, w⟩) :
    ∃ F' w', Runs host F w F' w' ∧ K.Results S b.table c b.offset below F (.ok [v]) F' w' := by
  have hsize : F.machine.stack.size = below.length := by
    rw [← hF.stands.operands]
    exact F.machine.stack.contents.size_eq
  obtain ⟨T, hpush, hT, hlimit, hsize'⟩ := push_of_lt (S := F.machine.stack) (by omega) v
  let i : Instruction := ⟨a.offset, op, operands⟩
  have hF : F.At c i.offset below := hF
  have hstep := step_at host hF (hc.has hat.has) (K.free hK) (hx T hpush)
  have hresumes : F.Resumes (F.behind i T .dispatch) := behind_resumes hF hlimit
  have hstands : (F.behind i T .dispatch).machine.Stands c i.stop T.toList :=
    behind_stands hF (by omega)
  rw [hT, hF.stands.operands] at hstands
  refine ⟨_, w, .single hstep, ⟨rfl, ?_⟩, hresumes.follows, ?_⟩
  · rw [hat.offset]
    exact hstands
  · rw [hat.table]
    exact K.resumes hK hresumes

/-- The innermost frame while an instruction is executed. -/
theorem frame_behind {i : Instruction} (hF : F.At c i.offset below) :
    ∃ g : Frame, g.code = c ∧ Exec.frame ⟨F.machine.behind i, w⟩ =
      .ok g ⟨F.machine.behind i, w⟩ := by
  have hstands : (F.behind i F.machine.stack .dispatch).machine.Stands c i.stop _ :=
    behind_stands hF hF.stands.bounded
  obtain ⟨g, htop, hcode, -⟩ := hstands.frame
  refine ⟨g, hcode, ?_⟩
  have htop : (F.machine.behind i).frames.top? = some g := htop
  unfold Exec.frame
  rw [get_bind]
  dsimp only
  rw [htop]
  rfl

/-- **A literal** is worth itself in every situation. -/
theorem Yields.const (v : Value) (scalar : v.isScalar = true) :
    Yields host K K 1 (.const v scalar) (.ok [v]) := by
  intro S c a b F w below hlaid hc hF hK hroom
  obtain ⟨i, hconstant, hat⟩ := hlaid
  refine pushes hat hc hF hK hroom fun stack hpush => ?_
  obtain ⟨g, rfl, hframe⟩ := frame_behind (w := w) (i := ⟨a.offset, .loadConst, [i]⟩) hF
  have hconstant : Exec.constant i ⟨F.machine.behind ⟨a.offset, .loadConst, [i]⟩, w⟩ =
      .ok v ⟨F.machine.behind ⟨a.offset, .loadConst, [i]⟩, w⟩ := by
    refine bind_eq_ok.mpr ⟨g, _, hframe, ?_⟩
    rw [hc.constants, hconstant]
    rfl
  show (Exec.proceed (do Exec.push (← Exec.constant i)) : Exec Flow) _ = _
  refine bind_eq_ok.mpr ⟨(), _, bind_eq_ok.mpr ⟨v, _, hconstant, onStack_of_ok ?_⟩, rfl⟩
  show Except.map _ (F.machine.stack.push v) = _
  rw [hpush]
  rfl

/-- **A global** is worth what its slot holds. -/
theorem Yields.global {name : String} {v : Value} (h : ∀ {S t F w}, K.holds S t F w → ∃ r,
    ScopeTable.resolve S.scope name t = .ok (some r) t ∧ r.storage = .global ∧
      w.global? r.symbol.index.toNat = some v) :
    Yields host K K 1 (.load name) (.ok [v]) := by
  intro S c a b F w below hlaid hc hF hK hroom
  obtain ⟨r, hr, hstorage, hv⟩ := h hK
  obtain ⟨r', table, hr', hloads⟩ := hlaid
  rw [hr] at hr'
  obtain ⟨hfound, rfl⟩ := EStateM.Result.ok.inj hr'
  obtain rfl := Option.some.inj hfound
  unfold Site.Loads at hloads
  rw [hstorage] at hloads
  refine pushes hloads hc hF hK hroom fun stack hpush => ?_
  show (Exec.proceed (do
    Exec.push (← Exec.onWorld fun w => ((w.global? r.symbol.index.toNat).getD .nil, w))) :
      Exec Flow) _ = _
  refine bind_eq_ok.mpr
    ⟨(), _, bind_eq_ok.mpr ⟨v, ⟨F.machine.behind _, w⟩, ?_, onStack_of_ok ?_⟩, rfl⟩
  · show EStateM.Result.ok _ _ = _
    rw [hv]
    rfl
  · show Except.map _ (F.machine.stack.push v) = _
    rw [hpush]
    rfl

/-- **A builtin that ends at once** answers with its value. -/
theorem Answers.of_finish {r : Ref .builtin} {args : List Value} {v : Value}
    (hlimit : ∀ {S t F w}, K.holds S t F w → args.length ≤ F.machine.config.argLimit)
    (hfinish : ∀ {S t F w}, K.holds S t F w →
      (w.heap.builtin r).activity host args = .finish (.ok v)) (hv : v.raised? = none) :
    Answers host K K 1 (.builtin r) args (.ok v) := by
  intro S t c offset F w below hcalls hK hroom
  have hsize : F.machine.stack.size = below.length := by
    rw [← hcalls.stands.operands]
    exact F.machine.stack.contents.size_eq
  obtain ⟨T, hpush, hT, hlimit', hsize'⟩ := push_of_lt (S := F.machine.stack) (by omega) v
  obtain ⟨g, rest, hg, -⟩ := frames_of_stands hcalls.stands
  have hinvoke : (F.invoking (.builtin r) args false).step host w = _ := step_builtin (hlimit hK)
  rw [invoking, ← hcalls.control, hfinish hK] at hinvoke
  obtain ⟨m, ctx, control, pending, goal⟩ := F
  let F₁ : Fiber := ⟨m, ctx, .activity (.finish (.ok v)), .operand :: pending, goal⟩
  let F₂ : Fiber := ⟨m, ctx, .deliver (.ok v), .operand :: pending, goal⟩
  let F₃ : Fiber := ⟨{ m with stack := T }, ctx, .dispatch, pending, goal⟩
  have hact : F₁.step host w = (.progress, F₂, w) := by
    show (Event.progress, Fiber.mk m ctx (.deliver (ofBuiltin (.ok v))) _ goal, w) = _
    unfold ofBuiltin
    dsimp only
    rw [hv]
  have hdeliver : F₂.step host w = (.progress, F₃, w) := by
    show (Event.progress, deliver (.ok v) ⟨m, ctx, .dispatch, .operand :: pending, goal⟩, w) = _
    unfold deliver
    dsimp only
    rw [show m.stack.push v = .ok T from hpush]
  have hresumes : Resumes ⟨m, ctx, control, pending, goal⟩ F₃ :=
    ⟨⟨rfl, rfl, rfl, rfl, rfl, hlimit', g, g.ip, g.locals, rest, hg, hg⟩, rfl⟩
  refine ⟨F₃, w, .step hinvoke (.step hact (.single hdeliver)), ⟨rfl, hcalls.stands.frame, ?_, ?_⟩,
    hresumes.follows, K.resumes hK hresumes⟩
  · exact hT.trans (congrArg (v :: ·) hcalls.stands.operands)
  · show T.size ≤ T.limit
    omega

/-! ### Pipes and nested calls -/

/-- The instructions between the arguments of a stage and its call declare nothing. -/
theorem table_handsOver {stage : Expr} {a b : Point} (h : S.HandsOver stage a b) :
    b.table = a.table := by
  unfold Site.HandsOver at h
  split at h
  · obtain ⟨n, x, y, -, hbind, hswap, hcall⟩ := h
    rw [hcall.table, hswap.table, hbind.table]
  · obtain ⟨x, hswap, hcall⟩ := h
    rw [hcall.table, hswap.table]

section Stage

variable {stage : Expr} {callee v : Value} {args : List Value} {a b : Point}

/-- **A stage of a pipe** comes to its call. -/
theorem stage_calls (hcallee : Yields host K K room stage.calleePlan (.ok [callee]))
    (hargs : Yields host K K room (Plan.ofExprs stage.writtenArgs) (.ok args))
    (count : args.length = stage.writtenArgs.length) {m n : Point}
    (hlies : Spot.Lies S ⟨stage, a, m, n, b⟩) (hc : S.code.SameText c)
    (hat : F.At c a.offset (v :: below)) (hK : K.holds S a.table F w)
    (hroom : below.length + (room + 2) ≤ F.machine.stack.limit) :
    ∃ G u, Runs host F w G u ∧ G.Calls c b.offset below callee (v :: args) ∧ F.Follows G ∧
      K.holds S b.table G u := by
  obtain ⟨F₁, w₁, hruns₁, hat₁, hf₁, hK₁⟩ := hcallee hlies.callee hc hat hK (by
    rw [List.length_cons]
    omega)
  obtain ⟨F₂, w₂, hruns₂, hat₂, hf₂, hK₂⟩ := hargs hlies.args hc hat₁ hK₁ (by
    rw [hf₁.limit]
    show below.length + 1 + 1 + room ≤ _
    omega)
  obtain ⟨G, hruns, hcalls, hresumes⟩ :=
    handsOver host hat₂ hlies.handsOver hc count (K.free hK₂) (K.takes hK₂)
  refine ⟨G, _, hruns₁.trans (hruns₂.trans hruns), hcalls,
    hf₁.trans (hf₂.trans hresumes.follows), ?_⟩
  rw [show b.table = n.table from table_handsOver hlies.handsOver]
  unfold Expr.handed
  split
  · exact K.resumes (K.binds _ hK₂) hresumes
  · exact K.resumes hK₂ hresumes

/-- **A stage of a nested call** comes to its call. -/
theorem applied_calls {value : Expr} {r : Nat}
    (hcallee : Yields host K₀ K₀ room stage.calleePlan (.ok [callee]))
    (hvalue : Yields host K₀ K r (Plan.ofExpr false value) (.ok [v]))
    (hargs : Yields host K K room (Plan.ofExprs stage.writtenArgs) (.ok args))
    (count : args.length = stage.writtenArgs.length) (hr : room + 1 ≤ r)
    (hlaid : (Plan.ofExpr false (Expr.applied value stage)).Laid S a b) (hc : S.code.SameText c)
    (hat : F.At c a.offset below) (hK : K₀.holds S a.table F w)
    (hroom : below.length + (r + 1) ≤ F.machine.stack.limit) :
    ∃ G u, Runs host F w G u ∧ G.Calls c b.offset below callee (v :: args) ∧ F.Follows G ∧
      K.holds S b.table G u := by
  obtain ⟨m, n, o, k, hm, hn, ho, hk, hcall⟩ := hlaid.applied
  obtain ⟨F₁, w₁, hruns₁, hat₁, hf₁, hK₁⟩ := hcallee hm hc hat hK (by omega)
  obtain ⟨F₂, w₂, hruns₂, hat₂, hf₂, hK₂⟩ := hvalue hn hc hat₁ hK₁ (by
    rw [hf₁.limit]
    show below.length + 1 + r ≤ _
    omega)
  obtain ⟨F₃, w₃, hruns₃, hat₃, hf₃, hK₃⟩ := hargs ho hc hat₂ hK₂ (by
    rw [hf₂.limit, hf₁.limit]
    show below.length + 1 + 1 + room ≤ _
    omega)
  have hfirst : args.reverse ++ ([v].reverse ++ ([callee].reverse ++ below)) =
      (v :: args).reverse ++ callee :: below := by simp
  rw [hfirst] at hat₃
  obtain ⟨G, hstep, hcalls, hresumes⟩ := step_call host hat₃ (hc.has hcall.has)
    (hk.trans (congrArg (· + 1) count.symm)) (K.free hK₃)
  have hb : b.offset = o.offset + 2 := hcall.offset
  refine ⟨G, w₃, hruns₁.trans (hruns₂.trans (hruns₃.trans (.single hstep))), hb ▸ hcalls,
    hf₁.trans (hf₂.trans (hf₃.trans hresumes.follows)), ?_⟩
  rw [hcall.table]
  exact K.resumes hK₃ hresumes

/-- The value of a nested call fails, and no call around it is made. -/
theorem nested_fails {e : RuntimeError} {stages : List Expr}
    (h : ∀ s ∈ stages, ∃ f, Yields host K₀ K₀ room s.calleePlan (.ok [f])) :
    ∀ (value : Expr) {r : Nat}, room ≤ r → Yields host K₀ K r (Plan.ofExpr false value) (.error e) →
      Yields host K₀ K (r + stages.length) (Plan.ofExpr false (Expr.nested value stages))
        (.error e) := by
  induction stages with
  | nil => exact fun _ _ _ hv => hv
  | cons s stages ih =>
    intro value r hr hv
    obtain ⟨f, hf⟩ := h s List.mem_cons_self
    have hmore := ih (fun s' hs' => h s' (List.mem_cons_of_mem s hs')) (.applied value s)
      (r := r + 1) (by omega) (by
        intro S c a b F w below hlaid hc hat hK hroom
        obtain ⟨m, n, o, k, hm, hn, -⟩ := hlaid.applied
        obtain ⟨F₁, w₁, hruns₁, hat₁, hf₁, hK₁⟩ := hf hm hc hat hK (by omega)
        obtain ⟨F₂, w₂, hruns₂, hfails⟩ := hv hn hc hat₁ hK₁ (by
          rw [hf₁.limit]
          show below.length + 1 + r ≤ _
          omega)
        exact ⟨F₂, w₂, hruns₁.trans hruns₂, hfails.control, hfails.pending.trans hf₁.pending⟩)
    rwa [Nat.add_assoc, Nat.add_comm 1] at hmore

end Stage

namespace Serves

variable {stages : List Expr} {v : Value} {o : Outcome}

/-- **The later stages of a pipe** make these calls. -/
theorem later (h : Serves host room K₀ stages K v K' o) : ∀ {S : Site} {c : Code} {a b : Point}
    {F : Fiber} {w : World} {below : List Value}, (Plan.ofStages stages).Laid S a b →
      S.code.SameText c → F.At c a.offset (v :: below) → K.holds S a.table F w →
      below.length + (room + 2) ≤ F.machine.stack.limit →
        ∃ F' w', Runs host F w F' w' ∧
          K'.Results S b.table c b.offset below F (o.map ([·])) F' w' := by
  induction h with
  | done K v =>
    intro S c a b F w below hlaid hc hat hK hroom
    obtain rfl : b = a := hlaid
    exact ⟨F, w, .refl F w, hat, hat.follows, hK⟩
  | stage early late hargs count call rest ih =>
    intro S c a b F w below hlaid hc hat hK hroom
    obtain ⟨x, hstage, y, hswap, z, hcall, hrest⟩ := hlaid
    obtain ⟨m, n, hlies⟩ := Plan.Laid.stage (a := a) (b := z) ⟨x, hstage, y, hswap, hcall⟩
    obtain ⟨G, u, hruns, hcalls, hf, hK'⟩ := stage_calls late hargs count hlies hc hat hK hroom
    obtain ⟨F₁, w₁, hruns₁, hat₁, hf₁, hK₁⟩ := call hcalls hK' (by
      rw [hf.limit]
      omega)
    have hf₁ := hf.trans hf₁
    obtain ⟨F₂, w₂, hruns₂, hresults⟩ := ih hrest hc hat₁ hK₁ (hf₁.limit ▸ hroom)
    exact ⟨F₂, w₂, hruns.trans (hruns₁.trans hruns₂), hresults.of_follows hf₁⟩
  | fails early late hargs count call others =>
    intro S c a b F w below hlaid hc hat hK hroom
    obtain ⟨x, hstage, y, hswap, z, hcall, hrest⟩ := hlaid
    obtain ⟨m, n, hlies⟩ := Plan.Laid.stage (a := a) (b := z) ⟨x, hstage, y, hswap, hcall⟩
    obtain ⟨G, u, hruns, hcalls, hf, hK'⟩ := stage_calls late hargs count hlies hc hat hK hroom
    obtain ⟨F₁, w₁, hruns₁, hfails⟩ := call hcalls hK' (by
      rw [hf.limit]
      omega)
    exact ⟨F₁, w₁, hruns.trans hruns₁, hfails.control, hfails.pending.trans hf.pending⟩

/-- **A pipe** yields what its calls lead to. -/
theorem pipe {bound : Bool} {first : Expr} (h : Serves host room K₀ stages K₀ v K' o)
    (hfirst : Yields host K₀ K₀ room (Plan.ofExpr false first) (.ok [v])) :
    Yields host K₀ K' (room + 2) (Plan.ofExpr bound (.pipe (first :: stages))) (o.map ([·])) := by
  intro S c a b F w below hlaid hc hat hK hroom
  obtain ⟨_, _, m, _, heq, -, hvalue, hstages, -⟩ := hlaid.pipe
  obtain ⟨rfl, rfl⟩ := List.cons.inj heq
  obtain ⟨F₁, w₁, hruns₁, hat₁, hf₁, hK₁⟩ := hfirst hvalue hc hat hK (by omega)
  obtain ⟨F₂, w₂, hruns₂, hresults⟩ := h.later hstages hc hat₁ hK₁ (hf₁.limit ▸ hroom)
  exact ⟨F₂, w₂, hruns₁.trans hruns₂, hresults.of_follows hf₁⟩

/-- **The nested call** of the stages yields the same, with more operands on the way. -/
theorem nested (h : Serves host room K₀ stages K v K' o) : ∀ (value : Expr) {r : Nat},
    room + 1 ≤ r →
    Yields host K₀ K r (Plan.ofExpr false value) (.ok [v]) →
      Yields host K₀ K' (r + stages.length) (Plan.ofExpr false (Expr.nested value stages))
        (o.map ([·])) := by
  induction h with
  | done K v => exact fun _ _ _ hv => hv
  | @stage s stages K K₁ K' v callee v₁ args o early late hargs count call rest ih =>
    intro value r hr hv
    have hmore := ih (.applied value s) (r := r + 1) (by omega) (by
      intro S c a b F w below hlaid hc hat hK hroom
      obtain ⟨G, u, hruns, hcalls, hf, hK'⟩ :=
        applied_calls early hv hargs count hr hlaid hc hat hK hroom
      obtain ⟨F₁, w₁, hruns₁, hresults⟩ := call hcalls hK' (by
        rw [hf.limit]
        omega)
      exact ⟨F₁, w₁, hruns.trans hruns₁, hresults.of_follows hf⟩)
    rwa [Nat.add_assoc, Nat.add_comm 1] at hmore
  | @fails s stages K K' v callee args e early late hargs count call others =>
    intro value r hr hv
    have hmore := nested_fails (K := K') others (.applied value s) (r := r + 1) (by omega) (by
      intro S c a b F w below hlaid hc hat hK hroom
      obtain ⟨G, u, hruns, hcalls, hf, hK'⟩ :=
        applied_calls early hv hargs count hr hlaid hc hat hK hroom
      obtain ⟨F₁, w₁, hruns₁, hfails⟩ := call hcalls hK' (by
        rw [hf.limit]
        omega)
      exact ⟨F₁, w₁, hruns.trans hruns₁, hfails.control, hfails.pending.trans hf.pending⟩)
    rwa [Nat.add_assoc, Nat.add_comm 1] at hmore

end Serves

end Situation

end ScriptEngine
