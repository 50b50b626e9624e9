import ScriptEngine.Proofs.Layout.Spans

/-!
# The layout of pipes

Each later stage of a pipe is a callee, the arguments that are written with it, and the instructions
that put the value so far in front of these arguments and call. The nested call of the same stages
has the same callees and arguments, in another order.

## Main definitions

* `ScriptEngine.Expr.calleePlan`, `ScriptEngine.Expr.writtenArgs`: the parts of a stage;
* `ScriptEngine.Expr.nested`: the nested call of the stages of a pipe;
* `ScriptEngine.Spot`: where a stage lies.

## Main results

* `ScriptEngine.Plan.Laid.pipe`: the stages of a pipe lie one behind the other;
* `ScriptEngine.Plan.Laid.stage`, `ScriptEngine.Plan.Laid.applied`: how a stage lies in a pipe, and
  how in a nested call.
-/

namespace ScriptEngine

namespace Expr

/-! ### Stages -/

/-- **The callee of a stage**: for a method, the receiver and then its attribute. A stage that is no
call is its own callee. -/
def calleePlan : Expr → Plan
  | .call callee _ => Plan.ofExpr false callee
  | .method object name _ => .seq (Plan.ofExpr false object) (.attr false name)
  | e => Plan.ofExpr false e

/-- **The arguments that are written with a stage.** -/
def writtenArgs : Expr → List Expr
  | .call _ args | .method _ _ args => args
  | _ => []

/-- Whether a stage is written as a call. -/
def isCall : Expr → Bool
  | .call _ _ | .method _ _ _ => true
  | _ => false

/-- **The call of a stage** with a value in front of its arguments. -/
def applied (value : Expr) : Expr → Expr
  | .call callee args => .call callee (value :: args)
  | .method object name args => .method object name (value :: args)
  | e => .call e [value]

/-- **The nested call** of the stages of a pipe. -/
def nested (first : Expr) (stages : List Expr) : Expr :=
  stages.foldl applied first

/-- What a stage looks like that is not written as a call. -/
structure IsPlain (e : Expr) : Prop where
  isCall : e.isCall = false
  calleePlan : e.calleePlan = Plan.ofExpr false e
  writtenArgs : e.writtenArgs = []
  bound : Plan.ofExpr true e = Plan.ofExpr false e
  applied : ∀ value : Expr, applied value e = .call e [value]

/-- A stage is a call, a call of a method, or neither. -/
theorem stage_cases (e : Expr) : (∃ callee args, e = .call callee args) ∨
    (∃ object name args, e = .method object name args) ∨ e.IsPlain := by
  cases e with
  | call callee args => exact .inl ⟨callee, args, rfl⟩
  | method object name args => exact .inr (.inl ⟨object, name, args, rfl⟩)
  | binary op left right => cases op <;> exact .inr (.inr ⟨rfl, rfl, rfl, rfl, fun _ => rfl⟩)
  | _ => exact .inr (.inr ⟨rfl, rfl, rfl, rfl, fun _ => rfl⟩)

end Expr

/-! ### Where stages lie -/

/-- **The instructions that hand the value so far over** to a stage whose arguments are known. -/
def Site.HandsOver (S : Site) (stage : Expr) (a b : Point) : Prop :=
  if stage.isCall then
    ∃ (n : Word) (x y : Point), n.toNat = stage.writtenArgs.length ∧ S.At a .bindPartial [n] x ∧
      S.At x .swap [1] y ∧ S.At y .call [1] b
  else ∃ x : Point, S.At a .swap [1] x ∧ S.At x .call [1] b

/-- **Where a stage of a pipe lies**: its callee, its arguments, and the call. -/
structure Spot where
  stage : Expr
  start : Point
  called : Point
  bound : Point
  next : Point

/-- A stage lies in a code. -/
structure Spot.Lies (S : Site) (x : Spot) : Prop where
  callee : x.stage.calleePlan.Laid S x.start x.called
  args : (Plan.ofExprs x.stage.writtenArgs).Laid S x.called x.bound
  handsOver : S.HandsOver x.stage x.bound x.next

/-- **Stages lie one behind the other.** -/
def Spot.Row (S : Site) : Point → List Spot → Point → Prop
  | a, [], b => b = a
  | a, x :: xs, b => x.start = a ∧ x.Lies S ∧ Row S x.next xs b

namespace Plan

variable {S : Site} {a b : Point} {p : Plan}

theorem Laid.of_atMost {limit count : Nat} {e : CompileError}
    (h : (atMost limit count e p).Laid S a b) :
    count ≤ limit ∧ p.Laid S a b := by
  unfold atMost at h
  split at h
  · exact h.elim
  · exact ⟨Nat.le_of_not_lt ‹_›, h⟩

/-- A number of arguments that is small enough is its own operand. -/
theorem toNat_count {n : Nat} (h : n ≤ Generate.argumentLimit) : n.toUInt16.toNat = n := by
  have hlt : n < 2 ^ 16 := Nat.lt_of_le_of_lt h (by decide)
  exact Nat.mod_eq_of_lt hlt

/-- **A stage of a pipe.** -/
theorem Laid.stage {stage : Expr} (h : (seq (ofExpr true stage) (seq (instr .exchange)
    (instr (.call false 1)))).Laid S a b) :
    ∃ m n : Point, Spot.Lies S ⟨stage, a, m, n, b⟩ := by
  obtain ⟨x, hstage, y, hswap, hcall⟩ := h
  rcases stage.stage_cases with ⟨callee, args, rfl⟩ | ⟨object, name, args, rfl⟩ | hplain
  · obtain ⟨m, hcallee, hrest⟩ := hstage
    obtain ⟨hcount, n, hargs, hbind⟩ := hrest.of_atMost
    exact ⟨m, n, hcallee, hargs, _, x, y, toNat_count hcount, hbind, hswap, hcall⟩
  · obtain ⟨k, hobject, m, hattr, hrest⟩ := hstage
    obtain ⟨hcount, n, hargs, hbind⟩ := hrest.of_atMost
    exact ⟨m, n, ⟨k, hobject, hattr⟩, hargs, _, x, y, toNat_count hcount, hbind, hswap, hcall⟩
  · rw [hplain.bound, ← hplain.calleePlan] at hstage
    refine ⟨x, x, hstage, ?_, ?_⟩
    · show (ofExprs stage.writtenArgs).Laid S x x
      rw [hplain.writtenArgs]
      rfl
    · show S.HandsOver stage x b
      unfold Site.HandsOver
      rw [hplain.isCall]
      exact ⟨y, hswap, hcall⟩

/-- The later stages of a pipe. -/
theorem Laid.stages {stages : List Expr} (h : (ofStages stages).Laid S a b) :
    ∃ spots : List Spot, spots.map Spot.stage = stages ∧ Spot.Row S a spots b := by
  induction stages generalizing a with
  | nil => exact ⟨[], rfl, h⟩
  | cons stage rest ih =>
    obtain ⟨x, hstage, y, hswap, z, hcall, hrest⟩ := h
    obtain ⟨m, n, hlies⟩ := Laid.stage (a := a) (b := z) ⟨x, hstage, y, hswap, hcall⟩
    obtain ⟨spots, hspots, hrow⟩ := ih hrest
    exact ⟨⟨stage, a, m, n, z⟩ :: spots, congrArg (stage :: ·) hspots, rfl, hlies, hrow⟩

/-- **A pipe** has at least two stages. The first one is an expression of its own, and the others
lie behind it. -/
theorem Laid.pipe {bound : Bool} {ss : List Expr} (h : (ofExpr bound (.pipe ss)).Laid S a b) :
    ∃ first stages m spots, ss = first :: stages ∧ stages ≠ [] ∧ (ofExpr false first).Laid S a m ∧
      (ofStages stages).Laid S m b ∧ spots.map Spot.stage = stages ∧ Spot.Row S m spots b := by
  obtain ⟨m, rfl, hpipe⟩ := h
  split at hpipe
  · exact hpipe.elim
  · rename_i hlength
    match ss, hlength, hpipe with
    | first :: second :: rest, _, ⟨m, hfirst, hstages⟩ =>
      obtain ⟨spots, hspots, hrow⟩ := Laid.stages hstages
      exact ⟨first, second :: rest, m, spots, rfl, List.cons_ne_nil _ _, hfirst,
        hstages, hspots, hrow⟩
    | [], hlength, _ => exact absurd (by decide) hlength
    | [_], hlength, _ => exact absurd (by decide : 1 < 2) hlength

/-- **A stage of a nested call**: its callee, the value in front of its arguments, these arguments,
and the call. -/
theorem Laid.applied {value stage : Expr}
    (h : (ofExpr false (Expr.applied value stage)).Laid S a b) :
    ∃ (m n o : Point) (k : Word), stage.calleePlan.Laid S a m ∧ (ofExpr false value).Laid S m n ∧
      (ofExprs stage.writtenArgs).Laid S n o ∧ k.toNat = stage.writtenArgs.length + 1 ∧
      S.At o .call [k] b := by
  rcases stage.stage_cases with ⟨callee, args, rfl⟩ | ⟨object, name, args, rfl⟩ | hplain
  · obtain ⟨m, hcallee, hrest⟩ := h
    obtain ⟨hcount, o, ⟨n, hvalue, hargs⟩, hcall⟩ := hrest.of_atMost
    exact ⟨m, n, o, _, hcallee, hvalue, hargs, toNat_count hcount, hcall⟩
  · obtain ⟨k, hobject, m, hattr, hrest⟩ := h
    obtain ⟨hcount, o, ⟨n, hvalue, hargs⟩, hcall⟩ := hrest.of_atMost
    exact ⟨m, n, o, _, ⟨k, hobject, hattr⟩, hvalue, hargs, toNat_count hcount, hcall⟩
  · rw [hplain.applied] at h
    obtain ⟨m, hcallee, hrest⟩ := h
    obtain ⟨hcount, o, ⟨n, hvalue, hargs⟩, hcall⟩ := hrest.of_atMost
    rw [hplain.calleePlan, hplain.writtenArgs]
    exact ⟨m, n, o, _, hcallee, hvalue, hargs, toNat_count hcount, hcall⟩

end Plan

end ScriptEngine
