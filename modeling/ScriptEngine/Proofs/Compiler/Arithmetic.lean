import ScriptEngine.Proofs.Compiler.Typed
import ScriptEngine.Proofs.Evaluation.Evaluator
import ScriptEngine.Proofs.Layout.Parts
import ScriptEngine.Proofs.Machine.Places
import ScriptEngine.Proofs.Number.Integer

/-!
# Arithmetic in programs

The code of an expression over integers computes it modulo a power of two, wherever it lies and
however deep it is, as long as there is room for its operands.

## Main definitions

* `ScriptEngine.Expr.integer?`: the value of an expression over integers;
* `ScriptEngine.Expr.ideal?`: the exact value of one made of sums, differences and products;
* `ScriptEngine.Code.Computes`: code that pushes a value and does nothing else.

## Main results

* `ScriptEngine.Plan.Laid.computes`: the code of an expression over integers computes its value;
* `ScriptEngine.Code.Computes.run`: a program of such code ends with the value;
* `ScriptEngine.Compiler.Built.arithmetic_exact`: the operators, and the expressions of every batch.
-/

namespace ScriptEngine

namespace Expr

/-- **The value of an expression over integers**, where every operator computes its exact result up
to 64 bits. -/
def integer? : Expr → Option Int64
  | .int n => some n
  | .unary .neg e => e.integer?.map fun a => .ofInt (-a.toInt)
  | .binary op left right => do
    let a ← left.integer?
    let b ← right.integer?
    match op.meaning with
    | .inl op => (Integer.ideal? op a.toInt b.toInt).map .ofInt
    | .inr _ => none
  | _ => none

/-- **The exact value** of an expression made of sums, differences, products and opposites. -/
def ideal? : Expr → Option Int
  | .int n => some n.toInt
  | .unary .neg e => e.ideal?.map fun x => -x
  | .binary .add left right => do return (← left.ideal?) + (← right.ideal?)
  | .binary .sub left right => do return (← left.ideal?) - (← right.ideal?)
  | .binary .mul left right => do return (← left.ideal?) * (← right.ideal?)
  | _ => none

/-- The number of operands for which the code of an expression over integers needs room. -/
def room : Expr → Nat
  | .unary _ e => e.room
  | .binary _ left right => max left.room (right.room + 1)
  | _ => 1

theorem room_pos (e : Expr) : 0 < e.room := by
  fun_induction room e with
  | case1 op e ih => exact ih
  | case2 op left right ihl ihr => omega
  | case3 => exact Nat.one_pos

/-- The value of an expression with an operator, from those of its operands. -/
theorem integer?_binary {op : InfixOp} {o : BinaryOperator} {left right : Expr}
    {x y : Int64} {z : Int}
    (hop : op.meaning = .inl o) (hl : left.integer? = some x) (hr : right.integer? = some y)
    (hz : Integer.ideal? o x.toInt y.toInt = some z) :
    (Expr.binary op left right).integer? = some (.ofInt z) := by
  simp only [integer?, hl, hr, hop, hz, Option.bind_eq_bind, Option.bind_some, Option.map_some]

/-- **Sums, differences and products are exact** however deep they are, up to 64 bits at the end. -/
theorem integer?_of_ideal? : (e : Expr) → {z : Int} → e.ideal? = some z →
    e.integer? = some (.ofInt z)
  | .int n, z, h => by
    obtain rfl := Option.some.inj h
    rw [Int64.ofInt_toInt]
    rfl
  | .unary .neg e, z, h => by
    obtain ⟨x, hx, rfl⟩ := Option.map_eq_some_iff.mp h
    have hneg : (Expr.unary .neg e).integer? = some (.ofInt (-(Int64.ofInt x).toInt)) := by
      simp only [integer?, integer?_of_ideal? e hx, Option.map_some]
    rw [hneg, Int64.ofInt_neg, Int64.ofInt_toInt, ← Int64.ofInt_neg]
  | .binary .add left right, z, h => by
    obtain ⟨x, hx, h⟩ := Option.bind_eq_some_iff.mp h
    obtain ⟨y, hy, h⟩ := Option.bind_eq_some_iff.mp h
    obtain rfl := Option.some.inj h
    rw [integer?_binary rfl (integer?_of_ideal? left hx) (integer?_of_ideal? right hy) rfl]
    rw [Int64.ofInt_add, Int64.ofInt_toInt, Int64.ofInt_toInt, ← Int64.ofInt_add]
  | .binary .sub left right, z, h => by
    obtain ⟨x, hx, h⟩ := Option.bind_eq_some_iff.mp h
    obtain ⟨y, hy, h⟩ := Option.bind_eq_some_iff.mp h
    obtain rfl := Option.some.inj h
    rw [integer?_binary rfl (integer?_of_ideal? left hx) (integer?_of_ideal? right hy) rfl]
    rw [Int64.ofInt_sub, Int64.ofInt_toInt, Int64.ofInt_toInt, ← Int64.ofInt_sub]
  | .binary .mul left right, z, h => by
    obtain ⟨x, hx, h⟩ := Option.bind_eq_some_iff.mp h
    obtain ⟨y, hy, h⟩ := Option.bind_eq_some_iff.mp h
    obtain rfl := Option.some.inj h
    rw [integer?_binary rfl (integer?_of_ideal? left hx) (integer?_of_ideal? right hy) rfl]
    rw [Int64.ofInt_mul, Int64.ofInt_toInt, Int64.ofInt_toInt, ← Int64.ofInt_mul]

end Expr

/-- The code of an operator that computes. -/
theorem InfixOp.arithmetic {op : InfixOp} {o : BinaryOperator} {x y z : Int}
    (hop : op.meaning = .inl o) (hz : Integer.ideal? o x y = some z) :
    (∀ bound left right, Plan.ofExpr bound (.binary op left right) =
      .seq (.ofExpr false left) (.seq (.ofExpr false right) (.instr (.binary op)))) ∧
    Generate.operator op = (.binaryOp, o.word) ∧
    ∀ (h : Heap) (u v : Value), h.binary o u v = h.operate o u v := by
  cases op <;> cases hop <;> first
    | exact ⟨fun _ _ _ => rfl, rfl, fun _ _ _ => rfl⟩
    | cases hz

/-- **Computing a value**: between two offsets of a code, a value is pushed, where there is room for
as many operands, and nothing else happens. -/
def Code.Computes (c : Code) (first last room : Nat) (v : Value) : Prop :=
  ∀ ⦃ctx : Context⦄ ⦃m : Machine⦄ ⦃w : World⦄, m.IsIn c → ctx.Allows w.controls →
    ∀ (vs : List Value), vs.length + room ≤ m.stack.limit → ∀ k : UInt32,
      ∃ is k', Exec.Path ctx ⟨m.placed first vs k, w⟩ is ⟨m.placed last (v :: vs) k', w⟩

open Exec in
/-- **The code of an expression over integers** computes its value. -/
theorem Plan.Laid.computes {S : Site} {c : Code}
    (hwords : ∀ (i : Nat) (word : Word), S.code.words[i]? = some word → c.words[i]? = some word)
    (hconstants : ∀ (i : Nat) (v : Value), S.code.constants[i]? = some v →
      c.constants[i]? = some v) : (e : Expr) → {n : Int64} → e.integer? = some n → {bound : Bool} →
    {a b : Point} → (Plan.ofExpr bound e).Laid S a b → c.Computes a.offset b.offset e.room (.int n)
  | .int n, _, he, bound, a, b, h => by
    intro ctx m w hm ha vs hroom k
    obtain rfl := Option.some.inj he
    obtain ⟨i, hi, hat⟩ := h
    have hb : b.offset = a.offset + 2 := hat.offset
    rw [hb]
    exact ⟨_, _, path_const hm (hat.has.of_words hwords) (hconstants _ _ hi) ha hroom⟩
  | .unary .neg e, n, he, bound, a, b, h => by
    intro ctx m w hm ha vs hroom k
    obtain ⟨x, hx, rfl⟩ := Option.map_eq_some_iff.mp he
    obtain ⟨m₁, hoperand, hat⟩ := h
    have hb : b.offset = m₁.offset + 1 := hat.offset
    have hpos := e.room_pos
    have hroom : vs.length + e.room ≤ m.stack.limit := hroom
    obtain ⟨is, k₁, hpath⟩ := computes hwords hconstants e hx hoperand hm ha vs hroom k
    have hnegate := @path_negate ctx m w c m₁.offset (.int x) vs k₁ hm (hat.has.of_words hwords) ha
      (by omega)
    rw [(Integer.laws w.heap x x).negate, ← hb] at hnegate
    exact ⟨_, _, hpath.trans hnegate⟩
  | .binary op left right, n, he, bound, a, b, h => by
    intro ctx m w hm ha vs hroom k
    obtain ⟨x, hx, he⟩ := Option.bind_eq_some_iff.mp he
    obtain ⟨y, hy, he⟩ := Option.bind_eq_some_iff.mp he
    obtain ⟨o, z, hop, hz, rfl⟩ : ∃ o z, op.meaning = .inl o ∧
        Integer.ideal? o x.toInt y.toInt = some z ∧ .ofInt z = n := by
      split at he
      · rename_i o hop
        obtain ⟨z, hz, hn⟩ := Option.map_eq_some_iff.mp he
        exact ⟨o, z, hop, hz, hn⟩
      · cases he
    obtain ⟨hplan, hcode, hbinary⟩ := InfixOp.arithmetic hop hz
    rw [hplan] at h
    obtain ⟨m₁, hleft, m₂, hright, hat⟩ := h
    have hat : S.At m₂ (Generate.operator op).1 [(Generate.operator op).2] b := hat
    rw [hcode] at hat
    have hb : b.offset = m₂.offset + 2 := hat.offset
    have hroom : vs.length + max left.room (right.room + 1) ≤ m.stack.limit := hroom
    obtain ⟨is₁, k₁, p₁⟩ := computes hwords hconstants left hx hleft hm ha vs (by omega) k
    obtain ⟨is₂, k₂, p₂⟩ := computes hwords hconstants right hy hright hm ha (.int x :: vs)
      (by rw [List.length_cons]; omega) k₁
    have hpos := right.room_pos
    have p₃ := @path_operator ctx m w c m₂.offset (.int y) (.int x) vs k₂ o hm
      (hat.has.of_words hwords) ha (by omega)
    rw [hbinary, Integer.operate_eq w.heap hz, ← hb] at p₃
    exact ⟨_, _, p₁.trans (p₂.trans p₃)⟩

/-- A program whose code computes a value behind what was run before ends with the value. -/
theorem Code.Computes.run {c : Code} {first room : Nat} {v : Value}
    (h : c.Computes first c.size room v) {s : System} (hworkers : s.workers = [])
    (hstart : s.machine.start c = first) (hroom : room ≤ s.machine.stack.limit) {ctx : Context}
    (ha : ctx.Allows (s.world.ensureGlobals c.globalCount).controls) (host : Host) :
    ∃ turns s', s.run host turns ctx c = some (.ok v, s') := by
  obtain ⟨m, world, workers⟩ := s
  obtain rfl : workers = [] := hworkers
  let w := world.ensureGlobals c.globalCount
  have hin : (m.enterProgram c).IsIn c := ⟨_, rfl, rfl⟩
  obtain ⟨is, k, hpath⟩ :=
    @h ctx (m.enterProgram c) w hin ha [] (by rwa [List.length_nil, Nat.zero_add]) m.ticks
  have hplaced : (m.enterProgram c).placed first [] m.ticks = m.enterProgram c := by
    subst hstart
    unfold Machine.enterProgram Machine.placed
    rw [OperandStack.truncate_zero]
    rfl
  rw [hplaced] at hpath
  have hend := @Fiber.goes_endProgram ctx ((m.enterProgram c).placed c.size [v] k) w
    { code := c, ip := c.size } v [] host c.size rfl rfl rfl (Nat.le_refl _) rfl ha
  obtain ⟨turns, hturns⟩ :=
    System.finish?_of_goes ((hpath.goes [] (.program c.size)).trans hend) rfl
  exact ⟨turns, _, hturns⟩

namespace Compiler

variable {c : Compiler} {fs : Array Function} {batches : List Batch}

/-- **Arithmetic on integers is exact** up to 64 bits: every operator is, wherever it is executed,
and so is the code of every expression over integers in every batch, however deep it is. A batch
that is such an expression ends with its value. -/
theorem Built.arithmetic_exact (h : Built c fs batches) {program : Program} {code : Code}
    (ha : (c.compile fs program).1 = .ok code) :
    (∀ (heap : Heap) (a b : Int64), Integer.Laws heap a b) ∧
    (∀ (e : Expr) (z : Int), e.ideal? = some z → e.integer? = some (.ofInt z)) ∧
    (∀ (bound : Bool) (e : Expr) (n : Int64), e.integer? = some n →
      Plan.ofExpr bound e ∈ (Plan.ofStatements program).parts →
      ∃ (S : Site) (c' : Code) (a b : Point),
        (c' = code ∨ ∃ f ∈ (c.compile fs program).2.2, c' = f.code) ∧ c'.words = S.code.words ∧
        (Plan.ofExpr bound e).Laid S a b ∧ c'.Computes a.offset b.offset e.room (.int n)) ∧
    ∀ (e : Expr) (n : Int64), program = [.expr e] → e.integer? = some n →
      ∀ (s : System) (ctx : Context) (host : Host), s.workers = [] →
        s.machine.start code = c.code.size → e.room ≤ s.machine.stack.limit →
          ctx.Allows (s.world.ensureGlobals code.globalCount).controls →
            ∃ turns s', s.run host turns ctx code = some (.ok (.int n), s') := by
  obtain ⟨E, rfl, hsound⟩ := h.sound
  obtain ⟨s, hs, rfl, hfs⟩ := hsound.compile_accepted ha
  obtain ⟨S, hfunctions, hcode, -, -, -, hlaid⟩ := hsound.laid hs
  refine ⟨Integer.laws, fun e z => e.integer?_of_ideal?, fun bound e n he hp => ?_, ?_⟩
  · obtain ⟨S', a, b, hpart, hlies⟩ := hlaid.part _ hp
    rw [hfs]
    rcases hlies with hlies | ⟨f, hf, hlies⟩
    · have hcode' : S'.code = s.body.code := hlies.trans hcode
      refine ⟨S', { s.body.code with globalCount := s.table.slotCount ScopeTable.root },
        a, b, .inl rfl, by rw [hcode'], hpart, ?_⟩
      exact hpart.computes (by rw [hcode']; exact fun _ _ => id)
        (by rw [hcode']; exact fun _ _ => id) e he
    · refine ⟨S', f.code, a, b, .inr ⟨f, hfunctions ▸ hf, rfl⟩, by rw [hlies], hpart, ?_⟩
      exact hpart.computes (by rw [hlies]; exact fun _ _ => id)
        (by rw [hlies]; exact fun _ _ => id) e he
  · rintro e n rfl he sys ctx host hworkers hstart hroom hallows
    obtain ⟨m, hexpr, hskip⟩ := hlaid
    obtain rfl : s.point = m := hskip
    have hcomputes := hexpr.computes
      (c := { s.body.code with globalCount := s.table.slotCount ScopeTable.root })
      (by rw [hcode]; exact fun _ _ => id) (by rw [hcode]; exact fun _ _ => id) e he
    exact hcomputes.run hworkers hstart hroom hallows host

/-- A power of a difference. -/
theorem Built.arithmetic_exact_of_power : ∃ (code : Code) (turns : Nat) (s : System),
    System.run {} default turns {} code = some (.ok (.int 9223372036854775807), s) := by
  let e : Expr := .binary .sub (.binary .pow (.int (-2)) (.int 63)) (.int 1)
  have fresh : Compiler.withBuiltins [] = .ok {} := rfl
  have accepted : (Compiler.compile {} #[] [.expr e]).1.isOk = true := by decide +kernel
  cases ha : (Compiler.compile {} #[] [.expr e]).1 with
  | error x =>
    rw [ha] at accepted
    cases accepted
  | ok code =>
    obtain ⟨-, -, -, runs⟩ := (Built.withBuiltins fresh).arithmetic_exact ha
    exact ⟨code, runs e _ rfl (by decide +kernel) {} {} default rfl (ite_self 0)
      (by decide) ⟨rfl, rfl⟩⟩

end Compiler

end ScriptEngine
