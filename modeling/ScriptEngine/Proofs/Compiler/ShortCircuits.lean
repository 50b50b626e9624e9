import ScriptEngine.Proofs.Compiler.Typed
import ScriptEngine.Proofs.Layout.Parts
import ScriptEngine.Proofs.Machine.Paths

/-!
# Short circuits

The code of a conjunction or a disjunction keeps the left operand, tests a copy of it, and leaves if
it decides. Otherwise the right operand is evaluated on top of the left one, and the last
instruction chooses between the two by the truth that the left one has then. The truth of a
container is whether it has items, so this truth is that of the first test only as long as the right
operand neither fills nor empties it.

## Main definitions

* `ScriptEngine.Code.Chooses`: what a short circuit does.

## Main results

* `ScriptEngine.Plan.Laid.chooses`: a short circuit that lies in a code does this;
* `ScriptEngine.Compiler.Built.shortCircuits_choose`: every short circuit of every batch does.
-/

namespace ScriptEngine

/-- **What a short circuit does** in a code, between the offset behind its left operand, the offset
of its right operand and the one behind it, and the offset behind all. A left operand that decides
is the result, and the right one is not evaluated. Otherwise the right one is, with the left one
below it, and it is the result unless the left one would decide by now. -/
structure Code.Chooses (c : Code) (both : Bool) (tested first last stop : Nat) : Prop where
  decided : ∀ {ctx : Context} {s : State} {v : Value} {rest : List Value},
    s.machine.Stands c tested (v :: rest) → ctx.Allows s.world.controls →
    s.machine.stack.size < s.machine.stack.limit → s.world.heap.isTruthy v ≠ both →
      ∃ is t, Exec.Path ctx s is t ∧ t.machine.Stands c stop (v :: rest) ∧ t.world = s.world ∧
        ∀ i ∈ is, i.offset < first ∨ last ≤ i.offset
  undecided : ∀ {ctx : Context} {s : State} {v : Value} {rest : List Value},
    s.machine.Stands c tested (v :: rest) → ctx.Allows s.world.controls →
    s.machine.stack.size < s.machine.stack.limit → s.world.heap.isTruthy v = both →
      ∃ is t, Exec.Path ctx s is t ∧ t.machine.Stands c first (v :: rest) ∧ t.world = s.world ∧
        ∀ i ∈ is, i.offset < first
  chosen : ∀ {ctx : Context} {s : State} {u v : Value} {rest : List Value},
    s.machine.Stands c last (u :: v :: rest) → ctx.Allows s.world.controls →
      ∃ is t, Exec.Path ctx s is t ∧
        t.machine.Stands c stop ((if s.world.heap.isTruthy v = both then u else v) :: rest) ∧
        t.world = s.world ∧ ∀ i ∈ is, last ≤ i.offset

open Exec in
/-- **A short circuit that lies in a code** does what short circuits do, between its operands. -/
theorem Plan.Laid.chooses {both : Bool} {left right : Plan} {S : Site} {a b : Point} {c : Code}
    (h : (Plan.shortCircuit both left right).Laid S a b) (hc : S.code.words = c.words) :
    ∃ m₁ m₃ m₄, left.Laid S a m₁ ∧ right.Laid S m₃ m₄ ∧
      c.Chooses both m₁.offset m₃.offset m₄.offset b.offset := by
  obtain ⟨m₁, m₂, m₃, m₄, m₅, hleft, hcopy, ⟨d, hjump, hd, -⟩, hright, hchoose, hnop⟩ := h
  have hoperation : (Operation.binary (if both then .and else .or)).encode =
      (.binaryOp, [(BinaryOperator.choice both).word]) := by cases both <;> rfl
  rw [hoperation] at hchoose
  have h₂ : m₂.offset = m₁.offset + 2 := hcopy.offset
  have h₃ : m₃.offset = m₂.offset + 2 := hjump.offset
  have h₅ : m₅.offset = m₄.offset + 2 := hchoose.offset
  have hb : b.offset = m₅.offset + 1 := hnop.offset
  have words (i : Nat) (w : Word) (hw : S.code.words[i]? = some w) : c.words[i]? = some w := hc ▸ hw
  have copy := hcopy.has.of_words words
  have jump : c.Has ⟨m₂.offset, .shortcut both, [d]⟩ := hjump.has.of_words words
  have choose := hchoose.has.of_words words
  have nop := hnop.has.of_words words
  have inside : m₂.offset + d.toNat ≤ c.size := hd ▸ Nat.le_of_lt nop.offset_lt
  refine ⟨m₁, m₃, m₄, hleft, hright, ?_, ?_, ?_⟩
  · intro ctx s v rest hs ha hroom hv
    obtain ⟨t₁, p₁, hs₁, hw₁⟩ := path_copy hs copy ha hroom
    rw [← h₂] at hs₁
    obtain ⟨t₂, p₂, hs₂, hw₂⟩ := path_jumpIf hs₁ jump (hw₁ ▸ ha) inside
    rw [hw₁, if_neg hv, hd] at hs₂
    have hw₂ := hw₂.trans hw₁
    obtain ⟨t₃, p₃, hs₃, hw₃⟩ := path_nop hs₂ nop (hw₂ ▸ ha)
    refine ⟨_, t₃, (p₁.trans p₂).trans p₃, hb ▸ hs₃, hw₃.trans hw₂, fun i hi => ?_⟩
    simp only [List.cons_append, List.nil_append, List.mem_cons, List.not_mem_nil, or_false] at hi
    rcases hi with rfl | rfl | rfl
    · exact .inl (show m₁.offset < _ by omega)
    · exact .inl (show m₂.offset < _ by omega)
    · exact .inr (show _ ≤ m₅.offset by omega)
  · intro ctx s v rest hs ha hroom hv
    obtain ⟨t₁, p₁, hs₁, hw₁⟩ := path_copy hs copy ha hroom
    rw [← h₂] at hs₁
    obtain ⟨t₂, p₂, hs₂, hw₂⟩ := path_jumpIf hs₁ jump (hw₁ ▸ ha) inside
    rw [hw₁, if_pos hv, ← h₃] at hs₂
    refine ⟨_, t₂, p₁.trans p₂, hs₂, hw₂.trans hw₁, fun i hi => ?_⟩
    simp only [List.cons_append, List.nil_append, List.mem_cons, List.not_mem_nil, or_false] at hi
    rcases hi with rfl | rfl
    · exact show m₁.offset < _ by omega
    · exact show m₂.offset < _ by omega
  · intro ctx s u v rest hs ha
    obtain ⟨t₁, p₁, hs₁, hw₁⟩ := path_choose hs choose ha
    rw [← h₅] at hs₁
    obtain ⟨t₂, p₂, hs₂, hw₂⟩ := path_nop hs₁ nop (hw₁ ▸ ha)
    refine ⟨_, t₂, p₁.trans p₂, hb ▸ hs₂, hw₂.trans hw₁, fun i hi => ?_⟩
    simp only [List.cons_append, List.nil_append, List.mem_cons, List.not_mem_nil, or_false] at hi
    rcases hi with rfl | rfl
    · exact Nat.le_refl _
    · exact show _ ≤ m₅.offset by omega

namespace Compiler

variable {c : Compiler} {fs : Array Function} {batches : List Batch}

/-- **Every short circuit of every batch**, wherever it is in the program and in its functions, lies
in a code that was compiled, and chooses between its operands there. -/
theorem Built.shortCircuits_choose (h : Built c fs batches) {program : Program} {code : Code}
    (ha : (c.compile fs program).1 = .ok code) {both : Bool} {left right : Plan}
    (hp : .shortCircuit both left right ∈ (Plan.ofStatements program).parts) :
    ∃ (S : Site) (c' : Code) (a m₁ m₃ m₄ b : Point),
      (c' = code ∨ ∃ f ∈ (c.compile fs program).2.2, c' = f.code) ∧ c'.words = S.code.words ∧
      (Plan.shortCircuit both left right).Laid S a b ∧ left.Laid S a m₁ ∧ right.Laid S m₃ m₄ ∧
      c'.Chooses both m₁.offset m₃.offset m₄.offset b.offset := by
  obtain ⟨E, rfl, hsound⟩ := h.sound
  obtain ⟨s, hs, rfl, hfs⟩ := hsound.compile_accepted ha
  obtain ⟨S, hfunctions, hcode, -, -, -, hlaid⟩ := hsound.laid hs
  obtain ⟨S', a, b, hpart, hlies⟩ := hlaid.part _ hp
  rw [hfs]
  rcases hlies with hlies | ⟨f, hf, hlies⟩
  · have hw : S'.code.words = s.body.code.words := by rw [hlies, hcode]
    obtain ⟨m₁, m₃, m₄, hleft, hright, hchooses⟩ := hpart.chooses
      (c := { s.body.code with globalCount := s.table.slotCount ScopeTable.root }) hw
    exact ⟨S', _, a, m₁, m₃, m₄, b, .inl rfl, hw.symm, hpart, hleft, hright, hchooses⟩
  · obtain ⟨m₁, m₃, m₄, hleft, hright, hchooses⟩ := hpart.chooses (c := f.code) (by rw [hlies])
    exact ⟨S', f.code, a, m₁, m₃, m₄, b,
      .inr ⟨f, hfunctions ▸ hf, rfl⟩, by rw [hlies], hpart, hleft, hright, hchooses⟩

/-- A conjunction in a function. -/
theorem Built.conjunction_chooses :
    ∃ (code : Code) (fs : Array Function) (S : Site) (c' : Code) (a m₁ m₃ m₄ b : Point),
      (c' = code ∨ ∃ f ∈ fs, c' = f.code) ∧ c'.words = S.code.words ∧
      (Plan.ofExpr false (.binary .and (.bool false) (.int 1))).Laid S a b ∧
      (Plan.ofExpr false (.bool false)).Laid S a m₁ ∧ (Plan.ofExpr false (.int 1)).Laid S m₃ m₄ ∧
      c'.Chooses true m₁.offset m₃.offset m₄.offset b.offset := by
  let program : Program :=
    [.expr (.func (.mk none [] [.expr (.binary .and (.bool false) (.int 1))]))]
  have fresh : Compiler.withBuiltins [] = .ok {} := rfl
  have accepted : (Compiler.compile {} #[] program).1.isOk = true := by decide +kernel
  cases ha : (Compiler.compile {} #[] program).1 with
  | error e =>
    rw [ha] at accepted
    cases accepted
  | ok code =>
    refine ⟨code, _, (Built.withBuiltins fresh).shortCircuits_choose ha ?_⟩
    simp [program, Plan.ofStatements, Plan.ofStatement, Plan.ofExpr, Plan.ofFunc, Plan.parts]

end Compiler

end ScriptEngine
