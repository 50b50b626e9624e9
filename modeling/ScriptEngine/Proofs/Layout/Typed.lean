import Mathlib.Logic.Function.Basic
import ScriptEngine.Proofs.Code.Typed
import ScriptEngine.Proofs.Layout.Basic
import ScriptEngine.Proofs.Layout.Spans

/-!
# Laid out code is typed

Wherever the code of a plan lies, its instructions agree about the operand stack. The shapes are
found from the end of the code to its start: once they are known behind a piece of code, those at
the offsets inside it follow from what the plan does to the stack. Only a jump back looks at an
offset for which no shape was chosen yet; it leads to the start of a loop, where the shape is the
one behind it.

## Main definitions

* `ScriptEngine.Site.Shaped`: the code between two points agrees with shapes;
* `ScriptEngine.Site.Extends`: there are shapes for the code between two points, given those behind
  it;
* `ScriptEngine.Site.Exiting`: a break and a continue find the shape that is expected of them.

## Main results

* `ScriptEngine.Plan.Laid.shaped`: the code of a plan has the shapes of the plan.
-/

namespace ScriptEngine

theorem ScopeTable.length_declareEach {s : ScopeId} : ∀ {names : List String}
    {t t' : ScopeTable} {symbols : List Symbol},
    ScopeTable.declareEach s names t = .ok symbols t' → symbols.length = names.length
  | [], _, _, _, h => by
    obtain ⟨rfl, -⟩ := ScopeTable.of_declareEach_nil h
    rfl
  | name :: names, _, _, _, h => by
    obtain ⟨symbol, _, rest, -, hrest, rfl⟩ := ScopeTable.of_declareEach_cons h
    exact congrArg (· + 1) (length_declareEach hrest)

/-! ### Shapes for pieces of code -/

/-- Shapes that are the same from an offset on. -/
def AgreeFrom (p : Nat) (Φ Ψ : Nat → Shape) : Prop :=
  ∀ q, p ≤ q → Φ q = Ψ q

/-- An instruction does not jump back to before an offset. -/
def Instruction.Above (lo : Nat) (i : Instruction) : Prop :=
  i.op = .jumpBackward → lo ≤ i.offset - i.first.toNat

/-- An instruction that is not before an offset depends on the shapes from there on only. -/
theorem Instruction.Fits.congr_of_agreeFrom {exact : Bool} {Φ Ψ : Nat → Shape} {i : Instruction}
    {lo : Nat} (h : i.Fits exact Ψ) (hg : AgreeFrom lo Φ Ψ) (ha : i.Above lo)
    (hlo : lo ≤ i.offset) : i.Fits exact Φ := by
  have hstop : i.offset < i.stop := Code.Has.offset_lt_stop i
  refine h.congr (hg _ hlo) (hg _ (by omega)) fun x hx => hg x ?_
  unfold Instruction.target? at hx
  split at hx
  case h_5 hop => exact Option.some.inj hx ▸ ha hop
  case h_6 => cases hx
  all_goals
    obtain rfl := Option.some.inj hx
    omega

/-- The functions compiled between two counts are typed. -/
def Site.FunctionsTyped (S : Site) (exact : Bool) (m n : Nat) : Prop :=
  ∀ k, m ≤ k → k < n → ∃ f, S.functions[k]? = some f ∧
    ∃ Φ, f.code.Typed exact Φ (some (S.cells k))

/-- **The code between two points agrees with shapes**, and jumps back no further than to `lo`. -/
structure Site.Shaped (S : Site) (exact : Bool) (Φ : Nat → Shape) (lo : Nat) (a b : Point) :
    Prop where
  walk : S.code.Walks (fun i => i.Fits exact Φ ∧ i.Above lo) a.offset b.offset
  functions : S.FunctionsTyped exact a.count b.count

/-- **There are shapes for the code between two points**, given those behind it. -/
def Site.Extends (S : Site) (exact : Bool) (Ψ : Nat → Shape) (a b : Point) (σ : Shape) : Prop :=
  ∃ Φ, AgreeFrom b.offset Φ Ψ ∧ Φ a.offset = σ ∧ S.Shaped exact Φ a.offset a b

/-- **A break and a continue find the shape that is expected of them** above the values that they
drop. -/
def Site.Exiting (S : Site) (Φ : Nat → Shape) (exit : Option Shape) (p : Nat) : Prop :=
  ∀ e, S.exits = some e → ∃ ρ, exit = some (values e.held ++ ρ) ∧ Φ e.exit = ρ ∧ Φ e.next = ρ ∧
    p ≤ e.exit ∧ p ≤ e.next

namespace Site

variable {S S' : Site} {exact : Bool} {Φ Ψ : Nat → Shape} {a b m : Point} {σ τ μ : Shape}
  {exit : Option Shape} {lo : Nat}

theorem Back.offset_lt {x : Nat} (h : S.Back a x b) : a.offset < b.offset := by
  obtain ⟨_, h, -⟩ := h
  exact At.offset_lt h

namespace Shaped

theorem trans (h : S.Shaped exact Φ lo a m) (h' : S.Shaped exact Φ lo m b) :
    S.Shaped exact Φ lo a b :=
  ⟨h.walk.trans h'.walk, fun k hk hk' => by
    by_cases hm : k < m.count
    · exact h.functions k hk hm
    · exact h'.functions k (by omega) hk'⟩

theorem congr (h : S.Shaped exact Ψ lo a b) (hg : AgreeFrom lo Φ Ψ) (hlo : lo ≤ a.offset) :
    S.Shaped exact Φ lo a b :=
  ⟨h.walk.mono fun _ _ ha _ hi => ⟨hi.1.congr_of_agreeFrom hg hi.2 (Nat.le_trans hlo ha), hi.2⟩,
    h.functions⟩

theorem below (h : S.Shaped exact Φ lo a b) {lo' : Nat} (hlo : lo' ≤ lo) :
    S.Shaped exact Φ lo' a b :=
  ⟨h.walk.mono fun _ _ _ _ hi => ⟨hi.1, fun hop => Nat.le_trans hlo (hi.2 hop)⟩, h.functions⟩

/-- One instruction. -/
theorem single {op : Opcode} {operands : List Word} (h : S.At a op operands b)
    (hi : Instruction.Fits exact Φ ⟨a.offset, op, operands⟩)
    (ha : Instruction.Above lo ⟨a.offset, op, operands⟩) : S.Shaped exact Φ lo a b :=
  ⟨h.walks ⟨hi, ha⟩, fun _ hk hk' => absurd hk' (Nat.not_lt_of_le (h.count ▸ hk))⟩

end Shaped

namespace Exiting

theorem congr (h : S.Exiting Ψ exit m.offset) (hg : AgreeFrom m.offset Φ Ψ)
    (hb : b.offset ≤ m.offset) : S.Exiting Φ exit b.offset := by
  intro e he
  obtain ⟨ρ, hρ, hx, hn, hle, hle'⟩ := h e he
  exact ⟨ρ, hρ, (hg _ hle).trans hx, (hg _ hle').trans hn, Nat.le_trans hb hle,
    Nat.le_trans hb hle'⟩

/-- The bodies of a switch hold its subject. -/
theorem hold (h : S.Exiting Φ exit b.offset) :
    S.hold.Exiting Φ (exit.map (.value :: ·)) b.offset := by
  intro e he
  obtain ⟨e', he', rfl⟩ := Option.map_eq_some_iff.mp he
  obtain ⟨ρ, rfl, hρ⟩ := h e' he'
  exact ⟨ρ, rfl, hρ⟩

theorem inLoop {x n p : Nat} (hx : Φ x = σ) (hn : Φ n = σ) (hlx : p ≤ x) (hln : p ≤ n) :
    (S.inLoop x n).Exiting Φ (some σ) p := by
  intro e he
  obtain rfl := Option.some.inj he
  exact ⟨σ, rfl, hx, hn, hlx, hln⟩

theorem function (h : S.exits = none) {p : Nat} : S.Exiting Φ exit p := by
  intro e he
  rw [h] at he
  cases he

end Exiting

namespace Extends

/-- No code. -/
theorem refl (hΨ : Ψ a.offset = σ) : S.Extends exact Ψ a a σ :=
  ⟨Ψ, fun _ _ => rfl, hΨ, .refl _, fun _ hk hk' => absurd hk' (Nat.not_lt_of_le hk)⟩

theorem of_eq (h : b = a) (hΨ : Ψ b.offset = σ) : S.Extends exact Ψ a b σ := by
  subst h
  exact refl hΨ

/-- A step on the scopes is no code. -/
theorem withTable {t : ScopeTable} (h : S.Extends exact Ψ (a.withTable t) b σ) :
    S.Extends exact Ψ a b σ := by
  obtain ⟨Φ, hg, hs, hw, hf⟩ := h
  exact ⟨Φ, hg, hs, hw, hf⟩

/-- Code does not depend on the scope in which it lies, nor on the exits. -/
theorem of_code (h : S'.Extends exact Ψ a b σ) (hc : S'.code = S.code)
    (hf : S'.functions = S.functions) (hn : S'.cells = S.cells) : S.Extends exact Ψ a b σ := by
  obtain ⟨Φ, hg, hs, hw, hfs⟩ := h
  refine ⟨Φ, hg, hs, hc ▸ hw, ?_⟩
  unfold FunctionsTyped at hfs ⊢
  rwa [hf, hn] at hfs

theorem le (h : S.Extends exact Ψ a b σ) : a.offset ≤ b.offset := by
  obtain ⟨_, -, -, hs⟩ := h
  exact hs.walk.le

/-- Code in front of code that has its shapes. -/
theorem after (hg : AgreeFrom b.offset Φ Ψ) (hs : S.Shaped exact Φ m.offset m b)
    (h : S.Extends exact Φ a m σ) : S.Extends exact Ψ a b σ := by
  obtain ⟨Φ', hg', ha, hs'⟩ := h
  have hle := hs.walk.le
  refine ⟨Φ', fun q hq => (hg' q (by omega)).trans (hg q hq), ha, hs'.trans ?_⟩
  exact (hs.congr hg' (Nat.le_refl _)).below hs'.walk.le

/-- **Two pieces of code**, of which the second one is given its shapes first. -/
theorem seq (h : S.Extends exact Ψ m b μ)
    (h' : ∀ Φ, AgreeFrom b.offset Φ Ψ → Φ m.offset = μ → S.Extends exact Φ a m σ) :
    S.Extends exact Ψ a b σ := by
  obtain ⟨Φ, hg, hm, hs⟩ := h
  exact after hg hs (h' Φ hg hm)

/-- **A jump back** to the start of a loop, behind code that leads from a shape to the same one. -/
theorem back (h : S.Back m a.offset b)
    (h' : ∀ Φ, AgreeFrom b.offset Φ Ψ → Φ m.offset = σ → S.Extends exact Φ a m σ) :
    S.Extends exact Ψ a b σ := by
  obtain ⟨d, h, hd⟩ := h
  have hlt := h.offset_lt
  have hg : AgreeFrom b.offset (Function.update Ψ m.offset σ) Ψ := fun q hq =>
    Function.update_of_ne (by omega) _ _
  have hm : Function.update Ψ m.offset σ m.offset = σ := Function.update_self ..
  obtain ⟨Φ, hg', ha, hs⟩ := h' _ hg hm
  have ht : m.offset - d.toNat = a.offset := by omega
  refine ⟨Φ, fun q hq => (hg' q (by omega)).trans (hg q hq), ha, hs.trans (.single h ?_ ?_)⟩
  · show (Φ m.offset).Fills exact (Φ (m.offset - d.toNat))
    rw [ht, ha, hg' _ (Nat.le_refl _), hm]
    exact .refl σ
  · exact fun _ => Nat.le_of_eq ht.symm

/-- **One instruction** that does not jump back. -/
theorem instruction {op : Opcode} {operands : List Word} (h : S.At a op operands b)
    (hop : op ≠ .jumpBackward)
    (hfit : ∀ Φ, Φ a.offset = σ → AgreeFrom b.offset Φ Ψ →
      Instruction.Fits exact Φ ⟨a.offset, op, operands⟩) : S.Extends exact Ψ a b σ := by
  have hlt := h.offset_lt
  have hg : AgreeFrom b.offset (Function.update Ψ a.offset σ) Ψ := fun q hq =>
    Function.update_of_ne (by omega) _ _
  have ha : Function.update Ψ a.offset σ a.offset = σ := Function.update_self ..
  exact ⟨_, hg, ha, .single h (hfit _ ha hg) fun he => absurd he hop⟩

/-- An instruction that goes on with the next one and treats all kinds of entries alike. -/
theorem straight {op : Opcode} {operands : List Word} (h : S.At a op operands b)
    (hop : op.isStraight = true ∨ op = .call) {ρ : Shape}
    (hσ : σ = (Instruction.effect ⟨a.offset, op, operands⟩).1 ++ ρ)
    (hτ : Ψ b.offset = (Instruction.effect ⟨a.offset, op, operands⟩).2 ++ ρ) :
    S.Extends exact Ψ a b σ := by
  refine instruction h (fun he => by subst he; rcases hop with hop | hop <;> cases hop)
    fun Φ ha hg => ?_
  have fits : ∃ ρ : Shape, Φ a.offset = (Instruction.effect ⟨a.offset, op, operands⟩).1 ++ ρ ∧
      Shape.Fills exact ((Instruction.effect ⟨a.offset, op, operands⟩).2 ++ ρ)
        (Φ (Instruction.stop ⟨a.offset, op, operands⟩)) := by
    refine ⟨ρ, ha.trans hσ, .of_eq ?_⟩
    rw [← h.offset, hg _ (Nat.le_refl _), hτ]
  unfold Instruction.Fits
  split
  case h_9 => exact fits
  all_goals
    rename_i heq
    obtain rfl : op = _ := heq
    rcases hop with hop | hop <;> cases hop

/-- A pop. -/
theorem popTop (h : S.At a .popTop [] b) {k : Kind} (hσ : σ = k :: Ψ b.offset) :
    S.Extends exact Ψ a b σ := by
  refine instruction h (by simp) fun Φ ha hg => ⟨k, Ψ b.offset, ha.trans hσ, .of_eq ?_⟩
  rw [← h.offset, hg _ (Nat.le_refl _)]

/-- **A jump forward.** -/
theorem forward {x : Nat} (h : S.Forward a .jumpForward x b) (hx : b.offset ≤ x)
    (hσ : σ.Fills exact (Ψ x)) : S.Extends exact Ψ a b σ := by
  obtain ⟨d, h, hd, -⟩ := h
  refine instruction h (by simp) fun Φ ha hg => ?_
  show (Φ a.offset).Fills exact (Φ (a.offset + d.toNat))
  rwa [ha, hd, hg x hx]

/-- **A conditional jump forward.** -/
theorem popForward {op : Opcode} {x : Nat} (h : S.Forward a op x b)
    (hop : op = .popJumpForwardIfFalse ∨ op = .popJumpForwardIfTrue) (hx : b.offset ≤ x)
    (hb : Ψ b.offset = τ) (hτ : Ψ x = τ) (hσ : σ = .value :: τ) : S.Extends exact Ψ a b σ := by
  obtain ⟨d, h, hd, -⟩ := h
  refine instruction h (by rcases hop with rfl | rfl <;> simp) fun Φ ha hg => ?_
  have fits : ∃ ρ : Shape, Φ a.offset = .value :: ρ ∧
      ρ.Fills exact (Φ (Instruction.stop ⟨a.offset, op, [d]⟩)) ∧
      ρ.Fills exact (Φ (a.offset + d.toNat)) := by
    refine ⟨τ, ha.trans hσ, .of_eq ?_, .of_eq ?_⟩
    · rw [← h.offset, hg _ (Nat.le_refl _), hb]
    · rw [hd, hg x hx, hτ]
  rcases hop with rfl | rfl
  · exact fits
  · exact fits

/-- The jump out of a loop whose condition was just tested. -/
theorem exitIf {tested : Bool} {x : Nat} (h : S.ExitIf tested a x b) (hx : b.offset ≤ x)
    (hb : Ψ b.offset = τ) (hτ : Ψ x = τ) :
    S.Extends exact Ψ a b (if tested then .value :: τ else τ) := by
  cases tested with
  | true => exact popForward h (.inl rfl) hx hb hτ rfl
  | false => exact of_eq h hb

/-- The entry of a loop over an iterator. -/
theorem advance {x names : Nat} (h : S.Advance a x names b) (hn : names ≤ 2) (hx : b.offset ≤ x)
    (hτ : Ψ x = τ) (hb : Ψ b.offset = values names ++ .iterator :: τ) :
    S.Extends exact Ψ a b (.iterator :: τ) := by
  obtain ⟨d, h, hd, -⟩ := h
  refine instruction h (by simp) fun Φ ha hg => ⟨τ, ha, .of_eq ?_, .of_eq ?_⟩
  · show τ = Φ (a.offset + d.toNat)
    rw [hd, hg x hx, hτ]
  · show values (min names.toUInt16.toNat 2) ++ _ = Φ _
    rw [← h.offset, hg _ (Nat.le_refl _), hb, show names.toUInt16.toNat = names from
      Nat.mod_eq_of_lt (by omega), Nat.min_eq_left hn]

/-- Entries are dropped. -/
theorem drops : ∀ {n : Nat} {a b : Point} {σ : Shape}, S.Drops n a b → n ≤ σ.length →
    Ψ b.offset = σ.drop n → S.Extends exact Ψ a b σ
  | 0, _, _, _, h, _, hΨ => of_eq h hΨ
  | _ + 1, _, _, k :: _, ⟨_, h, h'⟩, hn, hΨ =>
    seq (drops h' (Nat.le_of_succ_le_succ hn) hΨ) fun _ _ hm => popTop h (k := k) (hm ▸ rfl)

/-! ### Operations and names -/

/-- **An operation.** -/
theorem operation {o : Operation} (h : S.At a o.encode.1 o.encode.2 b) {ρ : Shape}
    (hσ : σ = o.effect.1 ++ ρ) (hτ : o.goesOn = true → Ψ b.offset = o.effect.2 ++ ρ) :
    S.Extends exact Ψ a b σ := by
  cases o with
  | popTop => exact popTop h (k := .value) (by rw [hσ, hτ rfl]; rfl)
  | ret withValue =>
    refine instruction h (by simp [Operation.encode]) fun Φ ha hg hne => ?_
    cases withValue with
    | false => exact absurd rfl hne
    | true => exact ⟨ρ, ha.trans hσ⟩
  | pushBool b => cases b <;> exact straight h (.inl rfl) hσ (hτ rfl)
  | unary op => cases op <;> exact straight h (.inl rfl) hσ (hτ rfl)
  | binary op => cases op <;> exact straight h (.inl rfl) hσ (hτ rfl)
  | call bound count =>
    have hσ' : σ = (values count.toNat ++ [.value]) ++ ρ := by
      rw [hσ, List.append_assoc]
      exact (values_append_cons count.toNat ρ).symm
    cases bound with
    | false => exact straight h (.inr rfl) hσ' (hτ rfl)
    | true => exact straight h (.inl rfl) hσ' (hτ rfl)
  | contains negated => exact straight h (.inl rfl) hσ (hτ rfl)
  | _ => exact straight h (.inl rfl) hσ (hτ rfl)

theorem loads {r : Resolution} (h : S.Loads r a b) (hb : Ψ b.offset = .value :: σ) :
    S.Extends exact Ψ a b σ := by
  unfold Loads at h
  split at h
  all_goals exact straight h (.inl rfl) (ρ := σ) rfl hb

theorem stores {r : Resolution} (h : S.Stores r a b) (hb : Ψ b.offset = τ) :
    S.Extends exact Ψ a b (.value :: τ) := by
  unfold Stores at h
  split at h
  case h_4 => exact h.elim
  all_goals exact straight h (.inl rfl) (ρ := τ) rfl hb

theorem sets {symbol : Symbol} (h : S.Sets symbol a b) (hb : Ψ b.offset = τ) :
    S.Extends exact Ψ a b (.value :: τ) := by
  unfold Sets at h
  split at h
  all_goals exact straight h (.inl rfl) (ρ := τ) rfl hb

theorem setsAll : ∀ {symbols : List Symbol} {a b : Point}, S.SetsAll symbols a b →
    Ψ b.offset = τ → S.Extends exact Ψ a b (values symbols.length ++ τ)
  | [], _, _, h, hb => of_eq h hb
  | _ :: _, _, _, ⟨_, h, h'⟩, hb => seq (setsAll h' hb) fun _ _ hm => sets h hm

theorem passes {name : String} (h : S.Passes name a b) (hb : Ψ b.offset = .cell :: σ) :
    S.Extends exact Ψ a b σ := by
  obtain ⟨r, t, -, ⟨-, h⟩ | ⟨-, h⟩⟩ := h
  all_goals exact withTable (straight h (.inl rfl) (ρ := σ) rfl hb)

theorem passesAll : ∀ {names : List String} {a b : Point} {σ : Shape}, S.PassesAll names a b →
    Ψ b.offset = List.replicate names.length .cell ++ σ → S.Extends exact Ψ a b σ
  | [], _, _, _, h, hb => of_eq h hb
  | name :: names, a, b, σ, ⟨m, h, h'⟩, hb => by
    refine seq (passesAll (σ := .cell :: σ) h' ?_) fun _ _ hm => passes h hm
    rw [hb, List.length_cons, List.replicate_succ', List.append_assoc]
    rfl

/-- A function is instantiated. -/
theorem instantiates {k : Nat} {free : List Resolution} (h : S.Instantiates k free a b)
    (hb : Ψ b.offset = .value :: σ) : S.Extends exact Ψ a b σ := by
  obtain ⟨index, -, h⟩ := h
  split at h
  · exact straight h (.inl rfl) (ρ := σ) rfl hb
  · obtain ⟨hlen, m, h, h'⟩ := h
    refine seq (straight h' (.inl rfl) (ρ := σ) rfl hb) fun _ _ hm => passesAll h ?_
    rw [hm, List.length_map]
    show List.replicate free.length.toUInt16.toNat _ ++ _ = _
    rw [show free.length.toUInt16.toNat = free.length from Nat.mod_eq_of_lt (by omega)]

end Extends

end Site

/-! ### Plans -/

open Site

mutual

/-- **The code of a plan has the shapes of the plan.** -/
theorem Plan.Laid.shaped : ∀ {p : Plan} {S : Site} {a b : Point} {exact : Bool}
    {exit : Option Shape} {σ τ : Shape} {Ψ : Nat → Shape}, p.Laid S a b →
    p.Shapes exact exit σ τ → S.Exiting Ψ exit b.offset → Ψ b.offset = τ →
    S.Extends exact Ψ a b σ
  -- shapes are found from the end: the shapes behind a part are given, and those inside it are
  -- chosen to fit, without a change behind it
  | .skip, _, _, _, _, _, _, _, _, h, k, _, hτ => .of_eq h (hτ.trans k)
  | .seq x y, S, a, b, exact, exit, σ, τ, Ψ, ⟨m, hx, hy⟩, ⟨μ, kx, ky⟩, hexit, hτ => by
    have ey := hy.shaped ky hexit hτ
    exact ey.seq fun Φ hg hm => hx.shaped kx (hexit.congr hg ey.le) hm
  | .instr o, S, a, b, exact, exit, σ, τ, Ψ, h, ⟨ρ, hσ, hρ⟩, _, hτ =>
    .operation h hσ fun ho => hτ.trans (hρ ho)
  | .const v scalar, S, a, b, exact, exit, σ, τ, Ψ, ⟨_, _, h⟩, k, _, hτ =>
    .straight h (.inl rfl) (ρ := σ) rfl (hτ.trans k)
  | .attr sets name, S, a, b, exact, exit, σ, τ, Ψ, ⟨_, _, h⟩, k, _, hτ => by
    cases sets with
    | true => exact .straight h (.inl rfl) (ρ := τ) k hτ
    | false =>
      obtain ⟨ρ, hσ, hρ⟩ := k
      exact .straight h (.inl rfl) (ρ := ρ) hσ (hτ.trans hρ)
  | .load name, S, a, b, exact, exit, σ, τ, Ψ, ⟨r, t, _, h⟩, k, _, hτ =>
    .withTable (.loads h (hτ.trans k))
  | .update name reads value, S, a, b, exact, exit, σ, τ, Ψ, h, k, hexit, hτ => by
    obtain ⟨r, t, -, -, m, hm, n, hv, hst⟩ := h
    obtain ⟨kv, rfl⟩ := k
    have es : S.Extends exact Ψ n b (.value :: τ) := .stores hst hτ
    refine .withTable (t := t) (es.seq fun Φ hg hn => ?_)
    have ev := hv.shaped kv (hexit.congr hg es.le) hn
    refine ev.seq fun Φ' _ hm' => ?_
    cases reads with
    | true => exact .loads hm hm'
    | false => exact .of_eq hm hm'
  | .declare name constant, S, a, b, exact, exit, σ, τ, Ψ, ⟨symbol, t, _, h⟩, k, _, hτ => by
    obtain rfl : σ = .value :: τ := k
    exact .withTable (.sets h hτ)
  | .declareAll names, S, a, b, exact, exit, σ, τ, Ψ, ⟨symbols, t, hd, h⟩, k, _, hτ => by
    obtain rfl : σ = values names.length ++ τ := k
    have hlen : symbols.reverse.length = names.length := by
      rw [List.length_reverse, ScopeTable.length_declareEach hd]
    rw [← hlen]
    exact .withTable (.setsAll h hτ)
  | .refuse _, _, _, _, _, _, _, _, _, h, _, _, _ => h.elim
  | .outsidePipe, _, _, _, _, _, _, _, _, h, k, _, hτ => .of_eq h (hτ.trans k)
  | .stages body, S, a, b, exact, exit, σ, τ, Ψ, h, k, hexit, hτ =>
    Plan.Laid.shaped (p := body) h k hexit hτ
  | .insideFunction, _, _, _, _, _, _, _, _, ⟨_, h⟩, k, _, hτ => .of_eq h (hτ.trans k)
  | .leave isBreak, S, a, b, exact, exit, σ, τ, Ψ, ⟨e, he, m, hd, hj⟩, k, hexit, hτ => by
    obtain ⟨ρ, rfl, hx, hn, hlx, hln⟩ := hexit e he
    obtain ⟨hlen, heq⟩ := k _ rfl
    rw [List.length_append, length_values] at hlen
    -- more can lie on the stack than the loop expects, and the excess is dropped before the jump
    have hfill : Shape.Fills exact (σ.drop e.held) ρ := by
      refine ⟨by rw [List.length_drop]; omega, fun hs => ?_⟩
      rw [heq hs, List.drop_left' (length_values _)]
    have ej : S.Extends exact Ψ m b (σ.drop e.held) := by
      cases isBreak with
      | true => exact .forward hj hlx (hx ▸ hfill)
      | false => exact .forward hj hln (hn ▸ hfill)
    exact ej.seq fun Φ _ hm => .drops hd (by omega) hm
  | .branch condition ifTrue ifFalse, S, a, b, exact, exit, σ, τ, Ψ, h, k, hexit, hτ => by
    obtain ⟨m₁, m₂, m₃, m₄, hc, hj, ht, hj', hf⟩ := h
    obtain ⟨kc, kt, kf⟩ := k
    -- both branches end with the same shape, so the jump over the second one fits
    have e₄ := hf.shaped kf hexit hτ
    refine e₄.seq fun Φ₄ g₄ s₄ => ?_
    have x₄ := hexit.congr g₄ e₄.le
    have e₃ : S.Extends exact Φ₄ m₃ m₄ τ :=
      .forward hj' e₄.le (.of_eq (((g₄ _ (Nat.le_refl _)).trans hτ).symm))
    refine e₃.seq fun Φ₃ g₃ s₃ => ?_
    have x₃ := x₄.congr g₃ e₃.le
    have e₂ := ht.shaped kt x₃ s₃
    refine e₂.seq fun Φ₂ g₂ s₂ => ?_
    have x₂ := x₃.congr g₂ e₂.le
    have e₁ : S.Extends exact Φ₂ m₁ m₂ (.value :: σ) := by
      refine .popForward hj (.inl rfl) (Nat.le_trans e₂.le e₃.le) s₂ ?_ rfl
      rw [g₂ _ e₃.le, g₃ _ (Nat.le_refl _), s₄]
    exact e₁.seq fun Φ₁ g₁ s₁ => hc.shaped kc (x₂.congr g₁ e₁.le) s₁
  | .shortCircuit both left right, S, a, b, exact, exit, σ, τ, Ψ, h, k, hexit, hτ => by
    obtain ⟨m₁, m₂, m₃, m₄, m₅, hl, hc, hj, hr, ho, hn⟩ := h
    obtain ⟨kl, kr, rfl⟩ := k
    have e₅ : S.Extends exact Ψ m₅ b (.value :: σ) := .straight hn (.inl rfl) (ρ := _) rfl hτ
    refine e₅.seq fun Φ₅ g₅ s₅ => ?_
    have x₅ := hexit.congr g₅ e₅.le
    have e₄ : S.Extends exact Φ₅ m₄ m₅ (.value :: .value :: σ) :=
      .operation ho (ρ := σ) rfl fun _ => s₅
    refine e₄.seq fun Φ₄ g₄ s₄ => ?_
    have x₄ := x₅.congr g₄ e₄.le
    have e₃ := hr.shaped kr x₄ s₄
    refine e₃.seq fun Φ₃ g₃ s₃ => ?_
    have x₃ := x₄.congr g₃ e₃.le
    have e₂ : S.Extends exact Φ₃ m₂ m₃ (.value :: .value :: σ) := by
      refine .popForward hj (by cases both <;> simp) (Nat.le_trans e₃.le e₄.le) s₃ ?_ rfl
      rw [g₃ _ e₄.le, g₄ _ (Nat.le_refl _), s₅]
    refine e₂.seq fun Φ₂ g₂ s₂ => ?_
    have x₂ := x₃.congr g₂ e₂.le
    have e₁ : S.Extends exact Φ₂ m₁ m₂ (.value :: σ) := .straight hc (.inl rfl) (ρ := σ) rfl s₂
    exact e₁.seq fun Φ₁ g₁ s₁ => hl.shaped kl (x₂.congr g₁ e₁.le) s₁
  | .switch subject arms default, S, a, b, exact, exit, σ, τ, Ψ, h, k, hexit, hτ => by
    obtain ⟨m₁, m₂, m₃, m₄, m₅, m₆, targets, hp, ht, hj, hb, hd, hw, hq⟩ := h
    obtain ⟨kp, ka, kd, rfl⟩ := k
    have e₆ : S.Extends exact Ψ m₆ b (.value :: .value :: σ) := .popTop hq (by rw [hτ])
    refine e₆.seq fun Φ₆ g₆ s₆ => ?_
    have x₆ := hexit.congr g₆ e₆.le
    have e₅ : S.Extends exact Φ₆ m₅ m₆ (.value :: .value :: σ) :=
      .straight hw (.inl rfl) (ρ := σ) rfl s₆
    refine e₅.seq fun Φ₅ g₅ s₅ => ?_
    have x₅ := x₆.congr g₅ e₅.le
    have e₄ : S.Extends exact Φ₅ m₄ m₅ (.value :: σ) :=
      (hd.shaped kd x₅.hold s₅).of_code rfl rfl rfl
    refine e₄.seq fun Φ₄ g₄ s₄ => ?_
    have x₄ := x₅.congr g₄ e₄.le
    -- the bodies before the tests: a test can only be typed when it is known where it leads
    obtain ⟨Φ₃, g₃, s₃, hs₃⟩ := hb.shaped ht ka x₄.hold ((g₄ _ (Nat.le_refl _)).trans s₅) e₄.le
    refine .after g₃ (m := m₃) ⟨hs₃.walk, hs₃.functions⟩ ?_
    have l₃ := hs₃.walk.le
    have x₃ := x₄.congr g₃ l₃
    have e₂ : S.Extends exact Φ₃ m₂ m₃ (.value :: σ) :=
      .forward hj l₃ (.of_eq (((g₃ _ (Nat.le_refl _)).trans s₄).symm))
    refine e₂.seq fun Φ₂ g₂ s₂ => ?_
    have x₂ := x₃.congr g₂ e₂.le
    have e₁ : S.Extends exact Φ₂ m₁ m₂ (.value :: σ) := by
      refine ht.shaped ka x₂ s₂ fun x hx => ?_
      obtain ⟨hx, hle⟩ := s₃ x hx
      exact ⟨(g₂ x hle).trans hx, Nat.le_trans e₂.le hle⟩
    exact e₁.seq fun Φ₁ g₁ s₁ => hp.shaped kp (x₂.congr g₁ e₁.le) s₁
  | .block body, S, a, b, exact, exit, σ, τ, Ψ, ⟨inner, t, _, h⟩, k, hexit, hτ =>
    .withTable ((Plan.Laid.shaped (p := body) h k hexit hτ).of_code rfl rfl rfl)
  | .loop tested condition body post, S, a, b, exact, exit, σ, τ, Ψ, h, k, hexit, hτ => by
    obtain ⟨m₁, m₂, m₃, m₄, m₅, m₆, hc, hx, hb, hq, hp, hk, hn⟩ := h
    obtain ⟨kc, kb, kp, hστ⟩ := k
    have e₆ : S.Extends exact Ψ m₆ b σ := .straight hn (.inl rfl) (ρ := σ) rfl (hτ.trans hστ)
    refine e₆.seq fun Φ₆ g₆ s₆ => ?_
    have x₆ := hexit.congr g₆ e₆.le
    -- the shape at the start of the loop, to which the last jump leads, is chosen last
    refine .back hk fun Φ₅ g₅ s₅ => ?_
    have l₅ : m₅.offset ≤ m₆.offset := Nat.le_of_lt (Back.offset_lt hk)
    have x₅ := x₆.congr g₅ l₅
    have e₄ := hp.shaped kp x₅ s₅
    refine e₄.seq fun Φ₄ g₄ s₄ => ?_
    have x₄ := x₅.congr g₄ e₄.le
    have e₃ : S.Extends exact Φ₄ m₃ m₄ (.value :: σ) := .popTop hq (by rw [s₄])
    refine e₃.seq fun Φ₃ g₃ s₃ => ?_
    have x₃ := x₄.congr g₃ e₃.le
    have exit₃ : Φ₃ m₆.offset = σ := by
      rw [g₃ _ (Nat.le_trans e₄.le l₅), g₄ _ l₅, g₅ _ (Nat.le_refl _), s₆]
    have e₂ : S.Extends exact Φ₃ m₂ m₃ σ := by
      refine (hb.shaped kb (.inLoop exit₃ ?_ ?_ e₃.le) s₃).of_code rfl rfl rfl
      · rw [g₃ _ (Nat.le_refl _), s₄]
      · exact Nat.le_trans e₃.le (Nat.le_trans e₄.le l₅)
    refine e₂.seq fun Φ₂ g₂ s₂ => ?_
    have x₂ := x₃.congr g₂ e₂.le
    have l₂ := Nat.le_trans e₃.le (Nat.le_trans e₄.le l₅)
    have e₁ : S.Extends exact Φ₂ m₁ m₂ (if tested then .value :: σ else σ) :=
      .exitIf hx (Nat.le_trans e₂.le l₂) s₂ ((g₂ _ l₂).trans exit₃)
    exact e₁.seq fun Φ₁ g₁ s₁ => hc.shaped kc (x₂.congr g₁ e₁.le) s₁
  | .iterate names bind body, S, a, b, exact, exit, σ, τ, Ψ, h, k, hexit, hτ => by
    obtain ⟨m₁, m₂, m₃, m₄, m₅, m₆, hx, hi, hb, hq, hk, hp, hn⟩ := h
    obtain ⟨hnames, rfl, ki, kb⟩ := k
    have e₆ : S.Extends exact Ψ m₆ b τ := .straight hn (.inl rfl) (ρ := τ) rfl hτ
    refine e₆.seq fun Φ₆ g₆ s₆ => ?_
    have x₆ := hexit.congr g₆ e₆.le
    have e₅ : S.Extends exact Φ₆ m₅ m₆ (.iterator :: τ) := .popTop hp (by rw [s₆])
    refine e₅.seq fun Φ₅ g₅ s₅ => ?_
    have x₅ := x₆.congr g₅ e₅.le
    -- the shape at the start of the loop, to which the last jump leads, is chosen last
    refine .back hk fun Φ₄ g₄ s₄ => ?_
    have l₄ : m₄.offset ≤ m₅.offset := Nat.le_of_lt (Back.offset_lt hk)
    have x₄ := x₅.congr g₄ l₄
    have e₃ : S.Extends exact Φ₄ m₃ m₄ (.value :: .iterator :: τ) := .popTop hq (by rw [s₄])
    refine e₃.seq fun Φ₃ g₃ s₃ => ?_
    have x₃ := x₄.congr g₃ e₃.le
    have e₂ : S.Extends exact Φ₃ m₂ m₃ (.iterator :: τ) := by
      refine (hb.shaped kb (.inLoop ?_ ?_ ?_ e₃.le) s₃).of_code rfl rfl rfl
      · rw [g₃ _ l₄, g₄ _ (Nat.le_refl _), s₅]
      · rw [g₃ _ (Nat.le_refl _), s₄]
      · exact Nat.le_trans e₃.le l₄
    refine e₂.seq fun Φ₂ g₂ s₂ => ?_
    have x₂ := x₃.congr g₂ e₂.le
    have e₁ := hi.shaped ki x₂ s₂
    refine e₁.seq fun Φ₁ g₁ s₁ => ?_
    have l₃ := Nat.le_trans e₃.le (Nat.le_trans l₄ e₅.le)
    refine .advance hx hnames (Nat.le_trans e₁.le (Nat.le_trans e₂.le l₃)) ?_ s₁
    rw [g₁ _ (Nat.le_trans e₂.le l₃), g₂ _ l₃, g₃ _ (Nat.le_trans l₄ e₅.le), g₄ _ e₅.le,
      g₅ _ (Nat.le_refl _), s₆]
  | .func f body, S, a, b, exact, exit, σ, τ, Ψ, h, k, hexit, hτ => by
    obtain ⟨-, -, inner, t, -, block, opened, -, code, m, n, -, -, hsize, -, hb, hret, hfun, -,
      hi⟩ := h
    obtain ⟨kb, -, rfl⟩ := k
    -- the body has shapes of its own, which start empty and end with the value to return
    obtain ⟨Φ, hg, hstart, hs⟩ := hb.shaped (Ψ := fun _ => [.value]) kb (.function rfl) rfl
    obtain ⟨Φ', hg', hstart', hs'⟩ : S.Extends exact _ _ _ _ := .instantiates hi hτ
    refine ⟨Φ', hg', hstart', hs'.walk, fun j hj hj' => ?_⟩
    rcases Nat.lt_trichotomy j m.count with hlt | rfl | hlt
    · exact hs.functions j hj hlt
    · refine ⟨_, hfun, Φ, ?_, hstart, nofun⟩
      have walk : code.Walks (Instruction.Fits exact Φ) 0 m.offset :=
        hs.walk.mono fun _ _ _ _ hi => hi.1
      show code.Walks _ 0 code.size
      rw [hsize]
      split at hret
      · rwa [hret]
      · refine walk.trans (At.walks (S := { S with code }) hret fun _ => ⟨[], ?_⟩)
        exact hg _ (Nat.le_refl _)
    · exact hs'.functions j hlt hj'

/-- The tests of all cases have the shape of the subject, which their bodies expect. -/
theorem Arms.TestsLaid.shaped : ∀ {c : Arms} {S : Site} {targets : List Nat} {a b : Point}
    {exact : Bool} {exit : Option Shape} {σ : Shape} {Ψ : Nat → Shape}, c.TestsLaid S targets a b →
    c.Shapes exact exit σ → S.Exiting Ψ exit b.offset → Ψ b.offset = .value :: σ →
    (∀ x ∈ targets, Ψ x = .value :: σ ∧ b.offset ≤ x) → S.Extends exact Ψ a b (.value :: σ)
  | .nil, _, _, _, _, _, _, _, _, ⟨_, h⟩, _, _, hτ, _ => .of_eq h hτ
  | .arm tests body rest, S, _, a, b, exact, exit, σ, Ψ, h, k, hexit, hτ, ht => by
    obtain ⟨x, others, m, rfl, h₁, h₂⟩ := h
    obtain ⟨k₁, -, k₂⟩ := k
    have e₂ := h₂.shaped k₂ hexit hτ fun y hy => ht y (List.mem_cons_of_mem _ hy)
    refine e₂.seq fun Φ g s => ?_
    obtain ⟨hx, hle⟩ := ht x (List.mem_cons_self ..)
    exact h₁.shaped k₁ (hexit.congr g e₂.le) s ((g x hle).trans hx) (Nat.le_trans e₂.le hle)

/-- The tests of a case have the shape of the subject, which its body expects. -/
theorem Tests.Laid.shaped : ∀ {t : Tests} {S : Site} {x : Nat} {a b : Point}
    {exact : Bool} {exit : Option Shape} {σ : Shape} {Ψ : Nat → Shape}, t.Laid S x a b →
    t.Shapes exact exit σ → S.Exiting Ψ exit b.offset → Ψ b.offset = .value :: σ →
    Ψ x = .value :: σ → b.offset ≤ x → S.Extends exact Ψ a b (.value :: σ)
  | .nil, _, _, _, _, _, _, _, _, h, _, _, hτ, _, _ => .of_eq h hτ
  | .test value rest, S, x, a, b, exact, exit, σ, Ψ, h, k, hexit, hτ, hx, hle => by
    obtain ⟨m₁, m₂, m₃, m₄, hc, hv, he, hj, hr⟩ := h
    obtain ⟨kv, kr⟩ := k
    have e₄ := hr.shaped kr hexit hτ hx hle
    refine e₄.seq fun Φ₄ g₄ s₄ => ?_
    have x₄ := hexit.congr g₄ e₄.le
    have e₃ : S.Extends exact Φ₄ m₃ m₄ (.value :: .value :: σ) :=
      .popForward hj (.inr rfl) (Nat.le_trans e₄.le hle) s₄ ((g₄ x hle).trans hx) rfl
    refine e₃.seq fun Φ₃ g₃ s₃ => ?_
    have x₃ := x₄.congr g₃ e₃.le
    have e₂ : S.Extends exact Φ₃ m₂ m₃ (.value :: .value :: .value :: σ) :=
      .straight he (.inl rfl) (ρ := .value :: σ) rfl s₃
    refine e₂.seq fun Φ₂ g₂ s₂ => ?_
    have x₂ := x₃.congr g₂ e₂.le
    have e₁ := hv.shaped kv x₂ s₂
    exact e₁.seq fun Φ₁ g₁ s₁ => .straight hc (.inl rfl) (ρ := σ) rfl s₁

/-- The bodies of all cases start in the shape of the subject, and end with one more value. -/
theorem Arms.BodiesLaid.shaped : ∀ {c : Arms} {S S' : Site} {targets : List Nat} {done : Nat}
    {a b a' b' : Point} {exact : Bool} {exit : Option Shape} {σ : Shape} {Ψ : Nat → Shape},
    c.BodiesLaid S targets done a b → c.TestsLaid S' targets a' b' → c.Shapes exact exit σ →
    S.Exiting Ψ (exit.map (.value :: ·)) b.offset → Ψ done = .value :: .value :: σ →
    b.offset ≤ done →
    ∃ Φ, AgreeFrom b.offset Φ Ψ ∧ (∀ x ∈ targets, Φ x = .value :: σ ∧ a.offset ≤ x) ∧
      S.Shaped exact Φ a.offset a b
  | .nil, S, _, _, _, a, b, _, _, exact, _, _, Ψ, h, ⟨ht, _⟩, _, _, _, _ => by
    obtain rfl : b = a := h
    obtain ⟨Φ, hg, -, hs⟩ : S.Extends exact Ψ b b _ := .refl rfl
    refine ⟨Φ, hg, fun x hx => ?_, hs⟩
    rw [ht] at hx
    cases hx
  | .arm tests body rest, S, S', targets, done, a, b, a', b', exact, exit, σ, Ψ, h,
    ht, k, hexit, hd,
      hle => by
    obtain ⟨others, m₁, m₂, rfl, hb, hj, hr⟩ := h
    obtain ⟨_, _, _, heq, -, ht⟩ := ht
    obtain ⟨-, rfl⟩ := List.cons.inj heq
    obtain ⟨-, kb, kr⟩ := k
    obtain ⟨Φ₂, g₂, s₂, h₂⟩ := hr.shaped ht kr hexit hd hle
    have l₂ := h₂.walk.le
    have x₂ := hexit.congr g₂ l₂
    have e₁ : S.Extends exact Φ₂ a m₂ (.value :: σ) := by
      have e₁ : S.Extends exact Φ₂ m₁ m₂ (.value :: .value :: σ) :=
        .forward hj (Nat.le_trans l₂ hle) (.of_eq ((g₂ _ hle).trans hd).symm)
      exact e₁.seq fun Φ₁ g₁ s₁ => hb.shaped kb (x₂.congr g₁ e₁.le) s₁
    obtain ⟨Φ₁, g₁, s₁, h₁⟩ := e₁
    have l₁ := h₁.walk.le
    refine ⟨Φ₁, fun q hq => (g₁ q (Nat.le_trans l₂ hq)).trans (g₂ q hq), fun x hx => ?_,
      h₁.trans ((h₂.congr g₁ (Nat.le_refl _)).below l₁)⟩
    rcases List.mem_cons.mp hx with rfl | hx
    · exact ⟨s₁, Nat.le_refl _⟩
    · obtain ⟨hx, hlx⟩ := s₂ x hx
      exact ⟨(g₁ x hlx).trans hx, Nat.le_trans l₁ hlx⟩

end

end ScriptEngine
