import ScriptEngine.Value.Arithmetic
import Mathlib.Tactic.Ring

/-!
# Arithmetic modulo a power of two

The operators on integers compute what they would on unbounded integers, reduced to 64 bits, as long
as the exact result is an integer at all.

## Main definitions

* `ScriptEngine.Integer.ideal?`: the exact result of an operator;
* `ScriptEngine.Integer.Laws`: what the operators do with two integers.

## Main results

* `ScriptEngine.Integer.pow_eq`: powers are exact;
* `ScriptEngine.Integer.laws`: all operators are.
-/

namespace ScriptEngine

namespace Integer

/-- **The exact result of an operator**, if it is an integer and the operator computes it on
integers. -/
def ideal? (op : BinaryOperator) (a b : Int) : Option Int :=
  match op with
  | .add => some (a + b)
  | .subtract => some (a - b)
  | .multiply => some (a * b)
  | .divide => if b = 0 then none else some (a.tdiv b)
  | .modulo => if b = 0 then none else some (a.tmod b)
  | .power => if 0 ≤ b ∧ b < 2 ^ 32 then some (a ^ b.toNat) else none
  | .shiftLeft => if 0 ≤ b ∧ b < 64 then some (a * 2 ^ b.toNat) else none
  | .shiftRight => if 0 ≤ b ∧ b < 64 then some (a / 2 ^ b.toNat) else none
  | _ => none

/-! ### Powers -/

theorem powAux_ofInt : ∀ (bits : Nat) (acc base : Int) (exponent : Nat), exponent < 2 ^ bits →
    powAux bits (.ofInt acc) (.ofInt base) exponent = .ofInt (acc * base ^ exponent)
  | 0, acc, base, exponent, h => by
    obtain rfl : exponent = 0 := by omega
    simp [powAux]
  | bits + 1, acc, base, exponent, h => by
    unfold powAux
    by_cases hzero : exponent = 0
    · simp [hzero]
    · have hhalf : exponent / 2 < 2 ^ bits := by
        rw [Nat.pow_succ] at h
        omega
      -- the exponent is twice its half, and one more if it is odd
      have hsplit : base ^ exponent = base ^ (exponent % 2) * (base * base) ^ (exponent / 2) := by
        rw [← pow_two, ← pow_mul, ← pow_add, Nat.mod_add_div]
      rw [if_neg hzero, ← Int64.ofInt_mul base base]
      rcases Nat.mod_two_eq_zero_or_one exponent with heven | hodd
      · rw [if_neg (by omega), powAux_ofInt bits acc _ _ hhalf, hsplit, heven]
        simp
      · rw [if_pos hodd, ← Int64.ofInt_mul, powAux_ofInt bits _ _ _ hhalf, hsplit, hodd]
        congr 1
        ring

/-- **Powers are exact** up to 64 bits. -/
theorem pow_eq (a : Int64) (n : Nat) : pow a n = .ofInt (a.toInt ^ n) := by
  have h := powAux_ofInt (n.log2 + 1) 1 a.toInt n Nat.lt_log2_self
  rw [Int64.ofInt_toInt, Int.one_mul] at h
  exact h

/-! ### Shifts -/

/-- A shift of a word is one by as many bits as the integer says. -/
theorem toNat_smod {b : Int64} (h0 : 0 ≤ b.toInt) (h1 : b.toInt < 64) :
    (b.toBitVec.smod 64).toNat = b.toInt.toNat := by
  have hmod : (b.toBitVec.smod 64).toInt = b.toInt := by
    rw [BitVec.toInt_smod]
    exact Int.fmod_eq_of_lt h0 h1
  have hnat := BitVec.toInt_eq_toNat_cond (b.toBitVec.smod 64)
  have hlt := (b.toBitVec.smod 64).isLt
  rw [hmod] at hnat
  split at hnat <;> omega

theorem shiftLeft_eq (a : Int64) {b : Int64} (h0 : 0 ≤ b.toInt) (h1 : b.toInt < 64) :
    a <<< b = .ofInt (a.toInt * 2 ^ b.toInt.toNat) := by
  have hleft : (a <<< b).toInt = ((a.toBitVec.toNat : Int) * 2 ^ b.toInt.toNat).bmod (2 ^ 64) := by
    show (a <<< b).toBitVec.toInt = _
    rw [Int64.toBitVec_shiftLeft, BitVec.shiftLeft_eq', toNat_smod h0 h1, BitVec.toInt_shiftLeft,
      Nat.shiftLeft_eq]
    push_cast
    rfl
  have ha : a.toInt = (a.toBitVec.toNat : Int).bmod (2 ^ 64) := BitVec.toInt_eq_toNat_bmod _
  rw [← Int64.toInt_inj, hleft, Int64.toInt_ofInt, ha]
  exact (Int.bmod_mul_bmod ..).symm

theorem shiftRight_eq (a : Int64) {b : Int64} (h0 : 0 ≤ b.toInt) (h1 : b.toInt < 64) :
    a >>> b = .ofInt (a.toInt / 2 ^ b.toInt.toNat) := by
  have hright : (a >>> b).toInt = a.toInt / 2 ^ b.toInt.toNat := by
    show (a >>> b).toBitVec.toInt = _
    rw [Int64.toBitVec_shiftRight, BitVec.sshiftRight_eq', toNat_smod h0 h1,
      BitVec.toInt_sshiftRight, Int.shiftRight_eq_div_pow]
    push_cast
    rfl
  rw [← hright, Int64.ofInt_toInt]

/-! ### Operators -/

theorem toInt_eq_zero {b : Int64} : b.toInt = 0 ↔ b = 0 := by
  rw [← Int64.toInt_zero, Int64.toInt_inj]

/-- The exponents of powers of integers. -/
theorem isExponent_iff {b : Int64} : 0 ≤ b ∧ b ≤ maxExponent ↔ 0 ≤ b.toInt ∧ b.toInt < 2 ^ 32 := by
  have hmax : maxExponent.toInt = 2 ^ 32 - 1 := by decide
  rw [Int64.le_iff_toInt_le, Int64.le_iff_toInt_le, Int64.toInt_zero, hmax]
  omega

theorem shift_eq (a b : Int64) (move : Int64 → Int64 → Int64) :
    shift a b move = if 0 ≤ b.toInt ∧ b.toInt < 64 then .int (move a b)
      else if 0 ≤ b.toInt ∧ b.toInt < 2 ^ 32 then .fault .shiftTooLarge
      else .fault .negativeShift := by
  have hmax : maxExponent.toInt = 2 ^ 32 - 1 := by decide
  have h64 : (64 : Int64).toInt = 64 := by decide
  unfold shift
  simp only [Int64.lt_iff_toInt_lt, Int64.le_iff_toInt_le, Int64.toInt_zero, hmax, h64]
  split
  · rw [if_neg (by omega), if_neg (by omega)]
  · split
    · rw [if_neg (by omega), if_pos (by omega)]
    · rw [if_pos (by omega)]

/-- **An operator computes its exact result**, up to 64 bits. -/
theorem operate?_eq {op : BinaryOperator} {a b : Int64} {z : Int}
    (h : ideal? op a.toInt b.toInt = some z) : operate? op a b = some (.int (.ofInt z)) := by
  unfold ideal? at h
  unfold operate?
  cases op with
  | add =>
    obtain rfl := Option.some.inj h
    simp only [Int64.ofInt_add, Int64.ofInt_toInt]
  | subtract =>
    obtain rfl := Option.some.inj h
    simp only [Int64.ofInt_sub, Int64.ofInt_toInt]
  | multiply =>
    obtain rfl := Option.some.inj h
    simp only [Int64.ofInt_mul, Int64.ofInt_toInt]
  | divide =>
    obtain ⟨hb, hz⟩ := Option.ite_none_left_eq_some.mp h
    obtain rfl := Option.some.inj hz
    have hquotient := Int64.ofInt_tdiv a.minValue_le_toInt a.toInt_le b.minValue_le_toInt b.toInt_le
    rw [Int64.ofInt_toInt, Int64.ofInt_toInt] at hquotient
    simp only [if_neg (mt toInt_eq_zero.mpr hb), hquotient]
  | modulo =>
    obtain ⟨hb, hz⟩ := Option.ite_none_left_eq_some.mp h
    obtain rfl := Option.some.inj hz
    have hremainder :=
      Int64.ofInt_tmod a.minValue_le_toInt a.toInt_le b.minValue_le_toInt b.toInt_le
    rw [Int64.ofInt_toInt, Int64.ofInt_toInt] at hremainder
    simp only [if_neg (mt toInt_eq_zero.mpr hb), hremainder]
  | power =>
    obtain ⟨hb, hz⟩ := Option.ite_none_right_eq_some.mp h
    obtain rfl := Option.some.inj hz
    simp only [if_pos (isExponent_iff.mpr hb), pow_eq]
    rfl
  | shiftLeft =>
    obtain ⟨hb, hz⟩ := Option.ite_none_right_eq_some.mp h
    obtain rfl := Option.some.inj hz
    simp only [shift_eq, if_pos hb, shiftLeft_eq a hb.1 hb.2]
  | shiftRight =>
    obtain ⟨hb, hz⟩ := Option.ite_none_right_eq_some.mp h
    obtain rfl := Option.some.inj hz
    simp only [shift_eq, if_pos hb, shiftRight_eq a hb.1 hb.2]
  | _ => cases h

/-- Two integers need no new object. -/
theorem operate_int (heap : Heap) (op : BinaryOperator) (a b : Int64) :
    ∃ v, heap.operate op (.int a) (.int b) = ((operate? op a b).getD v, heap) := by
  cases op <;> exact ⟨_, rfl⟩

theorem operate_eq {op : BinaryOperator} {a b : Int64} {z : Int} (heap : Heap)
    (h : ideal? op a.toInt b.toInt = some z) :
    heap.operate op (.int a) (.int b) = (.int (.ofInt z), heap) := by
  obtain ⟨v, hv⟩ := operate_int heap op a b
  rw [hv, operate?_eq h]
  rfl

/-- A remainder is zero or has the sign of what is divided. -/
theorem tmod_eq_zero_or_sign (a b : Int) : a.tmod b = 0 ∨ (a.tmod b).sign = a.sign := by
  rcases Int.lt_trichotomy a 0 with ha | rfl | ha
  · have hneg := Int.tmod_nonneg b (show 0 ≤ -a by omega)
    rw [Int.neg_tmod] at hneg
    rcases Int.lt_or_eq_of_le hneg with hlt | heq
    · exact .inr (by rw [Int.sign_eq_neg_one_of_neg (by omega), Int.sign_eq_neg_one_of_neg ha])
    · exact .inl (by omega)
  · exact .inl (Int.zero_tmod b)
  · rcases Int.lt_or_eq_of_le (Int.tmod_nonneg b (Int.le_of_lt ha)) with hlt | heq
    · exact .inr (by rw [Int.sign_eq_one_of_pos hlt, Int.sign_eq_one_of_pos ha])
    · exact .inl heq.symm

/-- **What the operators do with two integers**: they compute the exact result up to 64 bits, or
fail where there is none. -/
structure Laws (heap : Heap) (a b : Int64) : Prop where
  add : heap.operate .add (.int a) (.int b) = (.int (.ofInt (a.toInt + b.toInt)), heap)
  subtract : heap.operate .subtract (.int a) (.int b) = (.int (.ofInt (a.toInt - b.toInt)), heap)
  multiply : heap.operate .multiply (.int a) (.int b) = (.int (.ofInt (a.toInt * b.toInt)), heap)
  negate : heap.negate (.int a) = .int (.ofInt (-a.toInt))
  power (h0 : 0 ≤ b.toInt) (h1 : b.toInt < 2 ^ 32) :
    heap.operate .power (.int a) (.int b) = (.int (.ofInt (a.toInt ^ b.toInt.toNat)), heap)
  /-- Other powers are computed on floats. -/
  powerOfFloats (hb : b.toInt < 0 ∨ 2 ^ 32 ≤ b.toInt) :
    heap.operate .power (.int a) (.int b) =
      (.float ((Double.ofInt a).pow (Double.ofInt b)), heap)
  divideByZero (hb : b = 0) :
    heap.operate .divide (.int a) (.int b) = (.fault .divisionByZero, heap) ∧
      heap.operate .modulo (.int a) (.int b) = (.fault .divisionByZero, heap)
  divide (hb : b ≠ 0) : ∃ q r : Int64,
    heap.operate .divide (.int a) (.int b) = (.int q, heap) ∧
      heap.operate .modulo (.int a) (.int b) = (.int r, heap) ∧
      Int64.ofInt (q.toInt * b.toInt + r.toInt) = a ∧ r.toInt.natAbs < b.toInt.natAbs ∧
      (r.toInt = 0 ∨ r.toInt.sign = a.toInt.sign)
  shift (h0 : 0 ≤ b.toInt) (h1 : b.toInt < 64) :
    heap.operate .shiftLeft (.int a) (.int b) =
        (.int (.ofInt (a.toInt * 2 ^ b.toInt.toNat)), heap) ∧
      heap.operate .shiftRight (.int a) (.int b) =
        (.int (.ofInt (a.toInt / 2 ^ b.toInt.toNat)), heap)
  shiftTooFar (hb : b.toInt < 0 ∨ 64 ≤ b.toInt) : ∃ fault : Fault,
    heap.operate .shiftLeft (.int a) (.int b) = (.fault fault, heap) ∧
      heap.operate .shiftRight (.int a) (.int b) = (.fault fault, heap)

/-- **The operators on integers are exact** up to 64 bits. -/
theorem laws (heap : Heap) (a b : Int64) : Laws heap a b where
  add := operate_eq heap rfl
  subtract := operate_eq heap rfl
  multiply := operate_eq heap rfl
  negate := by
    rw [Int64.ofInt_neg, Int64.ofInt_toInt]
    rfl
  power h0 h1 := operate_eq heap (if_pos ⟨h0, h1⟩)
  powerOfFloats hb := by
    have hexponent : ¬(0 ≤ b ∧ b ≤ maxExponent) := by
      rw [isExponent_iff]
      omega
    have hop : operate? .power a b = some (.float ((Double.ofInt a).pow (Double.ofInt b))) :=
      congrArg some (if_neg hexponent)
    obtain ⟨v, hv⟩ := operate_int heap .power a b
    rw [hv, hop]
    rfl
  divideByZero hb := by
    subst hb
    exact ⟨rfl, rfl⟩
  divide hb := by
    have hb' : b.toInt ≠ 0 := mt toInt_eq_zero.mp hb
    have hr : (Int64.ofInt (a.toInt.tmod b.toInt)).toInt = a.toInt.tmod b.toInt := by
      rw [← Int64.toInt_mod, Int64.ofInt_toInt]
    refine ⟨_, _, operate_eq heap (if_neg hb'), operate_eq heap (if_neg hb'), ?_, ?_, ?_⟩
    · rw [Int64.ofInt_add, Int64.ofInt_mul, Int64.ofInt_toInt (Int64.ofInt _), ← Int64.ofInt_mul,
        hr, ← Int64.ofInt_add, Int.tdiv_mul_add_tmod, Int64.ofInt_toInt]
    · rw [hr, Int.natAbs_tmod]
      exact Nat.mod_lt _ (Int.natAbs_pos.mpr hb')
    · rw [hr]
      exact tmod_eq_zero_or_sign a.toInt b.toInt
  shift h0 h1 := ⟨operate_eq heap (if_pos ⟨h0, h1⟩), operate_eq heap (if_pos ⟨h0, h1⟩)⟩
  shiftTooFar hb := by
    let fault : Fault := if 0 ≤ b.toInt ∧ b.toInt < 2 ^ 32 then .shiftTooLarge else .negativeShift
    have hshift : ∀ move, some (shift a b move) = some (.fault fault) := fun move => by
      rw [shift_eq, if_neg (by omega), apply_ite Value.fault]
    obtain ⟨v, hv⟩ := operate_int heap .shiftLeft a b
    obtain ⟨v', hv'⟩ := operate_int heap .shiftRight a b
    refine ⟨fault, ?_, ?_⟩
    · rw [hv, show operate? .shiftLeft a b = _ from hshift _]
      rfl
    · rw [hv', show operate? .shiftRight a b = _ from hshift _]
      rfl

end Integer

end ScriptEngine
