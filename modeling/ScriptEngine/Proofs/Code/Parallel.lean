import ScriptEngine.Proofs.Code.Walk

/-!
# Two codes side by side

Code that was emitted twice, behind other code or with other slots for globals: the same
instructions follow each other on both sides, however far apart.

## Main definitions

* `ScriptEngine.Code.Extends`: a code that goes on where another one ends;
* `ScriptEngine.Instruction.renumber`: an instruction with another slot for its global;
* `ScriptEngine.Code.Parallel`: the same instructions on both sides, up to the slots of globals;
* `ScriptEngine.Code.Pending`: a jump on both sides that waits for its target.

## Main results

* `ScriptEngine.Code.Extends.truncate`: what was appended can be taken back;
* `ScriptEngine.Code.Pending.patch`: jumps that are completed alike stay the same;
* `ScriptEngine.Code.Parallel.decode`: what the two codes are decoded to.
-/

namespace ScriptEngine

namespace Code

/-! ### Code that goes on -/

/-- **A code that goes on where another one ends**, with more words, constants and names. -/
structure Extends (old new : Code) : Prop where
  words : old.words.toList <+: new.words.toList
  constants : old.constants.toList <+: new.constants.toList
  names : old.names.toList <+: new.names.toList
  rest : new = { old with words := new.words, constants := new.constants, names := new.names }

namespace Extends

variable {old c : Code}

theorem refl (c : Code) : c.Extends c :=
  ⟨List.prefix_rfl, List.prefix_rfl, List.prefix_rfl, rfl⟩

theorem emit (h : old.Extends c) (op : Opcode) (operands : List Word) :
    old.Extends (c.emit op operands) := by
  refine ⟨?_, h.constants, h.names, ?_⟩
  · unfold Code.emit
    rw [Array.toList_append, Array.toList_push, List.append_assoc]
    exact h.words.trans (List.prefix_append ..)
  · unfold Code.emit
    rw [h.rest]

/-- A word behind the old ones is replaced. -/
theorem patch (h : old.Extends c) {position : Nat} (hp : old.size ≤ position) (word : Word) :
    old.Extends (c.patch position word) := by
  refine ⟨?_, h.constants, h.names, ?_⟩
  · obtain ⟨ws, hws⟩ := h.words
    have hlen : old.words.toList.length ≤ position := by
      rw [Array.length_toList]
      exact hp
    unfold Code.patch
    rw [Array.toList_setIfInBounds, ← hws, List.set_append_right _ _ hlen]
    exact List.prefix_append ..
  · unfold Code.patch
    rw [h.rest]

theorem addConstant (h : old.Extends c) {v : Value} {index : Word} {c' : Code}
    (ha : c.addConstant? v = some (index, c')) : old.Extends c' := by
  unfold Code.addConstant? at ha
  split at ha
  · cases ha
    exact h
  · split at ha
    · cases ha
      refine ⟨h.words, ?_, h.names, ?_⟩
      · rw [Array.toList_push]
        exact h.constants.trans (List.prefix_append ..)
      · rw [h.rest]
    · cases ha

theorem addName (h : old.Extends c) {name : String} {index : Word} {c' : Code}
    (ha : c.addName? name = some (index, c')) : old.Extends c' := by
  unfold Code.addName? at ha
  split at ha
  · cases ha
    exact h
  · split at ha
    · cases ha
      refine ⟨h.words, h.constants, ?_, ?_⟩
      · rw [Array.toList_push]
        exact h.names.trans (List.prefix_append ..)
      · rw [h.rest]
    · cases ha

theorem take_of_prefix {α : Type} {a b : Array α} (h : a.toList <+: b.toList) :
    b.take a.size = a := by
  obtain ⟨rest, hr⟩ := h
  apply Array.toList_inj.mp
  unfold Array.take
  rw [Array.toList_extract, List.extract_eq_take_drop, List.drop_zero, ← hr, Nat.sub_zero,
    ← Array.length_toList, List.take_left]

/-- **Taking back** what was appended. -/
theorem truncate (h : old.Extends c) :
    c.truncate old.size old.constants.size old.names.size = old := by
  unfold Code.truncate
  rw [h.rest]
  simp only [Code.size, take_of_prefix h.words, take_of_prefix h.constants, take_of_prefix h.names]

end Extends

end Code

/-! ### The same instructions -/

/-- The instructions whose operand is the slot of a global. -/
def Opcode.namesGlobal (op : Opcode) : Bool :=
  op == .loadGlobal || op == .storeGlobal

/-- Operands with another slot for a global. -/
def Opcode.renumber (op : Opcode) (ρ : Word → Word) (operands : List Word) : List Word :=
  if op.namesGlobal then operands.map ρ else operands

/-- **An instruction with another slot** for its global, if it has one. -/
def Instruction.renumber (ρ : Word → Word) (i : Instruction) : Instruction :=
  { i with operands := i.op.renumber ρ i.operands }

/-- The same instruction somewhere else. -/
def Instruction.movedTo (i : Instruction) (offset : Nat) : Instruction :=
  { i with offset }

@[simp] theorem Opcode.length_renumber (op : Opcode) (ρ : Word → Word) (operands : List Word) :
    (op.renumber ρ operands).length = operands.length := by
  unfold renumber
  split
  · exact List.length_map ..
  · rfl

theorem Opcode.renumber_eq {op : Opcode} (h : op.namesGlobal = false) (ρ : Word → Word)
    (operands : List Word) : op.renumber ρ operands = operands := by
  unfold renumber
  rw [h]
  rfl

@[simp] theorem Instruction.length_renumber (ρ : Word → Word) (i : Instruction) :
    (i.renumber ρ).operands.length = i.operands.length :=
  i.op.length_renumber ρ i.operands

namespace Code

variable {ρ : Word → Word} {a b c d : Code} {k k' p p' q q' e e' : Nat}

/-- **Two codes side by side**: the same instructions follow each other from one pair of offsets to
another, up to the slots of globals. -/
inductive Parallel (ρ : Word → Word) (a b : Code) : Nat → Nat → Nat → Nat → Prop where
  | refl (p p' : Nat) : Parallel ρ a b p p' p p'
  | step {i : Instruction} {p p' q q' : Nat} (start : i.offset = p) (left : a.Has i)
    (right : b.Has ((i.renumber ρ).movedTo p'))
    (rest : Parallel ρ a b i.stop (p' + 1 + i.operands.length) q q') : Parallel ρ a b p p' q q'

namespace Parallel

/-- Both sides have the same length. -/
theorem shift (h : Parallel ρ a b p p' q q') : q + p' = q' + p := by
  induction h with
  | refl p p' => exact Nat.add_comm ..
  | step start left right rest ih =>
    unfold Instruction.stop at ih
    omega

theorem le (h : Parallel ρ a b p p' q q') : p ≤ q := by
  induction h with
  | refl p p' => exact Nat.le_refl p
  | step start left right rest ih =>
    rename_i i _ _ _ _
    have := Has.offset_lt_stop i
    omega

theorem trans (h : Parallel ρ a b p p' q q') (h' : Parallel ρ a b q q' e e') :
    Parallel ρ a b p p' e e' := by
  induction h with
  | refl p p' => exact h'
  | step start left right _ ih => exact .step start left right (ih h')

/-- A stretch that is not empty begins with an instruction. -/
theorem first (h : Parallel ρ a b p p' q q') (hlt : p < q) : ∃ i : Instruction, i.offset = p ∧
    a.Has i ∧ b.Has ((i.renumber ρ).movedTo p') ∧
      Parallel ρ a b i.stop (p' + 1 + i.operands.length) q q' := by
  cases h with
  | refl _ _ => exact absurd hlt (Nat.lt_irrefl _)
  | step start left right rest => exact ⟨_, start, left, right, rest⟩

/-- Of two stretches from the same offsets, the shorter one is the beginning of the other. -/
theorem split (h : Parallel ρ a b p p' q q') (h' : Parallel ρ a b p p' e e') (hqe : q ≤ e) :
    Parallel ρ a b q q' e e' := by
  induction h with
  | refl p p' => exact h'
  | step start left right rest ih =>
    rename_i i _ _ _ _
    cases h' with
    | refl _ _ =>
      have := rest.le
      have := Has.offset_lt_stop i
      omega
    | step start' left' right' rest' =>
      obtain rfl := left'.unique left (start'.trans start.symm)
      exact ih rest' hqe

/-- Where both stretches hold the same words as before. -/
theorem of_words (h : Parallel ρ a b p p' q q')
    (ha : ∀ x w, p ≤ x → x < q → a.words[x]? = some w → c.words[x]? = some w)
    (hb : ∀ x w, p' ≤ x → x < q' → b.words[x]? = some w → d.words[x]? = some w) :
    Parallel ρ c d p p' q q' := by
  induction h with
  | refl p p' => exact .refl p p'
  | step start left right rest ih =>
    rename_i i p p' q q'
    have hle := rest.le
    have hshift := rest.shift
    have hlt := Has.offset_lt_stop i
    unfold Instruction.stop at hle hshift hlt
    have hlen := i.length_renumber ρ
    refine .step start ⟨.of_getElem? fun x w hx => ?_, left.2⟩
      ⟨.of_getElem? fun x w hx => ?_, right.2⟩ (ih (fun x w hx => ?_) fun x w hx => ?_)
    · have hxl := (List.getElem?_eq_some_iff.mp hx).1
      rw [List.length_cons] at hxl
      exact ha _ w (by omega) (by omega) (left.1.getElem? hx)
    · have hxl := (List.getElem?_eq_some_iff.mp hx).1
      have hxl : x < (i.renumber ρ).operands.length + 1 := hxl
      exact hb _ w (Nat.le_add_right p' x) (by show p' + x < q'; omega) (right.1.getElem? hx)
    · exact ha x w (by unfold Instruction.stop at hx; omega)
    · exact hb x w (by omega)

end Parallel

/-- **A jump that waits for its target**, on both sides. -/
structure Pending (ρ : Word → Word) (k k' : Nat) (a b : Code) (p p' : Nat) : Prop where
  before : Parallel ρ a b k k' p p'
  jump : ∃ i : Instruction, i.offset = p ∧ a.Has i ∧ b.Has (i.movedTo p') ∧
    i.op.namesGlobal = false ∧ 0 < i.operands.length

/-- An instruction whose first operand is replaced. -/
theorem Has.patch {i : Instruction} (h : a.Has i) (hl : 0 < i.operands.length) (w : Word) :
    (a.patch (i.offset + 1) w).Has { i with operands := i.operands.set 0 w } := by
  refine ⟨.of_getElem? fun x v hx => ?_, by rw [List.length_set]; exact h.2⟩
  unfold Code.patch
  rw [Array.getElem?_setIfInBounds]
  by_cases hx1 : x = 1
  · subst hx1
    have hsize : i.offset + 1 < a.words.size := by
      have := h.stop_le
      unfold Instruction.stop Code.size at this
      omega
    rw [if_pos rfl, if_pos hsize]
    rw [List.getElem?_cons_succ, List.getElem?_set_self hl] at hx
    exact hx
  · rw [if_neg (by show ¬ i.offset + 1 = i.offset + x; omega)]
    refine h.1.getElem? ?_
    cases x with
    | zero => exact hx
    | succ x =>
      rw [List.getElem?_cons_succ] at hx ⊢
      rwa [List.getElem?_set_ne (by omega)] at hx

/-- A word elsewhere does not matter. -/
theorem words_patch {x position : Nat} (hx : x ≠ position) (w : Word) :
    (a.patch position w).words[x]? = a.words[x]? := by
  unfold Code.patch
  rw [Array.getElem?_setIfInBounds, if_neg (Ne.symm hx)]

namespace Pending

variable {r r' : Nat}

theorem shift (h : Pending ρ k k' a b p p') : p + k' = p' + k :=
  h.before.shift

theorem le (h : Pending ρ k k' a b p p') : k ≤ p :=
  h.before.le

theorem renumber_eq {i : Instruction} (h : i.op.namesGlobal = false) : i.renumber ρ = i := by
  unfold Instruction.renumber
  rw [Opcode.renumber_eq h]

theorem lt (h : Pending ρ k k' a b p p') : p < a.size := by
  obtain ⟨i, rfl, hi, -⟩ := h.jump
  exact hi.offset_lt

theorem lt' (h : Pending ρ k k' a b p p') : p' < b.size := by
  obtain ⟨i, -, -, hi, -⟩ := h.jump
  exact hi.offset_lt

/-- **Jumps that are completed alike** leave the codes side by side. -/
theorem patch (h : Pending ρ k k' a b p p') (w : Word) (hp : Parallel ρ a b k k' e e') :
    Parallel ρ (a.patch (p + 1) w) (b.patch (p' + 1) w) k k' e e' := by
  have hshift := h.shift
  have hshift' := hp.shift
  rcases Nat.lt_or_ge p e with hlt | hge
  · obtain ⟨i, rfl, hi, hi', hop, hl⟩ := h.jump
    have heq := renumber_eq (ρ := ρ) hop
    have hstart := h.before.of_words (c := a.patch (i.offset + 1) w) (d := b.patch (p' + 1) w)
      (fun x v _ hx hv => by rwa [words_patch (by omega)])
      fun x v _ hx hv => by rwa [words_patch (by omega)]
    obtain ⟨j, hj, left, -, rest⟩ := (h.before.split hp (Nat.le_of_lt hlt)).first hlt
    obtain rfl := left.unique hi hj
    have hend := rest.of_words (c := a.patch (j.offset + 1) w) (d := b.patch (p' + 1) w)
      (fun x v hx _ hv => by rwa [words_patch (by unfold Instruction.stop at hx; omega)])
      fun x v hx _ hv => by rwa [words_patch (by omega)]
    refine hstart.trans (.step (i := { j with operands := j.operands.set 0 w }) rfl
      (hi.patch hl w) ?_ ?_)
    · rw [renumber_eq (i := { j with operands := j.operands.set 0 w }) hop]
      exact hi'.patch hl w
    · unfold Instruction.stop at hend ⊢
      rwa [List.length_set]
  · exact hp.of_words (fun x v _ hx hv => by rwa [words_patch (by omega)])
      fun x v _ hx hv => by rwa [words_patch (by omega)]

/-- Other jumps go on waiting. -/
theorem stays (h : Pending ρ k k' a b p p') (w : Word) (hr : Pending ρ k k' a b r r') :
    Pending ρ k k' (a.patch (p + 1) w) (b.patch (p' + 1) w) r r' := by
  refine ⟨h.patch w hr.before, ?_⟩
  obtain ⟨j, rfl, hj, hj', hop, hl⟩ := hr.jump
  have hs := h.shift
  have hs' := hr.shift
  by_cases heq : j.offset = p
  · subst heq
    obtain rfl : r' = p' := by omega
    exact ⟨{ j with operands := j.operands.set 0 w }, rfl, hj.patch hl w, hj'.patch hl w, hop,
      by rwa [List.length_set]⟩
  -- the waiting jump does not lie in the other one
  obtain ⟨i, rfl, hi, -, -, hli⟩ := h.jump
  have apart : j.offset + j.operands.length < i.offset + 1 ∨ i.offset + 1 < j.offset := by
    rcases Nat.lt_or_ge i.offset j.offset with hlt | hge
    · obtain ⟨l, hl', left, -, rest⟩ := (h.before.split hr.before (Nat.le_of_lt hlt)).first hlt
      obtain rfl := left.unique hi hl'
      have := rest.le
      unfold Instruction.stop at this
      omega
    · have hlt : j.offset < i.offset := Nat.lt_of_le_of_ne hge heq
      obtain ⟨l, hl', left, -, rest⟩ := (hr.before.split h.before hge).first hlt
      obtain rfl := left.unique hj hl'
      have := rest.le
      unfold Instruction.stop at this
      omega
  refine ⟨j, rfl, ⟨.of_getElem? fun x v hx => ?_, hj.2⟩,
    ⟨.of_getElem? fun x v hx => ?_, hj'.2⟩, hop, hl⟩
  · have hxl := (List.getElem?_eq_some_iff.mp hx).1
    rw [List.length_cons] at hxl
    rw [words_patch (by omega)]
    exact hj.1.getElem? hx
  · have hxl := (List.getElem?_eq_some_iff.mp hx).1
    have hxl : x < j.operands.length + 1 := hxl
    have hv : b.words[r' + x]? = some v := hj'.1.getElem? hx
    show (b.patch (p' + 1) w).words[r' + x]? = some v
    rwa [words_patch (by omega)]

end Pending

/-! ### One more instruction -/

theorem words_emit_of_lt {x : Nat} (op : Opcode) (operands : List Word) (hx : x < a.size) :
    (a.emit op operands).words[x]? = a.words[x]? := by
  unfold Code.emit
  rw [Array.getElem?_append_left (by rw [Array.size_push]; exact Nat.lt_succ_of_lt hx),
    Array.getElem?_push_lt hx, Array.getElem?_eq_getElem hx]

theorem has_emit (a : Code) {op : Opcode} {operands : List Word}
    (hl : operands.length = op.operandCount) : (a.emit op operands).Has ⟨a.size, op, operands⟩ := by
  refine ⟨.of_getElem? fun x w hx => ?_, hl⟩
  unfold Code.emit Code.size
  cases x with
  | zero =>
    rw [Array.getElem?_append_left (by simp)]
    simpa using hx
  | succ x =>
    rw [Array.getElem?_append_right (by simp)]
    simpa [Nat.add_sub_cancel_left, show a.words.size + (x + 1) - (a.words.size + 1) = x by omega]
      using hx

namespace Parallel

/-- What was side by side stays so when words are appended. -/
theorem emit_before (h : Parallel ρ a b p p' q q') (hq : q ≤ a.size) (hq' : q' ≤ b.size)
    (op : Opcode) (operands : List Word) (op' : Opcode) (operands' : List Word) :
    Parallel ρ (a.emit op operands) (b.emit op' operands') p p' q q' :=
  h.of_words
    (fun x w _ hx hw => by rwa [words_emit_of_lt op operands (Nat.lt_of_lt_of_le hx hq)])
    fun x w _ hx hw => by rwa [words_emit_of_lt op' operands' (Nat.lt_of_lt_of_le hx hq')]

/-- The same instruction is appended on both sides. -/
theorem emit (h : Parallel ρ a b k k' a.size b.size) {op : Opcode} {operands : List Word}
    (hl : operands.length = op.operandCount) :
    Parallel ρ (a.emit op operands) (b.emit op (op.renumber ρ operands)) k k'
      (a.emit op operands).size (b.emit op (op.renumber ρ operands)).size := by
  refine (h.emit_before (Nat.le_refl _) (Nat.le_refl _) _ _ _ _).trans
    (.step rfl (has_emit a hl) ?_ ?_)
  · exact has_emit b ((op.length_renumber ρ operands).trans hl)
  · rw [Code.size_emit, Code.size_emit, Opcode.length_renumber]
    exact .refl _ _

end Parallel

/-- Jumps go on waiting when code is appended. -/
theorem Pending.emit (h : Pending ρ k k' a b p p') (op : Opcode) (operands : List Word)
    (op' : Opcode) (operands' : List Word) :
    Pending ρ k k' (a.emit op operands) (b.emit op' operands') p p' := by
  refine ⟨h.before.emit_before (Nat.le_of_lt h.lt) (Nat.le_of_lt h.lt') _ _ _ _, ?_⟩
  obtain ⟨i, rfl, hi, hi', hop, hl⟩ := h.jump
  exact ⟨i, rfl, hi.of_words fun x w hw => by
      rwa [words_emit_of_lt op operands (Array.getElem?_eq_some_iff.mp hw).1],
    hi'.of_words fun x w hw => by
      rwa [words_emit_of_lt op' operands' (Array.getElem?_eq_some_iff.mp hw).1], hop, hl⟩

/-! ### Decoding -/

/-- **What two codes are decoded to** that are side by side from the same offset to their ends. -/
theorem Parallel.decodeFrom (h : Parallel ρ a b p p' q q') (hp : p' = p) (hq : q = a.size)
    (hq' : q' = b.size) :
    ∃ is, Code.decodeFrom p 0 (a.words.toList.drop p) = .ok is ∧
      Code.decodeFrom p 0 (b.words.toList.drop p) = .ok (is.map (·.renumber ρ)) := by
  induction h with
  | refl p p' =>
    refine ⟨[], ?_, ?_⟩
    · rw [hq, drop_size, Code.decodeFrom]
    · rw [← hp, hq', drop_size, Code.decodeFrom]
      rfl
  | step start left right rest ih =>
    rename_i i p p' q q'
    subst start hp
    obtain ⟨is, hl, hr⟩ := ih rfl hq hq'
    have hstop : ((i.renumber ρ).movedTo i.offset).stop = i.stop := by
      unfold Instruction.stop Instruction.movedTo
      rw [Instruction.length_renumber]
    have hmoved : (i.renumber ρ).movedTo i.offset = i.renumber ρ := rfl
    refine ⟨i :: is, ?_, ?_⟩
    · rw [left.decodeFrom, hl]
      rfl
    · have := right.decodeFrom
      rw [hstop, hmoved] at this
      rw [List.map_cons]
      refine (Eq.trans rfl this).trans ?_
      rw [hr]
      rfl

end Code

end ScriptEngine
