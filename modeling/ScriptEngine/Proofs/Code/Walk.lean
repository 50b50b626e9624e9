import ScriptEngine.Machine.Execute
import ScriptEngine.Proofs.Layout.Basic

/-!
# Walks through code

From one instruction to the next. The offsets that a walk from the start of a code comes to are the
boundaries of its instructions, and a walk through all of a code is its decoding.

## Main definitions

* `ScriptEngine.Code.Has`: an instruction lies in a code, with all its operands;
* `ScriptEngine.Code.Walks`: instructions with a given property lie between two offsets, one behind
  the other.

## Main results

* `ScriptEngine.Code.Has.fetch`: an instruction that lies in a code is fetched;
* `ScriptEngine.Code.Walks.instruction`: at a boundary inside a walk lies one of its instructions;
* `ScriptEngine.Code.Walks.decode`: a walk through all of a code is what the code is decoded to.
-/

namespace ScriptEngine

namespace Code

variable {c : Code} {P Q : Instruction → Prop} {p q r : Nat}

theorem Holds.getElem? : ∀ {p : Nat} {ws : List Word}, c.Holds p ws → ∀ {i : Nat} {w : Word},
    ws[i]? = some w → c.words[p + i]? = some w
  | p, w :: ws, h, 0, _, hi => by
    rw [← hi]
    exact h.1
  | p, w :: ws, h, i + 1, _, hi => by
    rw [show p + (i + 1) = p + 1 + i by omega]
    exact h.2.getElem? hi

theorem Holds.of_getElem? : ∀ {p : Nat} {ws : List Word},
    (∀ i w, ws[i]? = some w → c.words[p + i]? = some w) → c.Holds p ws
  | _, [], _ => trivial
  | p, w :: ws, h => ⟨h 0 w rfl, Holds.of_getElem? fun i w' hi => by
      rw [show p + 1 + i = p + (i + 1) by omega]
      exact h (i + 1) w' hi⟩

/-- Words that lie in a code lie in every code that goes on behind it. -/
theorem Holds.of_words {c' : Code} {ws : List Word}
    (hw : ∀ (i : Nat) (w : Word), c.words[i]? = some w → c'.words[i]? = some w) (h : c.Holds p ws) :
    c'.Holds p ws :=
  .of_getElem? fun _ _ hi => hw _ _ (h.getElem? hi)

/-- **An instruction lies in a code**, with all its operands. -/
def Has (c : Code) (i : Instruction) : Prop :=
  c.Holds i.offset (i.op.word :: i.operands) ∧ i.operands.length = i.op.operandCount

namespace Has

variable {i j : Instruction}

theorem word (h : c.Has i) : c.words[i.offset]? = some i.op.word :=
  h.1.1

theorem stop_le (h : c.Has i) : i.stop ≤ c.size := by
  have hlen : (i.op.word :: i.operands)[i.operands.length]? ≠ none := by
    rw [ne_eq, List.getElem?_eq_none_iff, List.length_cons]
    omega
  obtain ⟨w, hw⟩ := Option.ne_none_iff_exists'.mp hlen
  have := (Array.getElem?_eq_some_iff.mp (h.1.getElem? hw)).1
  show i.offset + 1 + i.operands.length ≤ c.words.size
  omega

theorem offset_lt (h : c.Has i) : i.offset < c.size := by
  have := h.stop_le
  unfold Instruction.stop at this
  omega

theorem offset_lt_stop (i : Instruction) : i.offset < i.stop := by
  unfold Instruction.stop
  omega

theorem operands (h : c.Has i) :
    (c.words.extract (i.offset + 1) (i.offset + 1 + i.op.operandCount)).toList = i.operands := by
  have hs : i.offset + 1 + i.operands.length ≤ c.words.size := h.stop_le
  have hlen := h.2
  refine List.ext_getElem? fun k => ?_
  rw [Array.getElem?_toList, Array.getElem?_extract]
  by_cases hk : k < i.operands.length
  · rw [if_pos (by omega)]
    obtain ⟨w, hw⟩ : ∃ w, i.operands[k]? = some w := ⟨_, List.getElem?_eq_getElem hk⟩
    rw [hw, show i.offset + 1 + k = i.offset + (k + 1) by omega]
    exact h.1.getElem? (i := k + 1) hw
  · rw [if_neg (by omega), List.getElem?_eq_none (by omega)]

/-- **An instruction that lies in a code is fetched.** -/
theorem fetch (h : c.Has i) : c.fetch i.offset = .ok i := by
  have hw : c.words.getD i.offset 0 = i.op.word := by
    rw [Array.getD_eq_getD_getElem?, h.word]
    rfl
  have hs := h.stop_le
  unfold Instruction.stop at hs
  unfold Code.fetch
  simp only [hw, Opcode.ofWord?_word, h.2 ▸ hs, if_true, h.operands]

theorem unique (hi : c.Has i) (hj : c.Has j) (h : i.offset = j.offset) : i = j := by
  have := hi.fetch
  rw [h, hj.fetch] at this
  exact (Except.ok.inj this).symm

theorem of_words {c' : Code}
    (hw : ∀ (i : Nat) (w : Word), c.words[i]? = some w → c'.words[i]? = some w)
    (h : c.Has i) : c'.Has i :=
  ⟨h.1.of_words hw, h.2⟩

end Has

/-- **A walk** through instructions that have a property. -/
inductive Walks (c : Code) (P : Instruction → Prop) : Nat → Nat → Prop where
  | refl (p : Nat) : Walks c P p p
  | step {i : Instruction} {p q : Nat} (start : i.offset = p) (has : c.Has i) (prop : P i)
    (rest : Walks c P i.stop q) : Walks c P p q

/-- The offsets at which an instruction starts or the code ends. -/
def Boundary (c : Code) (p : Nat) : Prop :=
  c.Walks (fun _ => True) 0 p

namespace Walks

theorem single {i : Instruction} (h : c.Has i) (hi : P i) : c.Walks P i.offset i.stop :=
  .step rfl h hi (.refl _)

theorem trans (h : c.Walks P p q) (h' : c.Walks P q r) : c.Walks P p r := by
  induction h with
  | refl p => exact h'
  | step start has prop _ ih => exact .step start has prop (ih h')

theorem le (h : c.Walks P p q) : p ≤ q := by
  induction h with
  | refl p => exact Nat.le_refl p
  | step start has prop rest ih =>
    rename_i i _ _
    have := Has.offset_lt_stop i
    omega

/-- A walk through instructions that have another property. -/
theorem mono (h : c.Walks P p q)
    (hPQ : ∀ i, c.Has i → p ≤ i.offset → i.stop ≤ q → P i → Q i) : c.Walks Q p q := by
  induction h with
  | refl p => exact .refl p
  | step start has prop rest ih =>
    rename_i i _ _
    have hlt := Has.offset_lt_stop i
    refine .step start has (hPQ i has (Nat.le_of_eq start.symm) rest.le prop)
      (ih fun j hj hle => ?_)
    exact hPQ j hj (by omega)

/-- Two walks over the same stretch meet the same instructions. -/
theorem and (h : c.Walks P p q) (h' : c.Walks Q p q) : c.Walks (fun i => P i ∧ Q i) p q := by
  induction h with
  | refl p => exact .refl p
  | step start has prop rest ih =>
    rename_i i _ _
    cases h' with
    | refl _ =>
      have := rest.le
      have := Has.offset_lt_stop i
      omega
    | step start' has' prop' rest' =>
      obtain rfl := has'.unique has (start'.trans start.symm)
      exact .step start has ⟨prop, prop'⟩ (ih rest')

theorem forget (h : c.Walks P p q) : c.Walks (fun _ => True) p q :=
  h.mono fun _ _ _ _ _ => trivial

theorem of_words {c' : Code}
    (hw : ∀ (i : Nat) (w : Word), c.words[i]? = some w → c'.words[i]? = some w)
    (h : c.Walks P p q) : c'.Walks P p q := by
  induction h with
  | refl p => exact .refl p
  | step start has prop _ ih => exact .step start (has.of_words hw) prop ih

/-- Of two walks from the same offset, the shorter one is the beginning of the other. -/
theorem split (h : c.Walks P p q) (h' : c.Walks Q p r) (hqr : q ≤ r) : c.Walks Q q r := by
  induction h with
  | refl p => exact h'
  | step start has prop rest ih =>
    rename_i i _ _
    cases h' with
    | refl _ =>
      have := rest.le
      have := Has.offset_lt_stop i
      omega
    | step start' has' prop' rest' =>
      obtain rfl := has'.unique has (start'.trans start.symm)
      exact ih rest' hqr

/-- **At a boundary inside a walk** lies one of its instructions. -/
theorem instruction (h : c.Walks P p r) (h' : c.Walks Q p q) (hq : q < r) :
    ∃ i, i.offset = q ∧ c.Has i ∧ P i ∧ c.Walks P i.stop r := by
  have := h'.split h (Nat.le_of_lt hq)
  cases this with
  | refl _ => exact absurd hq (Nat.lt_irrefl _)
  | step start has prop rest => exact ⟨_, start, has, prop, rest⟩

end Walks

/-- A walk from a boundary meets nothing but boundaries. -/
theorem Walks.boundaries (h : c.Walks P p q) (hp : c.Boundary p) :
    c.Walks (fun i => P i ∧ c.Boundary i.offset) p q := by
  induction h with
  | refl p => exact .refl p
  | step start has prop _ ih =>
    subst start
    exact .step rfl has ⟨prop, hp⟩ (ih (hp.trans (.single has trivial)))

/-! ### Decoding -/

/-- Decoding skips the operands of an instruction. -/
theorem decodeFrom_skip : ∀ (skip offset : Nat) (ws : List Word), skip ≤ ws.length →
    decodeFrom offset skip ws = decodeFrom (offset + skip) 0 (ws.drop skip)
  | 0, _, _, _ => rfl
  | skip + 1, _, [], h => absurd h (Nat.not_succ_le_zero _)
  | skip + 1, offset, w :: ws, h => by
    rw [decodeFrom, decodeFrom_skip skip (offset + 1) ws (Nat.le_of_succ_le_succ h),
      show offset + 1 + skip = offset + (skip + 1) by omega]
    rfl

theorem drop_of_word {p : Nat} {w : Word} (h : c.words[p]? = some w) :
    c.words.toList.drop p = w :: c.words.toList.drop (p + 1) := by
  rw [← Array.getElem?_toList] at h
  obtain ⟨hlt, rfl⟩ := List.getElem?_eq_some_iff.mp h
  exact List.drop_eq_getElem_cons hlt

theorem drop_size (c : Code) : c.words.toList.drop c.size = [] :=
  List.drop_eq_nil_of_le (Nat.le_of_eq Array.length_toList)

/-- Words that lie in a code come first behind their offset. -/
theorem Holds.drop : ∀ {p : Nat} {ws : List Word}, c.Holds p ws →
    c.words.toList.drop p = ws ++ c.words.toList.drop (p + ws.length)
  | _, [], _ => rfl
  | p, w :: ws, ⟨hw, h⟩ => by
    rw [drop_of_word hw, h.drop, List.length_cons,
      show p + 1 + ws.length = p + (ws.length + 1) by omega]
    rfl

/-- **An instruction that lies in a code** is decoded first. -/
theorem Has.decodeFrom {i : Instruction} (h : c.Has i) :
    Code.decodeFrom i.offset 0 (c.words.toList.drop i.offset) =
      (Code.decodeFrom i.stop 0 (c.words.toList.drop i.stop)).map (i :: ·) := by
  have hops : c.words.toList.drop (i.offset + 1) = i.operands ++ c.words.toList.drop i.stop :=
    h.1.2.drop
  rw [drop_of_word h.word, Code.decodeFrom, Opcode.ofWord?_word]
  dsimp only
  rw [hops, ← h.2, List.take_left, decodeFrom_skip _ _ _ (by simp), List.drop_left]
  rfl

/-- **A walk to the end of a code is what the code is decoded to** from there. -/
theorem Walks.decodeFrom {e : Nat} (h : c.Walks P p e) (he : e = c.size) :
    ∃ is, Code.decodeFrom p 0 (c.words.toList.drop p) = .ok is ∧ (∀ i ∈ is, c.Has i ∧ P i) ∧
      (∀ q, q < c.size → c.Walks (fun _ => True) p q → ∃ i ∈ is, i.offset = q) ∧
      ∀ i ∈ is.getLast?, i.stop = c.size := by
  induction h with
  | refl p =>
    refine ⟨[], by rw [he, drop_size, Code.decodeFrom], by simp, fun q hq hw => ?_, by simp⟩
    have := hw.le
    omega
  | step start has prop rest ih =>
    rename_i i p e
    subst start
    obtain ⟨is, hd, hall, hb, hlast⟩ := ih he
    refine ⟨i :: is, ?_, ?_, fun q hq hw => ?_, ?_⟩
    · rw [has.decodeFrom, hd]
      rfl
    · intro j hj
      rcases List.mem_cons.mp hj with rfl | hj
      · exact ⟨has, prop⟩
      · exact hall j hj
    · cases hw with
      | refl _ => exact ⟨i, List.mem_cons_self .., rfl⟩
      | step start' has' _ rest' =>
        obtain rfl := has'.unique has start'
        obtain ⟨k, hk, hkq⟩ := hb q hq rest'
        exact ⟨k, List.mem_cons_of_mem _ hk, hkq⟩
    · intro j hj
      cases is with
      | nil =>
        obtain rfl : i = j := Option.some.inj hj
        cases rest with
        | refl _ => exact he
        | step start' has' _ _ =>
          have hlt := start' ▸ has'.offset_lt
          obtain ⟨_, hm, -⟩ := hb _ hlt (.refl _)
          cases hm
      | cons k is =>
        rw [List.getLast?_cons_cons] at hj
        exact hlast j hj

end Code

end ScriptEngine
