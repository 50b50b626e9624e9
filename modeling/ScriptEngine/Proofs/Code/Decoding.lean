import ScriptEngine.Proofs.Code.Parallel
import ScriptEngine.Proofs.Code.Stores
import ScriptEngine.Proofs.Step

/-!
# Decoding

The decoder and the machine read code independently of each other, and neither trusts what it reads:
a word may be no opcode, and the last instruction may lack operands. What the decoder lists is all
of the code, and the machine fetches exactly that.

## Main definitions

* `ScriptEngine.Instruction.words`: the words of an instruction;
* `ScriptEngine.Code.UnknownAt`: at a boundary lies a word that is no opcode;
* `ScriptEngine.Code.Reads`: instructions up to the end of a code, the last one perhaps cut short;
* `ScriptEngine.Code.emitAll`, `ScriptEngine.Instruction.inARow`: instructions that are emitted one
  behind the other, and where they lie.

## Main results

* `ScriptEngine.Code.decode_eq_ok_iff`, `ScriptEngine.Code.decode_eq_error_iff`: what a code is
  decoded to;
* `ScriptEngine.Exec.fetchAndExecute_of_fetch`, `ScriptEngine.Exec.fetchAndExecute_of_error`: what a
  machine does with what it fetches;
* `ScriptEngine.Exec.fetchAndExecute_cases`: all that it does if nothing fails;
* `ScriptEngine.Code.decoding_lossless`: decoding loses nothing and agrees with fetching.
-/

namespace ScriptEngine

/-! ### Opcodes and their words -/

theorem Opcode.word_of_ofWord? {w : Word} {op : Opcode} (h : ofWord? w = some op) :
    op.word = w := by
  unfold ofWord? at h
  split at h
  all_goals
    cases h
    try rfl

/-- **A word is unknown** exactly if it is the word of no opcode. -/
theorem Opcode.ofWord?_eq_none_iff {w : Word} : ofWord? w = none ↔ ∀ op : Opcode, op.word ≠ w := by
  constructor
  · rintro h op rfl
    rw [ofWord?_word] at h
    cases h
  · intro h
    cases hop : ofWord? w with
    | none => rfl
    | some op => exact absurd (word_of_ofWord? hop) (h op)

namespace Instruction

/-- **The words of an instruction.** -/
def words (i : Instruction) : List Word :=
  i.op.word :: i.operands

/-- All operands of an instruction are there. -/
def IsComplete (i : Instruction) : Prop :=
  i.operands.length = i.op.operandCount

theorem stop_eq (i : Instruction) : i.stop = i.offset + i.words.length := by
  unfold stop words
  rw [List.length_cons]
  omega

/-- **Instructions in a row**, the first of which lies at an offset. -/
def inARow : Nat → List (Opcode × List Word) → List Instruction
  | _, [] => []
  | offset, (op, operands) :: rest =>
    ⟨offset, op, operands⟩ :: inARow (offset + 1 + operands.length) rest

end Instruction

namespace Code

variable {c : Code} {p q : Nat} {w : Word} {i : Instruction} {is before after : List Instruction}

/-! ### What lies in a code -/

/-- What comes first behind an offset lies there. -/
theorem Holds.of_drop : ∀ {p : Nat} {ws rest : List Word}, c.words.toList.drop p = ws ++ rest →
    c.Holds p ws
  | _, [], _, _ => trivial
  | p, w :: ws, rest, h => by
    have hw : c.words[p]? = some w := by
      rw [← Array.getElem?_toList, ← Nat.add_zero p, ← List.getElem?_drop, h]
      rfl
    rw [drop_of_word hw] at h
    exact ⟨hw, Holds.of_drop (List.cons.inj h).2⟩

/-- **An unknown word at a boundary**, up to which the code consists of complete instructions. -/
def UnknownAt (c : Code) (p : Nat) (w : Word) : Prop :=
  c.Boundary p ∧ c.words[p]? = some w ∧ ∀ op : Opcode, op.word ≠ w

/-- Up to an unknown word, and not further, every boundary is the start of an instruction. -/
theorem UnknownAt.first (h : c.UnknownAt p w) (hq : c.Boundary q) :
    q ≤ p ∧ (q < p → ∃ op : Opcode, c.words[q]? = some op.word) := by
  obtain ⟨hp, hw, hunknown⟩ := h
  refine ⟨Nat.le_of_not_lt fun hlt => ?_, fun hlt => ?_⟩
  · obtain ⟨i, rfl, hi, -⟩ := Walks.instruction hq hp hlt
    rw [hi.word] at hw
    exact hunknown i.op (Option.some.inj hw)
  · obtain ⟨i, rfl, hi, -⟩ := Walks.instruction hp hq hlt
    exact ⟨i.op, hi.word⟩

/-- **Instructions from an offset up to the end of a code.** Only the last of them can lack
operands, when the code ends before. -/
inductive Reads (c : Code) : Nat → List Instruction → Prop
  | stop {p : Nat} (size : p = c.size) : Reads c p []
  | short {i : Instruction} {p : Nat} (start : i.offset = p) (holds : c.Holds i.offset i.words)
    (lacks : i.operands.length < i.op.operandCount) (size : i.stop = c.size) : Reads c p [i]
  | step {i : Instruction} {is : List Instruction} {p : Nat} (start : i.offset = p) (has : c.Has i)
    (rest : Reads c i.stop is) : Reads c p (i :: is)

namespace Reads

/-- **Nothing is lost**: the words of the instructions are those of the code. -/
theorem words (h : c.Reads p is) : is.flatMap Instruction.words = c.words.toList.drop p := by
  induction h with
  | stop size =>
    rw [size, drop_size]
    rfl
  | @short i _ start holds _ size =>
    rw [← start, holds.drop, ← i.stop_eq, size, drop_size]
    simp
  | @step i _ _ start has _ ih =>
    rw [← start, List.flatMap_cons, ih, has.1.drop, i.stop_eq]
    rfl

/-- The offset of an instruction is the number of words in front of it. -/
theorem split : ∀ {p : Nat} {before : List Instruction}, c.Reads p (before ++ i :: after) →
    i.offset = p + (before.flatMap Instruction.words).length ∧ c.Reads i.offset (i :: after)
  | p, [], h => by
    have hp : i.offset = p := by
      cases h with
      | short start => exact start
      | step start => exact start
    exact ⟨hp, hp ▸ h⟩
  | p, j :: before, h => by
    rw [List.cons_append] at h
    generalize hrest : before ++ i :: after = rest at h
    cases h with
    | short => simp at hrest
    | step start _ rest =>
      subst hrest
      obtain ⟨hoffset, hreads⟩ := split rest
      refine ⟨?_, hreads⟩
      rw [hoffset, j.stop_eq, start, List.flatMap_cons, List.length_append]
      omega

/-- The first instruction lies where reading starts. -/
theorem start (h : c.Reads p is) : p = (is.head?.map Instruction.offset).getD c.size := by
  cases h with
  | stop size => exact size
  | short start => exact start.symm
  | step start => exact start.symm

/-- The first instruction is complete, or it is the last one too. -/
theorem head (h : c.Reads p (i :: after)) : c.Has i ∧ c.Reads i.stop after ∨
    after = [] ∧ i.operands.length < i.op.operandCount ∧ c.Holds i.offset i.words ∧
      i.stop = c.size := by
  cases h with
  | short _ holds lacks size => exact .inr ⟨rfl, lacks, holds, size⟩
  | step _ has rest => exact .inl ⟨has, rest⟩

/-- If all instructions are complete, they are all that lies between the offset and the end. -/
theorem lists (h : c.Reads p is) (hc : ∀ i ∈ is, i.IsComplete) : c.Lists p is c.size := by
  induction h with
  | stop size => exact size ▸ .nil _
  | @short i _ _ _ lacks _ => exact absurd (hc i List.mem_cons_self) (Nat.ne_of_lt lacks)
  | step start has _ ih => exact .cons start has (ih fun j hj => hc j (List.mem_cons_of_mem _ hj))

end Reads

/-- **All code can be read** up to its end or up to an unknown word. -/
theorem reads_or_unknown (c : Code) (p : Nat) (hp : p ≤ c.size) : (∃ is, c.Reads p is) ∨
    ∃ q w, c.Walks (fun _ => True) p q ∧ c.words[q]? = some w ∧ Opcode.ofWord? w = none := by
  rcases Nat.eq_or_lt_of_le hp with heq | hlt
  · exact .inl ⟨[], .stop heq⟩
  obtain ⟨w, hw⟩ : ∃ w, c.words[p]? = some w := ⟨_, Array.getElem?_eq_getElem hlt⟩
  cases hop : Opcode.ofWord? w with
  | none => exact .inr ⟨p, w, .refl p, hw, hop⟩
  | some op =>
    let i : Instruction := ⟨p, op, (c.words.toList.drop (p + 1)).take op.operandCount⟩
    have holds : c.Holds p i.words := by
      have hdrop : c.words.toList.drop p =
          i.words ++ (c.words.toList.drop (p + 1)).drop op.operandCount := by
        show _ = op.word :: (_ ++ _)
        rw [List.take_append_drop, Opcode.word_of_ofWord? hop, drop_of_word hw]
      exact .of_drop hdrop
    have hlength : i.operands.length = min op.operandCount (c.size - (p + 1)) := by
      show (List.take _ _).length = _
      rw [List.length_take, List.length_drop, Array.length_toList]
      rfl
    have hstop : i.stop = p + 1 + i.operands.length := rfl
    by_cases hfull : i.operands.length = op.operandCount
    · have has : c.Has i := ⟨holds, hfull⟩
      -- the instruction is complete, and what is left of the code is shorter
      have hshorter : c.size - i.stop < c.size - p := by omega
      rcases reads_or_unknown c i.stop has.stop_le with ⟨is, h⟩ | ⟨q, w, h, hq⟩
      · exact .inl ⟨i :: is, .step rfl has h⟩
      · exact .inr ⟨q, w, .step rfl has trivial h, hq⟩
    · exact .inl ⟨[i], .short rfl holds (by show _ < op.operandCount; omega) (by omega)⟩
termination_by c.size - p

/-! ### What a code is decoded to -/

theorem decodeFrom_of_length_le : ∀ {offset skip : Nat} {ws : List Word}, ws.length ≤ skip →
    Code.decodeFrom offset skip ws = .ok []
  | _, _, [], _ => by rw [Code.decodeFrom]
  | _, 0, _ :: _, h => absurd h (Nat.not_succ_le_zero _)
  | _, _ + 1, _ :: _, h => by
    rw [Code.decodeFrom]
    exact decodeFrom_of_length_le (Nat.le_of_succ_le_succ h)

theorem Reads.decodeFrom (h : c.Reads p is) :
    Code.decodeFrom p 0 (c.words.toList.drop p) = .ok is := by
  induction h with
  | stop size => rw [size, drop_size, Code.decodeFrom]
  | @short i _ start holds lacks size =>
    obtain ⟨offset, op, operands⟩ := i
    subst start
    have hrest : c.words.toList.drop offset = op.word :: operands := by
      rw [holds.drop, ← Instruction.stop_eq, size, drop_size, List.append_nil]
      rfl
    rw [hrest, Code.decodeFrom, Opcode.ofWord?_word]
    dsimp only
    rw [decodeFrom_of_length_le (Nat.le_of_lt lacks), List.take_of_length_le (Nat.le_of_lt lacks)]
    rfl
  | step start has _ ih =>
    subst start
    rw [has.decodeFrom, ih]
    rfl

theorem Walks.decodeFrom_unknown {P : Instruction → Prop} (h : c.Walks P p q)
    (hw : c.words[q]? = some w) (hop : Opcode.ofWord? w = none) :
    Code.decodeFrom p 0 (c.words.toList.drop p) = .error w := by
  induction h with
  | refl p => rw [drop_of_word hw, Code.decodeFrom, hop]
  | step start has _ _ ih =>
    subst start
    rw [has.decodeFrom, ih hw]
    rfl

/-- **What a code is decoded to** is what can be read from its start. -/
theorem decode_eq_ok_iff : c.decode = .ok is ↔ c.Reads 0 is := by
  refine ⟨fun h => ?_, fun h => h.decodeFrom⟩
  rcases c.reads_or_unknown 0 (Nat.zero_le _) with ⟨js, hr⟩ | ⟨q, w, hwalk, hw, hop⟩
  · have hjs : c.decode = .ok js := hr.decodeFrom
    rw [hjs] at h
    exact Except.ok.inj h ▸ hr
  · have herror : c.decode = .error w := hwalk.decodeFrom_unknown hw hop
    rw [herror] at h
    cases h

/-- **A code is not decoded** exactly if there is an unknown word at one of its boundaries. -/
theorem decode_eq_error_iff : c.decode = .error w ↔ ∃ p, c.UnknownAt p w := by
  constructor
  · intro h
    rcases c.reads_or_unknown 0 (Nat.zero_le _) with ⟨is, hr⟩ | ⟨q, w', hwalk, hw, hop⟩
    · have hok : c.decode = .ok is := hr.decodeFrom
      rw [hok] at h
      cases h
    · have herror : c.decode = .error w' := hwalk.decodeFrom_unknown hw hop
      rw [herror] at h
      obtain rfl := Except.error.inj h
      exact ⟨q, hwalk, hw, Opcode.ofWord?_eq_none_iff.mp hop⟩
  · rintro ⟨p, hp, hw, hunknown⟩
    exact Walks.decodeFrom_unknown hp hw (Opcode.ofWord?_eq_none_iff.mpr hunknown)

/-! ### What is fetched -/

theorem fetch_unknown (hw : c.words[p]? = some w) (hunknown : ∀ op : Opcode, op.word ≠ w) :
    c.fetch p = .error (.unknownOpcode w) := by
  have hget : c.words.getD p 0 = w := by
    rw [Array.getD_eq_getD_getElem?, hw]
    rfl
  unfold Code.fetch
  simp only [hget, Opcode.ofWord?_eq_none_iff.mpr hunknown]

/-- An instruction that lacks operands is not fetched. -/
theorem fetch_short (h : c.Holds i.offset i.words) (hl : i.operands.length < i.op.operandCount)
    (hs : i.stop = c.size) :
    c.fetch i.offset = .error (.internal (.missingOperands i.op i.offset)) := by
  have hget : c.words.getD i.offset 0 = i.op.word := by
    rw [Array.getD_eq_getD_getElem?, h.1]
    rfl
  have hcut : ¬ i.offset + 1 + i.op.operandCount ≤ c.size := by
    unfold Instruction.stop at hs
    omega
  unfold Code.fetch
  simp only [hget, Opcode.ofWord?_word, if_neg hcut]

/-! ### What is emitted -/

/-- The code with several more instructions. -/
def emitAll (c : Code) (is : List (Opcode × List Word)) : Code :=
  is.foldl (fun c i => c.emit i.1 i.2) c

/-- **Complete instructions that are emitted** lie in a row behind those that were there before. -/
theorem Lists.emitAll : ∀ {l : List (Opcode × List Word)} {c : Code} {is : List Instruction},
    c.Lists p is c.size → (∀ x ∈ l, x.2.length = x.1.operandCount) →
      (c.emitAll l).Lists p (is ++ Instruction.inARow c.size l) (c.emitAll l).size
  | [], _, is, h, _ => by
    rw [Instruction.inARow, List.append_nil]
    exact h
  | (op, operands) :: l, c, is, h, hl => by
    have hold : (c.emit op operands).Lists p is c.size := h.of_words fun x w hx => by
      rwa [words_emit_of_lt op operands (Array.getElem?_eq_some_iff.mp hx).1]
    have hnew := Lists.single (has_emit c (hl (op, operands) List.mem_cons_self))
    have hstop : Instruction.stop ⟨c.size, op, operands⟩ = (c.emit op operands).size :=
      (size_emit c op operands).symm
    have hrest := Lists.emitAll (hold.append (hstop ▸ hnew)) fun x hx =>
      hl x (List.mem_cons_of_mem _ hx)
    rw [List.append_assoc, size_emit] at hrest
    exact hrest

end Code

/-! ### What a machine does -/

namespace Exec

variable {ctx : Context} {s : State} {f : Frame} {i : Instruction}

/-- **An instruction that is fetched** is executed, with the frame behind it. -/
theorem fetchAndExecute_of_fetch (htop : s.machine.frames.top? = some f)
    (hlt : f.ip < f.code.size) (h : f.code.fetch f.ip = .ok i) :
    fetchAndExecute ctx s = (do
      modifyFrame ({ · with ip := i.stop })
      execute ctx i) s := by
  unfold fetchAndExecute
  rw [get_bind, htop]
  dsimp only
  rw [if_pos hlt, h]

/-- **What cannot be fetched** ends the run. -/
theorem fetchAndExecute_of_error {e : RuntimeError} (htop : s.machine.frames.top? = some f)
    (hlt : f.ip < f.code.size) (h : f.code.fetch f.ip = .error e) :
    fetchAndExecute ctx s = .error e s := by
  unfold fetchAndExecute
  rw [get_bind, htop]
  dsimp only
  rw [if_pos hlt, h]
  rfl

/-- **What a machine does if nothing fails**: it hands over what lies on top because no frame is
left, it executes the instruction at its place, or it ends a program through whose code it has
run. -/
theorem fetchAndExecute_cases {flow : Flow} {s' : State}
    (h : fetchAndExecute ctx s = .ok flow s') :
    (∃ v, s.machine.frames.top? = none ∧ popOrNil s = .ok v s' ∧ flow = .leave v) ∨
    (∃ f i, s.machine.frames.top? = some f ∧ f.ip < f.code.size ∧ f.code.fetch f.ip = .ok i ∧
      (do
        modifyFrame ({ · with ip := i.stop })
        execute ctx i) s = .ok flow s') ∨
    ∃ f, s.machine.frames.top? = some f ∧ f.function = none ∧ endProgram f s = .ok flow s' := by
  cases htop : s.machine.frames.top? with
  | none =>
    unfold fetchAndExecute at h
    rw [get_bind, htop] at h
    obtain ⟨v, t, hpop, h⟩ := bind_eq_ok.mp h
    obtain ⟨rfl, rfl⟩ := pure_eq_ok.mp h
    exact .inl ⟨v, rfl, hpop, rfl⟩
  | some f =>
    by_cases hlt : f.ip < f.code.size
    · cases hfetch : f.code.fetch f.ip with
      | error e =>
        rw [fetchAndExecute_of_error htop hlt hfetch] at h
        cases h
      | ok i =>
        rw [fetchAndExecute_of_fetch htop hlt hfetch] at h
        exact .inr (.inl ⟨f, i, rfl, hlt, hfetch, h⟩)
    · unfold fetchAndExecute at h
      rw [get_bind, htop] at h
      dsimp only at h
      rw [if_neg hlt] at h
      cases hfunction : f.function with
      | none =>
        rw [hfunction] at h
        exact .inr (.inr ⟨f, rfl, hfunction, h⟩)
      | some g =>
        rw [hfunction] at h
        exact (throw_ne_ok.mp h).elim

end Exec

namespace Code

/-- **Decoding loses nothing and agrees with fetching.** It fails exactly if there is a word that is
no opcode at a boundary, with the first such word. Otherwise the words of the instructions are all
words of the code, each instruction lies behind the words of those before it, and only the last one
can lack operands. What was emitted is decoded again. A machine fetches an instruction where it was
decoded and goes on at the next one; it fails at an instruction that lacks operands and at an
unknown word, and nowhere else. -/
theorem decoding_lossless (c : Code) :
    (∀ w, c.decode = .error w ↔ ∃ p, c.UnknownAt p w) ∧
    (∀ p w, c.UnknownAt p w →
      (∀ q, c.Boundary q → q ≤ p ∧ (q < p → ∃ op : Opcode, c.words[q]? = some op.word)) ∧
      ∀ (ctx : Context) (s : State) (f : Frame), s.machine.frames.top? = some f → f.code = c →
        f.ip = p → Exec.fetchAndExecute ctx s = .error (.unknownOpcode w) s) ∧
    (∀ is, c.decode = .ok is → is.flatMap Instruction.words = c.words.toList ∧
      ∀ before i after, is = before ++ i :: after →
        i.offset = (before.flatMap Instruction.words).length ∧
        (i.IsComplete ∨ after = [] ∧ i.operands.length < i.op.operandCount) ∧
        ∀ (ctx : Context) (s : State) (f : Frame), s.machine.frames.top? = some f → f.code = c →
          f.ip = i.offset →
          (i.IsComplete → Exec.fetchAndExecute ctx s = (do
            Exec.modifyFrame ({ · with ip := (after.head?.map Instruction.offset).getD c.size })
            Exec.execute ctx i) s) ∧
          (¬ i.IsComplete →
            Exec.fetchAndExecute ctx s = .error (.internal (.missingOperands i.op i.offset)) s)) ∧
    ∀ is, c.decode = .ok is → (∀ i ∈ is, i.IsComplete) →
      ∀ l : List (Opcode × List Word), (∀ x ∈ l, x.2.length = x.1.operandCount) →
        (c.emitAll l).decode = .ok (is ++ Instruction.inARow c.size l) := by
  refine ⟨fun w => decode_eq_error_iff, fun p w h => ⟨fun q hq => h.first hq, ?_⟩, fun is h => ?_,
    fun is h hc l hl => ?_⟩
  · -- the machine reads the unknown word where the decoder found it
    rintro ctx s f htop rfl rfl
    obtain ⟨-, hw, hunknown⟩ := h
    exact Exec.fetchAndExecute_of_error htop (Array.getElem?_eq_some_iff.mp hw).1
      (fetch_unknown hw hunknown)
  · have hreads := decode_eq_ok_iff.mp h
    refine ⟨hreads.words, ?_⟩
    rintro before i after rfl
    obtain ⟨hoffset, hreads⟩ := hreads.split
    rw [Nat.zero_add] at hoffset
    -- an instruction is complete, or it is the last one and the code ends inside it
    rcases hreads.head with ⟨has, hrest⟩ | ⟨rfl, lacks, holds, size⟩
    · refine ⟨hoffset, .inl has.2, ?_⟩
      rintro ctx s f htop rfl hip
      refine ⟨fun _ => ?_, fun hn => absurd has.2 hn⟩
      rw [Exec.fetchAndExecute_of_fetch htop (hip ▸ has.offset_lt) (hip ▸ has.fetch), hrest.start]
    · refine ⟨hoffset, .inr ⟨rfl, lacks⟩, ?_⟩
      rintro ctx s f htop rfl hip
      refine ⟨fun hc => absurd hc (Nat.ne_of_lt lacks), fun _ => ?_⟩
      have hlt : i.offset < f.code.size := size ▸ Has.offset_lt_stop i
      exact Exec.fetchAndExecute_of_error htop (hip ▸ hlt) (hip ▸ fetch_short holds lacks size)
  · have hlists := ((decode_eq_ok_iff.mp h).lists hc).emitAll hl
    exact hlists.decodeFrom rfl

/-- The last instruction lacks an operand, which is no reason not to decode the code. -/
example : (ofParts #[24, 7, 90, 1] #[]).decode =
    .ok [⟨0, .loadConst, [7]⟩, ⟨2, .forIter, [1]⟩] := by
  decide

end Code

end ScriptEngine
