import ScriptEngine.Proofs.Compiler.WellFormed
import ScriptEngine.Proofs.Layout.Typed

/-!
# Compilers produce typed code

Each function has a typing that tells the least number of entries at each offset, and so has each
code that a compiler gave out, whichever batches it is made of. A run can start at the end of every
batch, where such a typing expects nothing. The code of the first batch has an exact typing if no
break and no continue in it lies inside an operand.

## Main definitions

* `ScriptEngine.Code.Begins`: a code is the beginning of another one;
* `ScriptEngine.Compiler.Typed`: the codes of a compiler have typings;
* `ScriptEngine.Typing.Covers`: one typing for all these codes.

## Main results

* `ScriptEngine.Compiler.Built.typed`: the codes of every compiler have typings;
* `ScriptEngine.Compiler.Built.covered`, `ScriptEngine.Compiler.covered_of_placed`: there is one
  typing for all of them.
-/

namespace ScriptEngine

open ScopeTable

/-! ### Codes that go on -/

/-- **A code is the beginning of another one.** -/
structure Code.Begins (c c' : Code) : Prop where
  size : c.size ≤ c'.size
  words : ∀ (i : Nat) (w : Word), c.words[i]? = some w → c'.words[i]? = some w

namespace Code.Begins

variable {c c' c'' : Code}

theorem refl (c : Code) : c.Begins c :=
  ⟨Nat.le_refl _, fun _ _ h => h⟩

theorem trans (h : c.Begins c') (h' : c'.Begins c'') : c.Begins c'' :=
  ⟨Nat.le_trans h.size h'.size, fun i w hw => h'.words i w (h.words i w hw)⟩

theorem of_eq (h : c.words = c'.words) : c.Begins c' :=
  ⟨Nat.le_of_eq (congrArg Array.size h), fun _ _ hw => h ▸ hw⟩

/-- Of two beginnings of a code, the shorter one is the beginning of the other. -/
theorem of_le (h : c.Begins c'') (h' : c'.Begins c'') (hs : c.size ≤ c'.size) : c.Begins c' := by
  refine ⟨hs, fun i w hw => ?_⟩
  have hi : i < c'.words.size := Nat.lt_of_lt_of_le (Array.getElem?_eq_some_iff.mp hw).1 hs
  have := h'.words i _ (Array.getElem?_eq_getElem hi)
  rw [h.words i w hw] at this
  rw [Array.getElem?_eq_getElem hi, this]

end Code.Begins

/-- The code that an answer gives out. -/
theorem Batch.codes_ofAnswer (program : Program) (answer : Except CompileError Code) :
    (Batch.ofAnswer program answer).map Batch.code = answer.toOption.toList := by
  cases answer <;> rfl

namespace Compiler

/-- The code has a typing in which nothing is expected at the given offsets. -/
def Fitted (seams : List Nat) (code : Code) : Prop :=
  ∃ Φ, code.Typed false Φ none ∧ ∀ p ∈ seams, p ≤ code.size → Φ p = []

/-- **The codes of a compiler have typings**, its functions and all codes that it gave out. -/
structure Typed (c : Compiler) (fs : Array Function) (codes : List Code) : Prop where
  functions : ∀ f ∈ fs, ∃ Φ, f.code.Typed false Φ (some 0)
  code : Fitted (c.code.size :: codes.map Code.size) c.code
  codes : ∀ code ∈ codes, code.Begins c.code ∧ Fitted (codes.map Code.size) code

variable {c c' : Compiler} {fs : Array Function} {codes : List Code} {seams : List Nat}
  {E : Environment}

theorem Fitted.of_words {code code' : Code} (h : Fitted seams code)
    (hw : code.words = code'.words) :
    Fitted seams code' := by
  have hsize : code'.size = code.size := congrArg Array.size hw.symm
  obtain ⟨Φ, ⟨walk, start, stop⟩, hs⟩ := h
  refine ⟨Φ, ⟨?_, start, by rwa [hsize]⟩, by rwa [hsize]⟩
  rw [hsize]
  exact walk.of_words fun _ _ h => hw ▸ h

/-- Only the words of the code matter. -/
theorem Typed.of_words (h : c.Typed fs codes) (hw : c.code.words = c'.code.words) :
    c'.Typed fs codes := by
  have hsize : c'.code.size = c.code.size := congrArg Array.size hw.symm
  refine ⟨h.functions, ?_, fun code hc => ?_⟩
  · rw [hsize]
    exact h.code.of_words hw
  · obtain ⟨hb, hf⟩ := h.codes code hc
    exact ⟨hb.trans (.of_eq hw), hf⟩

/-- A compiler that has not compiled anything. -/
theorem typed_fresh (h : c.code.words = #[]) : c.Typed #[] [] := by
  have hsize : c.code.size = 0 := congrArg Array.size h
  refine ⟨fun f hf => absurd hf (Array.not_mem_empty f), ⟨fun _ => [], ⟨?_, rfl,
    fun _ => .inr rfl⟩, fun _ _ _ => rfl⟩, fun code hc => absurd hc List.not_mem_nil⟩
  rw [hsize]
  exact .refl 0

/-- **The typing of a batch**: from an empty stack to the value of the batch. -/
theorem Sound.shaped (h : c.Sound E) (exact : Bool) {program : Program} {s : Emission}
    (hs : Generate.statements program (c.starting E.functions) = .ok () s)
    (hp : exact = true → Placed.statements false program = true) :
    ∃ Φ, Φ c.code.size = [] ∧ Φ s.body.code.size = [.value] ∧
      s.body.code.Walks (fun i => i.Fits exact Φ ∧ i.Above c.code.size) c.code.size
        s.body.code.size ∧
      ∀ k, E.functions.size ≤ k → k < s.functions.size →
        ∃ f, s.functions[k]? = some f ∧ ∃ Φ, f.code.Typed exact Φ (some 0) := by
  obtain ⟨S, hfun, hcode, -, hexits, -, hlaid⟩ := h.laid hs
  have shapes : (Plan.ofStatements program).Shapes exact none [] [.value] :=
    Plan.shapes_ofStatements program [] (.function exact false []) hp
  obtain ⟨Φ, hg, hstart, hsh⟩ := hlaid.shaped (Ψ := fun _ => [.value]) shapes (.function hexits) rfl
  have walk := hsh.walk
  rw [hcode] at walk
  refine ⟨Φ, hstart, hg _ (Nat.le_refl _), walk, fun k hk hk' => ?_⟩
  obtain ⟨f, hf, Φ', ht⟩ := hsh.functions k hk hk'
  exact ⟨f, hfun ▸ hf, Φ', ht.walk, ht.start, nofun⟩

/-- **A batch behind others.** Two typings are put together at its start, where both of them expect
nothing, and at its end its value is forgotten. -/
theorem Sound.fitted (h : c.Sound E) (ht : Fitted (c.code.size :: seams) c.code)
    (hc : ∀ p ∈ seams, p ≤ c.code.size) {program : Program} {s : Emission}
    (hs : Generate.statements program (c.starting E.functions) = .ok () s)
    (hb : c.code.Begins s.body.code) : Fitted (s.body.code.size :: seams) s.body.code := by
  obtain ⟨Φ₀, ⟨hold, hstart, -⟩, hseams⟩ := ht
  obtain ⟨Φ₁, hstart', -, hnew, -⟩ := h.shaped false hs nofun
  have hend : Φ₀ c.code.size = [] := hseams _ (List.mem_cons_self ..) (Nat.le_refl _)
  let Φ (p : Nat) : Shape := if p < c.code.size then Φ₀ p else Φ₁ p
  have below {p : Nat} (hp : p ≤ c.code.size) : Φ p = Φ₀ p := by
    rcases Nat.lt_or_eq_of_le hp with hlt | rfl
    · exact if_pos hlt
    · exact (if_neg (Nat.lt_irrefl _)).trans (hstart'.trans hend.symm)
  have above : AgreeFrom c.code.size Φ Φ₁ := fun p hp => if_neg (Nat.not_lt_of_le hp)
  have walk₀ : s.body.code.Walks (Instruction.Fits false Φ) 0 c.code.size := by
    refine Code.Walks.of_words hb.words
      ((hold.and h.code.walk).mono fun i hi _ hle ⟨hfit, hlegal⟩ => ?_)
    refine hfit.congr (below (Nat.le_of_lt hi.offset_lt)) (below hle) fun x hx => below ?_
    exact (hlegal.target hx).2.elim Nat.le_of_lt fun h => Nat.le_of_eq h.2
  have walk₁ : s.body.code.Walks (Instruction.Fits false Φ) c.code.size s.body.code.size :=
    hnew.mono fun i _ hle _ ⟨hfit, habove⟩ => hfit.congr_of_agreeFrom above habove hle
  refine ⟨fun q => if q = s.body.code.size then [] else Φ q, ⟨?_, ?_, fun _ => .inr (if_pos rfl)⟩,
    fun p hp _ => ?_⟩
  · exact (walk₀.trans walk₁).mono fun i hi _ _ hfit => hfit.forget (Nat.ne_of_lt hi.offset_lt)
  · show (if 0 = s.body.code.size then [] else Φ 0) = []
    split
    · rfl
    · exact (below (Nat.zero_le _)).trans hstart
  · show (if p = s.body.code.size then [] else Φ p) = []
    split
    · rfl
    · rename_i hne
      have hp := List.mem_of_ne_of_mem hne hp
      exact (below (hc p hp)).trans (hseams p (List.mem_cons_of_mem _ hp) (hc p hp))

/-! ### Answers of a compiler -/

/-- A batch that is refused leaves the code and the functions as they were. -/
theorem Sound.compile_refused (hsound : c.Sound E) {program : Program} {e : CompileError}
    (h : (c.compile E.functions program).1 = .error e) :
    (c.compile E.functions program).2.1.code.words = c.code.words ∧
      (c.compile E.functions program).2.2 = E.functions := by
  cases hs : Generate.statements program (c.starting E.functions) with
  | ok u s =>
    rw [hsound.compile_of_ok hs] at h
    cases h
  | error e s =>
    rw [hsound.compile_of_error hs]
    exact ⟨rfl, rfl⟩

/-- A batch that is accepted was emitted behind the code of the compiler. -/
theorem Sound.compile_accepted (hsound : c.Sound E) {program : Program} {code : Code}
    (h : (c.compile E.functions program).1 = .ok code) :
    ∃ s, Generate.statements program (c.starting E.functions) = .ok () s ∧
      code = { s.body.code with globalCount := s.table.slotCount root } ∧
      (c.compile E.functions program).2.2 = s.functions := by
  cases hs : Generate.statements program (c.starting E.functions) with
  | error e s =>
    rw [hsound.compile_of_error hs] at h
    cases h
  | ok u s =>
    rw [hsound.compile_of_ok hs] at h ⊢
    exact ⟨s, rfl, (Except.ok.inj h).symm, rfl⟩

/-- A new builtin is no code. -/
theorem code_addBuiltin (c : Compiler) (name : String) : (c.addBuiltin name).2.code = c.code := by
  unfold Compiler.addBuiltin onTable
  split <;> rfl

/-- A new global is no code. -/
theorem words_declareGlobal (c : Compiler) (name : String) :
    (c.declareGlobal name).2.code.words = c.code.words := by
  obtain heq | ⟨symbol, t, -, heq⟩ := c.declareGlobal_cases name
  · rw [heq]
  · rw [heq]
    rfl

/-- **Every batch keeps the codes typed.** -/
theorem Typed.compile (h : c.Typed E.functions codes) (hsound : c.Sound E) (program : Program) :
    (c.compile E.functions program).2.1.Typed (c.compile E.functions program).2.2
      ((c.compile E.functions program).1.toOption.toList ++ codes) := by
  cases hs : Generate.statements program (c.starting E.functions) with
  | error e s =>
    rw [hsound.compile_of_error hs]
    exact h.of_words rfl
  | ok u s =>
    rw [hsound.compile_of_ok hs]
    have e := hsound.emits hs
    have hb : c.code.Begins s.body.code := ⟨e.grows.size, fun i w hw =>
      (e.grows.words i (Array.getElem?_eq_some_iff.mp hw).1).trans hw⟩
    have hle : ∀ p ∈ codes.map Code.size, p ≤ c.code.size := fun p hp => by
      obtain ⟨code, hc, rfl⟩ := List.mem_map.mp hp
      exact (h.codes code hc).1.size
    have hfit := hsound.fitted h.code hle hs hb
    obtain ⟨-, -, -, -, hnew⟩ := hsound.shaped false hs nofun
    let new : Code := { s.body.code with globalCount := s.table.slotCount root }
    have hfit' : Fitted ((new :: codes).map Code.size) new := hfit.of_words rfl
    show Typed (c.withProgram s.table s.body.code).countGlobals s.functions (new :: codes)
    refine ⟨fun f hf => ?_, ?_, fun code hc => ?_⟩
    · obtain ⟨k, hk, rfl⟩ := Array.getElem_of_mem hf
      by_cases hlt : k < E.functions.size
      · have hold : s.functions[k]? = E.functions[k]? := by
          obtain ⟨rest, hrest⟩ := e.grows.functions
          rw [← Array.getElem?_toList, ← hrest, List.getElem?_append_left]
          · exact Array.getElem?_toList
          · exact hlt
        rw [Array.getElem?_eq_getElem hk, Array.getElem?_eq_getElem hlt] at hold
        exact h.functions _ (Option.some.inj hold ▸ Array.getElem_mem hlt)
      · obtain ⟨f, hf, ht⟩ := hnew k (Nat.le_of_not_lt hlt) hk
        rw [Array.getElem?_eq_getElem hk] at hf
        exact Option.some.inj hf ▸ ht
    · obtain ⟨Φ, ht, seams⟩ := hfit'
      refine ⟨Φ, ht, fun p hp => seams p ?_⟩
      rcases List.mem_cons.mp hp with rfl | hp
      · exact List.mem_cons_self ..
      · exact hp
    · rcases List.mem_cons.mp hc with rfl | hc
      · exact ⟨.refl _, hfit'⟩
      · obtain ⟨hbegin, Φ, ht, seams⟩ := h.codes code hc
        refine ⟨hbegin.trans (hb.trans (.of_eq rfl)), Φ, ht, fun p hp hle => ?_⟩
        rcases List.mem_cons.mp hp with rfl | hp
        · -- the new code is no shorter than the old ones
          have hsize : new.size = code.size :=
            Nat.le_antisymm hle (Nat.le_trans hbegin.size hb.size)
          rw [hsize]
          exact seams _ (List.mem_map_of_mem hc) (Nat.le_refl _)
        · exact seams p hp hle

/-- **The codes of every compiler have typings.** -/
theorem Built.typed {batches : List Batch} (h : Built c fs batches) :
    c.Typed fs (batches.map Batch.code) := by
  induction h with
  | withBuiltins h =>
    obtain ⟨t, rfl, -⟩ := withBuiltins_spec h
    exact typed_fresh rfl
  | withSource h source =>
    obtain ⟨t, rfl, -⟩ := withBuiltins_spec h
    exact typed_fresh rfl
  | addBuiltin _ name ih => exact ih.of_words (congrArg Code.words (code_addBuiltin ..).symm)
  | declareGlobal _ name ih => exact ih.of_words (words_declareGlobal ..).symm
  | compile h program ih =>
    obtain ⟨E, rfl, hs⟩ := h.sound
    rw [List.map_append, Batch.codes_ofAnswer]
    exact ih.compile hs program

end Compiler

/-! ### One typing for all codes -/

/-- **One typing for all codes**: the functions are typed as it says, and so are the codes of a
program, where it expects nothing at the ends of those that were given out. -/
structure Typing.Covers (T : Typing) (fs : Array Function) (codes : List Code) : Prop where
  functions : ∀ f ∈ fs, f.code.HeldTo T (some 0)
  programs : ∀ code ∈ codes, code.HeldTo T none
  seams : ∀ code ∈ codes, ∀ code' ∈ codes, code'.size < code.size →
    T.shape code code'.size = []

namespace Typing

variable {T : Typing} {fs fs' : Array Function} {codes codes' : List Code}

/-- What covers more codes covers some of them. -/
theorem Covers.of_subset (h : T.Covers fs' codes') (hf : ∀ f ∈ fs, f ∈ fs')
    (hc : ∀ code ∈ codes, code ∈ codes') : T.Covers fs codes :=
  ⟨fun f hm => h.functions f (hf f hm), fun code hm => h.programs code (hc code hm),
    fun code hm code' hm' => h.seams code (hc code hm) code' (hc code' hm')⟩

open Classical in
/-- Typings for single codes make one for all of them. A code of a program that is also one of a
function is typed as the former. -/
theorem exists_covers {exact : Bool} (hf : ∀ f ∈ fs, ∃ Φ, f.code.Typed exact Φ (some 0))
    (hc : ∀ code ∈ codes, ∃ Φ, code.Typed exact Φ none ∧
      ∀ code' : Code, code' ∈ codes → code'.size < code.size → Φ code'.size = []) :
    ∃ T : Typing, T.exact = exact ∧ T.Covers fs codes := by
  let shape (code : Code) : Nat → Shape :=
    if h : code ∈ codes then (hc code h).choose
    else if h : ∃ Φ, code.Typed exact Φ (some 0) then h.choose else fun _ => []
  have program {code : Code} (h : code ∈ codes) : shape code = (hc code h).choose := dif_pos h
  refine ⟨⟨exact, shape⟩, rfl, fun f hm => ?_, fun code hm => ?_, fun code hm code' hm' hlt => ?_⟩
  · show f.code.Typed exact (shape f.code) (some 0)
    by_cases h : f.code ∈ codes
    · rw [program h]
      obtain ⟨⟨walk, start, -⟩, -⟩ := (hc f.code h).choose_spec
      exact ⟨walk, start, nofun⟩
    · have heq : shape f.code = (hf f hm).choose := (dif_neg h).trans (dif_pos (hf f hm))
      rw [heq]
      exact (hf f hm).choose_spec
  · show code.Typed exact (shape code) none
    rw [program hm]
    exact (hc code hm).choose_spec.1
  · show shape code code'.size = []
    rw [program hm]
    exact (hc code hm).choose_spec.2 code' hm' hlt

end Typing

namespace Compiler

variable {c : Compiler} {fs : Array Function} {batches : List Batch}

/-- **One typing for all codes of a compiler.** -/
theorem Built.covered (h : Built c fs batches) :
    ∃ T : Typing, T.exact = false ∧ T.Covers fs (batches.map Batch.code) := by
  have ht := h.typed
  refine Typing.exists_covers ht.functions fun code hc => ?_
  obtain ⟨-, Φ, htyped, seams⟩ := ht.codes code hc
  exact ⟨Φ, htyped, fun code' hc' hlt => seams _ (List.mem_map_of_mem hc') (Nat.le_of_lt hlt)⟩

/-- As long as no batch was accepted, there are neither code nor functions. -/
theorem Built.empty (h : Built c fs batches) (hb : batches = []) : c.code.size = 0 ∧ fs = #[] := by
  induction h with
  | withBuiltins h =>
    obtain ⟨t, rfl, -⟩ := withBuiltins_spec h
    exact ⟨rfl, rfl⟩
  | withSource h source => exact ⟨rfl, rfl⟩
  | addBuiltin _ name ih =>
    rw [code_addBuiltin]
    exact ih hb
  | declareGlobal _ name ih =>
    obtain ⟨hs, hf⟩ := ih hb
    exact ⟨(congrArg Array.size (words_declareGlobal ..)).trans hs, hf⟩
  | @compile c fs batches h program ih =>
    obtain ⟨ha, hb⟩ := List.append_eq_nil_iff.mp hb
    obtain ⟨hs, hf⟩ := ih hb
    cases hr : (c.compile fs program).1 with
    | ok code =>
      rw [hr] at ha
      cases ha
    | error e =>
      obtain ⟨E, rfl, hsound⟩ := h.sound
      obtain ⟨hw, hfs⟩ := hsound.compile_refused hr
      exact ⟨(congrArg Array.size hw).trans hs, hfs.trans hf⟩

/-- **An exact typing for the codes of a first batch** in which no break and no continue lies inside
an operand. -/
theorem Built.covered_of_placed {b : Batch} (h : Built c fs batches) (hb : batches = [b])
    (hp : Placed.statements false b.program = true) :
    ∃ T : Typing, T.exact = true ∧ T.Covers fs [b.code] := by
  induction h with
  | withBuiltins h => cases hb
  | withSource h source => cases hb
  | addBuiltin _ name ih => exact ih hb
  | declareGlobal _ name ih => exact ih hb
  | @compile c fs batches h program ih =>
    cases hr : (c.compile fs program).1 with
    | error e =>
      obtain ⟨E, rfl, hsound⟩ := h.sound
      obtain ⟨-, hfs⟩ := hsound.compile_refused hr
      rw [hr] at hb
      rw [hfs]
      exact ih hb
    | ok code =>
      rw [hr] at hb
      obtain ⟨rfl, rfl⟩ : (⟨program, code⟩ : Batch) = b ∧ batches = [] := by
        simpa [Batch.ofAnswer] using hb
      obtain ⟨hsize, rfl⟩ := h.empty rfl
      obtain ⟨E, hE, hsound⟩ := h.sound
      rw [← hE] at hr ⊢
      obtain ⟨s, hs, hcode, hfs⟩ := hsound.compile_accepted hr
      obtain ⟨Φ, hstart, hend, hwalk, hfun⟩ := hsound.shaped true hs fun _ => hp
      rw [hsize] at hstart hwalk
      have walk := hwalk.mono fun _ _ _ _ hi => hi.1
      rw [hfs]
      refine Typing.exists_covers (fun f hf => ?_) fun code' hm => ?_
      · obtain ⟨k, hk, rfl⟩ := Array.getElem_of_mem hf
        obtain ⟨f, hf, ht⟩ := hfun k (by rw [hE]; exact Nat.zero_le _) hk
        rw [Array.getElem?_eq_getElem hk] at hf
        exact Option.some.inj hf ▸ ht
      · obtain rfl := List.mem_singleton.mp hm
        refine ⟨Φ, ⟨?_, hstart, fun _ => .inl ?_⟩, fun code' hm' hlt => ?_⟩
        · rw [hcode]
          exact Code.Walks.of_words (c := s.body.code) (fun _ _ h => h) walk
        · rw [hcode]
          exact hend
        · obtain rfl := List.mem_singleton.mp hm'
          exact absurd hlt (Nat.lt_irrefl _)

end Compiler

end ScriptEngine
