import ScriptEngine.Proofs.Compiler.Typed

/-!
# Seams

The codes that a compiler gives out continue each other. Where one of them ends there is a seam in
all later ones: no jump behind it leads back across it. So control passes every seam once at most.

## Main definitions

* `ScriptEngine.Code.Seam`: a boundary in a code that is never crossed backward;
* `ScriptEngine.Compiler.Joined`: the codes of a compiler are joined at seams.

## Main results

* `ScriptEngine.Code.Seam.stop`, `ScriptEngine.Code.Seam.target`: control behind a seam stays there;
* `ScriptEngine.Compiler.Built.joined`: the codes of every compiler are joined at seams.
-/

namespace ScriptEngine

open ScopeTable

/-- **A seam of a code**: the walk from there to the end meets no jump to before it. -/
structure Code.Seam (c : Code) (b : Nat) : Prop where
  boundary : c.Boundary b
  walk : c.Walks (Instruction.Above b) b c.size

namespace Code.Seam

variable {c c' : Code} {b : Nat} {i : Instruction}

theorem of_words (h : c.Seam b) (hw : c.words = c'.words) : c'.Seam b := by
  have hsize : c'.size = c.size := congrArg Array.size hw.symm
  refine ⟨h.boundary.of_words fun _ _ hx => hw ▸ hx, ?_⟩
  rw [hsize]
  exact h.walk.of_words fun _ _ hx => hw ▸ hx

/-- The end of a code is a seam. -/
theorem end_of (h : c.Boundary c.size) : c.Seam c.size :=
  ⟨h, .refl _⟩

/-- A seam stays one when code is added behind another seam. -/
theorem append (h : c.Seam b) (hc : c.Begins c') (h' : c'.Seam c.size) : c'.Seam b := by
  refine ⟨h.boundary.of_words hc.words, (h.walk.of_words hc.words).trans ?_⟩
  refine h'.walk.mono fun i _ _ _ ha hback => ?_
  exact Nat.le_trans h.walk.le (ha hback)

/-- An instruction behind a seam, which may jump, but not across. -/
theorem above (h : c.Seam b) (hi : c.Has i) (hb : c.Boundary i.offset) (hle : b ≤ i.offset) :
    i.Above b := by
  obtain ⟨j, hj, has, ha, -⟩ := h.walk.instruction (h.boundary.split hb hle) hi.offset_lt
  rwa [has.unique hi hj] at ha

/-- **Behind a seam no jump leads back across it.** -/
theorem target (h : c.Seam b) (hi : c.Has i) (hb : c.Boundary i.offset) (hle : b ≤ i.offset)
    {x : Nat} (hx : i.target? = some x) : b ≤ x := by
  have ha := h.above hi hb hle
  unfold Instruction.target? at hx
  split at hx
  all_goals
    cases hx
  all_goals
    first
      | exact ha ‹_›
      | exact Nat.le_trans hle (Nat.le_add_right ..)

end Code.Seam

namespace Compiler

/-- **The codes of a compiler are joined at seams**: each goes on in the code of the compiler, and
in all codes that are no shorter. -/
structure Joined (c : Compiler) (E : Environment) (codes : List Code) : Prop where
  sound : c.Sound E
  issued : ∀ code ∈ codes, code.Sound E none
  begins : ∀ code ∈ codes, code.Begins c.code
  seam : ∀ code ∈ codes, c.code.Seam code.size
  seams : ∀ code ∈ codes, ∀ code' ∈ codes, code.size ≤ code'.size → code'.Seam code.size
  ends : c.code.size = 0 ∨ ∃ code ∈ codes, c.code.size = code.size

variable {c c' : Compiler} {E E' : Environment} {codes : List Code} {fs : Array Function}
  {batches : List Batch}

/-- A compiler whose code stays as it is. -/
theorem Joined.of_words (h : c.Joined E codes) (hl : Leads c E c' E')
    (hw : c.code.words = c'.code.words) : c'.Joined E' codes where
  sound := hl.sound
  issued code hc := (h.issued code hc).mono hl.le
  begins code hc := (h.begins code hc).trans (.of_eq hw)
  seam code hc := (h.seam code hc).of_words hw
  seams := h.seams
  ends := by
    have hsize : c'.code.size = c.code.size := congrArg Array.size hw.symm
    rw [hsize]
    exact h.ends

/-- **A batch** is joined to the code before it. -/
theorem Joined.compile (h : c.Joined E codes) (program : Program) :
    ∃ E', E'.functions = (c.compile E.functions program).2.2 ∧
      (c.compile E.functions program).2.1.Joined E'
        ((c.compile E.functions program).1.toOption.toList ++ codes) := by
  obtain ⟨E', hE, -, hl⟩ := h.sound.compile program
  refine ⟨E', hE, ?_⟩
  cases hr : (c.compile E.functions program).1 with
  | error e =>
    obtain ⟨hw, -⟩ := h.sound.compile_refused hr
    exact h.of_words hl hw.symm
  | ok code =>
    obtain ⟨s, hs, hcode, -⟩ := h.sound.compile_accepted hr
    obtain ⟨Φ, -, -, hwalk, -⟩ := h.sound.shaped false hs nofun
    have hnew : code = (c.compile E.functions program).2.1.code := by
      rw [h.sound.compile_of_ok hs] at hr ⊢
      exact (Except.ok.inj hr).symm
    have hbegins : c.code.Begins code := hnew ▸ ⟨hl.size, hl.words⟩
    have hwords : s.body.code.words = code.words := by rw [hcode]
    have hsize : s.body.code.size = code.size := congrArg Array.size hwords
    have hboundary : code.Boundary c.code.size := h.sound.code.walk.forget.of_words hbegins.words
    have hseam : code.Seam c.code.size := by
      refine ⟨hboundary, ?_⟩
      rw [← hsize]
      refine Code.Walks.of_words (c := s.body.code) (fun _ _ hx => hwords ▸ hx) ?_
      exact hwalk.mono fun _ _ _ _ hi => hi.2
    have hall : ∀ old ∈ codes, code.Seam old.size := fun old hm =>
      (h.seam old hm).append hbegins hseam
    have hend : code.Seam code.size := .end_of (hnew ▸ hl.sound.code.walk.forget)
    refine ⟨hl.sound, fun old hm => ?_, fun old hm => ?_, fun old hm => ?_,
      fun old hm old' hm' => ?_, .inr ⟨code, List.mem_cons_self, congrArg Code.size hnew.symm⟩⟩
    · rcases List.mem_cons.mp hm with rfl | hm
      · exact hnew ▸ hl.sound.code
      · exact (h.issued old hm).mono hl.le
    · rcases List.mem_cons.mp hm with rfl | hm
      · exact hnew ▸ .refl _
      · exact (h.begins old hm).trans (hnew ▸ hbegins)
    · rw [← hnew]
      rcases List.mem_cons.mp hm with rfl | hm
      · exact hend
      · exact hall old hm
    · rcases List.mem_cons.mp hm with rfl | hold <;> rcases List.mem_cons.mp hm' with rfl | hold'
      · exact fun _ => hend
      · -- an older code is no longer than the new one
        intro hle
        have hge := Nat.le_trans (h.begins old' hold').size hbegins.size
        rw [Nat.le_antisymm hle hge]
        exact h.seams old' hold' old' hold' (Nat.le_refl _)
      · exact fun _ => hall old hold
      · exact h.seams old hold old' hold'

/-- **The codes of every compiler are joined at seams.** -/
theorem Built.joined (h : Built c fs batches) :
    ∃ E, E.functions = fs ∧ c.Joined E (batches.map Batch.code) := by
  have fresh {c : Compiler} {E : Environment} (hs : c.Sound E) (hc : c.code.size = 0) :
      c.Joined E [] :=
    ⟨hs, by simp, by simp, by simp, by simp, .inl hc⟩
  induction h with
  | withBuiltins h =>
    obtain ⟨t, rfl, hw, hs⟩ := withBuiltins_spec h
    exact ⟨.initial t.builtins.size, rfl, fresh (sound_fresh hw hs none none) rfl⟩
  | withSource h source =>
    obtain ⟨t, rfl, hw, hs⟩ := withBuiltins_spec h
    exact ⟨.initial t.builtins.size, rfl, fresh (sound_fresh hw hs (some source) (some source)) rfl⟩
  | addBuiltin _ name ih =>
    obtain ⟨E, rfl, h⟩ := ih
    obtain ⟨E', hf, hl⟩ := h.sound.addBuiltin name
    exact ⟨E', hf, h.of_words hl (congrArg Code.words (code_addBuiltin ..).symm)⟩
  | declareGlobal _ name ih =>
    obtain ⟨E, rfl, h⟩ := ih
    obtain ⟨E', hf, -, hl⟩ := h.sound.declareGlobal name
    exact ⟨E', hf, h.of_words hl (words_declareGlobal ..).symm⟩
  | compile _ program ih =>
    obtain ⟨E, rfl, hold⟩ := ih
    obtain ⟨E', hf, hj⟩ := hold.compile program
    refine ⟨E', hf, ?_⟩
    rw [List.map_append, Batch.codes_ofAnswer]
    exact hj

end Compiler

end ScriptEngine
