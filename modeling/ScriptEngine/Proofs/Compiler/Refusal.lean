import ScriptEngine.Embed.Engine
import ScriptEngine.Proofs.Compiler.WellFormed

/-!
# Refused batches

A batch that is refused leaves nothing but names behind, and a batch that is accepted appends to the
code. So two compilers of which one refused a batch stay twins: whatever they compile afterwards,
they give out the same codes, up to the slots of globals that are new since then, as long as no
program mentions a name of the refused batch.

## Main definitions

* `ScriptEngine.Code.Renumbered`, `ScriptEngine.Function.Renumbered`: the same code and the same
  function, up to the slots of globals;
* `ScriptEngine.Compiler.Twins`: compilers that differ by a shift;
* `ScriptEngine.Compiler.compileAll`: batches in a row.

## Main results

* `ScriptEngine.Compiler.Twins.compile`, `ScriptEngine.Compiler.Twins.compileAll`: twins give the
  same answers and stay twins;
* `ScriptEngine.Compiler.Built.batch_atomic`: batches are all or nothing.
-/

namespace ScriptEngine

open ScopeTable

/-! ### The same code -/

/-- **The same code up to the slots of globals.** -/
structure Code.Renumbered (ρ : Word → Word) (a b : Code) : Prop where
  instructions : ∃ is, a.decode = .ok is ∧ b.decode = .ok (is.map (·.renumber ρ))
  rest : b = { a with words := b.words, globalCount := b.globalCount }

/-- The same function up to the slots of globals. -/
structure Function.Renumbered (ρ : Word → Word) (f g : Function) : Prop where
  code : f.code.Renumbered ρ g.code
  rest : g = { f with code := g.code }

/-- **The same answer**: the same refusal, or the same code up to the slots of globals. -/
inductive SameAnswer (ρ : Word → Word) :
    Except CompileError Code → Except CompileError Code → Prop where
  | ok {a b : Code} (h : a.Renumbered ρ b) : SameAnswer ρ (.ok a) (.ok b)
  | error (e : CompileError) : SameAnswer ρ (.error e) (.error e)

/-- **The slot of a global in a table that grew.** What had a slot before keeps it, and what is new
comes after everything in the table. -/
def ScopeTable.reslot (t t' : ScopeTable) (w : Word) : Word :=
  if w.toNat < t.slotCount root then w
  else (w.toNat - t.slotCount root + t'.slotCount root).toUInt16

/-- **A program mentions a name**: it looks it up or declares it, whatever the name refers to. -/
def Program.Mentions (program : Program) (name : String) : Prop :=
  (Plan.ofStatements program).Mentions name

/-- A legal instruction keeps the slot of its global if all globals that exist keep theirs. -/
theorem Instruction.Legal.renumber_eq {E : Environment} {c : Code} {own : Nat} {target : Nat → Prop}
    {ρ : Word → Word} {i : Instruction} (h : i.Legal E c own target)
    (hl : i.operands.length = i.op.operandCount)
    (hρ : ∀ w : Word, w.toNat < E.globals → ρ w = w) : i.renumber ρ = i := by
  cases hop : i.op.namesGlobal with
  | false => exact Code.Pending.renumber_eq hop
  | true =>
    obtain ⟨offset, op, operands⟩ := i
    have single (hcount : op.operandCount = 1) (hlt : (operands.headD 0).toNat < E.globals) :
        Instruction.renumber ρ ⟨offset, op, operands⟩ = ⟨offset, op, operands⟩ := by
      obtain ⟨w, rfl⟩ := List.length_eq_one_iff.mp (hl.trans hcount)
      unfold Instruction.renumber Opcode.renumber
      rw [if_pos hop, List.map_singleton, hρ w hlt]
    rcases Bool.or_eq_true_iff.mp hop with he | he
    · obtain rfl : op = .loadGlobal := eq_of_beq he
      exact single rfl h
    · obtain rfl : op = .storeGlobal := eq_of_beq he
      exact single rfl h

namespace Code

variable {ρ : Word → Word} {a b : Code} {p q : Nat}

/-- Instructions that stay as they are lie side by side with themselves. -/
theorem Walks.parallel (h : a.Walks (fun i => i.renumber ρ = i) p q) : Parallel ρ a a p p q q := by
  induction h with
  | refl p => exact .refl p p
  | step start has prop _ ih =>
    subst start
    refine .step rfl has ?_ ih
    rw [prop]
    exact has

theorem Sound.parallel {E : Environment} {own : Option Nat} (h : a.Sound E own)
    (hρ : ∀ w : Word, w.toNat < E.globals → ρ w = w) : Parallel ρ a a 0 0 a.size a.size :=
  (h.walk.mono fun _ hi _ _ hl => hl.renumber_eq hi.2 hρ).parallel

/-- Codes that lie side by side as a whole are the same code. -/
theorem Parallel.renumbered (h : Parallel ρ a b 0 0 a.size b.size)
    (hr : b = { a with words := b.words, globalCount := b.globalCount }) : a.Renumbered ρ b :=
  ⟨h.decodeFrom rfl rfl rfl, hr⟩

/-- The number of globals that a code was told does not matter. -/
theorem Renumbered.withGlobals (h : a.Renumbered ρ b) (m n : Nat) :
    Renumbered ρ { a with globalCount := m } { b with globalCount := n } := by
  refine ⟨h.instructions, ?_⟩
  rw [h.rest]

end Code

/-- Functions that differ by a shift are the same up to the slots of globals. -/
theorem Shift.Functions.renumbered {θ : Shift} {f g : Function} (h : θ.Functions f g) :
    f.Renumbered θ.slot g :=
  ⟨h.parallel.renumbered h.code, h.same⟩

/-- The slots of a shift between two tables are those of the table that grew. -/
theorem Shift.slot_between {t t' : ScopeTable} (h : t.WellFormed) (h' : t'.WellFormed)
    (g : t.Grows t') : (Shift.between h h' g).slot = t.reslot t' := by
  funext w
  unfold Shift.slot ScopeTable.reslot
  rw [Tables.slotCount_root h.toIsTree, Tables.slotCount_root h'.toIsTree]
  rfl

namespace Compiler

/-! ### Twins -/

/-- **Compilers that differ by a shift** of scopes and slots: their codes and their functions are
the same, up to the slots of globals. -/
structure Twins (θ : Shift) (c c' : Compiler) (E E' : Environment) : Prop where
  left : c.Sound E
  right : c'.Sound E'
  tables : θ.Tables c.table c'.table
  code : c'.code = { c.code with words := c'.code.words, globalCount := c'.code.globalCount }
  parallel : Code.Parallel θ.slot c.code c'.code 0 0 c.code.size c'.code.size
  source : c'.source = c.source
  functions_size : E'.functions.size = E.functions.size
  functions : ∀ (i : Nat) (f : Function), E.functions[i]? = some f →
    ∃ g, E'.functions[i]? = some g ∧ θ.Functions f g

/-- **Batches in a row**, with all answers. -/
def compileAll (c : Compiler) (fs : Array Function) :
    List Program → List (Except CompileError Code) × Compiler × Array Function
  | [] => ([], c, fs)
  | program :: rest =>
    let (answer, c, fs) := c.compile fs program
    let (answers, c, fs) := c.compileAll fs rest
    (answer :: answers, c, fs)

variable {θ : Shift} {c c' : Compiler} {E E' : Environment} {program : Program}

theorem Sound.isFull (h : c.Sound E) : c.table.IsFull ↔ slotLimit ≤ E.globals := by
  rw [h.globals, h.globalCount]
  rfl

/-- **Both twins accept a batch**, and stay twins. -/
theorem Twins.accepted (h : Twins θ c c' E E') {s t : Emission}
    (hs : Generate.statements program (c.starting E.functions) = .ok () s)
    (ht : Generate.statements program (c'.starting E'.functions) = .ok () t)
    (ha : (pairing θ c c' 0).Alike s t) :
    ∃ E₁ E₁', E₁.functions = s.functions ∧ E₁'.functions = t.functions ∧
      Twins θ (c.withProgram s.table s.body.code).countGlobals
        (c'.withProgram t.table t.body.code).countGlobals E₁ E₁' := by
  obtain ⟨E₁, hE, -, hl⟩ := h.left.accepted hs
  obtain ⟨E₁', hE', -, hl'⟩ := h.right.accepted ht
  have hsource : c'.source = c.source := h.source
  have hcode := ha.code
  -- on both sides, the new code lies behind the old one
  have hold := h.parallel.of_words (c := s.body.code) (d := t.body.code)
    (fun x w _ _ hw => hl.words x w hw) fun x w _ _ hw => hl'.words x w hw
  have hparallel := hold.trans ha.parallel
  refine ⟨E₁, E₁', hE, hE', hl.sound, hl'.sound, ha.tables, ?_, ?_, hsource, ?_, ?_⟩
  · show ({ t.body.code with globalCount := _ } : Code) = _
    rw [hcode]
    rfl
  · exact hparallel.of_words (fun _ _ _ _ hw => hw) fun _ _ _ _ hw => hw
  · rw [hE, hE']
    exact ha.functions_size
  · rw [hE, hE']
    exact fun i f hf => ha.functions i f (Nat.zero_le i) hf

/-- **Twins give the same answer and stay twins**, unless the second one has no slots left. -/
theorem Twins.compile (h : Twins θ c c' E E')
    (hm : ∀ name, program.Mentions name → ¬ θ.hidden name) :
    (c'.compile E'.functions program).2.1.table.IsFull ∨
      ∃ E₁ E₁', E₁.functions = (c.compile E.functions program).2.2 ∧
        E₁'.functions = (c'.compile E'.functions program).2.2 ∧
        SameAnswer θ.slot (c.compile E.functions program).1 (c'.compile E'.functions program).1 ∧
        Twins θ (c.compile E.functions program).2.1
          (c'.compile E'.functions program).2.1 E₁ E₁' := by
  have halike : (pairing θ c c' 0).Alike (c.starting E.functions) (c'.starting E'.functions) :=
    alike_starting h.tables h.code h.source h.functions_size fun i f _ hf => h.functions i f hf
  have hrun := (Plan.ofStatements program).matched (pairing θ c c' 0) .always hm _ _ halike trivial
  rw [Plan.emit_ofStatements] at hrun
  replace hrun := hrun.ends
  generalize hx : Generate.statements program (c.starting E.functions) = x at hrun
  generalize hy : Generate.statements program (c'.starting E'.functions) = y at hrun
  cases hrun with
  | ok hr =>
    right
    obtain ⟨⟨ha, -, -⟩, -, -⟩ := hr
    obtain ⟨E₁, E₁', hE, hE', ht⟩ := h.accepted hx hy ha
    rw [h.left.compile_of_ok hx, h.right.compile_of_ok hy]
    exact ⟨E₁, E₁', hE, hE', .ok (ht.parallel.renumbered ht.code), ht⟩
  | error hr =>
    right
    obtain ⟨-, ht⟩ := hr
    have hl := h.left.compile program
    have hl' := h.right.compile program
    rw [h.left.compile_of_error hx] at hl ⊢
    rw [h.right.compile_of_error hy] at hl' ⊢
    obtain ⟨E₁, hE, -, hl⟩ := hl
    obtain ⟨E₁', hE', -, hl'⟩ := hl'
    refine ⟨E₁, E₁', hE, hE', .error _, hl.sound, hl'.sound, ht, ?_, ?_, h.source, ?_, ?_⟩
    · show ({ c'.code with globalCount := _ } : Code) = _
      rw [h.code]
      rfl
    · exact h.parallel.of_words (fun _ _ _ _ hw => hw) fun _ _ _ _ hw => hw
    · rw [hE, hE']
      exact h.functions_size
    · rw [hE, hE']
      exact h.functions
  | gaveUp hg =>
    left
    rw [h.right.compile_of_error hy]
    exact hg.2.1

/-- A compiler without free slots never gets any. -/
theorem Sound.isFull_compileAll (programs : List Program) :
    ∀ {c : Compiler} {E : Environment}, c.Sound E → c.table.IsFull →
      (c.compileAll E.functions programs).2.1.table.IsFull := by
  induction programs with
  | nil => exact fun _ hfull => hfull
  | cons program rest ih =>
    intro c E h hfull
    obtain ⟨E₁, hE, -, hl⟩ := h.compile program
    have := ih hl.sound (hl.sound.isFull.mpr (Nat.le_trans (h.isFull.mp hfull) hl.le.globals))
    rwa [hE] at this

/-- **Twins give the same answers** to all batches in a row, as long as the second one has slots
left. -/
theorem Twins.compileAll (programs : List Program) :
    ∀ {c c' : Compiler} {E E' : Environment}, Twins θ c c' E E' →
      (∀ program ∈ programs, ∀ name, program.Mentions name → ¬ θ.hidden name) →
      (c'.compileAll E'.functions programs).2.1.table.IsFull ∨
        ∃ E₁ E₁', E₁.functions = (c.compileAll E.functions programs).2.2 ∧
          E₁'.functions = (c'.compileAll E'.functions programs).2.2 ∧
          List.Forall₂ (SameAnswer θ.slot) (c.compileAll E.functions programs).1
            (c'.compileAll E'.functions programs).1 ∧
          Twins θ (c.compileAll E.functions programs).2.1 (c'.compileAll E'.functions programs).2.1
            E₁ E₁' := by
  induction programs with
  | nil => exact fun h _ => .inr ⟨_, _, rfl, rfl, .nil, h⟩
  | cons program rest ih =>
    intro c c' E E' h hm
    rcases h.compile (hm program (List.mem_cons_self ..)) with hfull | ⟨E₁, E₁', hE, hE', ha, ht⟩
    · -- nothing is known of twins that ran out of slots, but that they stay so
      left
      obtain ⟨E₁', hE', -, hl⟩ := h.right.compile program
      have := Sound.isFull_compileAll rest hl.sound hfull
      rwa [hE'] at this
    · have hrest := ih ht fun p hp => hm p (List.mem_cons_of_mem _ hp)
      rw [hE, hE'] at hrest
      rcases hrest with hfull | ⟨E₂, E₂', h₂, h₂', has, ht⟩
      · exact .inl hfull
      · exact .inr ⟨E₂, E₂', h₂, h₂', .cons ha has, ht⟩

/-! ### Batches are all or nothing -/

/-- **A batch only adds to the scopes**, whether it is accepted or refused. -/
theorem Sound.grows_compile (h : c.Sound E) (program : Program) :
    c.table.Grows (c.compile E.functions program).2.1.table := by
  obtain ⟨hok, herr⟩ :=
    (Plan.ofStatements program).keeps_emit False.elim c.table root [] True _ h.inside
  rw [Plan.emit_ofStatements] at hok herr
  cases hs : Generate.statements program (c.starting E.functions) with
  | ok u s =>
    rw [h.compile_of_ok hs]
    exact (hok u s hs).grew.grows
  | error e s =>
    rw [h.compile_of_error hs]
    exact (herr e s hs).grows

/-- **A compiler that refused a batch** and one that never saw it are twins. -/
theorem Sound.twins (h : c.Sound E) {e : CompileError} {s : Emission}
    (hs : Generate.statements program (c.starting E.functions) = .error e s) :
    ∃ (E' : Environment) (g : c.table.Grows s.table) (hw : s.table.WellFormed),
      E'.functions = E.functions ∧
        Twins (.between h.table hw g) c { c with table := s.table }.countGlobals E E' := by
  have hl := h.compile program
  have g := h.grows_compile program
  rw [h.compile_of_error hs] at hl g
  obtain ⟨E', hE, -, hl⟩ := hl
  have hw : s.table.WellFormed := hl.sound.table
  refine ⟨E', g, hw, hE, ?_⟩
  have fixed (w : Word) (hlt : w.toNat < E.globals) : (Shift.between h.table hw g).slot w = w := by
    refine Shift.slot_of_lt ?_
    rwa [h.globals, h.globalCount, Shift.Tables.slotCount_root h.table.toIsTree] at hlt
  have hparallel := h.code.parallel fixed
  refine ⟨h, hl.sound, Shift.tables_between h.table hw g, rfl,
    ?_, rfl, by rw [hE], fun i f hf => ?_⟩
  · exact hparallel.of_words (fun _ _ _ _ hx => hx) fun _ _ _ _ hx => hx
  · rw [hE]
    exact ⟨f, hf, rfl, rfl, (h.functions i f hf).code.parallel fixed⟩

/-- **Batches are all or nothing.** A batch that is refused, wherever in it the error lies, leaves
the words, the constants, the names and the functions as they were; one that is accepted appends to
them. Either way nothing stays open, a global keeps its slot, its constness and its value. What is
compiled after a refusal and mentions no name that the refused batch declared is compiled as if that
batch had never been there, up to the slots of globals that are new since then, unless there are no
slots left. -/
theorem Built.batch_atomic {fs : Array Function} {batches : List Batch} (h : Built c fs batches)
    (program : Program) :
    let after := (c.compile fs program).2.1
    (∀ e, (c.compile fs program).1 = .error e →
      after.code.words = c.code.words ∧ after.code.constants = c.code.constants ∧
        after.code.names = c.code.names ∧ (c.compile fs program).2.2 = fs ∧
        ∀ programs : List Program, (∀ p ∈ programs, ∀ name, p.Mentions name →
            after.table.get? root name = c.table.get? root name) →
          (after.compileAll fs programs).2.1.table.IsFull ∨
            List.Forall₂ (SameAnswer (c.table.reslot after.table)) (c.compileAll fs programs).1
              (after.compileAll fs programs).1 ∧
            (after.compileAll fs programs).2.2.size = (c.compileAll fs programs).2.2.size ∧
            ∀ (i : Nat) (f : Function), (c.compileAll fs programs).2.2[i]? = some f →
              ∃ g, (after.compileAll fs programs).2.2[i]? = some g ∧
                f.Renumbered (c.table.reslot after.table) g) ∧
    (∀ code, (c.compile fs program).1 = .ok code → code = after.code ∧
      c.code.words.toList <+: code.words.toList ∧
        c.code.constants.toList <+: code.constants.toList ∧
        c.code.names.toList <+: code.names.toList ∧
        fs.toList <+: (c.compile fs program).2.2.toList) ∧
    after.Idle ∧
    (∀ name symbol, c.table.get? root name = some symbol →
      after.table.get? root name = some symbol) ∧
    ∀ e : Engine, e.compiler = c → e.system.world.heap.functions = fs → ∀ name v,
      e.get? name = some v → (e.compile program).2.get? name = some v := by
  obtain ⟨E, rfl, hsound⟩ := h.sound
  obtain ⟨E', -, -, hl⟩ := hsound.compile program
  have g := hsound.grows_compile program
  have kept : ∀ name symbol, c.table.get? root name = some symbol →
      (c.compile E.functions program).2.1.table.get? root name = some symbol :=
    fun name symbol hn => (g.scope root hsound.table.nonempty).names name symbol hn
  refine ⟨fun e he => ?_, fun code hok => ?_, hl.sound.idle, kept, ?_⟩
  · cases hs : Generate.statements program (c.starting E.functions) with
    | ok u s =>
      rw [hsound.compile_of_ok hs] at he
      cases he
    | error e' s =>
      obtain ⟨E₁, g, hw, hE, ht⟩ := hsound.twins hs
      rw [hsound.compile_of_error hs]
      refine ⟨rfl, rfl, rfl, rfl, fun programs hm => ?_⟩
      -- without the names of the refused batch, both compilers go on alike but for the slots
      have hall := ht.compileAll programs fun p hp name hn => not_not.mpr (hm p hp name hn)
      rw [hE, Shift.slot_between] at hall
      rcases hall with hfull | ⟨E₂, E₂', hE₂, hE₂', ha, ht⟩
      · exact .inl hfull
      · refine .inr ⟨ha, ?_, fun i f hf => ?_⟩
        · rw [← hE₂, ← hE₂']
          exact ht.functions_size
        · rw [← hE₂] at hf
          obtain ⟨f', hf', hr⟩ := ht.functions i f hf
          refine ⟨f', hE₂' ▸ hf', ?_⟩
          have := hr.renumbered
          rwa [Shift.slot_between] at this
  · cases hs : Generate.statements program (c.starting E.functions) with
    | error e' s =>
      rw [hsound.compile_of_error hs] at hok
      cases hok
    | ok u s =>
      rw [hsound.compile_of_ok hs] at hok ⊢
      obtain rfl := Except.ok.inj hok
      have e := (hsound.emits hs).grows
      refine ⟨rfl, List.prefix_iff_getElem?.mpr fun i hi => ?_, e.constants, e.names, e.functions⟩
      rw [Array.getElem?_toList, Array.getElem_toList, ← Array.getElem?_eq_getElem]
      exact e.words i hi
  · rintro e rfl hfs name v hv
    obtain ⟨slot, hslot, rfl⟩ := Option.map_eq_some_iff.mp hv
    obtain ⟨symbol, hs, rfl⟩ := Option.map_eq_some_iff.mp hslot
    rw [← hfs] at kept
    refine Option.map_eq_some_iff.mpr ⟨symbol.index, ?_, rfl⟩
    exact Option.map_eq_some_iff.mpr ⟨symbol, kept name symbol hs, rfl⟩

/-- A batch that is refused inside the loop of a function, and a batch after it. -/
theorem Built.atomic_of_short_pipe :
    let refused : Program := [.expr (.int 1),
      .expr (.func (.mk none [] [.endlessLoop [.expr (.pipe [.int 2])]]))]
    let next : Program := [.expr (.list [.int 3])]
    let after := (Compiler.compile {} #[] refused).2.1
    (Compiler.compile {} #[] refused).1.isOk = false ∧ after.code.words = #[] ∧
      after.code.constants = #[] ∧ after.Idle ∧
      List.Forall₂ (SameAnswer (ScopeTable.empty.reslot after.table))
        (Compiler.compileAll {} #[] [next]).1 (after.compileAll #[] [next]).1 := by
  intro refused next after
  have fresh : Compiler.withBuiltins [] = .ok {} := rfl
  have hb : Built {} #[] [] := .withBuiltins fresh
  have herror : (Compiler.compile {} #[] refused).1.isOk = false := by decide +kernel
  have hroom : ¬ (after.compileAll #[] [next]).2.1.table.IsFull := by
    unfold ScopeTable.IsFull
    decide +kernel
  obtain ⟨hrefused, -, hidle, -⟩ := hb.batch_atomic refused
  cases ha : (Compiler.compile {} #[] refused).1 with
  | ok code =>
    rw [ha] at herror
    cases herror
  | error e =>
    obtain ⟨hwords, hconstants, -, -, hnext⟩ := hrefused e ha
    refine ⟨rfl, hwords, hconstants, hidle,
      ((hnext [next] fun p hp name hn => ?_).resolve_left hroom).1⟩
    obtain rfl := List.mem_singleton.mp hp
    simp [Program.Mentions, next, Plan.ofStatements, Plan.ofStatement, Plan.ofExpr, Plan.ofExprs,
      Plan.atMost, Statement.isExpression, Plan.Mentions] at hn

end Compiler

end ScriptEngine
