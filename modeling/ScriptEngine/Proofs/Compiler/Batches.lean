import ScriptEngine.Compiler.Basic
import ScriptEngine.Proofs.Compiler.Scripts
import ScriptEngine.Proofs.Layout.Matched

/-!
# Batches

Between two batches nothing is open in a compiler. A batch that is refused leaves neither code nor
anything open behind, wherever in the tree it was refused, because all that it emitted lies behind
the code of earlier batches.

## Main definitions

* `ScriptEngine.Shift.between`: the shift from a table to one that grew from it;
* `ScriptEngine.Compiler.Idle`: nothing is open in a compiler;
* `ScriptEngine.Compiler.starting`: the state in which a batch is compiled.

## Main results

* `ScriptEngine.Compiler.Idle.compile_of_ok`, `ScriptEngine.Compiler.Idle.compile_of_error`: what a
  batch leaves behind.
-/

namespace ScriptEngine

open ScopeTable

namespace Shift

variable {t t' : ScopeTable}

/-- **The shift from a table to one that grew from it.** Names that were declared at the top in
between are hidden. -/
def between (h : t.WellFormed) (h' : t'.WellFormed) (g : t.Grows t') : Shift where
  scopes := t.scopes.size
  scopes' := t'.scopes.size
  slots := (t.scope root).slots
  slots' := (t'.scope root).slots
  hidden name := t'.get? root name ≠ t.get? root name
  scopes_pos := h.nonempty
  scopes_pos' := h'.nonempty
  slots_le := (g.scope root h.nonempty).slots

/-- Slots that were given out before stay the same. -/
theorem slot_of_lt {θ : Shift} {w : Word} (h : w.toNat < θ.slots) : θ.slot w = w :=
  if_pos h

theorem tables_between (h : t.WellFormed) (h' : t'.WellFormed) (g : t.Grows t') :
    (between h h' g).Tables t t' where
  left := h
  right := h'
  origin := Nat.le_refl _
  size := Nat.add_comm ..
  builtinIndex := g.builtinIndex
  slots_le := Nat.le_refl _
  slots := Nat.add_comm ..
  scopes _ hs hlt := absurd hlt (Nat.not_lt_of_le hs)
  names s hv hlt name hn := by
    -- the outermost scope is the only one that can be seen
    obtain rfl := hv.resolve_right (Nat.not_le_of_lt hlt)
    have heq : t'.get? root name = t.get? root name := not_not.mp hn
    rw [scope_root, isGlobal_root h.toIsTree]
    refine heq.trans ?_
    show t.get? root name = (t.get? root name).map _
    cases hg : t.get? root name with
    | none => rfl
    | some symbol =>
      have hlt := (h.names root name symbol hg).2
      rw [Tables.slotCount_root h.toIsTree] at hlt
      show some symbol = some { symbol with index := _ }
      rw [slot_of_lt (θ := between h h' g) hlt]

end Shift

namespace Compiler

variable {c : Compiler} {fs : Array Function}

/-- **Nothing is open**: neither a function nor a loop, a pipe or a block. -/
structure Idle (c : Compiler) : Prop where
  scope : c.main.scope = root
  loops : c.main.loops = []
  inPipe : c.main.inPipe = false
  units : c.units = []

/-- The state in which a batch is compiled. -/
def starting (c : Compiler) (fs : Array Function) : Emission where
  table := c.table
  body := { code := c.code, scope := root }
  source := c.source
  functions := fs

/-- A compiler with other scopes and another code, in which nothing is open. -/
def withProgram (c : Compiler) (table : ScopeTable) (code : Code) : Compiler :=
  { c with table, main := { code, scope := root }, units := [] }

theorem Idle.emission (h : c.Idle) : c.emission fs = c.starting fs := by
  obtain ⟨table, ⟨code, scope, loops, inPipe⟩, units, source⟩ := c
  obtain ⟨rfl, rfl, rfl, rfl⟩ := h
  rfl

/-- A program that is emitted becomes part of the code. -/
theorem Idle.compile_of_ok (h : c.Idle) {program : Program} {s : Emission}
    (hs : Generate.statements program (c.starting fs) = .ok () s)
    (hb : s.body = { code := s.body.code, scope := root }) (he : s.enclosing = []) :
    c.compile fs program = (.ok { s.body.code with globalCount := s.table.slotCount root },
      (c.withProgram s.table s.body.code).countGlobals, s.functions) := by
  obtain ⟨table, body, enclosing, source, functions⟩ := s
  obtain rfl : enclosing = [] := he
  rw [← h.emission] at hs
  rw [Compiler.compile_of_ok hs]
  unfold afterEmission
  dsimp only [List.getLastD_nil, List.dropLast_singleton] at hb ⊢
  rw [hb]
  rfl

/-! ### Refused batches -/

/-- The pairing of compilers whose scopes differ by a shift, for what they compile next. -/
def pairing (θ : Shift) (c c' : Compiler) (count : Nat) : Pairing :=
  { θ with old := c.code, start := c'.code.size, count }

theorem alike_starting {θ : Shift} {c' : Compiler} {fs' : Array Function} {count : Nat}
    (ht : θ.Tables c.table c'.table)
    (hcode : c'.code = { c.code with words := c'.code.words, globalCount := c'.code.globalCount })
    (hsource : c'.source = c.source) (hsize : fs'.size = fs.size)
    (hfs : ∀ i f, count ≤ i → fs[i]? = some f → ∃ g, fs'[i]? = some g ∧ θ.Functions f g) :
    (pairing θ c c' count).Alike (c.starting fs) (c'.starting fs') where
  tables := ht
  visible := .inl rfl
  known := ht.left.nonempty
  scope := Shift.scope_root.symm
  extends_old := .refl _
  code := hcode
  parallel := .refl _ _
  loops := .nil
  inPipe := rfl
  nested := rfl
  source := hsource
  functions_size := hsize
  functions := hfs

/-- **Wherever a batch is refused**, the outermost body goes on behind the code of the compiler. -/
theorem extends_of_error (h : c.table.WellFormed) {program : Program} {e : CompileError}
    {s : Emission} (hs : Generate.statements program (c.starting fs) = .error e s) :
    c.code.Extends (s.enclosing.getLastD s.body).code := by
  -- the same program is emitted twice
  let φ := pairing (.between h h (.refl _)) c c fs.size
  have halike : φ.Alike (c.starting fs) (c.starting fs) :=
    alike_starting (Shift.tables_between h h (.refl _)) rfl rfl rfl fun _ _ hi hf =>
      absurd (Array.getElem?_eq_some_iff.mp hf).1 (Nat.not_lt_of_le hi)
  have hrun := (Plan.ofStatements program).matched φ .always
    (fun _ _ hn => hn rfl) _ _ halike trivial
  rw [Plan.emit_ofStatements, hs] at hrun
  cases hrun with
  | error hr =>
    obtain ⟨⟨inner, b, hb, hext⟩, -⟩ := hr
    have hlast := congrArg (List.getLastD · s.body) hb
    dsimp only [starting] at hlast
    rw [List.getLastD_cons, List.getLastD_concat] at hlast
    rwa [hlast]
  | gaveUp hg => exact absurd hg.2.2 (Nat.lt_irrefl _)

theorem Idle.withProgram_code (h : c.Idle) (table : ScopeTable) :
    c.withProgram table c.code = { c with table } := by
  obtain ⟨_, ⟨code, scope, loops, inPipe⟩, units, source⟩ := c
  obtain ⟨rfl, rfl, rfl, rfl⟩ := h
  rfl

/-- **Of a program that is refused**, only what was declared at the top remains. -/
theorem Idle.compile_of_error (h : c.Idle) (hw : c.table.WellFormed) {program : Program}
    {e : CompileError} {s : Emission}
    (hs : Generate.statements program (c.starting fs) = .error e s) :
    c.compile fs program = (.error e, { c with table := s.table }.countGlobals, fs) := by
  have hcode := (extends_of_error hw hs).truncate
  unfold Compiler.compile
  dsimp only
  rw [h.emission, hs]
  show (Except.error e, ({ c with
      table := s.table
      main := {
        code := { (s.enclosing.getLastD s.body).code.truncate c.code.size c.code.constants.size
          c.code.names.size with globalCount := s.table.slotCount root }
        scope := root }
      units := [] } : Compiler), fs) = _
  rw [hcode, ← h.withProgram_code]
  rfl

end Compiler

end ScriptEngine
