import ScriptEngine.Proofs.Compiler.WellFormed
import ScriptEngine.Proofs.Layout.Stores

/-!
# What the stores of batches are for

## Main definitions

* `ScriptEngine.Code.Tells`: the stores of a code and of functions are those of an outline.

## Main results

* `ScriptEngine.Compiler.Built.lexical`: names are lexical in the scopes of every compiler;
* `ScriptEngine.Compiler.Sound.tells`: the stores of a batch are those that its text tells of.
-/

namespace ScriptEngine

open ScopeTable

/-- **The stores of a code and of functions are those of an outline**: those of the code from an
offset on, and those of the functions from the number `first` on. -/
structure Code.Tells (t : ScopeTable) (code : Code) (start : Nat)
    (fs : Array Function) (first : Nat)
    (o : Outline) : Prop where
  stores : Instruction.AreFor t (code.stores start) o.stores
  count : fs.size = first + o.functions.length
  functions : ∀ (k : Nat) (ds : List Destination), o.functions[k]? = some ds →
    ∃ f : Function, fs[first + k]? = some f ∧ Instruction.AreFor t (f.code.stores 0) ds

/-- What a store is for does not change. -/
theorem Instruction.IsFor.retains {t t' : ScopeTable} {i : Instruction} {d : Destination}
    (h : i.IsFor t d) (hr : t.Retains t') : i.IsFor t' d := by
  unfold Instruction.IsFor at h ⊢
  split at h
  · rename_i hop
    rw [if_pos hop]
    exact hr.slots h
  · rename_i hop
    rw [if_neg hop]
    exact h

/-- What an outline tells stays true. -/
theorem Code.Tells.retains {t t' : ScopeTable} {code : Code} {start first : Nat}
    {fs : Array Function} {o : Outline} (h : Code.Tells t code start fs first o)
    (hr : t.Retains t') : Code.Tells t' code start fs first o where
  stores := h.stores.imp fun _ _ hi => hi.retains hr
  count := h.count
  functions k ds hk := by
    obtain ⟨f, hf, hs⟩ := h.functions k ds hk
    exact ⟨f, hf, hs.imp fun _ _ hi => hi.retains hr⟩

namespace Compiler

variable {c : Compiler} {E : Environment} {program : Program}

/-! ### Slots -/

/-- **A batch** takes no slots away, whether it is accepted or refused. -/
theorem Sound.retains_compile (h : c.Sound E) (program : Program) :
    c.table.Retains (c.compile E.functions program).2.1.table := by
  obtain ⟨hok, herr⟩ :=
    (Plan.ofStatements program).keeps_emit False.elim c.table root [] True _ h.inside
  rw [Plan.emit_ofStatements] at hok herr
  cases hs : Generate.statements program (c.starting E.functions) with
  | ok u s =>
    rw [h.compile_of_ok hs]
    have hf := (hok u s hs).grew
    exact .of_grows hf.grows h.table.toIsTree hf.wellFormed.toIsTree
  | error e s =>
    rw [h.compile_of_error hs]
    have hf := herr e s hs
    exact .of_grows hf.grows h.table.toIsTree hf.wellFormed.toIsTree

theorem Sound.retains_declareGlobal (h : c.Sound E) (name : String) :
    c.table.Retains (c.declareGlobal name).2.table := by
  obtain heq | ⟨symbol, t, hd, heq⟩ := c.declareGlobal_cases name
  · rw [heq]
    exact .refl _
  · obtain ⟨hw, g, -⟩ := declare_spec h.table h.table.nonempty hd
    rw [heq]
    exact .of_grows g h.table.toIsTree hw.toIsTree

theorem Sound.retains_addBuiltin (h : c.Sound E) (name : String) :
    c.table.Retains (c.addBuiltin name).2.table ∧
      (c.addBuiltin name).2.globalIndex? = c.globalIndex? := by
  obtain ⟨-, hs⟩ := scopes_addBuiltin h.table name
  refine ⟨.of_scopes hs, funext fun n => ?_⟩
  unfold Compiler.globalIndex? get? scope
  rw [hs]

/-! ### Batches -/

/-- **A batch** keeps names lexical, whether it is accepted or refused. -/
theorem Sound.lexical_compile (h : c.Sound E) (hl : c.table.Lexical) (program : Program) :
    (c.compile E.functions program).2.1.table.Lexical := by
  obtain ⟨hok, herr⟩ :=
    (Plan.ofStatements program).keeps_emit False.elim c.table root [] True _ h.inside
  rw [Plan.emit_ofStatements] at hok herr
  cases hs : Generate.statements program (c.starting E.functions) with
  | ok u s =>
    rw [h.compile_of_ok hs]
    exact (hok u s hs).grew.lexical hl
  | error e s =>
    rw [h.compile_of_error hs]
    exact (herr e s hs).lexical hl

theorem Sound.lexical_declareGlobal (h : c.Sound E) (hl : c.table.Lexical) (name : String) :
    (c.declareGlobal name).2.table.Lexical := by
  obtain heq | ⟨symbol, t, hd, heq⟩ := c.declareGlobal_cases name
  · rw [heq]
    exact hl
  · rw [heq]
    exact hl.declare h.table h.table.nonempty hd

theorem Sound.lexical_addBuiltin (h : c.Sound E) (hl : c.table.Lexical) (name : String) :
    (c.addBuiltin name).2.table.Lexical :=
  hl.of_scopes (scopes_addBuiltin h.table name).2

/-- **Names are lexical** in the scopes of every compiler. -/
theorem Built.lexical {fs : Array Function} {batches : List Batch} (h : Built c fs batches) :
    c.table.Lexical := by
  induction h with
  | withBuiltins h =>
    obtain ⟨t, rfl, -, hs⟩ := withBuiltins_spec h
    exact lexical_of_scopes hs
  | withSource h source =>
    obtain ⟨t, rfl, -, hs⟩ := withBuiltins_spec h
    exact lexical_of_scopes hs
  | addBuiltin h name ih =>
    obtain ⟨E, -, hs⟩ := h.sound
    exact hs.lexical_addBuiltin ih name
  | declareGlobal h name ih =>
    obtain ⟨E, -, hs⟩ := h.sound
    exact hs.lexical_declareGlobal ih name
  | compile h program ih =>
    obtain ⟨E, rfl, hs⟩ := h.sound
    exact hs.lexical_compile ih program

/-- **The stores of a batch** are those that its text tells of. -/
theorem Sound.tells (h : c.Sound E) (hl : c.table.Lexical) {code : Code}
    (hr : (c.compile E.functions program).1 = .ok code) :
    Code.Tells (c.compile E.functions program).2.1.table code c.code.size
      (c.compile E.functions program).2.2 E.functions.size program.outline := by
  cases hs : Generate.statements program (c.starting E.functions) with
  | error e s =>
    rw [h.compile_of_error hs] at hr
    cases hr
  | ok u s =>
    rw [h.compile_of_ok hs] at hr ⊢
    obtain rfl := Except.ok.inj hr
    obtain ⟨S, hfs, hcode, hscope, -, -, hlaid⟩ := h.laid hs
    have hsees := h.sees hscope
    have sp := hlaid.spans hsees
    have hfollows := hlaid.follows (t := s.table) ⟨hsees, hl, .refl _, sp.wellFormed⟩
    obtain ⟨htells, -⟩ := hfollows [] (hscope ▸ .top)
    obtain ⟨is, hlists, hstores⟩ := htells.stores
    rw [hcode] at hlists
    have hlists : s.body.code.Lists c.code.size is s.body.code.size := hlists
    refine ⟨?_, htells.count, fun k ds hk => ?_⟩
    · show Instruction.AreFor s.table (s.body.code.stores c.code.size) _
      rw [hlists.stores rfl]
      exact hstores
    · rw [← hfs]
      exact htells.functions k ds hk

end Compiler

end ScriptEngine
