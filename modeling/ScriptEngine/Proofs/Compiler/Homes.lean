import ScriptEngine.Proofs.Compiler.Assignments
import ScriptEngine.Proofs.Compiler.Stores
import ScriptEngine.Proofs.Compiler.Typed
import ScriptEngine.Proofs.Layout.Homes

/-!
# Where compiled code is at home

Every function that a compiler has given out is at home in a scope of its own, and the codes of its
batches are at home in the outermost scope, which declares the globals.

## Main definitions

* `ScriptEngine.Residence`: the scopes of compiled code;
* `ScriptEngine.Residence.Sound`: all code is at home in its scope.

## Main results

* `ScriptEngine.Compiler.Built.resides`: the code of every compiler is at home in its scopes.
-/

namespace ScriptEngine

open ScopeTable

/-- **The scopes of compiled code**: one for each function, and the outermost one for the codes of
programs. -/
structure Residence where
  table : ScopeTable
  homes : List ScopeId
  functions : Array Function
  codes : List Code

/-- **All code is at home** in its scope. -/
structure Residence.Sound (R : Residence) : Prop where
  lexical : R.table.Lexical
  length : R.homes.length = R.functions.size
  functions : ∀ (k : Nat) s, R.homes[k]? = some s →
    ∃ f, R.functions[k]? = some f ∧ f.Housed R.table R.homes s
  distinct : R.homes.Nodup
  codes : ∀ code ∈ R.codes, ∃ is, code.Settles R.table R.homes root 0 0 is code.size

namespace Residence

variable {t t' : ScopeTable} {homes : List ScopeId} {fs : Array Function} {codes codes' : List Code}

/-- The table may know more. -/
theorem Sound.continues (h : Sound ⟨t, homes, fs, codes⟩) (ht : t.Continues t') (hl : t'.Lexical)
    (hc : ∀ code' ∈ codes', ∃ code ∈ codes, code'.words = code.words ∧
      code'.constants = code.constants) :
    Sound ⟨t', homes, fs, codes'⟩ where
  lexical := hl
  length := h.length
  functions k s hk := by
    obtain ⟨f, hf, hhoused⟩ := h.functions k s hk
    exact ⟨f, hf, hhoused.continues ht hl (List.prefix_refl _)⟩
  distinct := h.distinct
  codes code' hm := by
    obtain ⟨code, hm, hwords, hconstants⟩ := hc code' hm
    obtain ⟨is, hcode⟩ := h.codes code hm
    have hsize : code'.size = code.size := congrArg Array.size hwords
    rw [hsize]
    exact ⟨is, (hcode.continues ht hl (List.prefix_refl _)).of_words (fun _ _ h => hwords ▸ h)
      fun _ _ h => hconstants ▸ h⟩

end Residence

namespace Compiler

variable {c : Compiler} {E : Environment} {fs : Array Function} {batches : List Batch}
  {homes : List ScopeId} {codes : List Code}

/-- Between two batches, all code is at home: that of the functions, and all codes of the
program. -/
def Resides (c : Compiler) (fs : Array Function) (codes : List Code)
    (homes : List ScopeId) : Prop :=
  Residence.Sound ⟨c.table, homes, fs, c.code :: codes⟩

/-- **A batch that is accepted** is at home behind the others. -/
theorem Sound.resides_accepted (h : c.Sound E) (hr : c.Resides E.functions codes homes) {l : Layer}
    (hl : l.scope = root) (ht : c.table.Faithful [l]) {program : Program} {s : Emission}
    (hs : Generate.statements program (c.starting E.functions) = .ok () s) :
    ∃ more, Residence.Sound ⟨s.table, homes ++ more, s.functions,
      s.body.code :: c.code :: codes⟩ := by
  obtain ⟨S, hfun, hcode, hscope, -, -, hlaid⟩ := h.laid hs
  have hsees := h.sees hscope
  have hmade := Plan.Laid.made _ hlaid hsees
  have sp := hmade.spans hsees
  have hlex := sp.lexical hr.lexical
  obtain ⟨-, more, hset⟩ := hmade.settled hsees hr.lexical ht (hl.trans hscope.symm) hr.length
  have e := h.emits hs
  have hw : s.table.WellFormed := sp.wellFormed
  have hg : c.table.Continues s.table := .of_grows sp.grows h.table.toIsTree hw.toIsTree
  have hroot : s.table.functionScope S.scope = root := by
    rw [hscope, functionScope_root hw.toIsTree]
  have hpre : homes <+: homes ++ more := List.prefix_append ..
  have hlen : homes.length = E.functions.size := hr.length
  have old {code : Code} (hm : code ∈ c.code :: codes) :
      ∃ is, code.Settles s.table (homes ++ more) root 0 0 is code.size := by
    obtain ⟨is, hcode⟩ := hr.codes code hm
    exact ⟨is, hcode.continues hg hlex hpre⟩
  refine ⟨more, hlex, hset.length, fun k inner hk => ?_, ?_, fun code hm => ?_⟩
  · by_cases hlt : k < E.functions.size
    · rw [List.getElem?_append_left (hlen ▸ hlt)] at hk
      obtain ⟨f, hf, hhoused⟩ := hr.functions k inner hk
      refine ⟨f, ?_, hhoused.continues hg hlex hpre⟩
      obtain ⟨rest, hrest⟩ := e.grows.functions
      have hrest : E.functions.toList ++ rest = s.functions.toList := hrest
      rw [← Array.getElem?_toList, ← hrest, List.getElem?_append_left hlt]
      exact Array.getElem?_toList.trans hf
    · obtain ⟨-, f, hf, hhoused⟩ := hset.functions k inner (Nat.le_of_not_lt hlt) hk
      exact ⟨f, hfun ▸ hf, hhoused⟩
  · have hnew := hset.distinct
    rw [← show homes.length = (c.starting E.functions).point.count from hlen,
      List.drop_left] at hnew
    refine hr.distinct.append hnew fun inner hi hi' => ?_
    -- the scopes of the functions before were known when the batch began
    obtain ⟨k, hk⟩ := List.mem_iff_getElem?.mp hi
    obtain ⟨k', hk'⟩ := List.mem_iff_getElem?.mp hi'
    obtain ⟨f, -, hhoused⟩ := hr.functions k inner hk
    obtain ⟨hle, -⟩ := hset.functions (homes.length + k') inner (hlen ▸ Nat.le_add_right ..)
      (by rw [List.getElem?_append_right (Nat.le_add_right ..), Nat.add_sub_cancel_left, hk'])
    exact absurd hhoused.known (Nat.not_lt_of_le hle)
  · rcases List.mem_cons.mp hm with rfl | hm
    · obtain ⟨is, hold⟩ := hr.codes c.code (List.mem_cons_self ..)
      obtain ⟨js, hnew⟩ := hset.code
      rw [hcode, show s.point.table.functionScope S.scope = root from hroot] at hnew
      -- the code before the batch is a prefix of the new code
      have hold' := (hold.continues hg hlex hpre).of_words
        (fun i w hw => (e.grows.words i (Array.getElem?_eq_some_iff.mp hw).1).trans hw)
        fun i v hv => by
          obtain ⟨rest, hrest⟩ := e.grows.constants
          rw [← Array.getElem?_toList] at hv ⊢
          rw [← hrest, List.getElem?_append_left (List.getElem?_eq_some_iff.mp hv).1]
          exact hv
      refine ⟨is ++ js, hold'.append hnew (Nat.zero_le _) fun i hi symbol hset => ?_⟩
      have hd := ((hold.atHome i hi).sets_of_continues hg hlex hset).1
      rw [← functionScope_root h.table.toIsTree] at hd
      rw [hscope]
      exact hd.lt_slotCount h.table
    · exact old hm

/-- A new compiler has no code yet. -/
theorem resides_fresh {t : ScopeTable} (hs : t.scopes = ScopeTable.empty.scopes)
    (source source' : Option String) :
    Resides
      { table := t, main := { code := { source := source }, scope := root }, source := source' }
      #[] [] [] := by
  refine ⟨lexical_of_scopes hs, rfl, nofun, List.nodup_nil, fun code hm => ?_⟩
  obtain rfl := List.mem_singleton.mp hm
  exact ⟨[], .nil 0⟩

/-- **The same code stays at home** while its scopes grow. -/
theorem Resides.grows {c' : Compiler} (hr : c.Resides fs codes homes)
    (ht : c.table.Continues c'.table) (hl : c'.table.Lexical) (hw : c'.code.words = c.code.words)
    (hk : c'.code.constants = c.code.constants) : c'.Resides fs codes homes := by
  refine hr.continues ht hl fun code hm => ?_
  rcases List.mem_cons.mp hm with rfl | hm
  · exact ⟨c.code, List.mem_cons_self .., hw, hk⟩
  · exact ⟨code, List.mem_cons_of_mem _ hm, rfl, rfl⟩

/-- **The code of every compiler is at home** in its scopes. -/
theorem Built.resides (h : Built c fs batches) :
    ∃ homes, c.Resides fs (batches.map Batch.code) homes := by
  induction h with
  | withBuiltins h =>
    obtain ⟨t, rfl, -, hs⟩ := withBuiltins_spec h
    exact ⟨[], resides_fresh hs none none⟩
  | withSource h source =>
    obtain ⟨t, rfl, -, hs⟩ := withBuiltins_spec h
    exact ⟨[], resides_fresh hs (some source) (some source)⟩
  | @addBuiltin c fs batches h name ih =>
    obtain ⟨homes, hr⟩ := ih
    have hcode := code_addBuiltin c name
    obtain ⟨E, -, hsound⟩ := h.sound
    have hscopes := (scopes_addBuiltin hsound.table name).2
    exact ⟨homes, Resides.grows hr (.of_scopes hscopes) (h.addBuiltin name).lexical
      (congrArg Code.words hcode) (congrArg Code.constants hcode)⟩
  | @declareGlobal c fs batches h name ih =>
    obtain ⟨homes, hr⟩ := ih
    have hlex := (h.declareGlobal name).lexical
    obtain ⟨E, -, hsound⟩ := h.sound
    obtain heq | ⟨symbol, t, hd, heq⟩ := c.declareGlobal_cases name
    · rw [heq]
      exact ⟨homes, hr⟩
    · obtain ⟨hw, g, -⟩ := declare_spec hsound.table hsound.table.nonempty hd
      rw [heq] at hlex ⊢
      exact ⟨homes, Resides.grows hr (.of_grows g hsound.table.toIsTree hw.toIsTree) hlex rfl rfl⟩
  | @compile c fs batches h program ih =>
    obtain ⟨homes, hr⟩ := ih
    have hlex := (h.compile program).lexical
    obtain ⟨l, hl, ht⟩ := h.outermost
    obtain ⟨E, rfl, hsound⟩ := h.sound
    cases hs : Generate.statements program (c.starting E.functions) with
    | ok u s =>
      obtain ⟨more, hr'⟩ := hsound.resides_accepted hr hl ht hs
      rw [hsound.compile_of_ok hs] at hlex ⊢
      refine ⟨homes ++ more, hr'.continues (.refl _) hlex fun code hm => ?_⟩
      rcases List.mem_cons.mp hm with rfl | hm
      · exact ⟨s.body.code, List.mem_cons_self .., rfl, rfl⟩
      rw [List.map_append] at hm
      rcases List.mem_append.mp hm with hm | hm
      · obtain rfl := List.mem_singleton.mp hm
        exact ⟨s.body.code, List.mem_cons_self .., rfl, rfl⟩
      · exact ⟨code, List.mem_cons_of_mem _ (List.mem_cons_of_mem _ hm), rfl, rfl⟩
    | error e s =>
      rw [hsound.compile_of_error hs] at hlex ⊢
      rw [← Plan.emit_ofStatements] at hs
      obtain ⟨hw, g, -⟩ := ((Plan.ofStatements program).keeps_emit False.elim c.table root [] True _
        hsound.inside).2 e s hs
      exact ⟨homes, Resides.grows hr (.of_grows g hsound.table.toIsTree hw.toIsTree) hlex rfl rfl⟩

end Compiler

end ScriptEngine
