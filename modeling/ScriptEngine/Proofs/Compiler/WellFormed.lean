import ScriptEngine.Proofs.Compiler.Batches
import ScriptEngine.Proofs.Layout.Correct
import ScriptEngine.Proofs.Layout.Keeps
import ScriptEngine.Proofs.Layout.Legal
import ScriptEngine.Proofs.Plan.TreeShapes

/-!
# Compilers produce well-formed code

Whatever a compiler was asked to compile, and however often it refused, the code of its program and
of every function in it is well-formed.

## Main definitions

* `ScriptEngine.Batch`: a program that was accepted, and the code that was given out for it;
* `ScriptEngine.Compiler.Built`: the compilers that there are, with the functions they compiled;
* `ScriptEngine.Compiler.Sound`: the scopes of a compiler are well-formed and its codes are sound.

## Main results

* `ScriptEngine.Compiler.Built.sound`: every compiler is sound.
-/

namespace ScriptEngine

open ScopeTable

namespace Code.Sound

variable {E E' : Environment} {own : Option Nat} {c c' : Code}

/-- A target of a jump in the code of a program is one in all code that goes on behind it. -/
theorem target_of_words (hw : ∀ (i : Nat) (w : Word), c.words[i]? = some w → c'.words[i]? = some w)
    (hs : c.size ≤ c'.size) {x : Nat} (h : c.Target none x) : c'.Target none x := by
  obtain ⟨hb, hx⟩ := h
  refine ⟨Walks.of_words hw hb, ?_⟩
  have hle : x ≤ c'.size := by
    rcases hx with hx | ⟨-, hx⟩
    · omega
    · omega
  exact (Nat.lt_or_eq_of_le hle).imp id fun h => ⟨rfl, h⟩

/-- **Code that goes on behind sound code**: what was there before is still legal. -/
theorem walk_of_words (h : c.Sound E none)
    (hw : ∀ (i : Nat) (w : Word), c.words[i]? = some w → c'.words[i]? = some w)
    (hs : c.size ≤ c'.size) (hk : c.constants.toList <+: c'.constants.toList)
    (hn : c.names.toList <+: c'.names.toList) (hh : c'.header = c.header)
    (hE : E.Le E') :
    c'.Walks (Instruction.Legal E' c' 0 (c'.Target none)) 0 c.size := by
  refine Walks.of_words hw (h.walk.mono fun i _ _ _ hi => ?_)
  refine hi.mono (fun k v hv => ?_) ?_ (Nat.le_of_eq (congrArg Prod.snd hh).symm)
    (fun _ r hr => hE.cells r.index (h.constant_lt hr)) hE.globals hE.builtins
    fun x hx => target_of_words hw hs hx
  · rw [← Array.getElem?_toList] at hv ⊢
    obtain ⟨rest, hrest⟩ := hk
    rw [← hrest, List.getElem?_append_left (List.getElem?_eq_some_iff.mp hv).1, hv]
  · have := hn.length_le
    simpa using this

/-- The number of globals that a code was told does not matter to it. -/
theorem withGlobals (h : c.Sound E own) (count : Nat) :
    Code.Sound E own { c with globalCount := count } where
  walk := Walks.of_words (c := c) (fun _ _ hw => hw) (h.walk.mono fun i _ _ _ hi =>
    hi.mono (fun _ _ hk => hk) (Nat.le_refl _) (Nat.le_refl _) (fun _ _ _ => rfl) (Nat.le_refl _)
      (Nat.le_refl _) fun _ hx => ⟨Walks.of_words (c := c) (fun _ _ hw => hw) hx.1, hx.2⟩)
  last ho := by
    obtain ⟨i, hi, hb, hr, hs⟩ := h.last ho
    exact ⟨i, hi.of_words (c := c) fun _ _ hw => hw,
      Walks.of_words (c := c) (fun _ _ hw => hw) hb, hr, hs⟩
  constants := h.constants

end Code.Sound

/-- What exists before anything was compiled: builtins. -/
def Environment.initial (builtins : Nat) : Environment where
  functions := #[]
  cells _ := 0
  globals := 0
  builtins := builtins

/-- **A batch that was accepted**, with the code of all batches up to it. -/
structure Batch where
  program : Program
  code : Code

/-- The batch that was compiled, if it was accepted. -/
def Batch.ofAnswer (program : Program) : Except CompileError Code → List Batch
  | .ok code => [⟨program, code⟩]
  | .error _ => []

namespace Compiler

/-- **The compilers that there are**, each with the functions that it compiled and the batches that
it accepted, the last one first. -/
inductive Built : Compiler → Array Function → List Batch → Prop
  | withBuiltins {names : List String} {c : Compiler} (h : Compiler.withBuiltins names = .ok c) :
    Built c #[] []
  | withSource {names : List String} {c : Compiler} (h : Compiler.withBuiltins names = .ok c)
    (source : String) : Built (c.withSource source) #[] []
  | addBuiltin {c : Compiler} {fs : Array Function} {batches : List Batch}
    (h : Built c fs batches) (name : String) : Built (c.addBuiltin name).2 fs batches
  | declareGlobal {c : Compiler} {fs : Array Function} {batches : List Batch}
    (h : Built c fs batches) (name : String) : Built (c.declareGlobal name).2 fs batches
  | compile {c : Compiler} {fs : Array Function} {batches : List Batch} (h : Built c fs batches)
    (program : Program) :
    Built (c.compile fs program).2.1 (c.compile fs program).2.2
      (Batch.ofAnswer program (c.compile fs program).1 ++ batches)

/-- **Sound compilers.** Nothing is open, the scopes are well-formed, the pools are within their
limits, and the codes of the program and of all functions are sound in the environment that the
compiler knows. -/
structure Sound (c : Compiler) (E : Environment) : Prop where
  idle : c.Idle
  table : c.table.WellFormed
  globalCount : c.code.globalCount = c.table.slotCount root
  localCount : c.code.localCount = 0
  constants : c.code.constants.size ≤ Code.poolLimit
  names : c.code.names.size ≤ Code.poolLimit
  globals : E.globals = c.code.globalCount
  builtins : E.builtins = c.table.builtins.size
  functions : E.Sound
  code : c.code.Sound E none

/-- **What a step of a compiler leads to**: more exists, and the code goes on behind the old one. -/
structure Leads (c : Compiler) (E : Environment) (c' : Compiler) (E' : Environment) : Prop where
  sound : c'.Sound E'
  le : E.Le E'
  words : ∀ (i : Nat) (w : Word), c.code.words[i]? = some w → c'.code.words[i]? = some w
  size : c.code.size ≤ c'.code.size

variable {c : Compiler} {E : Environment}

/-- A compiler that only knows more names. -/
theorem Sound.withTable (h : c.Sound E) {t : ScopeTable} (hw : t.WellFormed)
    (hs : c.table.slotCount root ≤ t.slotCount root)
    (hb : c.table.builtins.size ≤ t.builtins.size) :
    Leads c E { c with table := t }.countGlobals
      { E with globals := t.slotCount root, builtins := t.builtins.size } := by
  have hE : E.Le { E with globals := t.slotCount root, builtins := t.builtins.size } :=
    ⟨List.prefix_rfl, fun _ _ => rfl, by rwa [h.globals, h.globalCount], by rwa [h.builtins]⟩
  refine ⟨⟨⟨h.idle.scope, h.idle.loops, h.idle.inPipe, h.idle.units⟩, hw, rfl, h.localCount,
    h.constants, h.names, rfl, rfl, fun k f hf => ?_, ?_⟩, hE, fun _ _ hi => hi, Nat.le_refl _⟩
  · exact (h.functions k f hf).mono hE
  · exact (h.code.mono hE).withGlobals _

/-- A compiler that met more declarations. -/
theorem Sound.withGrown (h : c.Sound E) {t : ScopeTable} (hw : t.WellFormed)
    (g : c.table.Grows t) :
    Leads c E { c with table := t }.countGlobals
      { E with globals := t.slotCount root, builtins := t.builtins.size } :=
  h.withTable hw (g.slotCount h.table.toIsTree hw.toIsTree h.table.nonempty)
    (Nat.le_of_eq (congrArg Array.size g.builtins).symm)

theorem Sound.refl (h : c.Sound E) : Leads c E c E :=
  ⟨h, .refl E, fun _ _ hi => hi, Nat.le_refl _⟩

theorem countGlobals_eq (h : c.code.globalCount = c.table.slotCount root) :
    c.countGlobals = c := by
  obtain ⟨table, ⟨code, scope, loops, inPipe⟩, units, source⟩ := c
  show Compiler.mk table ⟨{ code with globalCount := table.slotCount root }, _, _, _⟩ _ _ = _
  rw [← h]
  rfl

/-- A table that knows builtins and nothing else. -/
theorem withBuiltins_spec {names : List String} (h : Compiler.withBuiltins names = .ok c) :
    ∃ t, c = { table := t } ∧ t.WellFormed ∧ t.scopes = ScopeTable.empty.scopes := by
  have hstep : Ensures (fun t => t.WellFormed ∧ t.scopes = ScopeTable.empty.scopes)
      (names.forM fun name => do let _ ← ScopeTable.addBuiltin name)
      (fun _ t => t.WellFormed ∧ t.scopes = ScopeTable.empty.scopes)
      (fun _ _ => True) := by
    refine .forM fun name _ => .bind (Q := fun _ t => t.WellFormed ∧
      t.scopes = ScopeTable.empty.scopes) ?_ fun _ => .pure fun _ h => h
    rintro t ⟨hw, hs⟩
    refine ⟨fun w t' ht => ?_, fun _ _ _ => trivial⟩
    obtain ⟨hw', hs', -⟩ := (addBuiltin_spec name hw).2 w t' ht
    exact ⟨hw', hs'.trans hs⟩
  obtain ⟨hok, -⟩ := hstep ScopeTable.empty ⟨empty_wellFormed, rfl⟩
  unfold Compiler.withBuiltins ScopeTable.withBuiltins at h
  cases hr : (names.forM fun name => do let _ ← ScopeTable.addBuiltin name).run
      ScopeTable.empty with
  | error e t =>
    rw [hr] at h
    cases h
  | ok u t =>
    rw [hr] at h
    exact ⟨t, (Except.ok.inj h).symm, hok u t hr⟩

/-- A compiler that has not compiled anything. -/
theorem sound_fresh {t : ScopeTable} (hw : t.WellFormed)
    (hs : t.scopes = ScopeTable.empty.scopes) (source source' : Option String) :
    Sound { table := t, main := { code := { source := source }, scope := root }, source := source' }
      (.initial t.builtins.size) where
  idle := ⟨rfl, rfl, rfl, rfl⟩
  table := hw
  globalCount := (slotCount_congr hs root).symm
  localCount := rfl
  constants := Nat.zero_le _
  names := Nat.zero_le _
  globals := rfl
  builtins := rfl
  functions k f hf := by
    have hf : (#[] : Array Function)[k]? = some f := hf
    rw [Array.getElem?_empty] at hf
    cases hf
  code := ⟨.refl 0, nofun, fun v hv => absurd hv (Array.not_mem_empty v)⟩

/-! ### Batches -/

theorem Sound.tidy (h : c.Sound E) : (c.starting E.functions).Tidy where
  complete j hj := by cases hj
  disjoint j hj := by cases hj
  constants := h.constants
  names := h.names
  pool := h.code.constants

theorem Sound.inside (h : c.Sound E) :
    Emission.Inside False c.table root [] True (c.starting E.functions) :=
  ⟨.refl h.table h.table.nonempty, rfl, rfl, fun _ => rfl⟩

theorem Sound.sees (h : c.Sound E) {S : Site} (hS : S.scope = root) :
    S.Sees (c.starting E.functions).point :=
  ⟨h.table, hS ▸ h.table.nonempty⟩

/-- What was emitted for a batch. -/
theorem Sound.emits (h : c.Sound E) {program : Program} {s : Emission}
    (hs : Generate.statements program (c.starting E.functions) = .ok () s) :
    Emission.Emits [] (fun S => (Plan.ofStatements program).Laid S
      (c.starting E.functions).point s.point) (c.starting E.functions) s := by
  rw [← Plan.emit_ofStatements] at hs
  exact (Plan.ofStatements program).isLaid _ _ hs h.tidy

/-- At the end of a batch everything that it opened is closed. -/
theorem Sound.closed (h : c.Sound E) {program : Program} {s : Emission}
    (hs : Generate.statements program (c.starting E.functions) = .ok () s) :
    s.body = { code := s.body.code, scope := root } ∧ s.enclosing = [] := by
  have hheld : s.body.loops.head?.map OpenLoop.held = none := (h.emits hs).grows.held
  rw [← Plan.emit_ofStatements] at hs
  obtain ⟨hok, -⟩ :=
    (Plan.ofStatements program).keeps_emit False.elim c.table root [] True _ h.inside
  obtain ⟨-, hscope, henclosing, hpipe⟩ := hok () s hs
  have hpipe := hpipe trivial
  obtain ⟨_, ⟨code, scope, loops, inPipe⟩, _, _, _⟩ := s
  obtain rfl : loops = [] := by
    cases loops with
    | nil => rfl
    | cons l loops => cases hheld
  obtain rfl : scope = root := hscope
  obtain rfl : inPipe = false := hpipe
  exact ⟨rfl, henclosing⟩

/-- **The layout of a batch**, in which the functions of earlier batches keep their numbers of
cells. -/
theorem Sound.laid (h : c.Sound E) {program : Program} {s : Emission}
    (hs : Generate.statements program (c.starting E.functions) = .ok () s) :
    ∃ S : Site, S.functions = s.functions ∧ S.code = s.body.code ∧ S.scope = root ∧
      S.exits = none ∧ (∀ k < E.functions.size, S.cells k = E.cells k) ∧
      (Plan.ofStatements program).Laid S (c.starting E.functions).point s.point := by
  have e := h.emits hs
  obtain ⟨cells, hlaid⟩ := e.laid
  have hloops : s.body.loops.head?.map OpenLoop.held = none := e.grows.held
  refine ⟨{
      functions := s.functions
      cells := fun k => if k < E.functions.size then E.cells k else cells k
      code := s.body.code
      scope := root }, rfl, rfl, rfl, rfl, fun k hk => if_pos hk, hlaid _ ?_ ?_⟩
  · exact {
      words := fun _ _ _ _ _ => rfl
      constants := List.prefix_rfl
      names := List.prefix_rfl
      functions := List.prefix_rfl
      scope := e.grows.scope.symm
      inFunction := by
        rw [e.grows.enclosing]
        rfl
      held := hloops.symm
      breaks := by simp
      continues := by simp }
  · exact fun k hk _ => if_neg (Nat.not_lt_of_le hk)

/-- **A batch that is accepted.** -/
theorem Sound.accepted (h : c.Sound E) {program : Program} {s : Emission}
    (hs : Generate.statements program (c.starting E.functions) = .ok () s) :
    ∃ E', E'.functions = s.functions ∧ E'.builtins = E.builtins ∧
      Leads c E (c.withProgram s.table s.body.code).countGlobals E' := by
  have e := h.emits hs
  obtain ⟨S, hfun, hcode, hscope, hexits, hcells, hp⟩ := h.laid hs
  have hsees := h.sees hscope
  have sp := hp.spans hsees
  have hsp : s.table.WellFormed := sp.wellFormed
  let E' : Environment := ⟨s.functions, S.cells, s.table.slotCount root, s.table.builtins.size⟩
  have hb : s.table.builtins = c.table.builtins := sp.grows.builtins
  have hE : E.Le E' := by
    refine ⟨e.grows.functions, hcells, ?_, Nat.le_of_eq ?_⟩
    · rw [h.globals, h.globalCount]
      exact sp.grows.slotCount h.table.toIsTree hsp.toIsTree h.table.nonempty
    · rw [h.builtins, ← hb]
  have hwords : ∀ (i : Nat) (w : Word), c.code.words[i]? = some w →
      s.body.code.words[i]? = some w := fun i w hw =>
    (e.grows.words i (Array.getElem?_eq_some_iff.mp hw).1).trans hw
  have hold := h.code.walk_of_words hwords e.grows.size e.grows.constants e.grows.names
    e.grows.label hE
  have hw : S.Within E' 0 (S.code.Target none) true (c.starting E.functions).point s.point :=
    { functions := hfun
      cells := rfl
      exits := by simp [hexits]
      inRange := fun r hr => by
        unfold InRange at hr
        unfold Resolution.Exists
        have hg : s.point.table.isGlobal S.scope = true := by
          rw [hscope]
          exact isGlobal_root hsp.toIsTree
        cases hst : r.storage <;> simp only [hst] at hr ⊢
        · exact hr
        · rw [hg] at hr
          cases hr.1
        · rw [hg] at hr
          cases hr.1
        · exact hr
      inside := fun x hx hx' _ => by
        rw [hcode] at hx hx' ⊢
        refine ⟨hold.forget.trans hx, ?_⟩
        exact (Nat.lt_or_eq_of_le hx'.le).imp id fun h => ⟨rfl, h⟩ }
  have shapes : (Plan.ofStatements program).Shapes false none [] [.value] :=
    Plan.shapes_ofStatements program [] (.function false false []) fun h => by cases h
  have hl := hp.lawful hsees shapes hw (.inl rfl)
  have hwalk := hl.walk
  rw [hcode] at hwalk
  refine ⟨E', rfl, ?_,
    ⟨⟨rfl, rfl, rfl, rfl⟩, hsp, rfl, ?_, e.tidy.constants, e.tidy.names, rfl, rfl,
      fun k f hf => ?_, ?_⟩,
    hE, hwords, e.grows.size⟩
  · show s.table.builtins.size = E.builtins
    rw [hb, h.builtins]
  · exact (congrArg Prod.snd e.grows.label).trans h.localCount
  · by_cases hk : k < E.functions.size
    · rw [hE.getElem? hk] at hf
      rw [hE.cells k hk]
      exact (h.functions k f hf).mono hE
    · obtain ⟨f', hf', hsound⟩ := hl.functions k (Nat.le_of_not_lt hk)
        (Array.getElem?_eq_some_iff.mp hf).1
      obtain rfl : f = f' := Option.some.inj (hf.symm.trans hf')
      exact hsound
  · exact Code.Sound.withGlobals (E := E') (c := s.body.code)
      ⟨hold.trans hwalk, by simp, e.tidy.pool⟩ _

theorem Sound.compile_of_ok (h : c.Sound E) {program : Program} {s : Emission}
    (hs : Generate.statements program (c.starting E.functions) = .ok () s) :
    c.compile E.functions program =
      (.ok { s.body.code with globalCount := s.table.slotCount root },
        (c.withProgram s.table s.body.code).countGlobals, s.functions) := by
  obtain ⟨hb, he⟩ := h.closed hs
  exact h.idle.compile_of_ok hs hb he

theorem Sound.compile_of_error (h : c.Sound E) {program : Program} {e : CompileError} {s : Emission}
    (hs : Generate.statements program (c.starting E.functions) = .error e s) :
    c.compile E.functions program = (.error e, { c with table := s.table }.countGlobals,
      E.functions) :=
  h.idle.compile_of_error h.table hs

/-- **Every batch keeps a compiler sound**, whether it is accepted or refused. -/
theorem Sound.compile (h : c.Sound E) (program : Program) :
    ∃ E', E'.functions = (c.compile E.functions program).2.2 ∧ E'.builtins = E.builtins ∧
      Leads c E (c.compile E.functions program).2.1 E' := by
  cases hs : Generate.statements program (c.starting E.functions) with
  | ok u s =>
    rw [h.compile_of_ok hs]
    exact h.accepted hs
  | error e s =>
    rw [h.compile_of_error hs]
    rw [← Plan.emit_ofStatements] at hs
    obtain ⟨-, herr⟩ :=
      (Plan.ofStatements program).keeps_emit False.elim c.table root [] True _ h.inside
    obtain ⟨hw, g, -⟩ := herr e s hs
    refine ⟨_, ?_, ?_, h.withGrown hw g⟩
    · rfl
    · rw [h.builtins, ← g.builtins]

/-- **What becomes of a compiler that declares a global**: nothing, if the name is known or cannot
be declared, or else the outermost scope has one name more. -/
theorem declareGlobal_cases (c : Compiler) (name : String) :
    (c.declareGlobal name).2 = c ∨
      ∃ symbol t, ScopeTable.declare root name false c.table = .ok symbol t ∧
        (c.declareGlobal name).2 = ({ c with table := t } : Compiler).countGlobals := by
  unfold Compiler.declareGlobal
  split
  · exact .inl rfl
  · unfold onTable
    cases hd : ScopeTable.declare root name false c.table with
    | ok symbol t => exact .inr ⟨symbol, t, rfl, rfl⟩
    | error e t =>
      obtain rfl := declare_error hd
      exact .inl rfl

/-- **A builtin leaves the scopes as they are.** -/
theorem scopes_addBuiltin (hw : c.table.WellFormed) (name : String) :
    (c.addBuiltin name).2.table.WellFormed ∧
      (c.addBuiltin name).2.table.scopes = c.table.scopes := by
  obtain ⟨herr, hok⟩ := addBuiltin_spec name hw
  unfold Compiler.addBuiltin onTable
  cases ha : ScopeTable.addBuiltin name c.table with
  | ok w t =>
    obtain ⟨hw', hs, -⟩ := hok w t ha
    exact ⟨hw', hs⟩
  | error e t =>
    obtain rfl := herr e t ha
    exact ⟨hw, rfl⟩

theorem Sound.addBuiltin (h : c.Sound E) (name : String) :
    ∃ E', E'.functions = E.functions ∧ Leads c E (c.addBuiltin name).2 E' := by
  obtain ⟨herr, hok⟩ := addBuiltin_spec name h.table
  unfold Compiler.addBuiltin onTable
  cases ha : ScopeTable.addBuiltin name c.table with
  | ok w t =>
    obtain ⟨hw, hs, hb⟩ := hok w t ha
    have hslots : t.slotCount root = c.table.slotCount root := slotCount_congr hs root
    have heq : ({ c with table := t } : Compiler).countGlobals = { c with table := t } :=
      countGlobals_eq (h.globalCount.trans hslots.symm)
    have hl := h.withTable hw (Nat.le_of_eq hslots.symm) hb
    rw [heq] at hl
    refine ⟨_, ?_, hl⟩
    rfl
  | error e t =>
    obtain rfl := herr e t ha
    exact ⟨E, rfl, h.refl⟩

theorem Sound.declareGlobal (h : c.Sound E) (name : String) :
    ∃ E', E'.functions = E.functions ∧ E'.builtins = E.builtins ∧
      Leads c E (c.declareGlobal name).2 E' := by
  obtain heq | ⟨symbol, t, hd, heq⟩ := c.declareGlobal_cases name
  · rw [heq]
    exact ⟨E, rfl, rfl, h.refl⟩
  · obtain ⟨hw, g, -⟩ := declare_spec h.table h.table.nonempty hd
    rw [heq]
    refine ⟨_, ?_, ?_, h.withGrown hw g⟩
    · rfl
    · rw [h.builtins, ← g.builtins]

/-- **Every compiler is sound.** -/
theorem Built.sound {fs : Array Function} {batches : List Batch} (h : Built c fs batches) :
    ∃ E, E.functions = fs ∧ c.Sound E := by
  induction h with
  | withBuiltins h =>
    obtain ⟨t, rfl, hw, hs⟩ := withBuiltins_spec h
    refine ⟨_, ?_, sound_fresh hw hs none none⟩
    rfl
  | withSource h source =>
    obtain ⟨t, rfl, hw, hs⟩ := withBuiltins_spec h
    refine ⟨_, ?_, sound_fresh hw hs (some source) (some source)⟩
    rfl
  | addBuiltin _ name ih =>
    obtain ⟨E, rfl, h⟩ := ih
    obtain ⟨E', hf, hl⟩ := h.addBuiltin name
    exact ⟨E', hf, hl.sound⟩
  | declareGlobal _ name ih =>
    obtain ⟨E, rfl, h⟩ := ih
    obtain ⟨E', hf, -, hl⟩ := h.declareGlobal name
    exact ⟨E', hf, hl.sound⟩
  | compile _ program ih =>
    obtain ⟨E, rfl, h⟩ := ih
    obtain ⟨E', hf, -, hl⟩ := h.compile program
    exact ⟨E', hf, hl.sound⟩

end Compiler

end ScriptEngine
