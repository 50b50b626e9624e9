import ScriptEngine.Proofs.Compiler.Typed
import ScriptEngine.Proofs.Layout.Chains

/-!
# Assignments to constants

Wherever the compilation of a program comes to an assignment, the text says what the assigned name
means: the nearest declaration around it, or the builtin of that name. The assignment is refused if
that is a constant, however many blocks and functions lie between.

## Main definitions

* `ScriptEngine.Statement.target?`: the name that a statement assigns to;
* `ScriptEngine.Place.nearest?`: whether the nearest declaration of a name makes it a constant.

## Main results

* `ScriptEngine.Place.Describes.resolveAssignable`: which assignments are refused;
* `ScriptEngine.Compiler.Built.outermost`: between two batches only the outermost scope is open;
* `ScriptEngine.Compiler.Built.assigns`: the same for a batch.
-/

namespace ScriptEngine

open ScopeTable Chain Emit

/-- **The name that a statement assigns to.** -/
def Statement.target? : Statement → Option String
  | .assign name _ _ | .step name _ => some name
  | _ => none

/-- A statement that assigns to a name. -/
theorem Plan.ofStatement_of_target? {s : Statement} {name : String} (h : s.target? = some name) :
    ∃ reads value, Plan.ofStatement s = .update name reads value := by
  cases s with
  | assign name' op value =>
    obtain rfl := Option.some.inj h
    unfold Plan.ofStatement
    split
    · exact ⟨_, _, rfl⟩
    · exact ⟨_, _, rfl⟩
  | step name' op =>
    obtain rfl := Option.some.inj h
    exact ⟨_, _, rfl⟩
  | _ => cases h

/-- **A name that is assigned to**: its variable is looked up, and it must not be a constant. -/
theorem Emit.resolveAssignable_eq (name : String) (s : Emission) :
    resolveAssignable name s =
      match ScopeTable.resolve s.body.scope name s.table with
      | .error e t => .error e (s.withTable t)
      | .ok none t => .error (.undefined name) (s.withTable t)
      | .ok (some r) t =>
        if r.symbol.constant ∨ r.storage = .builtin then
          .error (.assignToConstant name) (s.withTable t)
        else .ok r (s.withTable t) := by
  obtain ⟨table, body, enclosing, source, functions⟩ := s
  unfold resolveAssignable Emit.resolve
  rw [bind_assoc, bind_of_ok (show Emit.scope ⟨table, body, enclosing, source, functions⟩ =
    .ok body.scope ⟨table, body, enclosing, source, functions⟩ from rfl), bind_assoc]
  cases hr : ScopeTable.resolve body.scope name table with
  | error e t => exact bind_of_error (onTable_of_error hr)
  | ok found t =>
    rw [bind_of_ok (onTable_of_ok hr)]
    cases found with
    | none => rfl
    | some r =>
      dsimp only
      rw [pure_bind]
      split
      · exact bind_of_error rfl
      · rfl

/-! ### Places -/

namespace Place

/-- **Whether the nearest declaration of a name makes it a constant**, if there is one. -/
def nearest? (P : Place) (name : String) : Option Bool :=
  P.scopes.findSome? (·.lookup name)

/-- **A name that must not be assigned to**: the nearest declaration makes it a constant, or it is
declared nowhere and there is a builtin of that name. -/
def Forbids (P : Place) (builtins : ScopeTable) (name : String) : Prop :=
  P.nearest? name = some true ∨
    P.nearest? name = none ∧ (builtins.resolveBuiltin name).isSome = true

variable {P : Place} {C : Chain} {name : String} {s : Emission}

/-- The nearest declaration in the text is the nearest one in the open scopes. -/
theorem Matches.nearest? (h : P.Matches C) (name : String) :
    P.nearest? name = (C.symbol? name).map Symbol.constant := by
  obtain ⟨piped, scopes⟩ := P
  unfold Matches at h
  unfold Place.nearest?
  dsimp only at h ⊢
  induction h with
  | nil => rfl
  | @cons ds l scopes C hl _ ih =>
    rw [List.findSome?_cons, hl name]
    cases hfind : l.find? name with
    | some symbol =>
      rw [symbol?_of_some hfind]
      rfl
    | none =>
      rw [symbol?_of_none hfind]
      exact ih

/-- **Which assignments are refused.** Where no function is full, an assignment is refused because
of a constant if and only if the text forbids it, and because of an unknown name if there is nothing
of that name. -/
theorem Describes.resolveAssignable (h : P.Describes s) (name : String) :
    (∃ f t, wordCount ≤ (s.table.freeVars f).size ∧
      Emit.resolveAssignable name s = .error .tooManySymbols t) ∨
    (P.Forbids s.table name ∧ ∃ t, Emit.resolveAssignable name s =
      .error (.assignToConstant name) t) ∨
    (¬P.Forbids s.table name ∧
      ((∃ r t, Emit.resolveAssignable name s = .ok r t) ∨
        ∃ t, Emit.resolveAssignable name s = .error (.undefined name) t)) := by
  obtain ⟨l, C, outer, hs, hP⟩ := h
  have hlooks := hs.faithful.looks name
  rw [← hs.scope] at hlooks
  rw [Emit.resolveAssignable_eq]
  unfold Forbids
  rw [hP.nearest? name]
  generalize ScopeTable.resolve s.body.scope name s.table = answer at hlooks ⊢
  cases hlooks with
  | refused hsymbol hcrowded ht =>
    obtain ⟨-, f, -, hsize, -⟩ := hcrowded
    exact .inl ⟨f.scope, _, hsize, rfl⟩
  | @found symbol i t hsymbol =>
    -- what is declared is no builtin
    have hstorage : storage (l :: C) name ≠ .builtin := by
      unfold storage
      split
      · decide
      · split <;> decide
    right
    simp only [hsymbol, Option.map_some, Option.some.injEq, hstorage, or_false,
      reduceCtorEq, false_and]
    cases symbol.constant with
    | true => exact .inl ⟨rfl, _, rfl⟩
    | false => exact .inr ⟨Bool.false_ne_true, .inl ⟨_, _, rfl⟩⟩
  | undeclared hsymbol =>
    right
    simp only [hsymbol, Option.map_none, reduceCtorEq, false_or, true_and]
    cases hb : s.table.resolveBuiltin name with
    | none => exact .inr ⟨Bool.false_ne_true, .inr ⟨_, rfl⟩⟩
    | some r =>
      obtain ⟨index, -, rfl⟩ := Option.map_eq_some_iff.mp hb
      exact .inl ⟨rfl, _, rfl⟩

end Place

/-! ### Compilers -/

namespace Compiler

variable {c : Compiler} {fs : Array Function} {batches : List Batch} {program : Program}

/-- **Between two batches** only the outermost scope is open. -/
theorem Built.outermost (h : Built c fs batches) : ∃ l : Layer, l.scope = root ∧
    c.table.Faithful [l] := by
  have fresh {t : ScopeTable} (hw : t.WellFormed) (hs : t.scopes = ScopeTable.empty.scopes) :
      ∃ l : Layer, l.scope = root ∧ t.Faithful [l] :=
    ⟨_, rfl, ScopeSession.faithful_of_scopes ScopeSession.sound_start.faithful hw hs⟩
  induction h with
  | withBuiltins h =>
    obtain ⟨t, rfl, hw, hs⟩ := withBuiltins_spec h
    exact fresh hw hs
  | withSource h source =>
    obtain ⟨t, rfl, hw, hs⟩ := withBuiltins_spec h
    exact fresh hw hs
  | @addBuiltin c fs batches h name ih =>
    obtain ⟨l, hl, ht⟩ := ih
    obtain ⟨hw, hs⟩ := scopes_addBuiltin ht.wellFormed name
    exact ⟨l, hl, ScopeSession.faithful_of_scopes ht hw hs⟩
  | @declareGlobal c fs batches h name ih =>
    obtain ⟨l, hl, ht⟩ := ih
    obtain heq | ⟨symbol, t, hd, heq⟩ := c.declareGlobal_cases name
    · rw [heq]
      exact ⟨l, hl, ht⟩
    · rw [heq]
      exact ⟨l.declare symbol, hl, ScopeSession.faithful_declare ht (hl ▸ hd)⟩
  | @compile c fs batches h program ih =>
    obtain ⟨l, hl, ht⟩ := ih
    obtain ⟨E, rfl, hsound⟩ := h.sound
    obtain ⟨hok, herr⟩ := (Plan.ofStatements program).records_emit l [] [] (c.starting E.functions)
      ⟨ht, hl.symm, rfl⟩
    rw [Plan.emit_ofStatements] at hok herr
    cases hs : Generate.statements program (c.starting E.functions) with
    | ok u s =>
      rw [hsound.compile_of_ok hs]
      obtain ⟨l', hextends, hopens⟩ := hok u s hs
      exact ⟨l', hextends.scope.trans hl, hopens.faithful⟩
    | error e s =>
      rw [hsound.compile_of_error hs]
      obtain ⟨_, l', hextends, hfaithful⟩ := herr e s hs
      exact ⟨l', hextends.scope.trans hl, hfaithful⟩

/-- **At the start of a batch** the open scope is the outermost one, with the names of the batches
before. -/
theorem Built.describes (h : Built c fs batches) {ds : Declarations}
    (hds : ∀ name, ds.lookup name = (c.table.get? root name).map Symbol.constant) :
    Place.Describes ⟨false, [ds]⟩ (c.starting fs) := by
  obtain ⟨l, hl, ht⟩ := h.outermost
  refine ⟨l, [], [], ⟨ht, hl.symm, rfl⟩, .cons (fun name => ?_) .nil⟩
  rw [hds, ← hl, ht.mirrors.1.names]

/-- **An assignment to which a compilation comes** is refused, and the batch with it, because a
function on the way to the variable has no room for one more free variable, or else because of a
constant exactly if the text forbids it. -/
theorem Built.assigns (h : Built c fs batches) {ds : Declarations}
    (hds : ∀ name, ds.lookup name = (c.table.get? root name).map Symbol.constant) {s : Statement}
    {name : String} {Q : Place} {t : Emission} (hs : s.target? = some name)
    (hreaches : (Plan.ofStatements program).Reaches ⟨false, [ds]⟩ (c.starting fs)
      (Plan.ofStatement s) Q t) :
    (∃ f u, wordCount ≤ (t.table.freeVars f).size ∧
      Emit.resolveAssignable name t = .error .tooManySymbols u ∧
        (c.compile fs program).1 = .error .tooManySymbols) ∨
    (Q.Forbids t.table name ∧
      (∃ u, Emit.resolveAssignable name t = .error (.assignToConstant name) u) ∧
      (c.compile fs program).1 = .error (.assignToConstant name)) ∨
    (¬Q.Forbids t.table name ∧ ∀ e u, Emit.resolveAssignable name t = .error e u →
      e = .undefined name) := by
  obtain ⟨E, rfl, hsound⟩ := h.sound
  obtain ⟨reads, value, hplan⟩ := Plan.ofStatement_of_target? hs
  have refused {e : CompileError} {u : Emission} (he : Emit.resolveAssignable name t = .error e u) :
      (c.compile E.functions program).1 = .error e := by
    have hemit := hreaches.refused (e := e) (u := u) (by rw [hplan]; exact bind_of_error he)
    rw [Plan.emit_ofStatements] at hemit
    rw [hsound.compile_of_error hemit]
  rcases (hreaches.describes (h.describes hds)).resolveAssignable name with
    ⟨f, u, hsize, he⟩ | ⟨hforbids, u, he⟩ | ⟨hallows, hok⟩
  · exact .inl ⟨f, u, hsize, he, refused he⟩
  · exact .inr (.inl ⟨hforbids, ⟨u, he⟩, refused he⟩)
  · refine .inr (.inr ⟨hallows, fun e u he => ?_⟩)
    rcases hok with ⟨r, u', hok⟩ | ⟨u', he'⟩
    · rw [hok] at he
      cases he
    · rw [he'] at he
      exact (EStateM.Result.error.inj he).1.symm

end Compiler

end ScriptEngine
