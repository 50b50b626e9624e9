import ScriptEngine.Proofs.Plan.Quiet
import ScriptEngine.Proofs.Plan.Trees
import ScriptEngine.Proofs.Scope.Steps
import ScriptEngine.Proofs.Layout.Steps

/-!
# Scopes while code is emitted

Emitting code keeps the scopes well-formed and lets them grow, whether it succeeds or is refused. A
refused batch leaves its declarations behind, so the scopes matter in both cases.

## Main definitions

* `ScriptEngine.Emission.Inside`: the scopes grew from given ones, and the innermost body is at a
  given scope and outside of pipes;
* `ScriptEngine.Emit.Keeps`: steps that keep the scopes well-formed.

## Main results

* `ScriptEngine.Plan.keeps_emit`: emitting a plan keeps the scopes well-formed.
-/

namespace ScriptEngine

open ScopeTable

/-- **The scopes grew from `t₀`**, and code is emitted in the scope `c`, inside the given bodies
and, if `apart` holds, outside of pipes. -/
structure Emission.Inside (quiet : Prop) (t₀ : ScopeTable) (c : ScopeId) (outer : List Body)
    (apart : Prop)
    (s : Emission) : Prop where
  grew : From quiet t₀ c s.table
  scope : s.body.scope = c
  enclosing : s.enclosing = outer
  inPipe : apart → s.body.inPipe = false

namespace Emit

variable {α β : Type} {quiet : Prop}

/-- **Steps that keep the scopes well-formed**, come back to the scope in which they began and leave
the pipes that they enter. -/
def Keeps (quiet : Prop) (x : Emit α) : Prop :=
  ∀ t₀ c outer apart, Ensures (Emission.Inside quiet t₀ c outer apart) x
    (fun _ => Emission.Inside quiet t₀ c outer apart) (fun _ s => From quiet t₀ c s.table)

namespace Keeps

theorem pure (a : α) : Keeps quiet (pure a : Emit α) :=
  fun _ _ _ _ => .pure fun _ h => h

theorem bind {x : Emit α} {f : α → Emit β} (hx : Keeps quiet x) (hf : ∀ a, Keeps quiet (f a)) :
    Keeps quiet (x >>= f) :=
  fun t₀ c outer apart => .bind (hx t₀ c outer apart) fun a => hf a t₀ c outer apart

theorem throw (e : CompileError) : Keeps quiet (throw e : Emit α) :=
  fun _ _ _ _ => .throw fun _ h => h.grew

theorem look {f : Emission → Emit β} (hf : ∀ s, Keeps quiet (f s)) : Keeps quiet (get >>= f) :=
  fun t₀ c outer apart => .get fun s h => (hf s t₀ c outer apart).mono (fun _ ht => ht ▸ h)
    (fun _ _ h => h) fun _ _ h => h

theorem ite {p : Prop} [Decidable p] {x y : Emit α} (hx : p → Keeps quiet x)
    (hy : ¬p → Keeps quiet y) :
    Keeps quiet (if p then x else y) := by
  by_cases hp : p
  · rw [if_pos hp]
    exact hx hp
  · rw [if_neg hp]
    exact hy hp

theorem forM {γ : Type} {f : γ → Emit PUnit} {l : List γ} (h : ∀ c, Keeps quiet (f c)) :
    Keeps quiet (l.forM f) :=
  fun t₀ c outer apart => .forM fun d _ => h d t₀ c outer apart

theorem mapM {γ δ : Type} {f : γ → Emit δ} (h : ∀ c, Keeps quiet (f c)) : ∀ l : List γ,
    Keeps quiet (l.mapM f)
  | [] => by
    rw [List.mapM_nil]
    exact pure _
  | c :: l => by
    rw [List.mapM_cons]
    exact bind (h c) fun _ => bind (mapM h l) fun _ => pure _

/-- A step that does not touch the scopes. -/
theorem of_unchanged {x : Emit α} (hok : ∀ s a s', x s = .ok a s' →
      s'.table = s.table ∧ s'.body.scope = s.body.scope ∧ s'.enclosing = s.enclosing ∧
        s'.body.inPipe = s.body.inPipe)
    (herr : ∀ s e s', x s = .error e s' → s'.table = s.table) : Keeps quiet x := by
  intro t₀ c outer apart s h
  refine ⟨fun a s' hx => ?_, fun e s' hx => ?_⟩
  · obtain ⟨ht, hs, he, hi⟩ := hok s a s' hx
    exact ⟨ht ▸ h.grew, hs.trans h.scope, he.trans h.enclosing, fun hq => hi.trans (h.inPipe hq)⟩
  · show From quiet t₀ c s'.table
    rw [herr s e s' hx]
    exact h.grew

/-- A change of the innermost body that leaves its place alone. -/
theorem onBody {f : Body → α × Body}
    (h : ∀ b, (f b).2.scope = b.scope ∧ (f b).2.inPipe = b.inPipe) : Keeps quiet (onBody f) := by
  refine of_unchanged ?_ ?_
  · rintro ⟨table, body, enclosing, source, functions⟩ a s' hx
    obtain ⟨-, rfl⟩ := EStateM.Result.ok.inj hx
    exact ⟨rfl, (h body).1, rfl, (h body).2⟩
  · rintro ⟨table, body, enclosing, source, functions⟩ e s' hx
    cases hx

theorem onCode (f : Code → α × Code) : Keeps quiet (onCode f) :=
  onBody fun ⟨_, _, _, _⟩ => ⟨rfl, rfl⟩

theorem position : Keeps quiet position :=
  .look fun _ => .pure _

theorem emit (op : Opcode) (operands : List Word) : Keeps quiet (Emit.emit op operands) :=
  onCode _

theorem instruction (op : Opcode) (operands : List Word) : Keeps quiet (instruction op operands) :=
  .bind (emit op operands) fun _ => .pure _

theorem fromPool (add : Code → Option (Word × Code)) : Keeps quiet (fromPool add) := by
  refine of_unchanged (fun s a s' hx => ?_) fun s e s' hx => ?_
  all_goals
    unfold Emit.fromPool at hx
    split at hx
  · obtain ⟨-, rfl⟩ := EStateM.Result.ok.inj hx
    exact ⟨rfl, rfl, rfl, rfl⟩
  · cases hx
  · cases hx
  · obtain ⟨-, rfl⟩ := EStateM.Result.error.inj hx
    rfl

theorem constant (v : Value) : Keeps quiet (constant v) :=
  .bind (fromPool _) fun _ => instruction _ _

theorem completeJump (jump target : Nat) : Keeps quiet (completeJump jump target) :=
  .ite (fun _ => onCode _) fun _ => .throw _

theorem landHere (jump : Nat) : Keeps quiet (landHere jump) :=
  .bind position fun _ => completeJump _ _

theorem jumpBack (target : Nat) : Keeps quiet (jumpBack target) :=
  .bind position fun _ => .ite (fun _ => instruction _ _) fun _ => .throw _

theorem onLoop (f : OpenLoop → OpenLoop) : Keeps quiet (onLoop f) := by
  refine onBody fun b => ?_
  obtain ⟨code, scope, loops, inPipe⟩ := b
  cases loops <;> exact ⟨rfl, rfl⟩

theorem loopBody {body : Emit Unit} (h : Keeps quiet body) : Keeps quiet (loopBody body) :=
  .bind (onBody fun _ => ⟨rfl, rfl⟩) fun _ => .bind h fun _ =>
    .bind (onBody fun _ => ⟨rfl, rfl⟩) fun _ => .bind (instruction _ _) fun _ => .pure _

theorem closeLoop (loop : OpenLoop) (exit next : Nat) : Keeps quiet (closeLoop loop exit next) :=
  .bind (.forM fun _ => completeJump _ _) fun _ => .forM fun _ => completeJump _ _

theorem leaveLoop (isBreak : Bool) : Keeps quiet (leaveLoop isBreak) := by
  refine .look fun s => ?_
  split
  · exact .throw _
  · exact .bind (.forM fun _ => instruction _ _) fun _ => .bind (emit _ _) fun _ => onLoop _

theorem holding {steps : Emit Unit} (h : Keeps quiet steps) : Keeps quiet (holding steps) :=
  .bind (onLoop _) fun _ => .bind h fun _ => onLoop _

/-! ### Names -/

/-- A step on the scopes that keeps them well-formed. -/
theorem onTable {step : Scoped α} {c : ScopeId} {t₀ : ScopeTable} {outer : List Body}
    {apart : Prop} {Q : α → ScopeTable → Prop}
    (h : Ensures (From quiet t₀ c) step (fun a t => From quiet t₀ c t ∧ Q a t)
      (fun _ => From quiet t₀ c)) :
    Ensures (Emission.Inside quiet t₀ c outer apart) (onTable step)
      (fun a s => Emission.Inside quiet t₀ c outer apart s ∧ Q a s.table)
      (fun _ s => From quiet t₀ c s.table) := by
  intro s hs
  obtain ⟨hok, herr⟩ := h s.table hs.grew
  refine ⟨fun a s' hx => ?_, fun e s' hx => ?_⟩
  · obtain ⟨table, ht, rfl⟩ := onTable_eq_ok.mp hx
    obtain ⟨hf, hq⟩ := hok a table ht
    exact ⟨⟨hf, hs.scope, hs.enclosing, hs.inPipe⟩, hq⟩
  · cases hstep : step s.table with
    | ok a table =>
      rw [onTable_of_ok hstep] at hx
      cases hx
    | error e' table =>
      rw [onTable_of_error hstep] at hx
      obtain ⟨-, rfl⟩ := EStateM.Result.error.inj hx
      exact herr e' table hstep

/-- A step at the scope in which code is emitted. -/
theorem atScope {f : ScopeId → Emit β}
    (h : ∀ t₀ c outer apart, Ensures (Emission.Inside quiet t₀ c outer apart) (f c)
    (fun _ => Emission.Inside quiet t₀ c outer apart) (fun _ s => From quiet t₀ c s.table)) :
    Keeps quiet (Emit.scope >>= f) := by
  intro t₀ c outer apart s hs
  obtain ⟨hok, herr⟩ := h t₀ c outer apart s hs
  have heq : (Emit.scope >>= f) s = f c s := by
    show f s.body.scope s = _
    rw [hs.scope]
  rw [heq]
  exact ⟨hok, herr⟩

theorem newName (hq : ¬quiet) (name : String) (constant : Bool) :
    Keeps quiet (newName name constant) :=
  atScope fun _ _ _ _ => (onTable (ensures_declare hq name constant)).mono (fun _ h => h)
    (fun _ _ h => h.1) fun _ _ h => h

theorem resolve (name : String) : Keeps quiet (resolve name) := by
  refine atScope fun t₀ c outer apart => ?_
  refine .bind ((onTable (ensures_resolve name)).mono (fun _ h => h) (fun _ _ h => h.1)
    fun _ _ h => h) fun found => ?_
  cases found with
  | none => exact Keeps.throw _ t₀ c outer apart
  | some r => exact Keeps.pure r t₀ c outer apart

theorem resolveAssignable (name : String) : Keeps quiet (resolveAssignable name) :=
  .bind (resolve name) fun r => .ite (fun _ => .bind (.throw _) fun _ => .pure _) fun _ => .pure r

theorem load (r : Resolution) : Keeps quiet (load r) := by
  unfold Emit.load
  split
  all_goals exact instruction _ _

theorem store (r : Resolution) : Keeps quiet (store r) := by
  unfold Emit.store
  split
  case h_4 => exact .throw _
  all_goals exact instruction _ _

theorem slotStore : Keeps quiet slotStore :=
  .look fun _ => .pure _

theorem declare (hq : ¬quiet) (name : String) (constant : Bool) :
    Keeps quiet (declare name constant) :=
  .bind (newName hq name constant) fun _ => .bind slotStore fun _ => instruction _ _

/-! ### Pipes, scopes and bodies -/

/-- **The stages of a pipe** end outside of it. -/
theorem stages {body : Emit Unit} (h : Keeps quiet body) : Keeps quiet (do
    Emit.onBody fun b => ((), { b with inPipe := true })
    body
    Emit.onBody fun b => ((), { b with inPipe := false })) := by
  intro t₀ c outer apart
  refine .bind (Q := fun _ => Emission.Inside quiet t₀ c outer False) ?_ fun _ =>
    .bind (h t₀ c outer False) fun _ => ?_
  all_goals
    rintro ⟨table, body, enclosing, source, functions⟩ hs
    refine ⟨fun a s' hx => ?_, fun e s' hx => by cases hx⟩
    obtain ⟨-, rfl⟩ := EStateM.Result.ok.inj hx
  · exact ⟨hs.grew, hs.scope, hs.enclosing, False.elim⟩
  · exact ⟨hs.grew, hs.scope, hs.enclosing, fun _ => rfl⟩

/-- The states inside a scope that was opened in `c`. -/
def Within (quiet : Prop) (t₀ : ScopeTable) (c inner : ScopeId) (outer : List Body) (apart : Prop)
    (s : Emission) : Prop :=
  t₀.scopes.size ≤ inner.index ∧
    ∃ t₁, From quiet t₀ c t₁ ∧ Emission.Inside False t₁ inner outer apart s

/-- Steps inside a scope that is opened for them. -/
theorem within {t₀ : ScopeTable} {c inner : ScopeId} {outer : List Body} {apart : Prop}
    {steps : Emit α}
    (h : Keeps False steps) :
    Ensures (Within quiet t₀ c inner outer apart) steps
      (fun _ => Within quiet t₀ c inner outer apart) (fun _ s => From quiet t₀ c s.table) := by
  rintro s ⟨hnew, t₁, hf, hs⟩
  obtain ⟨hok, herr⟩ := h t₁ inner outer apart s hs
  exact ⟨fun a s' hx => ⟨hnew, t₁, hf, hok a s' hx⟩,
    fun e s' hx => hf.inner (herr e s' hx) hnew⟩

/-- **A block**, in which any names may be declared. -/
theorem inBlock {steps : Emit Unit} (h : Keeps False steps) : Keeps quiet (inBlock steps) := by
  refine atScope fun t₀ c outer apart => .bind (onTable (ensures_openScope .block)) fun inner => ?_
  refine .bind (Q := fun _ => Within quiet t₀ c inner outer apart) ?_ fun _ =>
    .bind (within h) fun _ => ?_
  · rintro ⟨table, body, enclosing, source, functions⟩ ⟨hs, hi, hnew, -⟩
    refine ⟨fun a s' hx => ?_, fun e s' hx => by cases hx⟩
    obtain ⟨-, rfl⟩ := EStateM.Result.ok.inj hx
    exact ⟨hnew, table, hs.grew, .refl hs.grew.wellFormed hi, rfl, hs.enclosing, hs.inPipe⟩
  · rintro ⟨table, body, enclosing, source, functions⟩ ⟨hnew, t₁, hf, hs⟩
    refine ⟨fun a s' hx => ?_, fun e s' hx => by cases hx⟩
    obtain ⟨-, rfl⟩ := EStateM.Result.ok.inj hx
    exact ⟨hf.inner hs.grew hnew, rfl, hs.enclosing, hs.inPipe⟩

theorem passCell {t₀ : ScopeTable} {c : ScopeId} {outer : List Body} {apart : Prop}
    (name : String) :
    Ensures (Emission.Inside quiet t₀ c outer apart) (Generate.passCell c name)
      (fun _ => Emission.Inside quiet t₀ c outer apart) (fun _ s => From quiet t₀ c s.table) := by
  refine .bind ((onTable (ensures_resolve name)).mono (fun _ h => h) (fun _ _ h => h.1)
    fun _ _ h => h) fun found => ?_
  split
  · exact Keeps.throw _ t₀ c outer apart
  · split
    case h_3 | h_4 => exact Keeps.throw _ t₀ c outer apart
    all_goals exact instruction _ _ t₀ c outer apart

theorem instantiate {t₀ : ScopeTable} {c : ScopeId} {outer : List Body} {apart : Prop}
    (r : Ref .function)
    (free : List Resolution) :
    Ensures (Emission.Inside quiet t₀ c outer apart) (Generate.instantiate c r free)
      (fun _ => Emission.Inside quiet t₀ c outer apart) (fun _ s => From quiet t₀ c s.table) := by
  refine .bind (fromPool _ t₀ c outer apart) fun index => ?_
  split
  · exact instruction _ _ t₀ c outer apart
  · refine .bind (.forM fun found _ => passCell found.symbol.name) fun _ => ?_
    split
    · exact Keeps.bind (.throw _) (fun _ => instruction _ _) t₀ c outer apart
    · exact instruction _ _ t₀ c outer apart

theorem defaultValue (p : Param) : Keeps quiet (Generate.defaultValue p) := by
  unfold Generate.defaultValue
  split
  · exact .pure _
  · split
    · exact .pure _
    · exact .throw _

/-- **A function**, in which any names may be declared. -/
theorem function (f : Func) {body : Emit Unit} (h : Keeps False body) :
    Keeps quiet (Generate.function f body) := by
  have hrest : Keeps quiet (do
      let defaults ← f.params.mapM Generate.defaultValue
      let outer ← Emit.scope
      let inner ← Emit.onTable (Generate.enter f outer)
      Generate.openBody f inner
      Emit.inBlock body
      if !Block.endsWithReturn f.body then Emit.instruction .returnValue [1]
      let r ← Generate.closeBody f defaults inner
      Generate.instantiate outer r ((← get).table.freeVars inner).toList) := by
    refine .bind (.mapM defaultValue _) fun defaults => atScope fun t₀ c outer apart => ?_
    refine .bind (onTable (ensures_enter f)) fun inner => ?_
    -- the bodies around the new one, among them the one that comes back
    let Around (s : Emission) : Prop :=
      ∃ b, (b.scope = c ∧ (apart → b.inPipe = false)) ∧
        Within quiet t₀ c inner (b :: outer) False s
    have lift : ∀ {γ : Type} {x : Emit γ}, Keeps False x →
        Ensures Around x (fun _ => Around) (fun _ s => From quiet t₀ c s.table) := by
      rintro γ x hx s ⟨b, hb, hs⟩
      obtain ⟨hok, herr⟩ := within hx s hs
      exact ⟨fun a s' hx => ⟨b, hb, hok a s' hx⟩, herr⟩
    refine .bind (Q := fun _ => Around) ?_ fun _ => .bind (lift (inBlock h)) fun _ => ?_
    · rintro ⟨table, b, enclosing, source, functions⟩ ⟨hs, hi, hnew, -⟩
      refine ⟨fun a s' hx => ?_, fun e s' hx => by cases hx⟩
      obtain ⟨-, rfl⟩ := EStateM.Result.ok.inj hx
      exact ⟨b, ⟨hs.scope, hs.inPipe⟩, hnew, table, hs.grew, .refl hs.grew.wellFormed hi, rfl,
        congrArg (b :: ·) hs.enclosing, False.elim⟩
    · have hend : Ensures Around (do
          let r ← Generate.closeBody f defaults inner
          Generate.instantiate c r ((← get).table.freeVars inner).toList)
          (fun _ => Emission.Inside quiet t₀ c outer apart)
          (fun _ s => From quiet t₀ c s.table) := by
        refine .bind (Q := fun _ => Emission.Inside quiet t₀ c outer apart) ?_ fun r =>
          .get fun s hs => ?_
        · rintro ⟨table, b', enclosing, source, functions⟩ ⟨b, hb, hnew, t₁, hf, hs⟩
          refine ⟨fun a s' hx => ?_, fun e s' hx => by cases hx⟩
          obtain ⟨-, rfl⟩ := EStateM.Result.ok.inj hx
          obtain rfl : enclosing = b :: outer := hs.enclosing
          exact ⟨hf.inner hs.grew hnew, hb.1, rfl, hb.2⟩
        · exact (instantiate r _).mono (fun _ ht => ht ▸ hs) (fun _ _ h => h) fun _ _ h => h
      split
      · exact .bind (lift (instruction _ _)) fun _ => hend
      · exact hend
  refine .ite (fun _ => .bind (.throw _) fun _ => ?_) fun _ => hrest
  exact hrest

end Keeps

end Emit

/-! ### Plans -/

open Emit

mutual

/-- **Emitting a plan** keeps the scopes well-formed, and declares nothing if the plan is quiet. -/
theorem Plan.keeps_emit : ∀ (p : Plan) {quiet : Prop}, (quiet → p.Quiet) → Keeps quiet p.emit
  | .skip, _, _ => .pure ()
  | .seq x y, _, hq =>
    .bind (x.keeps_emit fun h => (hq h).1) fun _ => y.keeps_emit fun h => (hq h).2
  | .instr _, _, _ => .instruction _ _
  | .const v _, _, _ => .constant v
  | .attr _ _, _, _ => .bind (.fromPool _) fun _ => .instruction _ _
  | .load name, _, _ => .bind (.resolve name) fun r => .load r
  | .update name reads value, _, hq => by
    refine .bind (.resolveAssignable name) fun r => ?_
    refine .ite (fun _ => .bind (.load r) fun _ => ?_) fun _ => ?_
    all_goals exact .bind (value.keeps_emit hq) fun _ => .store r
  | .declare name constant, _, hq => .declare hq name constant
  | .declareAll names, _, hq =>
    .bind (.mapM (fun _ => .newName hq _ _) names) fun _ => .bind .slotStore fun _ =>
      .forM fun _ => .instruction _ _
  | .refuse e, _, _ => .throw e
  | .outsidePipe, _, _ => .look fun _ => .ite (fun _ => .throw _) fun _ => .pure ()
  | .stages body, _, hq => .stages (body.keeps_emit hq)
  | .insideFunction, _, _ => .look fun _ => .ite (fun _ => .throw _) fun _ => .pure ()
  | .leave isBreak, _, _ => .leaveLoop isBreak
  | .branch condition ifTrue ifFalse, _, hq =>
    .bind (condition.keeps_emit fun h => (hq h).1) fun _ => .bind (.emit _ _) fun _ =>
      .bind (ifTrue.keeps_emit fun h => (hq h).2.1) fun _ => .bind (.emit _ _) fun _ =>
        .bind (.landHere _) fun _ => .bind (ifFalse.keeps_emit fun h => (hq h).2.2) fun _ =>
          .landHere _
  | .shortCircuit _ left right, _, hq =>
    .bind (left.keeps_emit fun h => (hq h).1) fun _ => .bind (.instruction _ _) fun _ =>
      .bind (.emit _ _) fun _ => .bind (right.keeps_emit fun h => (hq h).2) fun _ =>
        .bind (.instruction _ _) fun _ => .bind (.landHere _) fun _ => .instruction _ _
  | .switch subject arms default, _, hq =>
    .bind (subject.keeps_emit fun h => (hq h).1) fun _ =>
      .bind (arms.keeps_emitTests fun h => (hq h).2.1) fun jumps => .bind (.emit _ _) fun _ =>
        .bind (.holding (.bind (arms.keeps_emitBodies jumps fun h => (hq h).2.1) fun _ =>
          .bind (.landHere _) fun _ => .bind (default.keeps_emit fun h => (hq h).2.2) fun _ =>
            .forM fun _ => .landHere _))
        fun _ => .bind (.instruction _ _) fun _ => .instruction _ _
  | .block body, _, _ => .inBlock (body.keeps_emit False.elim)
  | .loop tested condition body post, _, hq => by
    refine .bind .position fun _ => .bind (condition.keeps_emit fun h => (hq h).1) fun _ =>
      .bind ?_ fun leave => .bind (.loopBody (body.keeps_emit fun h => (hq h).2.1)) fun _ =>
        .bind .position fun _ => .bind (post.keeps_emit fun h => (hq h).2.2) fun _ =>
          .bind (.jumpBack _) fun _ => .bind .position fun _ => ?_
    · cases tested with
      | true => exact .bind (.emit _ _) fun _ => .pure _
      | false => exact .pure _
    · cases leave with
      | none => exact .bind (.pure _) fun _ => .bind (.instruction _ _) fun _ => .closeLoop _ _ _
      | some j => exact .bind (.landHere j) fun _ => .bind (.instruction _ _) fun _ =>
          .closeLoop _ _ _
  | .iterate _ bind body, _, hq =>
    .bind .position fun _ => .bind (.emit _ _) fun _ =>
      .bind (bind.keeps_emit fun h => (hq h).1) fun _ =>
        .bind (.loopBody (body.keeps_emit fun h => (hq h).2)) fun _ => .bind .position fun _ =>
          .bind (.jumpBack _) fun _ => .bind .position fun _ => .bind (.instruction _ _) fun _ =>
            .bind (.landHere _) fun _ => .bind (.instruction _ _) fun _ => .closeLoop _ _ _
  | .func f body, _, _ => .function f (body.keeps_emit False.elim)

theorem Arms.keeps_emitTests : ∀ (c : Arms) {quiet : Prop}, (quiet → c.Quiet) →
    Keeps quiet c.emitTests
  | .nil, _, _ => .pure _
  | .arm tests _ rest, _, hq =>
    .bind (tests.keeps_emit fun h => (hq h).1) fun _ =>
      .bind (rest.keeps_emitTests fun h => (hq h).2.2) fun _ => .pure _

theorem Tests.keeps_emit : ∀ (t : Tests) {quiet : Prop}, (quiet → t.Quiet) → Keeps quiet t.emit
  | .nil, _, _ => .pure _
  | .test value rest, _, hq =>
    .bind (.instruction _ _) fun _ => .bind (value.keeps_emit fun h => (hq h).1) fun _ =>
      .bind (.instruction _ _) fun _ => .bind (.emit _ _) fun _ =>
        .bind (rest.keeps_emit fun h => (hq h).2) fun _ => .pure _

theorem Arms.keeps_emitBodies : ∀ (c : Arms) (jumps : List (List Nat)) {quiet : Prop},
    (quiet → c.Quiet) → Keeps quiet (c.emitBodies jumps)
  | .nil, _, _, _ => .pure _
  | .arm _ _ _, [], _, _ => .pure _
  | .arm _ body rest, _ :: pending, _, hq =>
    .bind (.forM fun _ => .landHere _) fun _ => .bind (body.keeps_emit fun h => (hq h).2.1) fun _ =>
      .bind (.emit _ _) fun _ =>
        .bind (rest.keeps_emitBodies pending fun h => (hq h).2.2) fun _ => .pure _

end

end ScriptEngine
