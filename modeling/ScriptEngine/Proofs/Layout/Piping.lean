import ScriptEngine.Proofs.Layout.Places
import ScriptEngine.Proofs.Plan.Guarded

/-!
# Pipes while code is emitted

The body under construction knows whether a later stage of a pipe is being emitted, and so does the
text of the program. A function starts outside of all pipes, and the pipe around it goes on behind
it.

## Main definitions

* `ScriptEngine.Emit.Stays`: steps that leave the pipe as it is.

## Main results

* `ScriptEngine.Plan.stays_emit`: emitting a plan does;
* `ScriptEngine.Plan.Reaches.piped`: wherever a compilation comes to, it knows whether it is in a
  later stage of a pipe;
* `ScriptEngine.Plan.Reaches.pipe_refused`, `ScriptEngine.Plan.Reaches.pipe_taken`: which pipes are
  refused.
-/

namespace ScriptEngine

open Generate

namespace Emit

variable {α β : Type} {b : Bool}

/-- **The innermost body is, or is not, in a later stage of a pipe**, inside of the given bodies. -/
def IsAt (b : Bool) (outer : List Body) (s : Emission) : Prop :=
  s.body.inPipe = b ∧ s.enclosing = outer

/-- **Steps that leave the pipe as it is** if they succeed. -/
def Stays (b : Bool) (x : Emit α) : Prop :=
  ∀ outer, Ensures (IsAt b outer) x (fun _ => IsAt b outer) fun _ _ => True

namespace Stays

theorem pure (a : α) : Stays b (pure a : Emit α) :=
  fun _ => .pure fun _ h => h

theorem bind {x : Emit α} {f : α → Emit β} (hx : Stays b x) (hf : ∀ a, Stays b (f a)) :
    Stays b (x >>= f) :=
  fun outer => .bind (hx outer) fun a => hf a outer

theorem throw (e : CompileError) : Stays b (throw e : Emit α) :=
  fun _ => .throw fun _ _ => trivial

theorem look {f : Emission → Emit β} (hf : ∀ s, s.body.inPipe = b → Stays b (f s)) :
    Stays b (get >>= f) :=
  fun outer => .get fun s h => (hf s h.1 outer).mono (fun _ ht => ht ▸ h) (fun _ _ h => h)
    fun _ _ h => h

theorem ite {p : Prop} [Decidable p] {x y : Emit α} (hx : p → Stays b x) (hy : ¬p → Stays b y) :
    Stays b (if p then x else y) := by
  by_cases hp : p
  · rw [if_pos hp]
    exact hx hp
  · rw [if_neg hp]
    exact hy hp

theorem forM {γ : Type} {f : γ → Emit PUnit} {l : List γ} (h : ∀ c, Stays b (f c)) :
    Stays b (l.forM f) :=
  fun outer => .forM fun d _ => h d outer

theorem mapM {γ δ : Type} {f : γ → Emit δ} (h : ∀ c, Stays b (f c)) : ∀ l : List γ,
    Stays b (l.mapM f)
  | [] => by
    rw [List.mapM_nil]
    exact pure _
  | c :: l => by
    rw [List.mapM_cons]
    exact bind (h c) fun _ => bind (mapM h l) fun _ => pure _

theorem of_eq {x : Emit α} (h : ∀ s a s', x s = .ok a s' →
    s'.body.inPipe = s.body.inPipe ∧ s'.enclosing = s.enclosing) : Stays b x :=
  fun _ s hs => ⟨fun a s' hx => ⟨(h s a s' hx).1.trans hs.1, (h s a s' hx).2.trans hs.2⟩,
    fun _ _ _ => trivial⟩

/-- A change of the innermost body. -/
theorem onBody {f : Body → α × Body} (h : ∀ body, (f body).2.inPipe = body.inPipe) :
    Stays b (onBody f) := by
  refine of_eq ?_
  rintro ⟨table, body, enclosing, source, functions⟩ a s' hx
  obtain ⟨-, rfl⟩ := EStateM.Result.ok.inj hx
  exact ⟨h body, rfl⟩

theorem onCode (f : Code → α × Code) : Stays b (onCode f) :=
  onBody fun ⟨_, _, _, _⟩ => rfl

/-- A step on the scopes. -/
theorem onTable (step : Scoped α) : Stays b (onTable step) := by
  refine of_eq fun s a s' hx => ?_
  obtain ⟨table, -, rfl⟩ := onTable_eq_ok.mp hx
  exact ⟨rfl, rfl⟩

theorem position : Stays b position :=
  .look fun _ _ => .pure _

theorem scope : Stays b scope :=
  .look fun _ _ => .pure _

theorem emit (op : Opcode) (operands : List Word) : Stays b (Emit.emit op operands) :=
  onCode _

theorem instruction (op : Opcode) (operands : List Word) : Stays b (instruction op operands) :=
  .bind (emit op operands) fun _ => .pure _

theorem fromPool (add : Code → Option (Word × Code)) : Stays b (fromPool add) := by
  refine of_eq fun s a s' hx => ?_
  unfold Emit.fromPool at hx
  split at hx
  · obtain ⟨-, rfl⟩ := EStateM.Result.ok.inj hx
    exact ⟨rfl, rfl⟩
  · cases hx

theorem completeJump (jump target : Nat) : Stays b (completeJump jump target) :=
  .ite (fun _ => onCode _) fun _ => .throw _

theorem landHere (jump : Nat) : Stays b (landHere jump) :=
  .bind position fun _ => completeJump _ _

theorem jumpBack (target : Nat) : Stays b (jumpBack target) :=
  .bind position fun _ => .ite (fun _ => instruction _ _) fun _ => .throw _

theorem onLoop (f : OpenLoop → OpenLoop) : Stays b (onLoop f) := by
  refine onBody fun body => ?_
  obtain ⟨code, scope, loops, inPipe⟩ := body
  cases loops <;> rfl

theorem loopBody {body : Emit Unit} (h : Stays b body) : Stays b (loopBody body) :=
  .bind (onBody fun _ => rfl) fun _ => .bind h fun _ => .bind (onBody fun _ => rfl) fun _ =>
    .bind (instruction _ _) fun _ => .pure _

theorem closeLoop (loop : OpenLoop) (exit next : Nat) : Stays b (closeLoop loop exit next) :=
  .bind (.forM fun _ => completeJump _ _) fun _ => .forM fun _ => completeJump _ _

theorem leaveLoop (isBreak : Bool) : Stays b (leaveLoop isBreak) := by
  refine .look fun s _ => ?_
  split
  · exact .throw _
  · exact .bind (.forM fun _ => instruction _ _) fun _ => .bind (emit _ _) fun _ => onLoop _

theorem holding {steps : Emit Unit} (h : Stays b steps) : Stays b (holding steps) :=
  .bind (onLoop _) fun _ => .bind h fun _ => onLoop _

theorem exitIf (tested : Bool) : Stays b (exitIf tested) := by
  cases tested with
  | true => exact .bind (emit _ _) fun _ => .pure _
  | false => exact .pure _

/-! ### Names, scopes and bodies -/

theorem newName (name : String) (constant : Bool) : Stays b (newName name constant) :=
  .bind scope fun _ => onTable _

theorem resolve (name : String) : Stays b (resolve name) :=
  .bind scope fun _ => .bind (onTable _) fun found => by
    cases found with
    | none => exact .throw _
    | some r => exact .pure r

theorem resolveAssignable (name : String) : Stays b (resolveAssignable name) :=
  .bind (resolve name) fun r => .ite (fun _ => .bind (.throw _) fun _ => .pure _) fun _ => .pure r

theorem load (r : Resolution) : Stays b (load r) := by
  unfold Emit.load
  split
  all_goals exact instruction _ _

theorem store (r : Resolution) : Stays b (store r) := by
  unfold Emit.store
  split
  case h_4 => exact .throw _
  all_goals exact instruction _ _

theorem slotStore : Stays b slotStore :=
  .look fun _ _ => .pure _

theorem declare (name : String) (constant : Bool) : Stays b (declare name constant) :=
  .bind (newName name constant) fun _ => .bind slotStore fun _ => instruction _ _

theorem inBlock {steps : Emit Unit} (h : Stays b steps) : Stays b (inBlock steps) :=
  .bind scope fun _ => .bind (onTable _) fun _ => .bind (onBody fun _ => rfl) fun _ =>
    .bind h fun _ => onBody fun _ => rfl

theorem passCell (outer : ScopeId) (name : String) : Stays b (Generate.passCell outer name) := by
  refine .bind (onTable _) fun found => ?_
  split
  · exact .throw _
  · split
    case h_3 | h_4 => exact .throw _
    all_goals exact instruction _ _

theorem instantiate (outer : ScopeId) (r : Ref .function) (free : List Resolution) :
    Stays b (Generate.instantiate outer r free) := by
  refine .bind (fromPool _) fun index => ?_
  split
  · exact instruction _ _
  · refine .bind (.forM fun found => passCell _ _) fun _ => ?_
    split
    · exact .bind (.throw _) fun _ => instruction _ _
    · exact instruction _ _

theorem defaultValue (p : Param) : Stays b (Generate.defaultValue p) := by
  unfold Generate.defaultValue
  split
  · exact .pure _
  · split
    · exact .pure _
    · exact .throw _

/-- **A function** starts outside of all pipes, and the body around it is the same behind it. -/
theorem function (f : Func) {body : Emit Unit} (h : Stays false body) :
    Stays b (Generate.function f body) := by
  have hrest (defaults : List (Option Value)) (outer inner : ScopeId) : Stays b (do
      Generate.openBody f inner
      Emit.inBlock body
      if !Block.endsWithReturn f.body then Emit.instruction .returnValue [1]
      let r ← Generate.closeBody f defaults inner
      Generate.instantiate outer r ((← get).table.freeVars inner).toList) := by
    intro bodies
    let Inner (s : Emission) : Prop := ∃ around, around.inPipe = b ∧ IsAt false (around :: bodies) s
    have lift {γ : Type} {x : Emit γ} (hx : Stays false x) :
        Ensures Inner x (fun _ => Inner) fun _ _ => True := by
      rintro s ⟨around, hb, hs⟩
      exact ⟨fun a s' h => ⟨around, hb, (hx _ s hs).1 a s' h⟩, fun _ _ _ => trivial⟩
    have hend : Ensures Inner (do
        let r ← Generate.closeBody f defaults inner
        Generate.instantiate outer r ((← get).table.freeVars inner).toList)
        (fun _ => IsAt b bodies) fun _ _ => True := by
      refine .bind (Q := fun _ => IsAt b bodies) ?_ fun r =>
        (look fun s _ => instantiate outer r _) bodies
      rintro ⟨table, body', enclosing, source, functions⟩ ⟨around, hb, -, henclosing⟩
      refine ⟨fun a s' hx => ?_, fun _ _ _ => trivial⟩
      obtain rfl : enclosing = around :: bodies := henclosing
      obtain ⟨-, rfl⟩ := EStateM.Result.ok.inj hx
      exact ⟨hb, rfl⟩
    refine .bind (Q := fun _ => Inner) ?_ fun _ => .bind (lift (inBlock h)) fun _ => ?_
    · rintro ⟨table, around, enclosing, source, functions⟩ ⟨hb, henclosing⟩
      refine ⟨fun a s' hx => ?_, fun _ _ _ => trivial⟩
      obtain ⟨-, rfl⟩ := EStateM.Result.ok.inj hx
      exact ⟨around, hb, rfl, congrArg (around :: ·) henclosing⟩
    · split
      · exact .bind (lift (instruction _ _)) fun _ => hend
      · exact hend
  refine .ite (fun _ => .bind (.throw _) fun _ => ?_) fun _ => ?_
  all_goals
    exact .bind (.mapM defaultValue _) fun defaults => .bind scope fun outer =>
      .bind (onTable _) fun inner => hrest defaults outer inner

end Stays

end Emit

open Emit

/-! ### Plans -/

theorem Plan.eq_of_asks {p : Plan} (h : p.asks = true) : p = .outsidePipe := by
  cases p with
  | outsidePipe => rfl
  | _ => cases h

/-- **The later stages of a pipe** end outside of it. -/
theorem Emit.Stays.stages {body : Emit Unit} (h : Stays true body) : Stays false (do
    Emit.onBody fun b => ((), { b with inPipe := true })
    body
    Emit.onBody fun b => ((), { b with inPipe := false })) := by
  intro outer
  refine .bind (Q := fun _ => IsAt true outer) ?_ fun _ => .bind (h outer) fun _ => ?_
  all_goals
    rintro ⟨table, body, enclosing, source, functions⟩ hs
    refine ⟨fun a s' hx => ?_, fun _ _ _ => trivial⟩
    obtain ⟨-, rfl⟩ := EStateM.Result.ok.inj hx
  · exact ⟨rfl, hs.2⟩
  · exact ⟨rfl, hs.2⟩

mutual

/-- **Emitting a plan** leaves the pipe as it is. -/
theorem Plan.stays_emit : ∀ (p : Plan) {asked b : Bool}, p.Guarded asked →
    (asked = true → b = false) →
    Stays b p.emit
  | .skip, _, _, _, _ => .pure ()
  | .seq x y, asked, b, hg, ha => by
    have hx := x.stays_emit hg.1 ha
    by_cases hasks : x.asks = true
    · obtain rfl := Plan.eq_of_asks hasks
      cases b with
      | false => exact .bind hx fun _ => y.stays_emit hg.2 fun _ => rfl
      | true =>
        -- in a pipe another one is refused
        intro outer s hs
        have hemit : (Plan.seq .outsidePipe y).emit s = .error .nestedPipe s := by
          refine bind_of_error ?_
          show (if s.body.inPipe then _ else _ : Emit Unit) s = _
          rw [if_pos hs.1]
          rfl
        rw [hemit]
        exact ⟨nofun, fun _ _ _ => trivial⟩
    · rw [Bool.not_eq_true] at hasks
      have hgy : y.Guarded asked := by
        have := hg.2
        rwa [hasks, Bool.or_false] at this
      exact .bind hx fun _ => y.stays_emit hgy ha
  | .instr _, _, _, _, _ => .instruction _ _
  | .const v _, _, _, _, _ => .bind (.fromPool _) fun _ => .instruction _ _
  | .attr _ _, _, _, _, _ => .bind (.fromPool _) fun _ => .instruction _ _
  | .load name, _, _, _, _ => .bind (.resolve name) fun r => .load r
  | .update name reads value, _, _, hg, ha => by
    refine .bind (.resolveAssignable name) fun r => ?_
    refine .ite (fun _ => .bind (.load r) fun _ => ?_) fun _ => ?_
    all_goals exact .bind (value.stays_emit hg ha) fun _ => .store r
  | .declare name constant, _, _, _, _ => .declare name constant
  | .declareAll names, _, _, _, _ =>
    .bind (.mapM (fun _ => .newName _ _) names) fun _ => .bind .slotStore fun _ =>
      .forM fun _ => .instruction _ _
  | .refuse e, _, _, _, _ => .throw e
  | .outsidePipe, _, _, _, _ => .look fun _ _ => .ite (fun _ => .throw _) fun _ => .pure ()
  | .stages body, asked, b, hg, ha => by
    obtain rfl : b = false := ha hg.1
    exact .stages (body.stays_emit hg.2 fun h => Bool.noConfusion h)
  | .insideFunction, _, _, _, _ => .look fun _ _ => .ite (fun _ => .throw _) fun _ => .pure ()
  | .leave isBreak, _, _, _, _ => .leaveLoop isBreak
  | .branch condition ifTrue ifFalse, _, _, hg, ha =>
    .bind (condition.stays_emit hg.1 ha) fun _ => .bind (.emit _ _) fun _ =>
      .bind (ifTrue.stays_emit hg.2.1 ha) fun _ => .bind (.emit _ _) fun _ =>
        .bind (.landHere _) fun _ => .bind (ifFalse.stays_emit hg.2.2 ha) fun _ => .landHere _
  | .shortCircuit _ left right, _, _, hg, ha =>
    .bind (left.stays_emit hg.1 ha) fun _ => .bind (.instruction _ _) fun _ =>
      .bind (.emit _ _) fun _ => .bind (right.stays_emit hg.2 ha) fun _ =>
        .bind (.instruction _ _) fun _ => .bind (.landHere _) fun _ => .instruction _ _
  | .switch subject arms default, _, _, hg, ha =>
    .bind (subject.stays_emit hg.1 ha) fun _ => .bind (arms.stays_emitTests hg.2.1 ha) fun jumps =>
      .bind (.emit _ _) fun _ => .bind (.holding (.bind (arms.stays_emitBodies jumps hg.2.1 ha)
        fun _ => .bind (.landHere _) fun _ => .bind (default.stays_emit hg.2.2 ha) fun _ =>
          .forM fun _ => .landHere _)) fun _ => .bind (.instruction _ _) fun _ => .instruction _ _
  | .block body, _, _, hg, ha => .inBlock (body.stays_emit hg ha)
  | .loop tested condition body post, _, _, hg, ha => by
    refine .bind .position fun _ => .bind (condition.stays_emit hg.1 ha) fun _ =>
      .bind (.exitIf tested) fun leave => .bind (.loopBody (body.stays_emit hg.2.1 ha)) fun _ =>
        .bind .position fun _ => .bind (post.stays_emit hg.2.2 ha) fun _ =>
          .bind (.jumpBack _) fun _ => .bind .position fun _ => ?_
    cases leave with
    | none => exact .bind (.pure _) fun _ => .bind (.instruction _ _) fun _ => .closeLoop _ _ _
    | some j =>
      exact .bind (.landHere j) fun _ => .bind (.instruction _ _) fun _ => .closeLoop _ _ _
  | .iterate _ bind body, _, _, hg, ha =>
    .bind .position fun _ => .bind (.emit _ _) fun _ => .bind (bind.stays_emit hg.1 ha) fun _ =>
      .bind (.loopBody (body.stays_emit hg.2 ha)) fun _ => .bind .position fun _ =>
        .bind (.jumpBack _) fun _ => .bind .position fun _ => .bind (.instruction _ _) fun _ =>
          .bind (.landHere _) fun _ => .bind (.instruction _ _) fun _ => .closeLoop _ _ _
  | .func f body, _, _, hg, _ => .function f (body.stays_emit hg fun h => Bool.noConfusion h)

theorem Arms.stays_emitTests : ∀ (c : Arms) {asked b : Bool}, c.Guarded asked →
    (asked = true → b = false) → Stays b c.emitTests
  | .nil, _, _, _, _ => .pure _
  | .arm tests _ rest, _, _, hg, ha =>
    .bind (tests.stays_emit hg.1 ha) fun _ => .bind
      (rest.stays_emitTests hg.2.2 ha) fun _ => .pure _

theorem Tests.stays_emit : ∀ (t : Tests) {asked b : Bool}, t.Guarded asked →
    (asked = true → b = false) → Stays b t.emit
  | .nil, _, _, _, _ => .pure _
  | .test value rest, _, _, hg, ha =>
    .bind (.instruction _ _) fun _ => .bind (value.stays_emit hg.1 ha) fun _ =>
      .bind (.instruction _ _) fun _ => .bind (.emit _ _) fun _ =>
        .bind (rest.stays_emit hg.2 ha) fun _ => .pure _

theorem Arms.stays_emitBodies : ∀ (c : Arms) (jumps : List (List Nat)) {asked b : Bool},
    c.Guarded asked → (asked = true → b = false) → Stays b (c.emitBodies jumps)
  | .nil, _, _, _, _, _ => .pure _
  | .arm _ _ _, [], _, _, _, _ => .pure _
  | .arm _ body rest, _ :: pending, _, _, hg, ha =>
    .bind (.forM fun _ => .landHere _) fun _ => .bind (body.stays_emit hg.2.1 ha) fun _ =>
      .bind (.emit _ _) fun _ => .bind (rest.stays_emitBodies pending hg.2.2 ha) fun _ => .pure _

end

/-! ### Places -/

variable {p q : Plan} {P Q : Place} {s t : Emission} {asked : Bool}

/-- A step that leaves the pipe as it is. -/
theorem Emit.Stays.inPipe {α : Type} {x : Emit α} {b : Bool} {a : α} {m : Emission} (hx : Stays b x)
    (hs : s.body.inPipe = b) (h : x s = .ok a m) : m.body.inPipe = b :=
  ((hx s.enclosing s ⟨hs, rfl⟩).1 a m h).1

/-- Whatever a case comes to in its tests, the pipe is the same there. -/
theorem Tests.Comes.piped {tests : Tests} (h : tests.Comes P s q Q t) :
    ∀ {asked : Bool}, tests.Guarded asked → (asked = true → P.piped = false) →
      s.body.inPipe = P.piped → q.Guarded asked ∧ Q.piped = P.piped ∧ t.body.inPipe = P.piped := by
  induction h with
  | here hcopy => exact fun hg _ hs => ⟨hg.1, rfl, (Stays.instruction _ _).inPipe hs hcopy⟩
  | later hcopy hvalue hcompare hjump _ ih =>
    intro asked hg ha hs
    have h₁ := (Stays.instruction _ _).inPipe hs hcopy
    have h₂ := (Plan.stays_emit _ hg.1 ha).inPipe h₁ hvalue
    have h₃ := (Stays.instruction _ _).inPipe h₂ hcompare
    exact ih hg.2 ha ((Stays.emit _ _).inPipe h₃ hjump)

theorem Arms.ComesToTest.piped {arms : Arms} (h : arms.ComesToTest P s q Q t) :
    ∀ {asked : Bool}, arms.Guarded asked → (asked = true → P.piped = false) →
      s.body.inPipe = P.piped → q.Guarded asked ∧ Q.piped = P.piped ∧ t.body.inPipe = P.piped := by
  induction h with
  | here h => exact fun hg ha hs => h.piped hg.1 ha hs
  | later htests _ ih =>
    exact fun hg ha hs => ih hg.2.2 ha ((Tests.stays_emit _ hg.1 ha).inPipe hs htests)

theorem Arms.ComesToBody.piped {arms : Arms} {jumps : List (List Nat)}
    (h : arms.ComesToBody jumps P s q Q t) :
    ∀ {asked : Bool}, arms.Guarded asked → (asked = true → P.piped = false) →
      s.body.inPipe = P.piped → q.Guarded asked ∧ Q.piped = P.piped ∧ t.body.inPipe = P.piped := by
  induction h with
  | here hland =>
    exact fun hg _ hs => ⟨hg.2.1, rfl, (Stays.forM fun _ => .landHere _).inPipe hs hland⟩
  | later hland hbody hdone _ ih =>
    intro asked hg ha hs
    have h₁ := (Stays.forM fun _ => .landHere _).inPipe hs hland
    have h₂ := (Plan.stays_emit _ hg.2.1 ha).inPipe h₁ hbody
    exact ih hg.2.2 ha ((Stays.emit _ _).inPipe h₂ hdone)

/-- **Wherever a compilation comes to**, it knows whether it is in a later stage of a pipe. -/
theorem Plan.Reaches.piped (h : p.Reaches P s q Q t) : ∀ {asked : Bool}, p.Guarded asked →
    (asked = true → P.piped = false) → s.body.inPipe = P.piped → t.body.inPipe = Q.piped := by
  -- by induction on the way down; at each step, what was emitted before leaves the flag alone
  induction h with
  | refl => exact fun _ _ hs => hs
  | first _ ih => exact fun hg ha hs => ih hg.1 ha hs
  | @second x y q P Q s m t hx _ ih =>
    intro asked hg ha hs
    have hm := (x.stays_emit hg.1 ha).inPipe hs hx
    refine ih hg.2 (fun h => ?_) hm
    -- what was asked has been answered
    rcases Bool.or_eq_true_iff.mp h with h | h
    · exact ha h
    · obtain rfl := Plan.eq_of_asks h
      cases hp : P.piped with
      | false => exact hp
      | true =>
        exfalso
        have hemit : Plan.outsidePipe.emit s = .error .nestedPipe s := by
          show (if s.body.inPipe then _ else _ : Emit Unit) s = _
          rw [if_pos (hs.trans hp)]
          rfl
        rw [hemit] at hx
        cases hx
  | @update name reads value q P Q s m₁ m₂ t r hr hload _ ih =>
    intro asked hg ha hs
    have h₁ := (Stays.resolveAssignable name).inPipe hs hr
    have h₂ : m₂.body.inPipe = P.piped := by
      cases reads with
      | true => exact (Stays.load r).inPipe h₁ hload
      | false => exact (Stays.pure ()).inPipe h₁ hload
    exact ih hg ha h₂
  | stages _ ih => exact fun hg _ _ => ih hg.2 (fun h => Bool.noConfusion h) rfl
  | condition _ ih => exact fun hg ha hs => ih hg.1 ha hs
  | ifTrue hc hj _ ih =>
    intro asked hg ha hs
    have h₁ := (Plan.stays_emit _ hg.1 ha).inPipe hs hc
    exact ih hg.2.1 ha ((Stays.emit _ _).inPipe h₁ hj)
  | ifFalse hc hj ht hd hl _ ih =>
    intro asked hg ha hs
    have h₁ := (Plan.stays_emit _ hg.1 ha).inPipe hs hc
    have h₂ := (Stays.emit _ _).inPipe h₁ hj
    have h₃ := (Plan.stays_emit _ hg.2.1 ha).inPipe h₂ ht
    have h₄ := (Stays.emit _ _).inPipe h₃ hd
    exact ih hg.2.2 ha ((Stays.landHere _).inPipe h₄ hl)
  | left _ ih => exact fun hg ha hs => ih hg.1 ha hs
  | right hl hcopy hj _ ih =>
    intro asked hg ha hs
    have h₁ := (Plan.stays_emit _ hg.1 ha).inPipe hs hl
    have h₂ := (Stays.instruction _ _).inPipe h₁ hcopy
    exact ih hg.2 ha ((Stays.emit _ _).inPipe h₂ hj)
  | subject _ ih => exact fun hg ha hs => ih hg.1 ha hs
  | @test subject default p q arms P P' Q s m s' t hs' hc _ ih =>
    intro asked hg ha hs
    have h₁ := (Plan.stays_emit _ hg.1 ha).inPipe hs hs'
    -- the tests in front of this one are emitted at the same level
    obtain ⟨hg', hP, hs'⟩ := hc.piped hg.2.1 ha h₁
    exact ih hg' (fun h => hP.trans (ha h)) (hs'.trans hP.symm)
  | arm hs' ht hj hh hc _ ih =>
    intro asked hg ha hs
    have h₁ := (Plan.stays_emit _ hg.1 ha).inPipe hs hs'
    have h₂ := (Arms.stays_emitTests _ hg.2.1 ha).inPipe h₁ ht
    have h₃ := (Stays.emit _ _).inPipe h₂ hj
    obtain ⟨hg', hP, hs'⟩ := hc.piped hg.2.1 ha ((Stays.onLoop _).inPipe h₃ hh)
    exact ih hg' (fun h => hP.trans (ha h)) (hs'.trans hP.symm)
  | otherwise hs' ht hj hh hb hl _ ih =>
    intro asked hg ha hs
    have h₁ := (Plan.stays_emit _ hg.1 ha).inPipe hs hs'
    have h₂ := (Arms.stays_emitTests _ hg.2.1 ha).inPipe h₁ ht
    have h₃ := (Stays.emit _ _).inPipe h₂ hj
    have h₄ := (Stays.onLoop _).inPipe h₃ hh
    have h₅ := (Arms.stays_emitBodies _ _ hg.2.1 ha).inPipe h₄ hb
    exact ih hg.2.2 ha ((Stays.landHere _).inPipe h₅ hl)
  | block hi _ ih =>
    intro asked hg ha hs
    have h₁ := (Stays.onTable _).inPipe hs hi
    exact ih hg ha h₁
  | loopCondition _ ih => exact fun hg ha hs => ih hg.1 ha hs
  | loopBody hc he _ ih =>
    intro asked hg ha hs
    have h₁ := (Plan.stays_emit _ hg.1 ha).inPipe hs hc
    have h₂ := (Stays.exitIf _).inPipe h₁ he
    exact ih hg.2.1 ha h₂
  | loopPost hc he hb _ ih =>
    intro asked hg ha hs
    have h₁ := (Plan.stays_emit _ hg.1 ha).inPipe hs hc
    have h₂ := (Stays.exitIf _).inPipe h₁ he
    exact ih hg.2.2 ha ((Stays.loopBody (Plan.stays_emit _ hg.2.1 ha)).inPipe h₂ hb)
  | binding hadvance _ ih => exact fun hg ha hs => ih hg.1 ha ((Stays.emit _ _).inPipe hs hadvance)
  | round hadvance hb _ ih =>
    intro asked hg ha hs
    have h₁ := (Stays.emit _ _).inPipe hs hadvance
    have h₂ := (Plan.stays_emit _ hg.1 ha).inPipe h₁ hb
    exact ih hg.2 ha h₂
  | @func f body q P Q s m₁ m₂ m₃ t defaults inner block hcount hd he ho _ ih =>
    intro asked hg _ _
    -- a function starts a body of its own, which is in no pipe
    have h₃ : m₃.body.inPipe = false := (Stays.onTable _).inPipe rfl ho
    exact ih hg (fun h => Bool.noConfusion h) h₃

/-- **A pipe is refused** in a later stage of another one, and also with fewer than two stages. -/
theorem Plan.Reaches.pipe_refused {bound : Bool} {ss : List Expr}
    (h : p.Reaches P s (ofExpr bound (.pipe ss)) Q t) (hg : p.Guarded asked)
    (ha : asked = true → P.piped = false) (hs : s.body.inPipe = P.piped)
    (hbad : Q.piped = true ∨ ss.length < 2) :
    p.emit s = .error (if Q.piped then .nestedPipe else .pipeTooShort) t := by
  have hpiped := h.piped hg ha hs
  refine h.refused ?_
  cases hQ : Q.piped with
  | true =>
    refine bind_of_error ?_
    show (if t.body.inPipe then _ else _ : Emit Unit) t = _
    rw [if_pos (hpiped.trans hQ)]
    rfl
  | false =>
    have hshort : ss.length < 2 := hbad.resolve_left (by simp [hQ])
    have hasks : Plan.outsidePipe.emit t = .ok () t := by
      show (if t.body.inPipe then _ else _ : Emit Unit) t = _
      rw [hpiped, hQ]
      rfl
    refine (bind_of_ok hasks).trans ?_
    rw [if_pos hshort]
    rfl

/-- **All other pipes are taken.** The compilation goes on with their first stage, outside of the
pipe, and then with the others, in it. -/
theorem Plan.Reaches.pipe_taken {bound : Bool} {first : Expr} {stages : List Expr}
    (h : p.Reaches P s (ofExpr bound (.pipe (first :: stages))) Q t) (hg : p.Guarded asked)
    (ha : asked = true → P.piped = false) (hs : s.body.inPipe = P.piped) (hQ : Q.piped = false)
    (hstages : stages ≠ []) :
    (ofExpr bound (.pipe (first :: stages))).emit t =
      (seq (ofExpr false first) (.stages (ofStages stages))).emit t := by
  have hpiped := h.piped hg ha hs
  have hasks : Plan.outsidePipe.emit t = .ok () t := by
    show (if t.body.inPipe then _ else _ : Emit Unit) t = _
    rw [hpiped, hQ]
    rfl
  refine (bind_of_ok hasks).trans ?_
  rw [if_neg (by
    cases stages with
    | nil => exact absurd rfl hstages
    | cons => simp)]
  rfl

end ScriptEngine
