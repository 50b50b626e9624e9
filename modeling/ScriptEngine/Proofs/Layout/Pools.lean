import ScriptEngine.Proofs.Layout.Steps
import ScriptEngine.Proofs.Plan.Basic

/-!
# Pools while code is emitted

A pool holds nothing twice. Scalars share an entry, and a function has none before it is compiled,
so whatever is added to a pool is new to it. This is kept by all steps that emit code, for the body
that is emitted as well as for those around it and for the functions compiled so far.

## Main definitions

* `ScriptEngine.Code.Distinct`: the pools of a code hold nothing twice;
* `ScriptEngine.Emission.Distinct`: neither do those of all codes at hand;
* `ScriptEngine.Emit.Collects`: steps that keep it so.

## Main results

* `ScriptEngine.Code.Distinct.addConstant?`, `ScriptEngine.Code.Distinct.addName?`: additions to a
  pool;
* `ScriptEngine.Plan.collects_emit`: emitting a plan.
-/

namespace ScriptEngine

/-- Every scalar may share an entry with itself. -/
theorem Value.sameScalar_self {v : Value} (h : v.isScalar = true) : v.sameScalar v = true := by
  cases v with
  | nil => rfl
  | bool b => exact beq_self_eq_true b
  | int n => exact beq_self_eq_true n
  | float x => exact beq_self_eq_true x
  | str s => exact beq_self_eq_true s
  | _ => cases h

namespace Code

/-- **The pools of a code hold nothing twice**, and the functions among the constants are some of
the first `count` ones. -/
structure Distinct (count : Nat) (c : Code) : Prop where
  constants : c.constants.toList.Nodup
  names : c.names.toList.Nodup
  known : ∀ v ∈ c.constants, v.IsConstant count

namespace Distinct

variable {c c' : Code} {count count' : Nat}

theorem empty {name source : Option String} : Distinct count { name, source } :=
  ⟨.nil, .nil, fun v hv => absurd hv (Array.not_mem_empty v)⟩

theorem of_pools (h : c.Distinct count) (hc : c'.constants = c.constants)
    (hn : c'.names = c.names) : c'.Distinct count :=
  ⟨hc ▸ h.constants, hn ▸ h.names, hc ▸ h.known⟩

theorem mono (h : c.Distinct count) (hc : count ≤ count') : c.Distinct count' :=
  ⟨h.constants, h.names, fun v hv => (h.known v hv).mono hc⟩

/-- An entry lies at one index only. -/
theorem constant_index (h : c.Distinct count) {i j : Nat} {v : Value}
    (hi : c.constants[i]? = some v) (hj : c.constants[j]? = some v) : i = j := by
  rw [← Array.getElem?_toList] at hi hj
  exact (List.getElem?_inj (List.getElem?_eq_some_iff.mp hi).1 h.constants).mp (hi.trans hj.symm)

/-- A name lies at one index only. -/
theorem name_index (h : c.Distinct count) {i j : Nat} {name : String}
    (hi : c.names[i]? = some name) (hj : c.names[j]? = some name) : i = j := by
  rw [← Array.getElem?_toList] at hi hj
  exact (List.getElem?_inj (List.getElem?_eq_some_iff.mp hi).1 h.names).mp (hi.trans hj.symm)

/-- What is new can be added. -/
theorem nodup_push {α : Type} {xs : Array α} {x : α} (h : xs.toList.Nodup) (hx : x ∉ xs.toList) :
    (xs.push x).toList.Nodup := by
  rw [Array.toList_push, List.nodup_append]
  refine ⟨h, List.pairwise_singleton _ x, fun y hy z hz => ?_⟩
  obtain rfl := List.mem_singleton.mp hz
  exact fun heq => hx (heq ▸ hy)

/-- **A constant is added** only if it is new. Scalars are found if they are there, and functions
must not be there. -/
theorem addConstant? (h : c.Distinct count) {v : Value} {i : Word}
    (ha : c.addConstant? v = some (i, c')) (hv : v.IsConstant count)
    (hnew : v.isScalar = true ∨ v ∉ c.constants) : c'.Distinct count := by
  have hknown := addConstant?_pool hv ha h.known
  unfold Code.addConstant? at ha
  split at ha
  · obtain ⟨-, rfl⟩ : _ ∧ c = c' := by simpa using ha
    exact h
  · rename_i hnone
    split at ha
    · obtain ⟨-, rfl⟩ : _ ∧ _ = c' := by simpa using ha
      -- a scalar that is there would have been found, and a function is not there
      have hfresh : v ∉ c.constants.toList := by
        intro hmem
        rcases hnew with hs | hnew
        · have hsame := Array.findIdx?_eq_none_iff.mp hnone v (Array.mem_toList_iff.mp hmem)
          rw [Value.sameScalar_self hs] at hsame
          cases hsame
        · exact hnew (Array.mem_toList_iff.mp hmem)
      exact ⟨nodup_push h.constants hfresh, h.names, hknown⟩
    · cases ha

/-- **A name is added** only if it is new. -/
theorem addName? (h : c.Distinct count) {name : String} {i : Word}
    (ha : c.addName? name = some (i, c')) : c'.Distinct count := by
  have hknown := addName?_pool ha h.known
  unfold Code.addName? at ha
  split at ha
  · obtain ⟨-, rfl⟩ : _ ∧ c = c' := by simpa using ha
    exact h
  · rename_i hnone
    split at ha
    · obtain ⟨-, rfl⟩ : _ ∧ _ = c' := by simpa using ha
      have hfresh : name ∉ c.names.toList := by
        intro hmem
        have hsame := Array.findIdx?_eq_none_iff.mp hnone name (Array.mem_toList_iff.mp hmem)
        rw [beq_self_eq_true] at hsame
        cases hsame
      exact ⟨h.constants, nodup_push h.names hfresh, hknown⟩
    · cases ha

end Distinct

end Code

/-- **All pools at hand hold nothing twice**: those of the body that is emitted, of the bodies
around it and of the functions compiled so far. -/
structure Emission.Distinct (s : Emission) : Prop where
  body : s.body.code.Distinct s.functions.size
  enclosing : ∀ b ∈ s.enclosing, b.code.Distinct s.functions.size
  functions : ∀ f ∈ s.functions, f.code.Distinct s.functions.size

namespace Emit

variable {α β : Type}

/-- **Steps after which all pools at hand still hold nothing twice.** Steps that fail do not matter,
because a batch that is refused is taken back. -/
def Collects (x : Emit α) : Prop :=
  Ensures Emission.Distinct x (fun _ => Emission.Distinct) (fun _ _ => True)

namespace Collects

theorem pure (a : α) : Collects (pure a : Emit α) :=
  Ensures.pure fun _ h => h

theorem bind {x : Emit α} {f : α → Emit β} (hx : Collects x) (hf : ∀ a, Collects (f a)) :
    Collects (x >>= f) :=
  Ensures.bind hx hf

theorem throw (e : CompileError) : Collects (throw e : Emit α) :=
  Ensures.throw fun _ _ => trivial

theorem look {f : Emission → Emit β} (hf : ∀ s, Collects (f s)) : Collects (get >>= f) :=
  Ensures.get fun s h => (hf s).mono (fun _ ht => ht ▸ h) (fun _ _ h => h) fun _ _ h => h

theorem ite {p : Prop} [Decidable p] {x y : Emit α} (hx : Collects x) (hy : Collects y) :
    Collects (if p then x else y) := by
  split
  · exact hx
  · exact hy

theorem forM {γ : Type} {f : γ → Emit PUnit} {l : List γ} (h : ∀ c, Collects (f c)) :
    Collects (l.forM f) :=
  Ensures.forM fun c _ => h c

theorem mapM {γ δ : Type} {f : γ → Emit δ} (h : ∀ c, Collects (f c)) :
    ∀ l : List γ, Collects (l.mapM f)
  | [] => by
    rw [List.mapM_nil]
    exact pure _
  | c :: l => by
    rw [List.mapM_cons]
    exact bind (h c) fun _ => bind (mapM h l) fun _ => pure _

/-! ### Steps that leave the pools alone -/

/-- A change of the innermost body that leaves its pools alone. -/
theorem onBody {f : Body → α × Body} (h : ∀ b, (f b).2.code.constants = b.code.constants ∧
    (f b).2.code.names = b.code.names) : Collects (onBody f) := by
  rintro ⟨table, body, enclosing, source, functions⟩ hs
  refine ⟨fun a s' hx => ?_, fun _ _ _ => trivial⟩
  obtain ⟨-, rfl⟩ := EStateM.Result.ok.inj hx
  exact ⟨hs.body.of_pools (h body).1 (h body).2, hs.enclosing, hs.functions⟩

theorem onCode {f : Code → α × Code}
    (h : ∀ c, (f c).2.constants = c.constants ∧ (f c).2.names = c.names) : Collects (onCode f) :=
  onBody fun ⟨code, _, _, _⟩ => h code

theorem onTable (step : Scoped α) : Collects (onTable step) := by
  intro s hs
  refine ⟨fun a s' hx => ?_, fun _ _ _ => trivial⟩
  obtain ⟨table, -, rfl⟩ := onTable_eq_ok.mp hx
  exact ⟨hs.body, hs.enclosing, hs.functions⟩

theorem position : Collects position :=
  .look fun _ => .pure _

theorem scope : Collects scope :=
  .look fun _ => .pure _

theorem emit (op : Opcode) (operands : List Word) : Collects (Emit.emit op operands) :=
  onCode fun _ => ⟨rfl, rfl⟩

theorem instruction (op : Opcode) (operands : List Word) : Collects (instruction op operands) :=
  .bind (emit op operands) fun _ => .pure _

theorem completeJump (jump target : Nat) : Collects (completeJump jump target) :=
  .ite (onCode fun _ => ⟨rfl, rfl⟩) (.throw _)

theorem landHere (jump : Nat) : Collects (landHere jump) :=
  .bind position fun _ => completeJump _ _

theorem jumpBack (target : Nat) : Collects (jumpBack target) :=
  .bind position fun _ => .ite (instruction _ _) (.throw _)

theorem onLoop (f : OpenLoop → OpenLoop) : Collects (onLoop f) := by
  refine onBody fun b => ?_
  obtain ⟨code, scope, loops, inPipe⟩ := b
  cases loops <;> exact ⟨rfl, rfl⟩

theorem loopBody {body : Emit Unit} (h : Collects body) : Collects (loopBody body) :=
  .bind (onBody fun _ => ⟨rfl, rfl⟩) fun _ => .bind h fun _ =>
    .bind (onBody fun _ => ⟨rfl, rfl⟩) fun _ => .bind (instruction _ _) fun _ => .pure _

theorem closeLoop (loop : OpenLoop) (exit next : Nat) : Collects (closeLoop loop exit next) :=
  .bind (.forM fun _ => completeJump _ _) fun _ => .forM fun _ => completeJump _ _

theorem leaveLoop (isBreak : Bool) : Collects (leaveLoop isBreak) := by
  refine .look fun s => ?_
  split
  · exact .throw _
  · exact .bind (.forM fun _ => instruction _ _) fun _ => .bind (emit _ _) fun _ => onLoop _

theorem holding {steps : Emit Unit} (h : Collects steps) : Collects (holding steps) :=
  .bind (onLoop _) fun _ => .bind h fun _ => onLoop _

theorem inBlock {steps : Emit Unit} (h : Collects steps) : Collects (inBlock steps) :=
  .bind scope fun _ => .bind (onTable _) fun _ => .bind (onBody fun _ => ⟨rfl, rfl⟩) fun _ =>
    .bind h fun _ => onBody fun _ => ⟨rfl, rfl⟩

/-! ### Names -/

theorem newName (name : String) (constant : Bool) : Collects (newName name constant) :=
  .bind scope fun _ => onTable _

theorem resolve (name : String) : Collects (resolve name) := by
  refine .bind scope fun _ => .bind (onTable _) fun found => ?_
  cases found with
  | none => exact .throw _
  | some r => exact .pure r

theorem resolveAssignable (name : String) : Collects (resolveAssignable name) :=
  .bind (resolve name) fun r => .ite (.bind (.throw _) fun _ => .pure _) (.pure r)

theorem load (r : Resolution) : Collects (load r) := by
  unfold Emit.load
  split
  all_goals exact instruction _ _

theorem store (r : Resolution) : Collects (store r) := by
  unfold Emit.store
  split
  case h_4 => exact .throw _
  all_goals exact instruction _ _

theorem slotStore : Collects slotStore :=
  .look fun _ => .pure _

theorem declare (name : String) (constant : Bool) : Collects (declare name constant) :=
  .bind (newName name constant) fun _ => .bind slotStore fun _ => instruction _ _

/-! ### Pools -/

/-- A step on the pools of the innermost body. -/
theorem fromPool {P : Emission → Prop} {add : Code → Option (Word × Code)}
    (h : ∀ (s : Emission) (i : Word) (code : Code), P s → s.Distinct →
      add s.body.code = some (i, code) → code.Distinct s.functions.size) :
    Ensures (fun s => P s ∧ s.Distinct) (fromPool add) (fun _ => Emission.Distinct)
      (fun _ _ => True) := by
  rintro s ⟨hP, hs⟩
  refine ⟨fun i s' hx => ?_, fun _ _ _ => trivial⟩
  unfold Emit.fromPool at hx
  split at hx
  · rename_i index code hadd
    obtain ⟨-, rfl⟩ := EStateM.Result.ok.inj hx
    exact ⟨h s index code hP hs hadd, hs.enclosing, hs.functions⟩
  · cases hx

/-- **A literal.** -/
theorem constant {v : Value} (hv : v.isScalar = true) : Collects (constant v) := by
  refine Ensures.bind (Q := fun _ => Emission.Distinct) ?_ fun _ => instruction _ _
  refine (fromPool (P := fun _ => True) fun s i code _ hs hadd => ?_).mono (fun _ h => ⟨trivial, h⟩)
    (fun _ _ h => h) fun _ _ h => h
  exact hs.body.addConstant? hadd (.of_isScalar _ hv) (.inl hv)

/-- The name of an attribute. -/
theorem nameIndex (name : String) : Collects (nameIndex name) := by
  refine (fromPool (P := fun _ => True) fun s i code _ hs hadd => ?_).mono (fun _ h => ⟨trivial, h⟩)
    (fun _ _ h => h) fun _ _ h => h
  exact hs.body.addName? hadd

/-! ### Functions -/

theorem defaultValue (p : Param) : Collects (Generate.defaultValue p) := by
  unfold Generate.defaultValue
  split
  · exact .pure _
  · split
    · exact .pure _
    · exact .throw _

theorem passCell (outer : ScopeId) (name : String) : Collects (Generate.passCell outer name) := by
  refine .bind (onTable _) fun found => ?_
  split
  · exact .throw _
  · split
    case h_3 | h_4 => exact .throw _
    all_goals exact instruction _ _

/-- The pools of a body that begins are empty. -/
theorem openBody (f : Func) (inner : ScopeId) : Collects (Generate.openBody f inner) := by
  rintro ⟨table, body, enclosing, source, functions⟩ hs
  refine ⟨fun a s' hx => ?_, fun _ _ _ => trivial⟩
  obtain ⟨-, rfl⟩ := EStateM.Result.ok.inj hx
  refine ⟨.empty, fun b hb => ?_, hs.functions⟩
  rcases List.mem_cons.mp hb with rfl | hb
  · exact hs.body
  · exact hs.enclosing b hb

/-- A function was just compiled, and the code around it does not refer to it yet. -/
def Fresh (r : Ref .function) (s : Emission) : Prop :=
  r.index < s.functions.size ∧ ∀ v ∈ s.body.code.constants, v.IsConstant r.index

/-- **A function that ends** is new to the code around it. -/
theorem closeBody (f : Func) (defaults : List (Option Value)) (inner : ScopeId) :
    Ensures Emission.Distinct (Generate.closeBody f defaults inner)
      (fun r s => Fresh r s ∧ s.Distinct) (fun _ _ => True) := by
  rintro ⟨table, body, enclosing, source, functions⟩ hs
  refine ⟨fun r s' hx => ?_, fun _ _ _ => trivial⟩
  obtain ⟨rfl, rfl⟩ := EStateM.Result.ok.inj hx
  have hsize : functions.size < (functions.push (⟨f.name, f.paramNames, defaults,
      { body.code with localCount := table.slotCount inner }⟩ : Function)).size := by
    rw [Array.size_push]
    exact Nat.lt_succ_self _
  -- the code around the function was there before it, so it refers to earlier functions only
  have houter : (enclosing.headD default).code.Distinct functions.size := by
    cases enclosing with
    | nil => exact .empty
    | cons b rest => exact hs.enclosing b (List.mem_cons_self ..)
  refine ⟨⟨hsize, houter.known⟩, houter.mono (Nat.le_of_lt hsize), fun b hb => ?_, fun g hg => ?_⟩
  · exact (hs.enclosing b (List.mem_of_mem_tail hb)).mono (Nat.le_of_lt hsize)
  · rcases Array.mem_push.mp hg with hg | rfl
    · exact (hs.functions g hg).mono (Nat.le_of_lt hsize)
    · have hbody : Code.Distinct functions.size
          { body.code with localCount := table.slotCount inner } := hs.body.of_pools rfl rfl
      exact hbody.mono (Nat.le_of_lt hsize)

/-- **A function constant** gets an entry of its own. -/
theorem instantiate (outer : ScopeId) (r : Ref .function) (free : List Resolution) :
    Ensures (fun s => Fresh r s ∧ s.Distinct) (Generate.instantiate outer r free)
      (fun _ => Emission.Distinct) (fun _ _ => True) := by
  refine .bind (Q := fun _ => Emission.Distinct) ?_ fun index => ?_
  · refine fromPool fun s i code hr hs hadd => hs.body.addConstant? hadd hr.1 (.inr fun hmem => ?_)
    exact Nat.lt_irrefl _ (hr.2 _ hmem)
  · refine Collects.ite (instruction _ _) ?_
    refine .bind (.forM fun found => passCell _ _) fun _ => ?_
    exact .ite (.bind (.throw _) fun _ => instruction _ _) (instruction _ _)

theorem function (f : Func) {body : Emit Unit} (h : Collects body) :
    Collects (Generate.function f body) := by
  have hend (inner outer : ScopeId) (defaults : List (Option Value)) : Collects (do
      let r ← Generate.closeBody f defaults inner
      Generate.instantiate outer r ((← get).table.freeVars inner).toList) := by
    refine Ensures.bind (closeBody f defaults inner) fun r => .get fun s hs => ?_
    exact (instantiate outer r _).mono (fun _ ht => ht ▸ hs) (fun _ _ h => h) fun _ _ h => h
  have hrest : Collects (do
      let defaults ← f.params.mapM Generate.defaultValue
      let outer ← Emit.scope
      let inner ← Emit.onTable (Generate.enter f outer)
      Generate.openBody f inner
      Emit.inBlock body
      if !Block.endsWithReturn f.body then Emit.instruction .returnValue [1]
      let r ← Generate.closeBody f defaults inner
      Generate.instantiate outer r ((← get).table.freeVars inner).toList) := by
    refine .bind (.mapM defaultValue _) fun defaults => .bind scope fun outer => ?_
    refine .bind (onTable _) fun inner => .bind (openBody f inner) fun _ => ?_
    refine .bind (inBlock h) fun _ => .ite (.bind (instruction _ _) fun _ => ?_) ?_
    all_goals exact hend inner outer defaults
  exact .ite (.bind (.throw _) fun _ => hrest) hrest

end Collects

end Emit

/-! ### Plans -/

open Emit

mutual

/-- **Emitting a plan** adds nothing to a pool that is there already. -/
theorem Plan.collects_emit : ∀ p : Plan, Collects p.emit
  | .skip => .pure ()
  | .seq x y => .bind x.collects_emit fun _ => y.collects_emit
  | .instr _ => .instruction _ _
  | .const _ hv => .constant hv
  | .attr _ name => .bind (.nameIndex name) fun _ => .instruction _ _
  | .load name => .bind (.resolve name) fun r => .load r
  | .update name reads value => by
    refine .bind (.resolveAssignable name) fun r => ?_
    refine .ite (.bind (.load r) fun _ => ?_) ?_
    all_goals exact .bind value.collects_emit fun _ => .store r
  | .declare name constant => .declare name constant
  | .declareAll names =>
    .bind (.mapM (fun _ => .newName _ _) names) fun _ => .bind .slotStore fun _ =>
      .forM fun _ => .instruction _ _
  | .refuse e => .throw e
  | .outsidePipe => .look fun _ => .ite (.throw _) (.pure ())
  | .stages body =>
    .bind (.onBody fun _ => ⟨rfl, rfl⟩) fun _ => .bind body.collects_emit fun _ =>
      .onBody fun _ => ⟨rfl, rfl⟩
  | .insideFunction => .look fun _ => .ite (.throw _) (.pure ())
  | .leave isBreak => .leaveLoop isBreak
  | .branch condition ifTrue ifFalse =>
    .bind condition.collects_emit fun _ => .bind (.emit _ _) fun _ =>
      .bind ifTrue.collects_emit fun _ => .bind (.emit _ _) fun _ => .bind (.landHere _) fun _ =>
        .bind ifFalse.collects_emit fun _ => .landHere _
  | .shortCircuit _ left right =>
    .bind left.collects_emit fun _ => .bind (.instruction _ _) fun _ => .bind (.emit _ _) fun _ =>
      .bind right.collects_emit fun _ => .bind (.instruction _ _) fun _ =>
        .bind (.landHere _) fun _ => .instruction _ _
  | .switch subject arms default =>
    .bind subject.collects_emit fun _ => .bind arms.collects_emitTests fun jumps =>
      .bind (.emit _ _) fun _ =>
        .bind (.holding (.bind (arms.collects_emitBodies jumps) fun _ =>
          .bind (.landHere _) fun _ => .bind default.collects_emit fun _ =>
            .forM fun _ => .landHere _))
        fun _ => .bind (.instruction _ _) fun _ => .instruction _ _
  | .block body => .inBlock body.collects_emit
  | .loop tested condition body post => by
    refine .bind .position fun _ => .bind condition.collects_emit fun _ => .bind ?_ fun leave =>
      .bind (.loopBody body.collects_emit) fun _ => .bind .position fun _ =>
        .bind post.collects_emit fun _ => .bind (.jumpBack _) fun _ => .bind .position fun _ => ?_
    · cases tested with
      | true => exact .bind (.emit _ _) fun _ => .pure _
      | false => exact .pure _
    · cases leave with
      | none => exact .bind (.pure _) fun _ => .bind (.instruction _ _) fun _ => .closeLoop _ _ _
      | some j => exact .bind (.landHere j) fun _ => .bind (.instruction _ _) fun _ =>
          .closeLoop _ _ _
  | .iterate _ bind body =>
    .bind .position fun _ => .bind (.emit _ _) fun _ => .bind bind.collects_emit fun _ =>
      .bind (.loopBody body.collects_emit) fun _ => .bind .position fun _ =>
        .bind (.jumpBack _) fun _ => .bind .position fun _ => .bind (.instruction _ _) fun _ =>
          .bind (.landHere _) fun _ => .bind (.instruction _ _) fun _ => .closeLoop _ _ _
  | .func f body => .function f body.collects_emit

theorem Arms.collects_emitTests : ∀ c : Arms, Collects c.emitTests
  | .nil => .pure _
  | .arm tests _ rest =>
    .bind tests.collects_emit fun _ => .bind rest.collects_emitTests fun _ => .pure _

theorem Tests.collects_emit : ∀ t : Tests, Collects t.emit
  | .nil => .pure _
  | .test value rest =>
    .bind (.instruction _ _) fun _ => .bind value.collects_emit fun _ =>
      .bind (.instruction _ _) fun _ => .bind (.emit _ _) fun _ =>
        .bind rest.collects_emit fun _ => .pure _

theorem Arms.collects_emitBodies : ∀ (c : Arms) (jumps : List (List Nat)),
    Collects (c.emitBodies jumps)
  | .nil, _ => .pure _
  | .arm _ _ _, [] => .pure _
  | .arm _ body rest, _ :: pending =>
    .bind (.forM fun _ => .landHere _) fun _ => .bind body.collects_emit fun _ =>
      .bind (.emit _ _) fun _ => .bind (rest.collects_emitBodies pending) fun _ => .pure _

end

end ScriptEngine
