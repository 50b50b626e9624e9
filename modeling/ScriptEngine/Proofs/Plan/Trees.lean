import ScriptEngine.Proofs.Plan.Basic

/-!
# The code of a tree is the code of its plan

## Main results

* `ScriptEngine.Plan.emit_ofExpr`, `ScriptEngine.Plan.emit_ofStatements`: the generator emits for a
  tree exactly what its plan says.
-/

namespace ScriptEngine.Plan

open Emit Generate

theorem emit_atMost (limit count : Nat) (e : CompileError) (p : Plan) :
    (atMost limit count e p).emit = (if limit < count then throw e else p.emit : Emit Unit) := by
  unfold atMost
  split <;> rfl

theorem collectionSize_bind {β : Type} (count : Nat) (k : Word → Emit β) :
    collectionSize count >>= k =
      if 0xffff < count then throw (.tooMany .items 0xffff count) else k count.toUInt16 := by
  unfold collectionSize
  by_cases h : count ≤ 0xffff
  · rw [if_pos h, if_neg (by omega)]
    rfl
  · rw [if_neg h, if_pos (by omega)]
    rfl

theorem emit_bindings (names : List String) :
    (bindings names).emit =
      names.forM fun name => if name = "_" then instruction .popTop else Emit.declare
        name false := by
  induction names with
  | nil => rfl
  | cons name rest ih =>
    simp only [bindings, Plan.emit, ih]
    refine congrArg (· >>= fun _ => rest.forM _) ?_
    show _ = if name = "_" then instruction .popTop else Emit.declare name false
    split <;> rfl

mutual

/-- **Expressions.** -/
theorem emit_ofExpr (bound : Bool) (e : Expr) :
    (ofExpr bound e).emit = exprAs (Operation.callOpcode bound) e := by
  match e with
  | .nil => rfl
  | .bool true => rfl
  | .bool false => rfl
  | .int _ => rfl
  | .float _ => rfl
  | .str _ => rfl
  | .template pieces =>
    rw [ofExpr, exprAs, emit_atMost, collectionSize_bind, Plan.emit, emit_ofFragments pieces]
    rfl
  | .ident _ => rfl
  | .unary op operand =>
    cases op <;> rw [ofExpr, exprAs, Plan.emit, emit_ofExpr false operand] <;> rfl
  | .binary op left right =>
    have hl := emit_ofExpr false left
    have hr := emit_ofExpr false right
    cases op <;> simp only [ofExpr, exprAs, Plan.emit, hl, hr] <;> rfl
  | .ternary condition ifTrue ifFalse =>
    rw [ofExpr, exprAs, Plan.emit, emit_ofExpr false condition, emit_ofExpr false ifTrue,
      emit_ofExpr false ifFalse]
    rfl
  | .cond condition consequence alternative =>
    rw [ofExpr, exprAs, Plan.emit, Plan.emit, emit_ofExpr false condition,
      emit_ofStatements consequence, emit_ofBlock? alternative]
    rfl
  | .switch subject cases default =>
    rw [ofExpr, exprAs, Plan.emit, emit_ofExpr false subject, emit_ofBlock? default]
    simp only [emitTests_ofCases cases, emitBodies_ofCases cases]
    rfl
  | .call callee args =>
    rw [ofExpr, exprAs, Plan.emit, emit_ofExpr false callee, emit_atMost, Plan.emit,
      emit_ofExprs args]
    refine congrArg _ (funext fun _ => ?_)
    split <;> rfl
  | .method object name args =>
    rw [ofExpr, exprAs, Plan.emit, emit_ofExpr false object, Plan.emit, emit_atMost, Plan.emit,
      emit_ofExprs args]
    refine congrArg _ (funext fun _ => ?_)
    simp only [Plan.emit, bind_assoc]
    refine congrArg _ (funext fun _ => congrArg _ (funext fun _ => ?_))
    split <;> rfl
  | .attr object name =>
    rw [ofExpr, exprAs, Plan.emit, emit_ofExpr false object]
    rfl
  | .index object index =>
    rw [ofExpr, exprAs, Plan.emit, Plan.emit, emit_ofExpr false object, emit_ofExpr false index]
    rfl
  | .slice object start stop =>
    rw [ofExpr, exprAs, Plan.emit, Plan.emit, Plan.emit, emit_ofExpr false object,
      emit_ofOption stop, emit_ofOption start]
    rfl
  | .list items =>
    rw [ofExpr, exprAs, emit_atMost, collectionSize_bind, Plan.emit, emit_ofExprs items]
    rfl
  | .set items =>
    rw [ofExpr, exprAs, emit_atMost, collectionSize_bind, Plan.emit, emit_ofExprs items]
    rfl
  | .map items =>
    rw [ofExpr, exprAs, emit_atMost, collectionSize_bind, Plan.emit, emit_ofEntries items]
    rfl
  | .contains item container negated =>
    rw [ofExpr, exprAs, Plan.emit, Plan.emit, emit_ofExpr false container, emit_ofExpr false item]
    rfl
  | .pipe ss =>
    rw [ofExpr, exprAs, Plan.emit, Plan.emit, bind_assoc]
    refine congrArg _ (funext fun _ => ?_)
    by_cases hs : ss.length < 2
    · simp only [if_pos hs, Plan.emit]
      split <;> rfl
    · simp only [if_neg hs, emit_ofPipeline ss]
      split <;> rfl
  | .func f => rw [ofExpr, exprAs, emit_ofFunc f]

theorem emit_ofExprs (es : List Expr) : (ofExprs es).emit = exprs es := by
  match es with
  | [] => rfl
  | e :: rest =>
    rw [ofExprs, exprs, Plan.emit, emit_ofExpr false e, emit_ofExprs rest]
    rfl

theorem emit_ofOption (e : Option Expr) (missing : Plan) :
    (ofOption e missing).emit = exprOr e missing.emit := by
  match e with
  | some e => rw [ofOption, exprOr, emit_ofExpr false e]; rfl
  | none => rw [ofOption, exprOr]

theorem emit_ofEntries (items : List (Expr × Expr)) : (ofEntries items).emit = entries items := by
  match items with
  | [] => rfl
  | (key, value) :: rest =>
    rw [ofEntries, entries, Plan.emit, Plan.emit, emit_ofExpr false key, emit_ofExpr false value,
      emit_ofEntries rest]
    rfl

theorem emit_ofFragments (pieces : List Fragment) :
    (ofFragments pieces).emit = fragments pieces := by
  match pieces with
  | [] => rfl
  | .text s :: rest => rw [ofFragments, fragments, Plan.emit, emit_ofFragments rest]; rfl
  | .hole e :: rest =>
    rw [ofFragments, fragments, Plan.emit, emit_ofOption e, emit_ofFragments rest]
    rfl

theorem emit_ofPipeline (ss : List Expr) : (ofPipeline ss).emit = pipeline ss := by
  match ss with
  | [] => rfl
  | first :: rest =>
    rw [ofPipeline, pipeline, Plan.emit, Plan.emit, emit_ofExpr false first, emit_ofStages rest]
    rfl

theorem emit_ofStages (ss : List Expr) : (ofStages ss).emit = Generate.stages ss := by
  match ss with
  | [] => rfl
  | stage :: rest =>
    rw [ofStages, Generate.stages, Plan.emit, Plan.emit, Plan.emit, emit_ofExpr true stage,
      emit_ofStages rest]
    rfl

theorem emitTests_ofCases (cases : List Case) : (ofCases cases).emitTests = caseTests cases := by
  match cases with
  | [] => rfl
  | .mk values _ :: rest =>
    rw [ofCases, caseTests, Arms.emitTests, emit_ofTests values, emitTests_ofCases rest]

theorem emit_ofTests (values : List Expr) : (ofTests values).emit = valueTests values := by
  match values with
  | [] => rfl
  | e :: rest =>
    rw [ofTests, valueTests, Tests.emit, emit_ofExpr false e, emit_ofTests rest]
    rfl

theorem emitBodies_ofCases (cases : List Case) (jumps : List (List Nat)) :
    (ofCases cases).emitBodies jumps = caseBodies cases jumps := by
  match cases, jumps with
  | [], _ => simp only [ofCases, Arms.emitBodies, caseBodies]
  | .mk _ _ :: _, [] => simp only [ofCases, Arms.emitBodies, caseBodies]
  | .mk _ body :: rest, jumps :: pending =>
    rw [ofCases, caseBodies, Arms.emitBodies, emit_ofBlock? body, emitBodies_ofCases rest pending]

theorem emit_ofBlock? (body : Option (List Statement)) : (ofBlock? body).emit = block? body := by
  match body with
  | some body => rw [ofBlock?, block?, Plan.emit, emit_ofStatements body]
  | none => rfl

theorem emit_ofFunc (f : Func) : (ofFunc f).emit = Generate.func f := by
  match f with
  | .mk name params body => rw [ofFunc, Generate.func, Plan.emit, emit_ofStatements body]

/-- **Lists of statements.** -/
theorem emit_ofStatements (ss : List Statement) : (ofStatements ss).emit = statements ss := by
  match ss with
  | [] => rfl
  | [s] =>
    rw [ofStatements, statements, Plan.emit, emit_ofStatement s]
    refine congrArg _ (funext fun _ => ?_)
    split <;> rfl
  | s :: t :: rest =>
    rw [ofStatements, statements, Plan.emit, Plan.emit, emit_ofStatement s,
      emit_ofStatements (t :: rest)]
    · refine congrArg _ (funext fun _ => ?_)
      split <;> rfl
    all_goals simp

theorem emit_ofClause (s : Option Statement) : (ofClause s).emit = clause s := by
  match s with
  | none => rfl
  | some s =>
    rw [ofClause, clause, Plan.emit, emit_ofStatement s]
    refine congrArg _ (funext fun _ => ?_)
    split <;> rfl

/-- **Statements.** -/
theorem emit_ofStatement (s : Statement) : (ofStatement s).emit = statement s := by
  match s with
  | .var name value =>
    rw [ofStatement, statement, Plan.emit, emit_ofExpr false value]
    rfl
  | .const name value =>
    rw [ofStatement, statement, Plan.emit, emit_ofExpr false value]
    rfl
  | .multiVar names value =>
    rw [ofStatement, statement, emit_atMost, Plan.emit, emit_ofExpr false value]
    split <;> rfl
  | .assign name op value =>
    have hv := emit_ofExpr false value
    cases op <;>
      simp only [ofStatement, statement, AssignOp.operation?, Plan.emit, hv, reduceIte,
        bind_assoc] <;>
      rfl
  | .assignIndex object index op value =>
    rw [ofStatement, statement]
    by_cases hop : op ≠ .assign
    · simp only [if_pos hop, Plan.emit]
      rfl
    · simp only [if_neg hop, Plan.emit, emit_ofExpr false value, emit_ofExpr false object,
        emit_ofExpr false index]
      rfl
  | .setAttr object name value =>
    rw [ofStatement, statement, Plan.emit, Plan.emit, emit_ofExpr false value,
      emit_ofExpr false object]
    rfl
  | .step name op =>
    cases op <;>
      simp only [ofStatement, statement, Plan.emit, reduceIte, bind_assoc] <;>
      rfl
  | .ret value =>
    simp only [ofStatement, statement, Plan.emit, emit_ofOption value, bind_assoc]
    refine congrArg _ (funext fun _ => ?_)
    split
    · rfl
    · cases value <;> rfl
  | .brk => rfl
  | .cont => rfl
  | .endlessLoop body =>
    simp only [ofStatement, statement, Plan.emit, emit_ofStatements body]
    rfl
  | .whileLoop condition body =>
    simp only [ofStatement, statement, Plan.emit, emit_ofStatements body,
      emit_ofExpr false condition, exitIf, reduceIte, bind_assoc, pure_bind]
    rfl
  | .forLoop init condition post body =>
    rw [ofStatement, statement, Plan.emit, Plan.emit, Plan.emit, Plan.emit, emit_ofClause init,
      emit_ofOption condition, emit_ofStatements body, emit_ofClause post]
    cases condition with
    | none => rfl
    | some condition =>
      simp only [exitUnless, exprOr, exitIf, Option.isSome, reduceIte, bind_assoc, pure_bind]
  | .rangeLoop names iterable body =>
    simp only [ofStatement, statement, emit_atMost, Plan.emit, emit_ofExpr false iterable,
      emit_bindings, emit_ofStatements body]
    refine congrArg _ ?_
    split <;> rfl
  | .func f =>
    match f with
    | .mk none _ _ => rfl
    | .mk (some name) params body =>
      simp only [ofStatement, statement, Plan.emit, emit_ofStatements body]
  | .expr e => rw [ofStatement, statement, emit_ofExpr false e]; rfl

end

end ScriptEngine.Plan
