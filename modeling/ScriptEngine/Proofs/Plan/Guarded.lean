import ScriptEngine.Proofs.Plan.Basic

/-!
# Guarded pipes

The later stages of a pipe are only emitted once it is known that no pipe is around.

## Main definitions

* `ScriptEngine.Plan.Guarded`: every pipe in a plan asks first.

## Main results

* `ScriptEngine.Plan.guarded_ofStatements`: every pipe of a program does.
-/

namespace ScriptEngine

/-- A plan that asks whether a pipe is around. -/
def Plan.asks : Plan → Bool
  | .outsidePipe => true
  | _ => false

mutual

/-- **Every pipe asks first** whether a pipe is around, unless it has been asked before. -/
def Plan.Guarded (asked : Bool) : Plan → Prop
  | .seq x y => x.Guarded asked ∧ y.Guarded (asked || x.asks)
  | .update _ _ value => value.Guarded asked
  | .stages body => asked = true ∧ body.Guarded false
  | .branch condition ifTrue ifFalse =>
    condition.Guarded asked ∧ ifTrue.Guarded asked ∧ ifFalse.Guarded asked
  | .shortCircuit _ left right => left.Guarded asked ∧ right.Guarded asked
  | .switch subject arms default =>
    subject.Guarded asked ∧ arms.Guarded asked ∧ default.Guarded asked
  | .block body => body.Guarded asked
  | .loop _ condition body post => condition.Guarded asked ∧ body.Guarded asked ∧ post.Guarded asked
  | .iterate _ bind body => bind.Guarded asked ∧ body.Guarded asked
  | .func _ body => body.Guarded false
  | _ => True

def Arms.Guarded (asked : Bool) : Arms → Prop
  | .nil => True
  | .arm tests body rest => tests.Guarded asked ∧ body.Guarded asked ∧ rest.Guarded asked

def Tests.Guarded (asked : Bool) : Tests → Prop
  | .nil => True
  | .test value rest => value.Guarded asked ∧ rest.Guarded asked

end

namespace Plan

theorem guarded_atMost {asked : Bool} {limit count : Nat} {e : CompileError} {p : Plan}
    (h : p.Guarded asked) : (atMost limit count e p).Guarded asked := by
  unfold atMost
  split
  · trivial
  · exact h

theorem guarded_bindings (asked : Bool) (names : List String) : (bindings names).Guarded asked := by
  induction names generalizing asked with
  | nil => trivial
  | cons name rest ih =>
    refine ⟨?_, ih _⟩
    split <;> trivial

mutual

/-- **An expression.** -/
theorem guarded_ofExpr (asked bound : Bool) (e : Expr) : (ofExpr bound e).Guarded asked := by
  cases e with
  | nil | bool | int | float | str | ident => trivial
  | template pieces => exact guarded_atMost ⟨guarded_ofFragments _ pieces, trivial⟩
  | unary op operand => exact ⟨guarded_ofExpr _ false operand, trivial⟩
  | binary op left right =>
    have hl (asked : Bool) := guarded_ofExpr asked false left
    have hr (asked : Bool) := guarded_ofExpr asked false right
    cases op with
    | and | or => exact ⟨hl _, hr _⟩
    | _ => exact ⟨hl _, hr _, trivial⟩
  | ternary condition ifTrue ifFalse =>
    exact ⟨guarded_ofExpr _ false condition, guarded_ofExpr _ false ifTrue,
      guarded_ofExpr _ false ifFalse⟩
  | cond condition consequence alternative =>
    exact ⟨guarded_ofExpr _ false condition, guarded_ofStatements _ consequence,
      guarded_ofBlock? _ alternative⟩
  | switch subject cases default =>
    exact ⟨guarded_ofExpr _ false subject, guarded_ofCases _ cases, guarded_ofBlock? _ default⟩
  | call callee args =>
    exact ⟨guarded_ofExpr _ false callee, guarded_atMost ⟨guarded_ofExprs _ args, trivial⟩⟩
  | method object name args =>
    exact ⟨guarded_ofExpr _ false object, trivial, guarded_atMost ⟨guarded_ofExprs _ args, trivial⟩⟩
  | attr object name => exact ⟨guarded_ofExpr _ false object, trivial⟩
  | index object index =>
    exact ⟨guarded_ofExpr _ false object, guarded_ofExpr _ false index, trivial⟩
  | slice object start stop =>
    exact ⟨guarded_ofExpr _ false object, guarded_ofOption _ stop fun _ => ⟨trivial, trivial⟩,
      guarded_ofOption _ start fun _ => trivial, trivial⟩
  | list items | set items => exact guarded_atMost ⟨guarded_ofExprs _ items, trivial⟩
  | map items => exact guarded_atMost ⟨guarded_ofEntries _ items, trivial⟩
  | contains item container negated =>
    exact ⟨guarded_ofExpr _ false container, guarded_ofExpr _ false item, trivial⟩
  | pipe ss =>
    refine ⟨trivial, ?_⟩
    -- here it has been asked
    have hasked : (asked || outsidePipe.asks) = true := Bool.or_true asked
    rw [hasked]
    split
    · trivial
    · exact guarded_ofPipeline ss
  | func f => exact guarded_ofFunc _ f

theorem guarded_ofExprs (asked : Bool) (es : List Expr) : (ofExprs es).Guarded asked := by
  cases es with
  | nil => trivial
  | cons e rest => exact ⟨guarded_ofExpr _ false e, guarded_ofExprs _ rest⟩

theorem guarded_ofOption (asked : Bool) (e : Option Expr) {missing : Plan}
    (h : ∀ asked, missing.Guarded asked) : (ofOption e missing).Guarded asked := by
  cases e with
  | some e => exact guarded_ofExpr _ false e
  | none => exact h asked

theorem guarded_ofEntries (asked : Bool) (items : List (Expr × Expr)) :
    (ofEntries items).Guarded asked := by
  match items with
  | [] => trivial
  | (key, value) :: rest =>
    exact ⟨guarded_ofExpr _ false key, guarded_ofExpr _ false value, guarded_ofEntries _ rest⟩

theorem guarded_ofFragments (asked : Bool) (pieces : List Fragment) :
    (ofFragments pieces).Guarded asked := by
  match pieces with
  | [] => trivial
  | .text s :: rest => exact ⟨trivial, guarded_ofFragments _ rest⟩
  | .hole e :: rest => exact ⟨guarded_ofOption _ e fun _ => trivial, guarded_ofFragments _ rest⟩

theorem guarded_ofPipeline (ss : List Expr) : (ofPipeline ss).Guarded true := by
  match ss with
  | [] => trivial
  | first :: rest => exact ⟨guarded_ofExpr _ false first, rfl, guarded_ofStages _ rest⟩

theorem guarded_ofStages (asked : Bool) (ss : List Expr) : (ofStages ss).Guarded asked := by
  match ss with
  | [] => trivial
  | stage :: rest => exact ⟨guarded_ofExpr _ true stage, trivial, trivial, guarded_ofStages _ rest⟩

theorem guarded_ofCases (asked : Bool) (cases : List Case) : (ofCases cases).Guarded asked := by
  match cases with
  | [] => trivial
  | .mk values body :: rest =>
    exact ⟨guarded_ofTests _ values, guarded_ofBlock? _ body, guarded_ofCases _ rest⟩

theorem guarded_ofTests (asked : Bool) (values : List Expr) : (ofTests values).Guarded asked := by
  match values with
  | [] => trivial
  | e :: rest => exact ⟨guarded_ofExpr _ false e, guarded_ofTests _ rest⟩

theorem guarded_ofBlock? (asked : Bool) (body : Option (List Statement)) :
    (ofBlock? body).Guarded asked := by
  match body with
  | none => trivial
  | some body => exact guarded_ofStatements _ body

theorem guarded_ofFunc (asked : Bool) (f : Func) : (ofFunc f).Guarded asked := by
  match f with
  | .mk name params body => exact guarded_ofStatements false body

/-- **A list of statements.** -/
theorem guarded_ofStatements (asked : Bool) (ss : List Statement) :
    (ofStatements ss).Guarded asked := by
  match ss with
  | [] => trivial
  | [s] =>
    refine ⟨guarded_ofStatement _ s, ?_⟩
    split <;> trivial
  | s :: s' :: rest =>
    refine ⟨guarded_ofStatement _ s, ?_, guarded_ofStatements _ (s' :: rest)⟩
    split <;> trivial

theorem guarded_ofClause (asked : Bool) (s : Option Statement) : (ofClause s).Guarded asked := by
  match s with
  | none => trivial
  | some s =>
    refine ⟨guarded_ofStatement _ s, ?_⟩
    split <;> trivial

/-- **A statement.** -/
theorem guarded_ofStatement (asked : Bool) (s : Statement) : (ofStatement s).Guarded asked := by
  match s with
  | .var name value | .const name value => exact ⟨guarded_ofExpr _ false value, trivial⟩
  | .multiVar names value =>
    exact guarded_atMost ⟨guarded_ofExpr _ false value, trivial, trivial⟩
  | .assign name op value =>
    have hv := guarded_ofExpr asked false value
    unfold ofStatement
    split
    · exact hv
    · exact ⟨hv, trivial⟩
  | .assignIndex object index op value =>
    have ho (asked : Bool) := guarded_ofExpr asked false object
    have hi (asked : Bool) := guarded_ofExpr asked false index
    have hv (asked : Bool) := guarded_ofExpr asked false value
    unfold ofStatement
    split
    · trivial
    · exact ⟨hv _, ho _, hi _, trivial⟩
  | .setAttr object name value =>
    exact ⟨guarded_ofExpr _ false value, guarded_ofExpr _ false object, trivial⟩
  | .step name op => exact ⟨trivial, trivial⟩
  | .ret value => exact ⟨trivial, guarded_ofOption _ value fun _ => trivial, trivial⟩
  | .brk | .cont => trivial
  | .endlessLoop body => exact ⟨trivial, guarded_ofStatements _ body, trivial⟩
  | .whileLoop condition body =>
    exact ⟨guarded_ofExpr _ false condition, guarded_ofStatements _ body, trivial⟩
  | .forLoop init condition post body =>
    exact ⟨guarded_ofClause _ init, guarded_ofOption _ condition fun _ => trivial,
      guarded_ofStatements _ body, guarded_ofClause _ post⟩
  | .rangeLoop names iterable body =>
    show (atMost _ _ _ _).Guarded asked
    exact guarded_atMost ⟨guarded_ofExpr _ false iterable, trivial, guarded_bindings _ names,
      guarded_ofStatements _ body⟩
  | .func (.mk none params body) => trivial
  | .func (.mk (some name) params body) => exact ⟨guarded_ofStatements false body, trivial⟩
  | .expr e => exact guarded_ofExpr _ false e

end

end Plan

end ScriptEngine
