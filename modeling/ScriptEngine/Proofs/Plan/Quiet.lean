import ScriptEngine.Proofs.Plan.Basic

/-!
# Plans that declare nothing

Names are declared by statements of their own. Whatever an expression does, and however deep the
blocks and functions in it are, it declares no name in the scope around it.

## Main definitions

* `ScriptEngine.Plan.Quiet`: a plan declares nothing in the scope in which it is emitted;
* `ScriptEngine.Statement.declares`: a statement declares names.

## Main results

* `ScriptEngine.Plan.quiet_ofExpr`: expressions declare nothing;
* `ScriptEngine.Plan.quiet_ofStatement`: neither do the statements that are no declarations.
-/

namespace ScriptEngine

mutual

/-- **A plan that declares nothing** in the scope in which it is emitted. In the blocks and
functions inside of it any names may be declared. -/
def Plan.Quiet : Plan → Prop
  | .seq x y => x.Quiet ∧ y.Quiet
  | .update _ _ value => value.Quiet
  | .declare _ _ | .declareAll _ => False
  | .stages body => body.Quiet
  | .branch condition ifTrue ifFalse => condition.Quiet ∧ ifTrue.Quiet ∧ ifFalse.Quiet
  | .shortCircuit _ left right => left.Quiet ∧ right.Quiet
  | .switch subject arms default => subject.Quiet ∧ arms.Quiet ∧ default.Quiet
  | .loop _ condition body post => condition.Quiet ∧ body.Quiet ∧ post.Quiet
  | .iterate _ bind body => bind.Quiet ∧ body.Quiet
  | _ => True

def Arms.Quiet : Arms → Prop
  | .nil => True
  | .arm tests body rest => tests.Quiet ∧ body.Quiet ∧ rest.Quiet

def Tests.Quiet : Tests → Prop
  | .nil => True
  | .test value rest => value.Quiet ∧ rest.Quiet

end

namespace Plan

theorem quiet_atMost {limit count : Nat} {e : CompileError} {p : Plan} (h : p.Quiet) :
    (atMost limit count e p).Quiet := by
  unfold atMost
  split
  · trivial
  · exact h

theorem quiet_ofBlock? (body : Option (List Statement)) : (ofBlock? body).Quiet := by
  cases body <;> trivial

mutual

/-- **An expression** declares nothing. -/
theorem quiet_ofExpr (bound : Bool) (e : Expr) : (ofExpr bound e).Quiet := by
  cases e with
  | nil | bool | int | float | str | ident => trivial
  | template pieces => exact quiet_atMost ⟨quiet_ofFragments pieces, trivial⟩
  | unary op operand => exact ⟨quiet_ofExpr false operand, trivial⟩
  | binary op left right =>
    have hl := quiet_ofExpr false left
    have hr := quiet_ofExpr false right
    cases op with
    | and | or => exact ⟨hl, hr⟩
    | _ => exact ⟨hl, hr, trivial⟩
  | ternary condition ifTrue ifFalse =>
    exact ⟨quiet_ofExpr false condition, quiet_ofExpr false ifTrue, quiet_ofExpr false ifFalse⟩
  | cond condition consequence alternative =>
    exact ⟨quiet_ofExpr false condition, trivial, quiet_ofBlock? alternative⟩
  | switch subject cases default =>
    exact ⟨quiet_ofExpr false subject, quiet_ofCases cases, quiet_ofBlock? default⟩
  | call callee args =>
    exact ⟨quiet_ofExpr false callee, quiet_atMost ⟨quiet_ofExprs args, trivial⟩⟩
  | method object name args =>
    exact ⟨quiet_ofExpr false object, trivial, quiet_atMost ⟨quiet_ofExprs args, trivial⟩⟩
  | attr object name => exact ⟨quiet_ofExpr false object, trivial⟩
  | index object index => exact ⟨quiet_ofExpr false object, quiet_ofExpr false index, trivial⟩
  | slice object start stop =>
    exact ⟨quiet_ofExpr false object, quiet_ofOption stop ⟨trivial, trivial⟩,
      quiet_ofOption start trivial, trivial⟩
  | list items | set items => exact quiet_atMost ⟨quiet_ofExprs items, trivial⟩
  | map items => exact quiet_atMost ⟨quiet_ofEntries items, trivial⟩
  | contains item container negated =>
    exact ⟨quiet_ofExpr false container, quiet_ofExpr false item, trivial⟩
  | pipe ss =>
    refine ⟨trivial, ?_⟩
    split
    · trivial
    · exact quiet_ofPipeline ss
  | func f =>
    cases f
    trivial

theorem quiet_ofExprs (es : List Expr) : (ofExprs es).Quiet := by
  cases es with
  | nil => trivial
  | cons e rest => exact ⟨quiet_ofExpr false e, quiet_ofExprs rest⟩

theorem quiet_ofOption (e : Option Expr) {missing : Plan} (h : missing.Quiet) :
    (ofOption e missing).Quiet := by
  cases e with
  | some e => exact quiet_ofExpr false e
  | none => exact h

theorem quiet_ofEntries (items : List (Expr × Expr)) : (ofEntries items).Quiet := by
  match items with
  | [] => trivial
  | (key, value) :: rest =>
    exact ⟨quiet_ofExpr false key, quiet_ofExpr false value, quiet_ofEntries rest⟩

theorem quiet_ofFragments (pieces : List Fragment) : (ofFragments pieces).Quiet := by
  match pieces with
  | [] => trivial
  | .text s :: rest => exact ⟨trivial, quiet_ofFragments rest⟩
  | .hole e :: rest => exact ⟨quiet_ofOption e trivial, quiet_ofFragments rest⟩

theorem quiet_ofPipeline (ss : List Expr) : (ofPipeline ss).Quiet := by
  match ss with
  | [] => trivial
  | first :: rest => exact ⟨quiet_ofExpr false first, quiet_ofStages rest⟩

theorem quiet_ofStages (ss : List Expr) : (ofStages ss).Quiet := by
  match ss with
  | [] => trivial
  | stage :: rest => exact ⟨quiet_ofExpr true stage, trivial, trivial, quiet_ofStages rest⟩

theorem quiet_ofCases (cases : List Case) : (ofCases cases).Quiet := by
  match cases with
  | [] => trivial
  | .mk values body :: rest =>
    exact ⟨quiet_ofTests values, quiet_ofBlock? body, quiet_ofCases rest⟩

theorem quiet_ofTests (values : List Expr) : (ofTests values).Quiet := by
  match values with
  | [] => trivial
  | e :: rest => exact ⟨quiet_ofExpr false e, quiet_ofTests rest⟩

end

end Plan

/-- A statement that declares names in the scope around it. -/
def Statement.declares : Statement → Bool
  | .var _ _ | .const _ _ | .multiVar _ _ | .func _ => true
  | _ => false

/-- **A statement that is no declaration** declares nothing. -/
theorem Plan.quiet_ofStatement {s : Statement} (h : s.declares = false) :
    (ofStatement s).Quiet := by
  cases s with
  | var | const | multiVar | func => cases h
  | assign name op value =>
    have hv := quiet_ofExpr false value
    unfold ofStatement
    split
    · exact hv
    · exact ⟨hv, trivial⟩
  | assignIndex object index op value =>
    unfold ofStatement
    split
    · trivial
    · exact ⟨quiet_ofExpr false value, quiet_ofExpr false object, quiet_ofExpr false index, trivial⟩
  | setAttr object name value =>
    exact ⟨quiet_ofExpr false value, quiet_ofExpr false object, trivial⟩
  | step name op => exact ⟨trivial, trivial⟩
  | ret value => exact ⟨trivial, quiet_ofOption value trivial, trivial⟩
  | brk | cont => trivial
  | endlessLoop body => exact ⟨trivial, trivial, trivial⟩
  | whileLoop condition body => exact ⟨quiet_ofExpr false condition, trivial, trivial⟩
  | forLoop | rangeLoop => trivial
  | expr e => exact quiet_ofExpr false e

end ScriptEngine
