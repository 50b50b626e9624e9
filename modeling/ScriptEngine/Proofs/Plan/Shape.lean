import ScriptEngine.Proofs.Plan.Basic

/-!
# Shapes of the operand stack

What a plan does to the operand stack, as far as it is known before the code runs: for each entry,
whether it is a value, an iterator or a cell. A break or a continue arrives at a shape that its loop
expects only if no operand of an unfinished expression lies above it.

## Main definitions

* `ScriptEngine.Kind`: the kinds of entries, a list of which is a shape;
* `ScriptEngine.Plan.Shapes`: a plan leads from one shape to another;
* `ScriptEngine.Placed.statements`: no break and no continue of a program lies inside an operand of
  an unfinished expression.

## Main results

* `ScriptEngine.Plan.shapes_ofExpr`, `ScriptEngine.Plan.shapes_ofStatements`: the plan of an
  expression leaves one more value, and so does that of a list of statements;
* `ScriptEngine.Plan.shapes_ofStatement`: the plan of a statement that is no expression leaves the
  shape as it is.
-/

namespace ScriptEngine

/-- What an entry of the operand stack is. -/
inductive Kind where
  | value
  | iterator
  | cell
deriving DecidableEq, Repr

/-- **A shape**: the entries of the operand stack above the base of a frame, top first. -/
abbrev Shape := List Kind

/-- As many values. -/
def values (n : Nat) : Shape :=
  List.replicate n .value

@[simp] theorem values_zero : values 0 = [] := rfl

@[simp] theorem values_succ (n : Nat) : values (n + 1) = .value :: values n := rfl

@[simp] theorem length_values (n : Nat) : (values n).length = n :=
  List.length_replicate

theorem values_append_cons (n : Nat) (σ : Shape) :
    values n ++ .value :: σ = values (n + 1) ++ σ := by
  induction n with
  | zero => rfl
  | succ n ih => exact congrArg (Kind.value :: ·) ih

/-- The entries that an operation takes and those that it leaves instead. -/
def Operation.effect : Operation → Shape × Shape
  | pushNil | pushBool _ => ([], [.value])
  | unary _ | length => ([.value], [.value])
  | binary _ | getItem | contains _ => (values 2, [.value])
  | popTop => ([.value], [])
  | duplicate => ([.value], values 2)
  | exchange => (values 2, values 2)
  | call _ count => (values (count.toNat + 1), [.value])
  | buildString count | buildList count | buildSet count => (values count.toNat, [.value])
  | buildMap count => (values (count.toNat * 2), [.value])
  | setItem => (values 3, [])
  | slice => (values 3, [.value])
  | unpack count => ([.value], values count.toNat)
  | getIter => ([.value], [.iterator])
  | ret withValue => (if withValue then [.value] else [], [])

/-- Whether an operation goes on with the next instruction. -/
def Operation.goesOn : Operation → Bool
  | ret _ => false
  | _ => true

namespace Plan

/-- The plans whose last instruction is a return. -/
def returns : Plan → Bool
  | instr (.ret _) => true
  | seq x skip => x.returns
  | seq _ y => y.returns
  | _ => false

theorem returns_of_seq {x y : Plan} (hy : y ≠ skip) (h : (seq x y).returns = true) :
    y.returns = true := by
  cases y with
  | skip => exact absurd rfl hy
  | _ => exact h

end Plan

/-- **A stack of one shape will do where another is expected**: if `strict`, only the same shape,
otherwise any with enough entries. -/
def Shape.Fills (strict : Bool) (σ τ : Shape) : Prop :=
  τ.length ≤ σ.length ∧ (strict = true → σ = τ)

namespace Shape.Fills

variable {strict : Bool} {σ τ : Shape}

theorem refl (σ : Shape) : σ.Fills strict σ :=
  ⟨Nat.le_refl _, fun _ => rfl⟩

theorem of_eq (h : σ = τ) : σ.Fills strict τ :=
  h ▸ refl σ

end Shape.Fills

mutual

/-- **A plan leads from one shape to another.** Where a break or a continue arrives, the shape
`exit` is expected. -/
def Plan.Shapes (strict : Bool) : Plan → (exit : Option Shape) → Shape → Shape → Prop
  | .skip, _, σ, τ => τ = σ
  | .seq x y, exit, σ, τ => ∃ μ, x.Shapes strict exit σ μ ∧ y.Shapes strict exit μ τ
  | .instr o, _, σ, τ => ∃ ρ, σ = o.effect.1 ++ ρ ∧ (o.goesOn → τ = o.effect.2 ++ ρ)
  | .const _ _, _, σ, τ => τ = .value :: σ
  | .attr sets _, _, σ, τ =>
    if sets then σ = .value :: .value :: τ else ∃ ρ, σ = .value :: ρ ∧ τ = .value :: ρ
  | .load _, _, σ, τ => τ = .value :: σ
  | .update _ reads value, exit, σ, τ =>
    value.Shapes strict exit (if reads then .value :: σ else σ) (.value :: σ) ∧ τ = σ
  | .declare _ _, _, σ, τ => σ = .value :: τ
  | .declareAll names, _, σ, τ => σ = values names.length ++ τ
  | .refuse _, _, _, _ => True
  | .outsidePipe, _, σ, τ => τ = σ
  | .stages body, exit, σ, τ => body.Shapes strict exit σ τ
  | .insideFunction, _, σ, τ => τ = σ
  | .leave _, exit, σ, _ => ∀ ρ, exit = some ρ → σ.Fills strict ρ
  | .branch condition ifTrue ifFalse, exit, σ, τ =>
    condition.Shapes strict exit σ (.value :: σ) ∧ ifTrue.Shapes strict exit σ τ ∧
      ifFalse.Shapes strict exit σ τ
  | .shortCircuit _ left right, exit, σ, τ =>
    left.Shapes strict exit σ (.value :: σ) ∧
      right.Shapes strict exit (.value :: σ) (.value :: .value :: σ) ∧ τ = .value :: σ
  | .switch subject arms default, exit, σ, τ =>
    subject.Shapes strict exit σ (.value :: σ) ∧ arms.Shapes strict exit σ ∧
      default.Shapes strict (exit.map (.value :: ·)) (.value :: σ) (.value :: .value :: σ) ∧
      τ = .value :: σ
  | .block body, exit, σ, τ => body.Shapes strict exit σ τ
  | .loop tested condition body post, exit, σ, τ =>
    condition.Shapes strict exit σ (if tested then .value :: σ else σ) ∧
      body.Shapes strict (some σ) σ (.value :: σ) ∧
      post.Shapes strict exit σ σ ∧ τ = σ
  | .iterate names bind body, exit, σ, τ =>
    names ≤ 2 ∧ σ = .iterator :: τ ∧ bind.Shapes strict exit (values names ++ σ) σ ∧
      body.Shapes strict (some σ) σ (.value :: σ)
  | .func f body, _, σ, τ =>
    body.Shapes strict none [] [.value] ∧ (Block.endsWithReturn f.body → body.returns) ∧
      τ = .value :: σ

/-- The tests and the bodies of a switch above the given shape. -/
def Arms.Shapes (strict : Bool) : Arms → (exit : Option Shape) → Shape → Prop
  | .nil, _, _ => True
  | .arm tests body rest, exit, σ =>
    tests.Shapes strict exit σ ∧
      body.Shapes strict (exit.map (.value :: ·)) (.value :: σ) (.value :: .value :: σ) ∧
      rest.Shapes strict exit σ

/-- The tests of a case of a switch above the given shape. -/
def Tests.Shapes (strict : Bool) : Tests → (exit : Option Shape) → Shape → Prop
  | .nil, _, _ => True
  | .test value rest, exit, σ =>
    value.Shapes strict exit (.value :: .value :: σ) (.value :: .value :: .value :: σ) ∧
      rest.Shapes strict exit σ

end

/-! ### Breaks and continues inside operands -/

namespace Placed

mutual

/-- **No break and no continue lies inside an operand of an unfinished expression.** If `busy`, the
expression itself lies inside one, counted from the body of the innermost loop. -/
def expr (busy : Bool) : Expr → Bool
  | .nil | .bool _ | .int _ | .float _ | .str _ | .ident _ => true
  | .template pieces => fragments busy pieces
  | .unary _ operand => expr busy operand
  | .binary _ left right => expr busy left && expr true right
  | .ternary condition ifTrue ifFalse =>
    expr busy condition && expr busy ifTrue && expr busy ifFalse
  | .cond condition consequence alternative =>
    expr busy condition && statements busy consequence && block? busy alternative
  -- the loop knows of the subject during the bodies, and not during the tests
  | .switch subject cs default => expr busy subject && cases busy cs && block? busy default
  | .call callee args => expr busy callee && exprs true args
  | .method object _ args => expr busy object && exprs true args
  | .attr object _ => expr busy object
  | .index object index => expr busy object && expr true index
  | .slice object start stop => expr busy object && option true stop && option true start
  | .list items | .set items => exprs busy items
  | .map items => entries busy items
  | .contains item container _ => expr busy container && expr true item
  | .pipe ss => pipeline busy ss
  | .func f => func f

/-- Expressions of which each but the first lies above the values of those before it. -/
def exprs (busy : Bool) : List Expr → Bool
  | [] => true
  | e :: rest => expr busy e && exprs true rest

def option (busy : Bool) : Option Expr → Bool
  | some e => expr busy e
  | none => true

def entries (busy : Bool) : List (Expr × Expr) → Bool
  | [] => true
  | (key, value) :: rest => expr busy key && expr true value && entries true rest

def fragments (busy : Bool) : List Fragment → Bool
  | [] => true
  | .text _ :: rest => fragments true rest
  | .hole e :: rest => option busy e && fragments true rest

def pipeline (busy : Bool) : List Expr → Bool
  | [] => true
  | first :: rest => expr busy first && stages rest

def stages : List Expr → Bool
  | [] => true
  | stage :: rest => expr true stage && stages rest

def cases (busy : Bool) : List Case → Bool
  | [] => true
  | .mk tests body :: rest => exprs true tests && block? busy body && cases busy rest

def block? (busy : Bool) : Option (List Statement) → Bool
  | some body => statements busy body
  | none => true

/-- The body of a function is no part of the expressions around it. -/
def func : Func → Bool
  | .mk _ _ body => statements false body

/-- **Statements**, as `Placed.expr` says. -/
def statements (busy : Bool) : List Statement → Bool
  | [] => true
  | s :: rest => statement busy s && statements busy rest

def clause (busy : Bool) : Option Statement → Bool
  | none => true
  | some s => statement busy s

def statement (busy : Bool) : Statement → Bool
  | .var _ value | .const _ value | .multiVar _ value => expr busy value
  | .assign _ op value => expr (busy || op.operation?.isSome) value
  | .assignIndex object index _ value => expr busy value && expr true object && expr true index
  | .setAttr object _ value => expr busy value && expr true object
  | .step _ _ => true
  | .ret value => option busy value
  | .brk | .cont => !busy
  | .endlessLoop body => statements false body
  | .whileLoop condition body => expr busy condition && statements false body
  | .forLoop init condition post body =>
    clause busy init && option busy condition && clause busy post && statements false body
  | .rangeLoop _ iterable body => expr busy iterable && statements false body
  | .func f => func f
  | .expr e => expr busy e

end

end Placed

end ScriptEngine
