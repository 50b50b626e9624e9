import ScriptEngine.Machine.Execute
import ScriptEngine.Syntax.Tree

/-!
# An evaluator

What trees mean, without any code: an evaluator that follows the trees. It knows variables by their
names only, and what it does to values is what the operations on values do. It covers what is left
of the language without functions, attributes and short circuits.

## Main definitions

* `ScriptEngine.Store`: what an evaluation changes;
* `ScriptEngine.Eval`: evaluations, which may end early;
* `ScriptEngine.Eval.expr`, `ScriptEngine.Eval.statements`: the evaluator;
* `ScriptEngine.Program.evaluate`: what a program comes to;
* `ScriptEngine.FunctionFree.statements`: the programs that the evaluator covers.

## Implementation notes

A loop need not end. The evaluator is given a number of rounds after which it gives up every loop
that it is in, and a program whose evaluation never ends is one that it gives up whatever the number
is. A loop over a container goes through the entries that were there when it began, so it needs no
such number.
-/

namespace ScriptEngine

/-- **Bindings**: variables with their values, newest first. -/
abbrev Bindings := List (String × Value)

/-- The newest variable of a name has another value. -/
def Bindings.assign (name : String) (v : Value) : Bindings → Bindings
  | [] => []
  | x :: rest => if x.1 = name then (name, v) :: rest else x :: assign name v rest

/-- **What an evaluation changes.** -/
structure Store where
  bindings : Bindings := []
  heap : Heap := {}
  controls : Controls := {}

/-- The store without all but the given number of the oldest variables. -/
def Store.cut (count : Nat) (σ : Store) : Store :=
  { σ with bindings := σ.bindings.drop (σ.bindings.length - count) }

/-- **Why an evaluation ends early.** -/
inductive Stop where
  /-- A break or a continue, on its way to its loop. -/
  | leave (isBreak : Bool)
  | failure (e : RuntimeError)
  /-- A loop was given up. -/
  | unfinished

/-- **Evaluations.** An evaluation that ends early keeps what it did until then. -/
abbrev Eval := EStateM Stop Store

/-- **What surrounds an evaluation**: the context to whose limits new values are charged, and the
values that names have which no variable has. -/
structure Setting where
  ctx : Context
  builtins : String → Value

/-- The operator on values or the comparison that an operator stands for. -/
def InfixOp.meaning : InfixOp → BinaryOperator ⊕ Comparison
  | .add => .inl .add
  | .sub => .inl .subtract
  | .mul => .inl .multiply
  | .div => .inl .divide
  | .mod => .inl .modulo
  | .pow => .inl .power
  | .xor => .inl .xor
  | .shl => .inl .shiftLeft
  | .shr => .inl .shiftRight
  | .bitAnd => .inl .bitAnd
  | .bitOr => .inl .bitOr
  | .and => .inl .and
  | .or => .inl .or
  | .eq => .inr .equal
  | .ne => .inr .notEqual
  | .lt => .inr .lessThan
  | .le => .inr .lessThanOrEqual
  | .gt => .inr .greaterThan
  | .ge => .inr .greaterThanOrEqual

/-- **What an operator does** with its operands. -/
def InfixOp.apply (h : Heap) (op : InfixOp) (left right : Value) : Value × Heap :=
  match op.meaning with
  | .inl op => h.binary op left right
  | .inr c => (h.compareBy c left right, h)

def PrefixOp.apply (h : Heap) : PrefixOp → Value → Value
  | .neg, v => h.negate v
  | .not, v => .bool !h.isTruthy v

/-- Membership of an item, or its opposite. A fault is neither. -/
def Heap.membership (h : Heap) (container item : Value) (negated : Bool) : Value :=
  match h.contains container item with
  | .bool found => .bool (found != negated)
  | v => v

namespace Eval

variable {α : Type}

/-- A value that an evaluation comes to. -/
def Yields (x : Eval α) (v : α) : Prop :=
  ∃ σ τ, x σ = .ok v τ

/-! ### Steps -/

def fail (e : RuntimeError) : Eval α :=
  throw (.failure e)

def onHeap (f : Heap → α × Heap) : Eval α := fun σ =>
  .ok (f σ.heap).1 { σ with heap := (f σ.heap).2 }

/-- A look at the heap. -/
def look (f : Heap → α) : Eval α := fun σ =>
  .ok (f σ.heap) σ

/-- A step on the heap whose fault ends the evaluation. -/
def onHeapOrRaise (f : Heap → Except Fault α × Heap) : Eval α := do
  match ← onHeap f with
  | .ok a => return a
  | .error fault => fail (.ofErrorValue fault.toError)

/-- A value that was just built, whose cost is charged. -/
def built (Γ : Setting) (v : Value) : Eval Value := fun σ =>
  match σ.controls.charge Γ.ctx.limits (σ.heap.cost v) with
  | (.ok (), controls) => .ok v { σ with controls }
  | (.error e, controls) => .error (.failure (.limit e)) { σ with controls }

/-- The truth of a value. -/
def truth (x : Eval Value) : Eval Bool := do
  let v ← x
  look (·.isTruthy v)

/-! ### Variables -/

/-- The value of the newest variable of a name. -/
def load (Γ : Setting) (name : String) : Eval Value := fun σ =>
  .ok ((σ.bindings.lookup name).getD (Γ.builtins name)) σ

def assign (name : String) (v : Value) : Eval Unit := fun σ =>
  .ok () { σ with bindings := Bindings.assign name v σ.bindings }

def declare (name : String) (v : Value) : Eval Unit := fun σ =>
  .ok () { σ with bindings := (name, v) :: σ.bindings }

/-- Declares names in order. -/
def declareAll (names : List String) (items : List Value) : Eval Unit := fun σ =>
  .ok () { σ with bindings := (names.zip items).reverse ++ σ.bindings }

/-- **A scope**: whatever it declares is gone afterwards, however it ends. -/
def inScope (x : Eval α) : Eval α := fun σ =>
  match x σ with
  | .ok a τ => .ok a (τ.cut σ.bindings.length)
  | .error e τ => .error e (τ.cut σ.bindings.length)

/-- What is cut twice is cut once. -/
theorem inScope_inScope (x : Eval α) : inScope (inScope x) = inScope x := by
  have hcut (count : Nat) (τ : Store) : (τ.cut count).cut count = τ.cut count := by
    obtain ⟨bindings, heap, controls⟩ := τ
    unfold Store.cut
    dsimp only
    rw [List.length_drop, List.drop_drop]
    congr 2
    omega
  funext σ
  unfold inScope
  match x σ with
  | .ok a τ => exact congrArg (EStateM.Result.ok a) (hcut ..)
  | .error e τ => exact congrArg (EStateM.Result.error e) (hcut ..)

/-! ### Containers -/

/-- The items of a list that has as many as expected. -/
def unpack (count : Nat) (v : Value) : Eval (List Value) := do
  match ← look (·.items? v) with
  | none => fail (.typeError (.notUnpackable (← look (·.typeName v))))
  | some items =>
    if items.length ≠ count then fail (.typeError (.unpackCount count items.length))
    return items

/-- The key of an entry of a map. -/
def key (e : Value × Value) : Eval (String × Value) := do
  match e.1 with
  | .str key => return (key, e.2)
  | key => fail (.typeError (.mapKey (← look (·.typeName key))))

/-- The entries that a container has now, as keys and values. -/
def entriesOf (v : Value) : Eval (List (Value × Value)) := do
  match ← look (·.entries? v) with
  | some entries => return entries.toList
  | none => fail (.typeError (.notIterable (← look (·.typeName v))))

/-! ### Loops -/

/-- **A round of a loop**, with whether the loop goes on. -/
def round (body : Eval Value) : Eval Bool := fun σ =>
  match body σ with
  | .ok _ τ => .ok true τ
  | .error (.leave isBreak) τ => .ok (!isBreak) τ
  | .error e τ => .error e τ

/-- **A loop**, which is given up after a number of rounds. -/
def loop (condition : Eval Bool) (body : Eval Value) (post : Eval Unit) : Nat → Eval Unit
  | 0 => throw .unfinished
  | rounds + 1 => do
    if ← condition then
      if ← round body then
        post
        loop condition body post rounds

/-- Declares the names of a loop for the key and the value of an entry. -/
def bindEntry (names : List String) (e : Value × Value) : Eval Unit :=
  (names.zip [e.1, e.2]).forM fun (name, v) => if name = "_" then return else declare name v

/-- **A loop over entries.** -/
def eachEntry (names : List String) (body : Eval Value) : List (Value × Value) → Eval Unit
  | [] => return
  | e :: rest => do
    if ← round (inScope (do bindEntry names e; body)) then eachEntry names body rest

/-! ### Trees -/

section Trees

variable (Γ : Setting) (n : Nat)

mutual

/-- **The value of an expression.** -/
def expr : Expr → Eval Value
  | .nil => return .nil
  | .bool b => return .bool b
  | .int i => return .int i
  | .float f => return .float f
  | .str s => return .str s
  | .template pieces => do
    let parts ← fragments pieces
    built Γ (← look fun h => .str (String.join (parts.map h.render)))
  | .ident name => load Γ name
  | .unary op operand => do
    let v ← expr operand
    look (op.apply · v)
  | .binary op left right => do
    let a ← expr left
    let b ← expr right
    onHeap (op.apply · a b)
  | .ternary condition ifTrue ifFalse => do
    if ← truth (expr condition) then expr ifTrue else expr ifFalse
  | .cond condition consequence alternative => do
    if ← truth (expr condition) then inScope (statements consequence) else block? alternative
  | .switch subject cs default => do
    cases (← expr subject) (block? default) cs
  | .index object index => do
    let container ← expr object
    let i ← expr index
    look (·.getItem container i)
  | .slice object start stop => do
    -- the end comes before the start
    let v ← expr object
    let last ← bound (look (·.length v)) stop
    let first ← bound (return .int 0) start
    onHeap (·.slice v first last)
  | .list items => do
    let vs ← exprs items
    built Γ (← onHeap (·.buildList vs))
  | .set items => do
    let vs ← exprs items
    built Γ (← onHeapOrRaise (·.buildSet vs))
  | .map items => do
    let found ← (← entries items).mapM key
    built Γ (← onHeap (·.buildMap found))
  | .contains item container negated => do
    let c ← expr container
    let i ← expr item
    look (·.membership c i negated)
  -- what is not covered
  | .call .. | .method .. | .attr .. | .pipe _ | .func _ => throw .unfinished

/-- The values of expressions, in order. -/
def exprs : List Expr → Eval (List Value)
  | [] => return []
  | e :: rest => do
    let v ← expr e
    return v :: (← exprs rest)

/-- A bound of a slice, or what stands for a missing one. -/
def bound (missing : Eval Value) : Option Expr → Eval Value
  | some e => expr e
  | none => missing

/-- Keys and values, in order. -/
def entries : List (Expr × Expr) → Eval (List (Value × Value))
  | [] => return []
  | (key, value) :: rest => do
    let k ← expr key
    let v ← expr value
    return (k, v) :: (← entries rest)

/-- The parts of a template. -/
def fragments : List Fragment → Eval (List Value)
  | [] => return []
  | .text s :: rest => return .str s :: (← fragments rest)
  | .hole e :: rest => do
    let v ← bound (return .str "") e
    return v :: (← fragments rest)

/-- **The first case that a value meets**, or what is done otherwise. -/
def cases (v : Value) (otherwise : Eval Value) : List Case → Eval Value
  | [] => otherwise
  | .mk values body :: rest => do
    if ← meets v values then block? body else cases v otherwise rest

/-- Whether a value equals one of several others, which are computed one by one up to that one. -/
def meets (v : Value) : List Expr → Eval Bool
  | [] => return false
  | e :: rest => do
    let u ← expr e
    if ← look (·.equals v u) then return true else meets v rest

/-- A block, where a missing one yields nil. -/
def block? : Option (List Statement) → Eval Value
  | some body => inScope (statements body)
  | none => return .nil

/-- **A list of statements** has the value of its last one. -/
def statements : List Statement → Eval Value
  | [] => return .nil
  | [s] => statement s
  | s :: rest => do
    let _ ← statement s
    statements rest

/-- A statement in the head of a loop. -/
def clause : Option Statement → Eval Unit
  | none => return
  | some s => do
    let _ ← statement s

/-- The condition of a loop. -/
def test : Option Expr → Eval Bool
  | none => return true
  | some e => truth (expr e)

/-- **A statement.** One that is no expression has the value nil. -/
def statement : Statement → Eval Value
  | .var name value | .const name value => do
    declare name (← expr value)
    return .nil
  | .multiVar names value => do
    let v ← expr value
    declareAll names (← unpack names.length v)
    return .nil
  | .assign name op value => do
    match op.operation? with
    | none => assign name (← expr value)
    | some operation =>
      let old ← load Γ name
      let v ← expr value
      assign name (← onHeap (operation.apply · old v))
    return .nil
  | .assignIndex object index _ value => do
    let v ← expr value
    let container ← expr object
    let i ← expr index
    onHeapOrRaise (·.setItem container i v)
    return .nil
  | .step name op => do
    let old ← load Γ name
    let one : Value := .int (match op with
      | .inc => 1
      | .dec => -1)
    assign name (← onHeap (InfixOp.add.apply · old one))
    return .nil
  | .brk => throw (.leave true)
  | .cont => throw (.leave false)
  | .endlessLoop body => do
    loop (return true) (inScope (statements body)) (return) n
    return .nil
  | .whileLoop condition body => do
    loop (truth (expr condition)) (inScope (statements body)) (return) n
    return .nil
  | .forLoop init condition post body => inScope do
    clause init
    loop (test condition) (inScope (statements body)) (inScope (clause post)) n
    return .nil
  | .rangeLoop names iterable body => do
    let v ← expr iterable
    eachEntry names (inScope (statements body)) (← entriesOf v)
    return .nil
  | .expr e => expr e
  -- what is not covered
  | .setAttr .. | .ret _ | .func _ => throw .unfinished

end

end Trees

end Eval

namespace FunctionFree

mutual

/-- **An expression without functions**, attributes, pipes and short circuits. -/
def expr : Expr → Bool
  | .nil | .bool _ | .int _ | .float _ | .str _ | .ident _ => true
  | .template pieces => fragments pieces
  | .unary _ operand => expr operand
  | .binary op left right => op ≠ .and && op ≠ .or && expr left && expr right
  | .ternary condition ifTrue ifFalse => expr condition && expr ifTrue && expr ifFalse
  | .cond condition consequence alternative =>
    expr condition && statements consequence && block? alternative
  | .switch subject cs default => expr subject && cases cs && block? default
  | .index object index => expr object && expr index
  | .slice object start stop => expr object && option start && option stop
  | .list items | .set items => exprs items
  | .map items => entries items
  | .contains item container _ => expr item && expr container
  | .call .. | .method .. | .attr .. | .pipe _ | .func _ => false

def exprs : List Expr → Bool
  | [] => true
  | e :: rest => expr e && exprs rest

def option : Option Expr → Bool
  | some e => expr e
  | none => true

def entries : List (Expr × Expr) → Bool
  | [] => true
  | (key, value) :: rest => expr key && expr value && entries rest

def fragments : List Fragment → Bool
  | [] => true
  | .text _ :: rest => fragments rest
  | .hole e :: rest => option e && fragments rest

def cases : List Case → Bool
  | [] => true
  | .mk values body :: rest => exprs values && block? body && cases rest

def block? : Option (List Statement) → Bool
  | some body => statements body
  | none => true

/-- **Statements**, as `FunctionFree.expr` says. -/
def statements : List Statement → Bool
  | [] => true
  | s :: rest => statement s && statements rest

def clause : Option Statement → Bool
  | none => true
  | some s => statement s

def statement : Statement → Bool
  | .var _ value | .const _ value | .multiVar _ value | .assign _ _ value => expr value
  | .assignIndex object index _ value => expr object && expr index && expr value
  | .step _ _ | .brk | .cont => true
  | .endlessLoop body => statements body
  | .whileLoop condition body => expr condition && statements body
  | .forLoop init condition post body =>
    clause init && option condition && clause post && statements body
  | .rangeLoop _ iterable body => expr iterable && statements body
  | .expr e => expr e
  | .setAttr .. | .ret _ | .func _ => false

end

end FunctionFree

end ScriptEngine
