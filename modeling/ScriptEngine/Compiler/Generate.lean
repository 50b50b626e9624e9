import ScriptEngine.Compiler.Emission
import ScriptEngine.Syntax.Tree

/-!
# Code for trees

The code of every construct of the language. An expression leaves one value on the operand stack,
and a statement that is not an expression leaves none. Code is emitted in one pass.

## Main definitions

* `ScriptEngine.Generate.expr`, `ScriptEngine.Generate.statement`: the code of an expression and of
  a statement;
* `ScriptEngine.Generate.statements`: the code of a list of statements, which leaves one value;
* `ScriptEngine.Generate.function`: the code of a function.
-/

namespace ScriptEngine.Generate

open Emit

/-- The most parameters of a function and arguments of a call. -/
def argumentLimit : Nat := 255

/-- The instruction of an operator that evaluates both operands. -/
def operator : InfixOp → Opcode × Word
  | .add => (.binaryOp, BinaryOperator.add.word)
  | .sub => (.binaryOp, BinaryOperator.subtract.word)
  | .mul => (.binaryOp, BinaryOperator.multiply.word)
  | .div => (.binaryOp, BinaryOperator.divide.word)
  | .mod => (.binaryOp, BinaryOperator.modulo.word)
  | .pow => (.binaryOp, BinaryOperator.power.word)
  | .xor => (.binaryOp, BinaryOperator.xor.word)
  | .shl => (.binaryOp, BinaryOperator.shiftLeft.word)
  | .shr => (.binaryOp, BinaryOperator.shiftRight.word)
  | .bitAnd => (.binaryOp, BinaryOperator.bitAnd.word)
  | .bitOr => (.binaryOp, BinaryOperator.bitOr.word)
  | .and => (.binaryOp, BinaryOperator.and.word)
  | .or => (.binaryOp, BinaryOperator.or.word)
  | .eq => (.compareOp, Comparison.equal.word)
  | .ne => (.compareOp, Comparison.notEqual.word)
  | .lt => (.compareOp, Comparison.lessThan.word)
  | .le => (.compareOp, Comparison.lessThanOrEqual.word)
  | .gt => (.compareOp, Comparison.greaterThan.word)
  | .ge => (.compareOp, Comparison.greaterThanOrEqual.word)

/-- The instruction of an operator. -/
def applyOperator (op : InfixOp) : Emit Unit :=
  let (op, operand) := operator op
  instruction op [operand]

/-- A count as an operand, which the limit of a word bounds. -/
def collectionSize (count : Nat) : Emit Word :=
  if count ≤ 0xffff then return count.toUInt16 else throw (.tooMany .items 0xffff count)

/-- **Conjunction and disjunction**: the jump is taken when the left operand decides, and otherwise
the operator chooses between both operands. -/
def shortCircuit (left right : Emit Unit) (decided : Opcode) (op : InfixOp) : Emit Unit := do
  left
  instruction .copy [0]
  let done ← jump decided
  right
  applyOperator op
  -- the left operand is still there when the jump was taken
  landHere done
  instruction .nop

/-- A choice between two continuations of the code by a condition. -/
def branch (condition ifTrue ifFalse : Emit Unit) : Emit Unit := do
  condition
  let otherwise ← jump .popJumpForwardIfFalse
  ifTrue
  let done ← jump .jumpForward
  landHere otherwise
  ifFalse
  landHere done

/-- The value of a default, which has to be a literal. -/
def literal? : Expr → Option Value
  | .nil => some .nil
  | .bool b => some (.bool b)
  | .int n => some (.int n)
  | .float f => some (.float f)
  | .str s => some (.str s)
  | .unary .neg (.int n) => some (.int (-n))
  | .unary .neg (.float f) => some (.float f.neg)
  | _ => none

/-- The default of a parameter. -/
def defaultValue (p : Param) : Emit (Option Value) :=
  match p.default with
  | none => return none
  | some e =>
    match literal? e with
    | some v => return some v
    | none => throw (.unsupportedDefault p.name)

/-- The instruction that makes a captured variable available to the function that captured it: the
cell of a slot of the current frame, or a cell that the current function captured itself. -/
def passCell (outer : ScopeId) (name : String) : Emit Unit := do
  match ← onTable (ScopeTable.resolve outer name) with
  | none => throw (.captureUnresolved name)
  | some source =>
    match source.storage with
    | .local => instruction .makeCell [source.symbol.index, 0]
    | .free => instruction .makeCell [source.freeIndex, 1]
    | .global => throw (.captureMisplaced name .global)
    | .builtin => throw (.captureMisplaced name .builtin)

/-- The name of a function is declared behind its parameters, unless it is one of them. -/
def declareSelf (inner : ScopeId) : Option String → Scoped Unit
  | none => return
  | some name => do
    if ((← get).get? inner name).isNone then
      let _ ← ScopeTable.declare inner name true

/-- **The scope of a function**, in which its parameters and then its own name take the first
slots. -/
def enter (f : Func) (outer : ScopeId) : Scoped ScopeId := do
  let inner ← ScopeTable.openScope outer .function
  f.params.forM fun p => do
    let _ ← ScopeTable.declare inner p.name false
  declareSelf inner f.name
  return inner

/-- The body of a function begins. The jumps, loops and pipes around it are not those of the
body. -/
def openBody (f : Func) (inner : ScopeId) : Emit Unit :=
  modify fun s => { s with
    enclosing := s.body :: s.enclosing
    body := { code := { name := f.name, source := s.source }, scope := inner } }

/-- The body of a function ends, and the function joins those compiled before. -/
def closeBody (f : Func) (defaults : List (Option Value)) (inner : ScopeId) :
    Emit (Ref .function) :=
  modifyGet fun s =>
    let code := { s.body.code with localCount := s.table.slotCount inner }
    (⟨s.functions.size⟩, { s with
      body := s.enclosing.headD default
      enclosing := s.enclosing.tail
      functions := s.functions.push ⟨f.name, f.paramNames, defaults, code⟩ })

/-- A function becomes a constant of the code around it. The variables that it captured are handed
over as cells. -/
def instantiate (outer : ScopeId) (r : Ref .function) (free : List Resolution) : Emit Unit := do
  let index ← constantIndex (.function r)
  if free.isEmpty then instruction .loadConst [index]
  else
    free.forM fun found => passCell outer found.symbol.name
    if 0xffff < free.length then throw .tooManySymbols
    instruction .loadClosure [index, free.length.toUInt16]

/-- **A function.** Its body is emitted on its own, in a new function scope. -/
def function (f : Func) (body : Emit Unit) : Emit Unit := do
  if argumentLimit < f.params.length then
    throw (.tooMany .parameters argumentLimit f.params.length)
  let defaults ← f.params.mapM defaultValue
  let outer ← scope
  let inner ← onTable (enter f outer)
  openBody f inner
  inBlock body
  if !Block.endsWithReturn f.body then instruction .returnValue [1]
  let r ← closeBody f defaults inner
  -- the free variables are known only now that the whole body has been emitted
  instantiate outer r ((← get).table.freeVars inner).toList

mutual

/-- The code of an expression, with `callOp` as the instruction of a call at its top. -/
def exprAs (callOp : Opcode) : Expr → Emit Unit
  | .nil => instruction .pushNil
  | .bool true => instruction .pushTrue
  | .bool false => instruction .pushFalse
  | .int n => constant (.int n)
  | .float f => constant (.float f)
  | .str s => constant (.str s)
  | .template pieces => do
    let count ← collectionSize pieces.length
    fragments pieces
    instruction .buildString [count]
  | .ident name => do load (← resolve name)
  | .unary op operand => do
    exprAs .call operand
    instruction (match op with
      | .neg => .unaryNegative
      | .not => .unaryNot)
  | .binary op left right =>
    match op with
    | .and => shortCircuit (exprAs .call left) (exprAs .call right) .popJumpForwardIfFalse .and
    | .or => shortCircuit (exprAs .call left) (exprAs .call right) .popJumpForwardIfTrue .or
    | op => do
      exprAs .call left
      exprAs .call right
      applyOperator op
  | .ternary condition ifTrue ifFalse =>
    branch (exprAs .call condition) (exprAs .call ifTrue) (exprAs .call ifFalse)
  | .cond condition consequence alternative =>
    branch (exprAs .call condition) (inBlock (statements consequence)) (block? alternative)
  | .switch subject cases default => do
    exprAs .call subject
    let jumps ← caseTests cases
    let otherwise ← jump .jumpForward
    -- the subject stays below the value of the body
    holding do
      let ends ← caseBodies cases jumps
      landHere otherwise
      block? default
      ends.forM landHere
    instruction .swap [1]
    instruction .popTop
  | .call callee args => do
    exprAs .call callee
    if argumentLimit < args.length then throw (.tooMany .arguments argumentLimit args.length)
    exprs args
    instruction callOp [args.length.toUInt16]
  | .method object name args => do
    exprAs .call object
    instruction .loadAttr [← nameIndex name]
    if argumentLimit < args.length then throw (.tooMany .arguments argumentLimit args.length)
    exprs args
    instruction callOp [args.length.toUInt16]
  | .attr object name => do
    exprAs .call object
    instruction .loadAttr [← nameIndex name]
  | .index object index => do
    exprAs .call object
    exprAs .call index
    instruction .binarySubscr
  | .slice object start stop => do
    exprAs .call object
    -- a missing stop is the length of the object, which lies on top
    exprOr stop do
      instruction .copy [0]
      instruction .length
    exprOr start (constant (.int 0))
    instruction .slice
  | .list items => do
    let count ← collectionSize items.length
    exprs items
    instruction .buildList [count]
  | .set items => do
    let count ← collectionSize items.length
    exprs items
    instruction .buildSet [count]
  | .map items => do
    let count ← collectionSize items.length
    entries items
    instruction .buildMap [count]
  | .contains item container negated => do
    exprAs .call container
    exprAs .call item
    instruction .containsOp [if negated then 1 else 0]
  | .pipe ss => do
    if (← get).body.inPipe then throw .nestedPipe
    if ss.length < 2 then throw .pipeTooShort
    pipeline ss
  | .func f => func f

/-- The code of expressions, in order. -/
def exprs : List Expr → Emit Unit
  | [] => pure ()
  | e :: rest => do
    exprAs .call e
    exprs rest

/-- The code of an expression, or of what stands for a missing one. -/
def exprOr : Option Expr → Emit Unit → Emit Unit
  | some e, _ => exprAs .call e
  | none, missing => missing

/-- The code of keys and values, in order. -/
def entries : List (Expr × Expr) → Emit Unit
  | [] => pure ()
  | (key, value) :: rest => do
    exprAs .call key
    exprAs .call value
    entries rest

/-- The code of the pieces of a template, where a place left empty is an empty text. -/
def fragments : List Fragment → Emit Unit
  | [] => pure ()
  | .text s :: rest => do
    constant (.str s)
    fragments rest
  | .hole e :: rest => do
    exprOr e (constant (.str ""))
    fragments rest

/-- The code of a pipe with its first stage. -/
def pipeline : List Expr → Emit Unit
  | [] => pure ()
  | first :: rest => do
    exprAs .call first
    onBody fun b => ((), { b with inPipe := true })
    stages rest
    onBody fun b => ((), { b with inPipe := false })

/-- The later stages of a pipe. Each calls its value with the value so far; a stage that is written
as a call binds its arguments behind that value. -/
def stages : List Expr → Emit Unit
  | [] => pure ()
  | stage :: rest => do
    exprAs .bindPartial stage
    instruction .swap [1]
    instruction .call [1]
    stages rest

/-- The tests of the cases of a switch, with the jumps that wait for the bodies. -/
def caseTests : List Case → Emit (List (List Nat))
  | [] => return []
  | .mk values _ :: rest => do
    let jumps ← valueTests values
    return jumps :: (← caseTests rest)

/-- The tests of the values of a case. -/
def valueTests : List Expr → Emit (List Nat)
  | [] => return []
  | e :: rest => do
    instruction .copy [0]
    exprAs .call e
    instruction .compareOp [Comparison.equal.word]
    let found ← jump .popJumpForwardIfTrue
    return found :: (← valueTests rest)

/-- The bodies of the cases, with the jumps that wait for the end of the switch. -/
def caseBodies : List Case → List (List Nat) → Emit (List Nat)
  | .mk _ body :: rest, jumps :: pending => do
    jumps.forM landHere
    block? body
    let done ← jump .jumpForward
    return done :: (← caseBodies rest pending)
  | _, _ => return []

/-- The code of a block, where a missing one yields nil. -/
def block? : Option (List Statement) → Emit Unit
  | some body => inBlock (statements body)
  | none => instruction .pushNil

/-- The code of a function literal or declaration. -/
def func : Func → Emit Unit
  | .mk name params body => function (.mk name params body) (statements body)

/-- **A list of statements** leaves the value of its last expression statement, or nil. The values
of the others are dropped, and nothing follows a return at the end. -/
def statements : List Statement → Emit Unit
  | [] => instruction .pushNil
  | [s] => do
    statement s
    if !s.isExpression && !s.isReturn then instruction .pushNil
  | s :: rest => do
    statement s
    if s.isExpression then instruction .popTop
    statements rest

/-- The code of a statement in the head of a loop. -/
def clause : Option Statement → Emit Unit
  | none => pure ()
  | some s => do
    statement s
    if s.isExpression then instruction .popTop

/-- The exit of a loop that has a condition. -/
def exitUnless : Option Expr → Emit (Option Nat)
  | none => return none
  | some condition => do
    exprAs .call condition
    return some (← jump .popJumpForwardIfFalse)

/-- The code of a statement. -/
def statement : Statement → Emit Unit
  | .var name value => do
    exprAs .call value
    declare name false
  | .const name value => do
    exprAs .call value
    declare name true
  | .multiVar names value => do
    if 0xffff < names.length then throw .tooManySymbols
    exprAs .call value
    instruction .unpack [names.length.toUInt16]
    let symbols ← names.mapM fun name => newName name false
    let store ← slotStore
    -- the last item is on top
    symbols.reverse.forM fun symbol => instruction store [symbol.index]
  | .assign name op value => do
    let target ← resolveAssignable name
    match op.operation? with
    | none => exprAs .call value
    | some operation => do
      load target
      exprAs .call value
      applyOperator operation
    store target
  | .assignIndex object index op value => do
    if op ≠ .assign then throw (.indexOperator op)
    exprAs .call value
    exprAs .call object
    exprAs .call index
    instruction .storeSubscr
  | .setAttr object name value => do
    exprAs .call value
    exprAs .call object
    instruction .storeAttr [← nameIndex name]
  | .step name op => do
    let target ← resolveAssignable name
    load target
    constant (.int (match op with
      | .inc => 1
      | .dec => -1))
    applyOperator .add
    store target
  | .ret value => do
    if (← get).enclosing.isEmpty then throw .returnOutsideFunction
    exprOr value (pure ())
    instruction .returnValue [if value.isSome then 1 else 0]
  | .brk => leaveLoop true
  | .cont => leaveLoop false
  | .endlessLoop body => do
    let start ← position
    let loop ← loopBody (inBlock (statements body))
    let next ← position
    jumpBack start
    let exit ← position
    instruction .nop
    closeLoop loop exit next
  | .whileLoop condition body => do
    let start ← position
    exprAs .call condition
    let leave ← jump .popJumpForwardIfFalse
    let loop ← loopBody (inBlock (statements body))
    let next ← position
    jumpBack start
    let exit ← position
    landHere leave
    instruction .nop
    closeLoop loop exit next
  | .forLoop init condition post body => inBlock do
    clause init
    let start ← position
    let leave ← exitUnless condition
    let loop ← loopBody (inBlock (statements body))
    let next ← position
    clause post
    jumpBack start
    let exit ← position
    leave.forM landHere
    instruction .nop
    closeLoop loop exit next
  | .rangeLoop names iterable body => inBlock do
    if 2 < names.length then throw (.rangeNames names.length)
    exprAs .call iterable
    instruction .getIter
    let start ← position
    let advance ← emit .forIter [placeholder, names.length.toUInt16]
    names.forM fun name =>
      if name = "_" then instruction .popTop else declare name false
    let loop ← loopBody (inBlock (statements body))
    let next ← position
    jumpBack start
    -- a break leaves the iterator behind, and the end of the iteration does not
    let exit ← position
    instruction .popTop
    landHere advance
    instruction .nop
    closeLoop loop exit next
  | .func f =>
    match f with
    | .mk none _ _ => throw .unnamedFunction
    | .mk (some name) params body => do
      function (.mk (some name) params body) (statements body)
      declare name true
  | .expr e => exprAs .call e

end

/-- **The code of an expression.** -/
def expr (e : Expr) : Emit Unit :=
  exprAs .call e

end ScriptEngine.Generate
