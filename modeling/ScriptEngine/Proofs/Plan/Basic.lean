import ScriptEngine.Compiler.Generate

/-!
# Plans

A plan says what is emitted for a tree before names, pools and offsets are decided. It keeps of the
language only what code is made of: operations on the operand stack, uses and declarations of names,
and a handful of jump patterns. What holds of all code is proved once for each constructor of a
plan, and not for each construct of the language.

## Main definitions

* `ScriptEngine.Operation`: the instructions that refer to no name, pool or offset;
* `ScriptEngine.Plan`: the plans;
* `ScriptEngine.Plan.emit`: the code of a plan;
* `ScriptEngine.Plan.ofExpr`, `ScriptEngine.Plan.ofStatement`, `ScriptEngine.Plan.ofStatements`: the
  plans of trees.

## Main results

* `ScriptEngine.Plan.emit_ofExpr`, `ScriptEngine.Plan.emit_ofStatements`: the code of a tree is the
  code of its plan.
-/

namespace ScriptEngine

open Emit Generate

/-- **An operation**: an instruction whose operands are known from the tree alone. -/
inductive Operation where
  | pushNil
  | pushBool (b : Bool)
  | unary (op : PrefixOp)
  | binary (op : InfixOp)
  | popTop
  /-- One more copy of the top value. -/
  | duplicate
  /-- The two top values change places. -/
  | exchange
  /-- A call, or, if `bound`, a callable whose last arguments are these. -/
  | call (bound : Bool) (count : Word)
  | buildString (count : Word)
  | buildList (count : Word)
  | buildSet (count : Word)
  | buildMap (count : Word)
  | getItem
  | setItem
  | contains (negated : Bool)
  | length
  | slice
  | unpack (count : Word)
  | getIter
  /-- Leaves the function, with the top value or with nil. -/
  | ret (withValue : Bool)
deriving DecidableEq

namespace Operation

/-- The instruction of a call. -/
def callOpcode (bound : Bool) : Opcode :=
  if bound then .bindPartial else .call

/-- The opcode of an operation and its operands. -/
def encode : Operation → Opcode × List Word
  | pushNil => (.pushNil, [])
  | pushBool true => (.pushTrue, [])
  | pushBool false => (.pushFalse, [])
  | unary .neg => (.unaryNegative, [])
  | unary .not => (.unaryNot, [])
  | binary op => ((operator op).1, [(operator op).2])
  | popTop => (.popTop, [])
  | duplicate => (.copy, [0])
  | exchange => (.swap, [1])
  | call bound count => (callOpcode bound, [count])
  | buildString count => (.buildString, [count])
  | buildList count => (.buildList, [count])
  | buildSet count => (.buildSet, [count])
  | buildMap count => (.buildMap, [count])
  | getItem => (.binarySubscr, [])
  | setItem => (.storeSubscr, [])
  | contains negated => (.containsOp, [if negated then 1 else 0])
  | length => (.length, [])
  | slice => (.slice, [])
  | unpack count => (.unpack, [count])
  | getIter => (.getIter, [])
  | ret withValue => (.returnValue, [if withValue then 1 else 0])

theorem length_encode (o : Operation) : o.encode.2.length = o.encode.1.operandCount := by
  cases o with
  | pushBool b => cases b <;> rfl
  | unary op => cases op <;> rfl
  | binary op => cases op <;> rfl
  | call bound count => cases bound <;> rfl
  | _ => rfl

end Operation

/-- The values that stand for literals. -/
def Value.isScalar : Value → Bool
  | .nil | .bool _ | .int _ | .float _ | .str _ => true
  | _ => false

mutual

/-- **A plan.** -/
inductive Plan where
  | skip
  | seq (first second : Plan)
  | instr (o : Operation)
  | const (v : Value) (scalar : v.isScalar = true)
  /-- Reads or sets an attribute of the top value. -/
  | attr (sets : Bool) (name : String)
  | load (name : String)
  /-- Stores the value of a plan under a name that was looked up before, and, if `reads`, was
  loaded. -/
  | update (name : String) (reads : Bool) (value : Plan)
  | declare (name : String) (constant : Bool)
  /-- Declares several names, the last of which takes the top value. -/
  | declareAll (names : List String)
  | refuse (e : CompileError)
  | outsidePipe
  /-- The later stages of a pipe. -/
  | stages (body : Plan)
  | insideFunction
  /-- A break or a continue. -/
  | leave (isBreak : Bool)
  | branch (condition ifTrue ifFalse : Plan)
  /-- A conjunction, or, if not `both`, a disjunction. -/
  | shortCircuit (both : Bool) (left right : Plan)
  | switch (subject : Plan) (arms : Arms) (default : Plan)
  | block (body : Plan)
  /-- A loop whose condition is tested before each round, if it has one. -/
  | loop (tested : Bool) (condition body post : Plan)
  /-- A loop over the iterator on top, whose entries `bind` stores. -/
  | iterate (names : Nat) (bind body : Plan)
  | func (f : Func) (body : Plan)

/-- The cases of a switch. -/
inductive Arms where
  | nil
  | arm (tests : Tests) (body : Plan) (rest : Arms)

/-- The values that a case of a switch stands for. -/
inductive Tests where
  | nil
  | test (value : Plan) (rest : Tests)

end

/-! ### The code of a plan -/

/-- The jump out of a loop whose condition was just tested. -/
def exitIf (tested : Bool) : Emit (Option Nat) :=
  if tested then return some (← jump .popJumpForwardIfFalse) else return none

mutual

/-- **The code of a plan.** -/
def Plan.emit : Plan → Emit Unit
  | .skip => pure ()
  | .seq a b => do
    a.emit
    b.emit
  | .instr o => instruction o.encode.1 o.encode.2
  | .const v _ => constant v
  | .attr sets name => do instruction (if sets then .storeAttr else .loadAttr) [← nameIndex name]
  | .load name => do load (← resolve name)
  | .update name reads value => do
    let target ← resolveAssignable name
    if reads then load target
    value.emit
    store target
  | .declare name constant => declare name constant
  | .declareAll names => do
    let symbols ← names.mapM fun name => newName name false
    let store ← slotStore
    symbols.reverse.forM fun symbol => instruction store [symbol.index]
  | .refuse e => throw e
  | .outsidePipe => do
    if (← get).body.inPipe then throw .nestedPipe
  | .stages body => do
    onBody fun b => ((), { b with inPipe := true })
    body.emit
    onBody fun b => ((), { b with inPipe := false })
  | .insideFunction => do
    if (← get).enclosing.isEmpty then throw .returnOutsideFunction
  | .leave isBreak => leaveLoop isBreak
  | .branch condition ifTrue ifFalse => Generate.branch condition.emit ifTrue.emit ifFalse.emit
  | .shortCircuit both left right =>
    Generate.shortCircuit left.emit right.emit
      (if both then .popJumpForwardIfFalse else .popJumpForwardIfTrue) (if both then .and else .or)
  | .switch subject arms default => do
    subject.emit
    let jumps ← arms.emitTests
    let otherwise ← jump .jumpForward
    holding do
      let ends ← arms.emitBodies jumps
      landHere otherwise
      default.emit
      ends.forM landHere
    instruction .swap [1]
    instruction .popTop
  | .block body => inBlock body.emit
  | .loop tested condition body post => do
    let start ← position
    condition.emit
    let leave ← exitIf tested
    let loop ← loopBody body.emit
    let next ← position
    post.emit
    jumpBack start
    let exit ← position
    leave.forM landHere
    instruction .nop
    closeLoop loop exit next
  | .iterate names bind body => do
    let start ← position
    let advance ← Emit.emit .forIter [placeholder, names.toUInt16]
    bind.emit
    let loop ← loopBody body.emit
    let next ← position
    jumpBack start
    let exit ← position
    instruction .popTop
    landHere advance
    instruction .nop
    closeLoop loop exit next
  | .func f body => Generate.function f body.emit

/-- The code of the tests of all cases, with the jumps that wait for the bodies. -/
def Arms.emitTests : Arms → Emit (List (List Nat))
  | .nil => return []
  | .arm tests _ rest => do
    let jumps ← tests.emit
    return jumps :: (← rest.emitTests)

/-- The code of the tests of a case. -/
def Tests.emit : Tests → Emit (List Nat)
  | .nil => return []
  | .test value rest => do
    instruction .copy [0]
    value.emit
    instruction .compareOp [Comparison.equal.word]
    let found ← jump .popJumpForwardIfTrue
    return found :: (← rest.emit)

/-- The code of the bodies of all cases, with the jumps that wait for the end of the switch. -/
def Arms.emitBodies : Arms → List (List Nat) → Emit (List Nat)
  | .arm _ body rest, jumps :: pending => do
    jumps.forM landHere
    body.emit
    let done ← jump .jumpForward
    return done :: (← rest.emitBodies pending)
  | _, _ => return []

end

/-! ### The plans of trees -/

namespace Plan

/-- A plan for which a count has to be small enough, and a refusal otherwise. -/
def atMost (limit count : Nat) (e : CompileError) (p : Plan) : Plan :=
  if limit < count then refuse e else p

/-- The names that a loop binds in each round. -/
def bindings : List String → Plan
  | [] => skip
  | name :: rest =>
    seq (if name = "_" then instr .popTop else declare name false) (bindings rest)

mutual

/-- **The plan of an expression.** The call at the top of a stage of a pipe is `bound` only. -/
def ofExpr (bound : Bool) : Expr → Plan
  | .nil => instr .pushNil
  | .bool b => instr (.pushBool b)
  | .int n => const (.int n) rfl
  | .float f => const (.float f) rfl
  | .str s => const (.str s) rfl
  | .template pieces =>
    atMost 0xffff pieces.length (.tooMany .items 0xffff pieces.length)
      (seq (ofFragments pieces) (instr (.buildString pieces.length.toUInt16)))
  | .ident name => load name
  | .unary op operand => seq (ofExpr false operand) (instr (.unary op))
  | .binary op left right =>
    match op with
    | .and => shortCircuit true (ofExpr false left) (ofExpr false right)
    | .or => shortCircuit false (ofExpr false left) (ofExpr false right)
    | op => seq (ofExpr false left) (seq (ofExpr false right) (instr (.binary op)))
  | .ternary condition ifTrue ifFalse =>
    branch (ofExpr false condition) (ofExpr false ifTrue) (ofExpr false ifFalse)
  | .cond condition consequence alternative =>
    branch (ofExpr false condition) (block (ofStatements consequence)) (ofBlock? alternative)
  | .switch subject cases default =>
    switch (ofExpr false subject) (ofCases cases) (ofBlock? default)
  | .call callee args =>
    seq (ofExpr false callee)
      (atMost argumentLimit args.length (.tooMany .arguments argumentLimit args.length)
        (seq (ofExprs args) (instr (.call bound args.length.toUInt16))))
  | .method object name args =>
    seq (ofExpr false object)
      (seq (attr false name)
        (atMost argumentLimit args.length (.tooMany .arguments argumentLimit args.length)
          (seq (ofExprs args) (instr (.call bound args.length.toUInt16)))))
  | .attr object name => seq (ofExpr false object) (attr false name)
  | .index object index =>
    seq (ofExpr false object) (seq (ofExpr false index) (instr .getItem))
  | .slice object start stop =>
    seq (ofExpr false object)
      (seq (ofOption stop (seq (instr .duplicate) (instr .length)))
        (seq (ofOption start (const (.int 0) rfl)) (instr .slice)))
  | .list items =>
    atMost 0xffff items.length (.tooMany .items 0xffff items.length)
      (seq (ofExprs items) (instr (.buildList items.length.toUInt16)))
  | .set items =>
    atMost 0xffff items.length (.tooMany .items 0xffff items.length)
      (seq (ofExprs items) (instr (.buildSet items.length.toUInt16)))
  | .map items =>
    atMost 0xffff items.length (.tooMany .items 0xffff items.length)
      (seq (ofEntries items) (instr (.buildMap items.length.toUInt16)))
  | .contains item container negated =>
    seq (ofExpr false container) (seq (ofExpr false item) (instr (.contains negated)))
  | .pipe ss =>
    seq outsidePipe (if ss.length < 2 then refuse .pipeTooShort else ofPipeline ss)
  | .func f => ofFunc f

/-- The plan of expressions, in order. -/
def ofExprs : List Expr → Plan
  | [] => skip
  | e :: rest => seq (ofExpr false e) (ofExprs rest)

/-- The plan of an expression, or of what stands for a missing one. -/
def ofOption : Option Expr → Plan → Plan
  | some e, _ => ofExpr false e
  | none, missing => missing

/-- The plan of keys and values, in order. -/
def ofEntries : List (Expr × Expr) → Plan
  | [] => skip
  | (key, value) :: rest =>
    seq (ofExpr false key) (seq (ofExpr false value) (ofEntries rest))

/-- The plan of the pieces of a template. -/
def ofFragments : List Fragment → Plan
  | [] => skip
  | .text s :: rest => seq (const (.str s) rfl) (ofFragments rest)
  | .hole e :: rest => seq (ofOption e (const (.str "") rfl)) (ofFragments rest)

/-- The plan of a pipe. -/
def ofPipeline : List Expr → Plan
  | [] => skip
  | first :: rest => seq (ofExpr false first) (stages (ofStages rest))

/-- The plan of the later stages of a pipe. -/
def ofStages : List Expr → Plan
  | [] => skip
  | stage :: rest =>
    seq (ofExpr true stage) (seq (instr .exchange) (seq (instr (.call false 1)) (ofStages rest)))

/-- The cases of a switch. -/
def ofCases : List Case → Arms
  | [] => .nil
  | .mk values body :: rest => .arm (ofTests values) (ofBlock? body) (ofCases rest)

/-- The values of a case of a switch. -/
def ofTests : List Expr → Tests
  | [] => .nil
  | e :: rest => .test (ofExpr false e) (ofTests rest)

/-- The plan of a block, where a missing one yields nil. -/
def ofBlock? : Option (List Statement) → Plan
  | some body => block (ofStatements body)
  | none => instr .pushNil

/-- The plan of a function literal. -/
def ofFunc : Func → Plan
  | .mk name params body => func (.mk name params body) (ofStatements body)

/-- **The plan of a list of statements.** -/
def ofStatements : List Statement → Plan
  | [] => instr .pushNil
  | [s] =>
    seq (ofStatement s) (if !s.isExpression && !s.isReturn then instr .pushNil else skip)
  | s :: rest =>
    seq (ofStatement s) (seq (if s.isExpression then instr .popTop else skip) (ofStatements rest))

/-- The plan of a statement in the head of a loop. -/
def ofClause : Option Statement → Plan
  | none => skip
  | some s => seq (ofStatement s) (if s.isExpression then instr .popTop else skip)

/-- **The plan of a statement.** -/
def ofStatement : Statement → Plan
  | .var name value => seq (ofExpr false value) (declare name false)
  | .const name value => seq (ofExpr false value) (declare name true)
  | .multiVar names value =>
    atMost 0xffff names.length .tooManySymbols
      (seq (ofExpr false value)
        (seq (instr (.unpack names.length.toUInt16)) (declareAll names)))
  | .assign name op value =>
    match op.operation? with
    | none => update name false (ofExpr false value)
    | some operation => update name true (seq (ofExpr false value) (instr (.binary operation)))
  | .assignIndex object index op value =>
    if op ≠ .assign then refuse (.indexOperator op)
    else seq (ofExpr false value)
      (seq (ofExpr false object) (seq (ofExpr false index) (instr .setItem)))
  | .setAttr object name value =>
    seq (ofExpr false value) (seq (ofExpr false object) (attr true name))
  | .step name op =>
    update name true
      (seq (const (.int (match op with
        | .inc => 1
        | .dec => -1)) rfl) (instr (.binary .add)))
  | .ret value =>
    seq insideFunction (seq (ofOption value skip) (instr (.ret value.isSome)))
  | .brk => leave true
  | .cont => leave false
  | .endlessLoop body => loop false skip (block (ofStatements body)) skip
  | .whileLoop condition body =>
    loop true (ofExpr false condition) (block (ofStatements body)) skip
  | .forLoop init condition post body =>
    block (seq (ofClause init)
      (loop condition.isSome (ofOption condition skip) (block (ofStatements body))
        (ofClause post)))
  | .rangeLoop names iterable body =>
    block (atMost 2 names.length (.rangeNames names.length)
      (seq (ofExpr false iterable)
        (seq (instr .getIter)
          (iterate names.length (bindings names) (block (ofStatements body))))))
  | .func f =>
    match f with
    | .mk none _ _ => refuse .unnamedFunction
    | .mk (some name) params body =>
      seq (func (.mk (some name) params body) (ofStatements body)) (declare name true)
  | .expr e => ofExpr false e

end

end Plan

end ScriptEngine
