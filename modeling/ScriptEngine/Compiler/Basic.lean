import ScriptEngine.Compiler.Generate

/-!
# The compiler

A compiler grows the code of one program, batch by batch. Later batches see what earlier ones
declared. A batch that is refused leaves nothing in the code, but what it declared until then stays
declared.

## Main definitions

* `ScriptEngine.Compiler`: the program so far;
* `ScriptEngine.Compiler.compile`: one more batch;
* `ScriptEngine.Compiler.declareGlobal`, `ScriptEngine.Compiler.addBuiltin`: names that a host
  provides.
-/

namespace ScriptEngine

/-- **The program so far**: its scopes and its body. While a batch is compiled, functions may be
open inside that body. -/
structure Compiler where
  table : ScopeTable := .empty
  main : Body := { code := {}, scope := ScopeTable.root }
  /-- The bodies of open functions, innermost first. -/
  units : List Body := []
  source : Option String := none

namespace Compiler

/-- The code of the program. -/
def code (c : Compiler) : Code :=
  c.main.code

/-- A compiler that knows the given builtins, in order. -/
def withBuiltins (names : List String) : Except CompileError Compiler :=
  (ScopeTable.withBuiltins names).map fun table => { table }

/-- The same compiler, which marks its code with a name for where the program comes from. -/
def withSource (c : Compiler) (source : String) : Compiler :=
  { c with source := some source, main := { c.main with code := { source := some source } } }

/-- A step on the scopes of the program. -/
def onTable {α : Type} (c : Compiler) (step : Scoped α) : Except CompileError α × Compiler :=
  match step c.table with
  | .ok a table => (.ok a, { c with table })
  | .error e table => (.error e, { c with table })

/-- The number of a builtin, which is registered if it is new. -/
def addBuiltin (c : Compiler) (name : String) : Except CompileError Word × Compiler :=
  c.onTable (ScopeTable.addBuiltin name)

/-- The same compiler, whose code knows all globals declared so far. -/
def countGlobals (c : Compiler) : Compiler :=
  { c with main.code.globalCount := c.table.slotCount ScopeTable.root }

/-- The slot of a name declared at the top level. -/
def globalIndex? (c : Compiler) (name : String) : Option Word :=
  (c.table.get? ScopeTable.root name).map Symbol.index

/-- The slot of a global, which is declared if it is new. -/
def declareGlobal (c : Compiler) (name : String) : Except CompileError Word × Compiler :=
  match c.globalIndex? name with
  | some index => (.ok index, c)
  | none =>
    match c.onTable (ScopeTable.declare ScopeTable.root name false) with
    | (.ok symbol, c) => (.ok symbol.index, c.countGlobals)
    | (.error e, c) => (.error e, c)

/-- The state in which the compiler emits code. -/
def emission (c : Compiler) (functions : Array Function) : Emission :=
  match c.units with
  | [] => { table := c.table, body := c.main, source := c.source, functions }
  | unit :: units =>
    { table := c.table, body := unit, enclosing := units ++ [c.main], source := c.source,
      functions }

/-- The compiler after it emitted code. -/
def afterEmission (c : Compiler) (s : Emission) : Compiler :=
  { c with
    table := s.table
    main := s.enclosing.getLastD s.body
    units := (s.body :: s.enclosing).dropLast }

/-- The compiler without what it appended to a code of the given lengths. Nothing is open any
more. -/
def rollBack (c : Compiler) (words constants names : Nat) : Compiler :=
  { c with
    main := { code := c.code.truncate words constants names, scope := ScopeTable.root }
    units := [] }

/-- **One more batch.** The code of its statements is appended to that of the program, and the
functions in it to those compiled before. What a batch appended until it was refused is taken
back. -/
def compile (c : Compiler) (functions : Array Function) (program : Program) :
    Except CompileError Code × Compiler × Array Function :=
  let mark := c.code
  match Generate.statements program (c.emission functions) with
  | .ok () s =>
    let c := (c.afterEmission s).countGlobals
    (.ok c.code, c, s.functions)
  | .error e s =>
    -- the names of the refused batch keep their slots
    let c := (c.afterEmission s).countGlobals
    (.error e, c.rollBack mark.size mark.constants.size mark.names.size, functions)

end Compiler

end ScriptEngine
