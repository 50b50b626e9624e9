import Std.Data.HashMap
import ScriptEngine.Bytecode.Opcode
import ScriptEngine.Compiler.Error

/-!
# Scopes and names

Scopes form a tree. A function scope owns a space of slots; a block scope declares its own names
but takes their slots from the function scope around it. Beyond the outermost scope lie the
builtins.

## Main definitions

* `ScriptEngine.ScopeTable`: the scopes, in the order of their creation, and the builtins;
* `ScriptEngine.ScopeTable.declare`: a new name in a scope;
* `ScriptEngine.ScopeTable.resolve`: the declaration that a name in a scope refers to, and how its
  value is stored as seen from there.

## Implementation notes

The first lookup of a variable of an enclosing function records it, in each function scope that it
crosses, as a *free variable* of that function. The record fixes its number among the free
variables and answers later lookups.
-/

namespace ScriptEngine

/-- A scope, by its place in the order of creation. -/
structure ScopeId where
  index : Nat
deriving DecidableEq, Repr, Inhabited

inductive ScopeKind where
  | function
  | block
deriving DecidableEq, Repr, Inhabited

def ScopeKind.name : ScopeKind → String
  | function => "Function"
  | block => "Block"

/-- A declared name. Its index is a slot of the function that owns it, or the number of a
builtin. -/
structure Symbol where
  name : String
  index : Word
  constant : Bool
deriving DecidableEq, Repr, Inhabited

/-- **A declaration as seen from a scope.** `depth` counts the functions between them, and
`freeIndex` is the place among the free variables of the looking function, for the storage
`free`. -/
structure Resolution where
  symbol : Symbol
  storage : Storage
  depth : Nat
  freeIndex : Word
deriving DecidableEq, Repr, Inhabited

/-- A scope: its surroundings, its names, and, for a function, the slots given out and the free
variables met so far. -/
structure ScopeData where
  parent : Option ScopeId
  kind : ScopeKind
  names : Std.HashMap String Symbol := ∅
  slots : Nat := 0
  free : Array Resolution := #[]
  freeIndex : Std.HashMap String Nat := ∅
deriving Inhabited

/-- **The scopes and the builtins.** -/
structure ScopeTable where
  scopes : Array ScopeData
  builtins : Array String := #[]
  builtinIndex : Std.HashMap String Word := ∅

/-- Steps on a table that may fail. A step that fails leaves the table as it is at that moment. -/
abbrev Scoped := EStateM CompileError ScopeTable

namespace ScopeTable

/-- The largest number of slots of a function. -/
def slotLimit : Nat := 0xffff

/-- The largest number of builtins, and of free variables of a function. -/
def wordCount : Nat := 0x10000

/-- The outermost scope. -/
def root : ScopeId := ⟨0⟩

/-- A table with nothing but an empty outermost scope. -/
def empty : ScopeTable :=
  { scopes := #[{ parent := none, kind := .function }] }

instance : Inhabited ScopeTable := ⟨empty⟩

/-- What is known about a scope. -/
def scope (t : ScopeTable) (s : ScopeId) : ScopeData :=
  t.scopes.getD s.index { parent := none, kind := .function }

def modifyScope (t : ScopeTable) (s : ScopeId) (f : ScopeData → ScopeData) : ScopeTable :=
  { t with scopes := t.scopes.modify s.index f }

/-- A new scope inside another. -/
def openScope (parent : ScopeId) (kind : ScopeKind) : Scoped ScopeId :=
  modifyGet fun t =>
    (⟨t.scopes.size⟩, { t with scopes := t.scopes.push { parent := some parent, kind } })

/-- The function scope around a scope, found within the given number of steps outward. -/
def functionScopeWithin (t : ScopeTable) : Nat → ScopeId → ScopeId
  | 0, s => s
  | steps + 1, s =>
    match (t.scope s).kind, (t.scope s).parent with
    | .block, some parent => functionScopeWithin t steps parent
    | _, _ => s

/-- **The function scope** whose slots a scope uses. -/
def functionScope (t : ScopeTable) (s : ScopeId) : ScopeId :=
  t.functionScopeWithin t.scopes.size s

/-- The outermost scope and the blocks that lie directly in it. -/
def isGlobal (t : ScopeTable) (s : ScopeId) : Bool :=
  (t.scope (t.functionScope s)).parent.isNone

/-! ### Declarations -/

/-- **A declaration**, which takes the next slot of its function. A name can be declared once in a
scope. -/
def declare (s : ScopeId) (name : String) (constant : Bool) : Scoped Symbol := do
  let t ← get
  let known := (t.scope s).names.contains name
  -- a block takes the slots of the function around it
  let owner := t.functionScope s
  let slots := (t.scope owner).slots
  if known then throw (.duplicateDeclaration name)
  if slotLimit ≤ slots then throw .tooManySymbols
  let symbol : Symbol := ⟨name, slots.toUInt16, constant⟩
  modify (·.modifyScope owner fun d => { d with slots := slots + 1 })
  modify (·.modifyScope s fun d => { d with names := d.names.insert name symbol })
  return symbol

/-- **The number of a builtin**, which is given out in order. A name keeps its number. -/
def addBuiltin (name : String) : Scoped Word := do
  let t ← get
  match t.builtinIndex[name]? with
  | some index => return index
  | none =>
    let count := t.builtins.size
    if wordCount ≤ count then throw .tooManySymbols
    modify fun t => { t with
      builtins := t.builtins.push name
      builtinIndex := t.builtinIndex.insert name count.toUInt16 }
    return count.toUInt16

/-- A table that knows the given builtins, in order. -/
def withBuiltins (names : List String) : Except CompileError ScopeTable :=
  match (names.forM fun name => do let _ ← addBuiltin name).run empty with
  | .ok () t => .ok t
  | .error e _ => .error e

/-! ### Lookup -/

/-- The declaration of a name in a scope itself. -/
def get? (t : ScopeTable) (s : ScopeId) (name : String) : Option Symbol :=
  (t.scope s).names[name]?

/-- The builtin of a name. Builtins are constants. -/
def resolveBuiltin (t : ScopeTable) (name : String) : Option Resolution :=
  (t.builtinIndex[name]?).map fun index => ⟨⟨name, index, true⟩, .builtin, 0, 0⟩

/-- What a scope itself knows about a name: a declaration, or a free variable met before. -/
def known? (t : ScopeTable) (s : ScopeId) (name : String) : Option Resolution :=
  match t.get? s name with
  | some symbol => some ⟨symbol, if t.isGlobal s then .global else .local, 0, 0⟩
  | none => ((t.scope s).freeIndex[name]?).bind ((t.scope s).free[·]?)

/-- A variable of an enclosing function, recorded as a free variable of a function scope. -/
def capture (s : ScopeId) (name : String) (outer : Resolution) : Scoped Resolution := do
  let position := ((← get).scope s).free.size
  if wordCount ≤ position then throw .tooManySymbols
  let found : Resolution := ⟨outer.symbol, .free, outer.depth + 1, position.toUInt16⟩
  modify (·.modifyScope s fun d =>
    { d with free := d.free.push found, freeIndex := d.freeIndex.insert name position })
  return found

/-- The lookup of a name within the given number of steps outward. -/
def resolveWithin (name : String) : Nat → ScopeId → Scoped (Option Resolution)
  | 0, _ => return none
  | steps + 1, s => do
    let t ← get
    match t.known? s name with
    | some found => return some found
    | none =>
      let kind := (t.scope s).kind
      match (t.scope s).parent with
      | none => return t.resolveBuiltin name
      | some parent =>
        match ← resolveWithin name steps parent with
        | none => return none
        | some outer =>
          -- globals and builtins are reached without a cell
          if kind = .block ∨ outer.storage = .global ∨ outer.storage = .builtin then
            return some outer
          else
            return some (← capture s name outer)

/-- **Lookup**: the nearest declaration of a name, from a scope outward, and the builtins last.
Blocks answer as the function around them does; crossing into an enclosing function turns its
variables into free ones. -/
def resolve (s : ScopeId) (name : String) : Scoped (Option Resolution) :=
  resolveWithin name (s.index + 1) s

/-! ### Counts -/

/-- The slots given out in the space that a scope uses. -/
def slotCount (t : ScopeTable) (s : ScopeId) : Nat :=
  (t.scope (t.functionScope s)).slots

/-- The free variables of a function scope, by number. -/
def freeVars (t : ScopeTable) (s : ScopeId) : Array Resolution :=
  (t.scope s).free

end ScopeTable

end ScriptEngine
