import ScriptEngine.Proofs.Plan.Basic
import ScriptEngine.Proofs.Step

/-!
# Layouts

Where the code of a plan lies once everything is known: the offsets of its instructions in the
final code, the targets of its jumps, the entries of the pools that its operands refer to, and the
lookups and declarations behind its names. A layout speaks of final code only, so a jump that was
completed late looks the same as any other.

## Main definitions

* `ScriptEngine.Site`: the code in which a plan lies, and its surroundings there;
* `ScriptEngine.Point`: an offset, with the scopes and the number of functions known there;
* `ScriptEngine.Plan.Laid`: the code of a plan lies between two points.
-/

namespace ScriptEngine

/-- Consecutive words of code. -/
def Code.Holds (c : Code) : Nat → List Word → Prop
  | _, [] => True
  | p, w :: ws => c.words[p]? = some w ∧ c.Holds (p + 1) ws

/-- **Where a break and a continue lead to**, and the number of values that they drop. -/
structure Exits where
  held : Nat
  exit : Nat
  next : Nat
deriving DecidableEq

/-- The surroundings inside the body of a switch, whose subject is held. -/
def Exits.hold (e : Exits) : Exits :=
  { e with held := e.held + 1 }

/-- **A site**: the code in which a plan lies, all functions, the number of cells with which each of
them is instantiated, the scope, and the exits of the innermost loop. -/
structure Site where
  functions : Array Function
  cells : Nat → Nat
  code : Code
  scope : ScopeId
  exits : Option Exits := none
  inFunction : Bool := false

namespace Site

/-- The same site inside the body of a switch. -/
def hold (S : Site) : Site :=
  { S with exits := S.exits.map Exits.hold }

/-- The same site inside the body of a loop. -/
def inLoop (S : Site) (exit next : Nat) : Site :=
  { S with exits := some ⟨0, exit, next⟩ }

end Site

/-- **A point** of code: its offset, the scopes, and the number of functions compiled so far. -/
structure Point where
  offset : Nat
  table : ScopeTable
  count : Nat

namespace Point

/-- The point behind the given number of words. -/
def skip (a : Point) (words : Nat) : Point :=
  { a with offset := a.offset + words }

/-- The point with other scopes. -/
def withTable (a : Point) (table : ScopeTable) : Point :=
  { a with table }

end Point

namespace Site

variable (S : Site)

/-- An instruction lies between two points. -/
def At (a : Point) (op : Opcode) (operands : List Word) (b : Point) : Prop :=
  S.code.Holds a.offset (op.word :: operands) ∧ operands.length = op.operandCount ∧
    b = a.skip (1 + operands.length)

/-- A distance that leads forward from an offset to a target. -/
def Leads (jump target : Nat) (d : Word) : Prop :=
  jump + d.toNat = target ∧ d.toNat < placeholder.toNat

/-- A jump forward. -/
def Forward (a : Point) (op : Opcode) (target : Nat) (b : Point) : Prop :=
  ∃ d, S.At a op [d] b ∧ Leads a.offset target d

/-- A jump back. -/
def Back (a : Point) (target : Nat) (b : Point) : Prop :=
  ∃ d : Word, S.At a .jumpBackward [d] b ∧ target + d.toNat = a.offset

/-- The entry of a loop over an iterator. -/
def Advance (a : Point) (target : Nat) (names : Nat) (b : Point) : Prop :=
  ∃ d, S.At a .forIter [d, names.toUInt16] b ∧ Leads a.offset target d

/-- The jump out of a loop whose condition was just tested. -/
def ExitIf (tested : Bool) (a : Point) (target : Nat) (b : Point) : Prop :=
  if tested then S.Forward a .popJumpForwardIfFalse target b else b = a

/-- As many values as a loop holds are dropped. -/
def Drops : Nat → Point → Point → Prop
  | 0, a, b => b = a
  | n + 1, a, b => ∃ m, S.At a .popTop [] m ∧ Drops n m b

/-- A value is loaded from where a lookup found it. -/
def Loads (r : Resolution) (a b : Point) : Prop :=
  match r.storage with
  | .global => S.At a .loadGlobal [r.symbol.index] b
  | .local => S.At a .loadFast [r.symbol.index] b
  | .free => S.At a .loadFree [r.freeIndex] b
  | .builtin => S.At a .loadBuiltin [r.symbol.index] b

/-- The top value is stored where a lookup found a variable. -/
def Stores (r : Resolution) (a b : Point) : Prop :=
  match r.storage with
  | .global => S.At a .storeGlobal [r.symbol.index] b
  | .local => S.At a .storeFast [r.symbol.index] b
  | .free => S.At a .storeFree [r.freeIndex] b
  | .builtin => False

/-- The top value is stored in a slot of the scope. -/
def Sets (symbol : Symbol) (a b : Point) : Prop :=
  S.At a (if a.table.isGlobal S.scope then .storeGlobal else .storeFast) [symbol.index] b

/-- The top values are stored in slots of the scope, one by one. -/
def SetsAll : List Symbol → Point → Point → Prop
  | [], a, b => b = a
  | symbol :: rest, a, b => ∃ m, S.Sets symbol a m ∧ SetsAll rest m b

/-- The cell behind a name is pushed for a function that captured the name. -/
def Passes (name : String) (a b : Point) : Prop :=
  ∃ r table, ScopeTable.resolve S.scope name a.table = .ok (some r) table ∧
    (r.storage = .local ∧ S.At (a.withTable table) .makeCell [r.symbol.index, 0] b ∨
      r.storage = .free ∧ S.At (a.withTable table) .makeCell [r.freeIndex, 1] b)

/-- The cells behind several names are pushed. -/
def PassesAll : List String → Point → Point → Prop
  | [], a, b => b = a
  | name :: rest, a, b => ∃ m, S.Passes name a m ∧ PassesAll rest m b

/-- **A function constant** is instantiated, with the cells of its free variables if it has any. -/
def Instantiates (k : Nat) (free : List Resolution) (a b : Point) : Prop :=
  ∃ index : Word, S.code.constants[index.toNat]? = some (.function ⟨k⟩) ∧
    if free = [] then S.At a .loadConst [index] b
    else free.length ≤ 0xffff ∧ ∃ m, S.PassesAll (free.map (·.symbol.name)) a m ∧
      S.At m .loadClosure [index, free.length.toUInt16] b

end Site

/-- A constant is a literal or one of the given number of functions compiled so far. -/
def Value.IsConstant (count : Nat) : Value → Prop
  | .function r => r.index < count
  | v => v.isScalar = true

theorem Value.IsConstant.mono {count count' : Nat} {v : Value} (h : v.IsConstant count)
    (hc : count ≤ count') : v.IsConstant count' := by
  cases v with
  | function r => exact Nat.lt_of_lt_of_le h hc
  | _ => exact h

theorem Value.IsConstant.of_isScalar {v : Value} (count : Nat) (h : v.isScalar = true) :
    v.IsConstant count := by
  cases v with
  | function r => cases h
  | _ => exact h

namespace Func

/-- The value of a default, which is a literal. -/
def defaultOf (p : Param) : Option Value :=
  p.default.bind Generate.literal?

/-- The values of the defaults. -/
def defaults (f : Func) : List (Option Value) :=
  f.params.map defaultOf

end Func

/-- Declarations of variables, in order. -/
def ScopeTable.declareEach (s : ScopeId) (names : List String) : Scoped (List Symbol) :=
  names.mapM fun name => declare s name false

theorem ScopeTable.declareEach_cons (s : ScopeId) (name : String) (names : List String) :
    ScopeTable.declareEach s (name :: names) = (do
      let symbol ← ScopeTable.declare s name false
      let symbols ← ScopeTable.declareEach s names
      return symbol :: symbols) := by
  unfold ScopeTable.declareEach
  rw [List.mapM_cons]

theorem ScopeTable.of_declareEach_nil {s : ScopeId} {t t' : ScopeTable} {symbols : List Symbol}
    (h : ScopeTable.declareEach s [] t = .ok symbols t') : symbols = [] ∧ t = t' := by
  unfold ScopeTable.declareEach at h
  rw [List.mapM_nil] at h
  obtain ⟨rfl, rfl⟩ := pure_eq_ok.mp h
  exact ⟨rfl, rfl⟩

/-- Several declarations succeed one by one. -/
theorem ScopeTable.of_declareEach_cons {s : ScopeId} {name : String} {names : List String}
    {t t' : ScopeTable} {symbols : List Symbol}
    (h : ScopeTable.declareEach s (name :: names) t = .ok symbols t') :
    ∃ symbol t₁ rest, ScopeTable.declare s name false t = .ok symbol t₁ ∧
      ScopeTable.declareEach s names t₁ = .ok rest t' ∧ symbols = symbol :: rest := by
  rw [ScopeTable.declareEach_cons] at h
  obtain ⟨symbol, t₁, hfirst, h⟩ := bind_eq_ok.mp h
  obtain ⟨rest, t₂, hrest, h⟩ := bind_eq_ok.mp h
  obtain ⟨rfl, rfl⟩ := pure_eq_ok.mp h
  exact ⟨symbol, t₁, rest, hfirst, hrest, rfl⟩

mutual

/-- **The code of a plan lies between two points.** -/
def Plan.Laid : Plan → Site → Point → Point → Prop
  | .skip, _, a, b => b = a
  | .seq x y, S, a, b => ∃ m, x.Laid S a m ∧ y.Laid S m b
  | .instr o, S, a, b => S.At a o.encode.1 o.encode.2 b
  | .const v _, S, a, b =>
    ∃ i : Word, S.code.constants[i.toNat]? = some v ∧ S.At a .loadConst [i] b
  | .attr sets name, S, a, b =>
    ∃ i : Word, S.code.names[i.toNat]? = some name ∧
      S.At a (if sets then .storeAttr else .loadAttr) [i] b
  | .load name, S, a, b =>
    ∃ r table, ScopeTable.resolve S.scope name a.table = .ok (some r) table ∧
      S.Loads r (a.withTable table) b
  | .update name reads value, S, a, b =>
    ∃ r table, ScopeTable.resolve S.scope name a.table = .ok (some r) table ∧
      r.symbol.constant = false ∧ ∃ m, (if reads then S.Loads r (a.withTable table) m
        else m = a.withTable table) ∧ ∃ n, value.Laid S m n ∧ S.Stores r n b
  | .declare name constant, S, a, b =>
    ∃ symbol table, ScopeTable.declare S.scope name constant a.table = .ok symbol table ∧
      S.Sets symbol (a.withTable table) b
  | .declareAll names, S, a, b =>
    ∃ symbols table, ScopeTable.declareEach S.scope names a.table = .ok symbols table ∧
      S.SetsAll symbols.reverse (a.withTable table) b
  | .refuse _, _, _, _ => False
  | .outsidePipe, _, a, b => b = a
  | .stages body, S, a, b => body.Laid S a b
  | .insideFunction, S, a, b => S.inFunction = true ∧ b = a
  | .leave isBreak, S, a, b =>
    ∃ e, S.exits = some e ∧ ∃ m, S.Drops e.held a m ∧
      S.Forward m .jumpForward (if isBreak then e.exit else e.next) b
  | .branch condition ifTrue ifFalse, S, a, b =>
    ∃ m₁ m₂ m₃ m₄, condition.Laid S a m₁ ∧
      S.Forward m₁ .popJumpForwardIfFalse m₄.offset m₂ ∧ ifTrue.Laid S m₂ m₃ ∧
      S.Forward m₃ .jumpForward b.offset m₄ ∧ ifFalse.Laid S m₄ b
  | .shortCircuit both left right, S, a, b =>
    let operation := (Operation.binary (if both then .and else .or)).encode
    ∃ m₁ m₂ m₃ m₄ m₅, left.Laid S a m₁ ∧ S.At m₁ .copy [0] m₂ ∧
      S.Forward m₂ (if both then .popJumpForwardIfFalse else .popJumpForwardIfTrue) m₅.offset m₃ ∧
      right.Laid S m₃ m₄ ∧ S.At m₄ operation.1 operation.2 m₅ ∧ S.At m₅ .nop [] b
  | .switch subject arms default, S, a, b =>
    ∃ m₁ m₂ m₃ m₄ m₅ m₆ targets, subject.Laid S a m₁ ∧ arms.TestsLaid S targets m₁ m₂ ∧
      S.Forward m₂ .jumpForward m₄.offset m₃ ∧ arms.BodiesLaid S.hold targets m₅.offset m₃ m₄ ∧
      default.Laid S.hold m₄ m₅ ∧ S.At m₅ .swap [1] m₆ ∧ S.At m₆ .popTop [] b
  | .block body, S, a, b =>
    ∃ inner table, ScopeTable.openScope S.scope .block a.table = .ok inner table ∧
      body.Laid { S with scope := inner } (a.withTable table) b
  | .loop tested condition body post, S, a, b =>
    ∃ m₁ m₂ m₃ m₄ m₅ m₆, condition.Laid S a m₁ ∧ S.ExitIf tested m₁ m₆.offset m₂ ∧
      body.Laid (S.inLoop m₆.offset m₄.offset) m₂ m₃ ∧ S.At m₃ .popTop [] m₄ ∧
      post.Laid S m₄ m₅ ∧ S.Back m₅ a.offset m₆ ∧ S.At m₆ .nop [] b
  | .iterate names bind body, S, a, b =>
    ∃ m₁ m₂ m₃ m₄ m₅ m₆, S.Advance a m₆.offset names m₁ ∧ bind.Laid S m₁ m₂ ∧
      body.Laid (S.inLoop m₅.offset m₄.offset) m₂ m₃ ∧ S.At m₃ .popTop [] m₄ ∧
      S.Back m₄ a.offset m₅ ∧ S.At m₅ .popTop [] m₆ ∧ S.At m₆ .nop [] b
  | .func f body, S, a, b =>
    f.params.length ≤ Generate.argumentLimit ∧
      (∀ p ∈ f.params, p.default.isSome → (Func.defaultOf p).isSome) ∧
      ∃ inner table, Generate.enter f S.scope a.table = .ok inner table ∧
      ∃ block opened, ScopeTable.openScope inner .block table = .ok block opened ∧
      ∃ code m n, code.name = f.name ∧ code.localCount = m.table.slotCount inner ∧
        code.size = n.offset ∧ (∀ v ∈ code.constants, v.IsConstant m.count) ∧
        body.Laid { S with code, scope := block, exits := none, inFunction := true }
          ⟨0, opened, a.count⟩ m ∧
        (if Block.endsWithReturn f.body then n = m
          else { S with code }.At m .returnValue [1] n) ∧
        S.functions[m.count]? = some ⟨f.name, f.paramNames, f.defaults, code⟩ ∧
        S.cells m.count = (m.table.freeVars inner).size ∧
        S.Instantiates m.count (m.table.freeVars inner).toList
          ⟨a.offset, m.table, m.count + 1⟩ b

/-- The tests of all cases lie between two points. They lead to the given targets. -/
def Arms.TestsLaid : Arms → Site → List Nat → Point → Point → Prop
  | .nil, _, targets, a, b => targets = [] ∧ b = a
  | .arm tests _ rest, S, targets, a, b =>
    ∃ target others m, targets = target :: others ∧ tests.Laid S target a m ∧
      rest.TestsLaid S others m b

/-- The tests of a case lie between two points. -/
def Tests.Laid : Tests → Site → Nat → Point → Point → Prop
  | .nil, _, _, a, b => b = a
  | .test value rest, S, target, a, b =>
    ∃ m₁ m₂ m₃ m₄, S.At a .copy [0] m₁ ∧ value.Laid S m₁ m₂ ∧
      S.At m₂ .compareOp [Comparison.equal.word] m₃ ∧
      S.Forward m₃ .popJumpForwardIfTrue target m₄ ∧ rest.Laid S target m₄ b

/-- The bodies of all cases lie between two points, each at its target. -/
def Arms.BodiesLaid : Arms → Site → List Nat → Nat → Point → Point → Prop
  | .nil, _, _, _, a, b => b = a
  | .arm _ body rest, S, targets, done, a, b =>
    ∃ others m₁ m₂, targets = a.offset :: others ∧ body.Laid S a m₁ ∧
      S.Forward m₁ .jumpForward done m₂ ∧ rest.BodiesLaid S others done m₂ b

end

end ScriptEngine
