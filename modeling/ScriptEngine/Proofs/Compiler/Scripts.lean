import ScriptEngine.Embed.Engine
import ScriptEngine.Proofs.Layout.Steps
import ScriptEngine.Proofs.Scope.Growth

/-!
# Compiling a given script

What the steps of a compilation do in a state of which enough is known. Scopes find their names by
the hashes of strings, which no proof evaluates, so the compilation of a given script is put
together from these equations.

## Main results

* `ScriptEngine.Code.addConstant?_of_new`: a constant that no entry of the pool shares;
* `ScriptEngine.ScopeTable.resolve_of_declared`, `ScriptEngine.ScopeTable.resolveWithin_of_outer`:
  names that are found in the scope itself and further outward;
* `ScriptEngine.Emit.constant_of_ok`, `ScriptEngine.Emit.declare_of_ok`,
  `ScriptEngine.Generate.exprAs_ident`: constants, declarations and names;
* `ScriptEngine.Emit.inBlock_of_ok`, `ScriptEngine.Generate.function_of_ok`: blocks and functions;
* `ScriptEngine.Compiler.compile_of_ok`, `ScriptEngine.Engine.compile_of_ok`: whole scripts.
-/

namespace ScriptEngine

variable {s s' : Emission}

namespace Code

variable {c : Code} {v : Value}

/-- A constant that no entry of the pool shares gets an entry at its end. -/
theorem addConstant?_of_new (hnew : ∀ w ∈ c.constants, w.sameScalar v = false)
    (hroom : c.constants.size < poolLimit) :
    c.addConstant? v =
      some (c.constants.size.toUInt16, { c with constants := c.constants.push v }) := by
  unfold addConstant?
  rw [Array.findIdx?_eq_none_iff.mpr hnew]
  exact if_pos hroom

/-- A constant that the first entry of the pool shares. -/
theorem addConstant?_of_first {w : Value} (hfirst : c.constants[0]? = some w)
    (hsame : w.sameScalar v = true) : c.addConstant? v = some (0, c) := by
  obtain ⟨hlt, rfl⟩ := Array.getElem?_eq_some_iff.mp hfirst
  have hfound : c.constants.findIdx? (·.sameScalar v) = some 0 :=
    Array.findIdx?_eq_some_iff_getElem.mpr ⟨hlt, hsame, fun j hj => absurd hj (Nat.not_lt_zero j)⟩
  unfold addConstant?
  rw [hfound]
  rfl

end Code

namespace ScopeTable

variable {t : ScopeTable} {s : ScopeId} {name : String}

/-- A scope knows the names that it declares. -/
theorem known?_of_declared {symbol : Symbol} (h : t.get? s name = some symbol) :
    t.known? s name = some ⟨symbol, if t.isGlobal s then .global else .local, 0, 0⟩ := by
  unfold known?
  rw [h]

/-- A scope that neither declares a name nor has met it as a free variable knows nothing about
it. -/
theorem known?_eq_none (h : t.get? s name = none) (hf : (t.scope s).freeIndex[name]? = none) :
    t.known? s name = none := by
  unfold known?
  rw [h, hf]
  rfl

/-- **A name that the scope itself declares.** -/
theorem resolve_of_declared {symbol : Symbol} (h : t.get? s name = some symbol) :
    resolve s name t =
      .ok (some ⟨symbol, if t.isGlobal s then .global else .local, 0, 0⟩) t :=
  resolveWithin_known s.index (known?_of_declared h)

/-- **A name that is found further outward** and is reached without a cell. -/
theorem resolveWithin_of_outer {n : Nat} {p : ScopeId} {found : Resolution}
    (hk : t.known? s name = none) (hp : (t.scope s).parent = some p)
    (h : resolveWithin name n p t = .ok (some found) t)
    (hreach : (t.scope s).kind = .block ∨ found.storage = .global ∨ found.storage = .builtin) :
    resolveWithin name (n + 1) s t = .ok (some found) t := by
  rw [resolveWithin_parent n hk hp, bind_of_ok h]
  unfold inward
  exact congrFun (if_pos hreach) t

end ScopeTable

namespace Emit

open Emission.Emits

/-- A constant whose entry in the pool is known. -/
theorem constantIndex_of_ok {v : Value} {index : Word} {code : Code}
    (h : s.body.code.addConstant? v = some (index, code)) :
    constantIndex v s = .ok index (s.withCode code) := by
  unfold constantIndex fromPool
  dsimp only
  rw [h]
  rfl

/-- **A constant** is loaded from its entry. -/
theorem constant_of_ok {v : Value} {index : Word} {code : Code}
    (h : s.body.code.addConstant? v = some (index, code)) :
    constant v s = .ok () ((s.withCode code).put .loadConst [index]) :=
  bind_eq_ok.mpr ⟨index, _, constantIndex_of_ok h, rfl⟩

/-- **A declaration** stores into the slot of the new name. -/
theorem declare_of_ok {name : String} {constant : Bool} {symbol : Symbol} {table : ScopeTable}
    (h : ScopeTable.declare s.body.scope name constant s.table = .ok symbol table) :
    declare name constant s = .ok () ((s.withTable table).put
      (if table.isGlobal s.body.scope then .storeGlobal else .storeFast) [symbol.index]) :=
  bind_eq_ok.mpr ⟨symbol, _, newName_eq_ok.mpr ⟨table, h, rfl⟩,
    bind_eq_ok.mpr ⟨_, _, slotStore_eq_ok.mpr ⟨rfl, rfl⟩, instruction_eq_ok.mpr rfl⟩⟩

/-- A name that is neither a constant nor a builtin may be assigned to. -/
theorem resolveAssignable_of_ok {name : String} {r : Resolution} {table : ScopeTable}
    (h : ScopeTable.resolve s.body.scope name s.table = .ok (some r) table)
    (hvar : r.symbol.constant = false) (hslot : r.storage ≠ .builtin) :
    resolveAssignable name s = .ok r (s.withTable table) := by
  refine bind_eq_ok.mpr ⟨r, _, resolve_eq_ok.mpr ⟨table, h, rfl⟩, ?_⟩
  rw [if_neg (by simp [hvar, hslot])]
  rfl

/-- **A block** is emitted in a new scope. -/
theorem inBlock_of_ok {steps : Emit Unit}
    (h : steps { s with
      table := s.table.opened s.body.scope .block
      body := { s.body with scope := ⟨s.table.scopes.size⟩ } } = .ok () s') :
    inBlock steps s = .ok () { s' with body := { s'.body with scope := s.body.scope } } := by
  refine bind_eq_ok.mpr ⟨s.body.scope, s, rfl, ?_⟩
  refine bind_eq_ok.mpr ⟨_, _, onTable_of_ok rfl, ?_⟩
  exact bind_eq_ok.mpr ⟨(), _, rfl, bind_eq_ok.mpr ⟨(), s', h, rfl⟩⟩

end Emit

namespace Generate

/-- **A name** is loaded from where it is found. -/
theorem exprAs_ident {callOp : Opcode} {name : String} {r : Resolution} {table : ScopeTable}
    (h : ScopeTable.resolve s.body.scope name s.table = .ok (some r) table) :
    exprAs callOp (.ident name) s = Emit.load r (s.withTable table) :=
  bind_of_ok (Emission.Emits.resolve_eq_ok.mpr ⟨table, h, rfl⟩)

/-- **A function** whose body ends with a return is put in once its body has been emitted. -/
theorem function_of_ok {f : Func} {body : Emit Unit} {defaults : List (Option Value)}
    {inner : ScopeId} {t : ScopeTable} {r : Ref .function} {s₁ s₂ s₃ : Emission}
    (hcount : f.params.length ≤ argumentLimit)
    (hdefaults : f.params.mapM defaultValue s = .ok defaults s)
    (henter : enter f s.body.scope s.table = .ok inner t)
    (hopen : openBody f inner (s.withTable t) = .ok () s₁)
    (hbody : Emit.inBlock body s₁ = .ok () s₂) (hreturn : Block.endsWithReturn f.body = true)
    (hclose : closeBody f defaults inner s₂ = .ok r s₃) :
    function f body s =
      instantiate s.body.scope r (s₃.table.freeVars inner).toList s₃ := by
  have hscope : Emit.scope s = .ok s.body.scope s := rfl
  unfold function
  rw [if_neg (Nat.not_lt_of_le hcount), hreturn]
  refine (bind_of_ok hdefaults).trans ((bind_of_ok hscope).trans ?_)
  refine (bind_of_ok (Emit.onTable_of_ok henter)).trans ((bind_of_ok hopen).trans ?_)
  exact (bind_of_ok hbody).trans (bind_of_ok hclose)

/-- A function that captured nothing is a constant of the code around it. -/
theorem instantiate_of_ok {outer : ScopeId} {r : Ref .function} {index : Word} {code : Code}
    (h : s.body.code.addConstant? (.function r) = some (index, code)) :
    instantiate outer r [] s = .ok () ((s.withCode code).put .loadConst [index]) :=
  bind_eq_ok.mpr ⟨index, _, Emit.constantIndex_of_ok h, rfl⟩

end Generate

/-- **A script whose statements are emitted is accepted.** -/
theorem Compiler.compile_of_ok {c : Compiler} {functions : Array Function} {program : Program}
    (h : Generate.statements program (c.emission functions) = .ok () s) :
    c.compile functions program =
      (.ok (c.afterEmission s).countGlobals.code, (c.afterEmission s).countGlobals,
        s.functions) := by
  unfold compile
  rw [h]

/-- The engine keeps the compiler and the functions of a script that is accepted. -/
theorem Engine.compile_of_ok {e : Engine} {program : Program} {code : Code} {c : Compiler}
    {functions : Array Function}
    (h : e.compiler.compile e.system.world.heap.functions program = (.ok code, c, functions)) :
    e.compile program = (.ok code, { e with
      compiler := c
      system := { e.system with world.heap.functions := functions } }) := by
  unfold compile
  dsimp only
  rw [h]
  rfl

end ScriptEngine
