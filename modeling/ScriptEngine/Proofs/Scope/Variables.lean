import ScriptEngine.Machine.Execute
import ScriptEngine.Proofs.Scope.Chain

/-!
# Variables

A name says where a variable is only to those who stand in the right scope. The variable itself is
known by the function scope that owns it and by its slot there. An instruction refers to it by the
slot, in the code of its owner, and by a number among the free variables, in the code of a function
further inside.

## Main definitions

* `ScriptEngine.Variable`: a function scope and one of its slots;
* `ScriptEngine.ScopeTable.Declares`, `ScriptEngine.ScopeTable.IsConstant`: the declared variables,
  and those declared as constants;
* `ScriptEngine.ScopeTable.outward`: the function scope some functions further out;
* `ScriptEngine.ScopeTable.stored?`, `ScriptEngine.ScopeTable.passed?`: the variable that an
  instruction stores or hands over;
* `ScriptEngine.ScopeTable.Continues`: a table in which variables are still the same.

## Main results

* `ScriptEngine.ScopeTable.resolve_found`: a lookup answers with a variable;
* `ScriptEngine.ScopeTable.Mirrors.outward_crossed`: the owner of a variable lies as many functions
  further out as were crossed on the way to it.
-/

namespace ScriptEngine

/-- **A variable**: the function scope that owns it, and its slot there. -/
structure Variable where
  owner : ScopeId
  slot : Word
deriving DecidableEq

namespace ScopeTable

/-- **The function scope** that lies the given number of functions further out than the one whose
slots a scope uses. -/
def outward (t : ScopeTable) : Nat → ScopeId → ScopeId
  | 0, s => t.functionScope s
  | n + 1, s =>
    match (t.scope (t.functionScope s)).parent with
    | some p => outward t n p
    | none => root

/-- A name is declared in a scope that uses the slots of the given function scope. -/
def Declares (t : ScopeTable) (owner : ScopeId) (symbol : Symbol) : Prop :=
  ∃ s, t.get? s symbol.name = some symbol ∧ t.functionScope s = owner

/-- **A constant**: a variable that was declared as one. -/
def IsConstant (t : ScopeTable) (v : Variable) : Prop :=
  ∃ symbol, t.Declares v.owner symbol ∧ symbol.index = v.slot ∧ symbol.constant = true

/-- The variable that was recorded as a free variable of a function scope. -/
def free? (t : ScopeTable) (s : ScopeId) (index : Nat) : Option Variable :=
  (t.freeVars s)[index]?.map fun r => ⟨t.outward r.depth s, r.symbol.index⟩

/-- **The variable in which an instruction stores**, in code for a function scope. -/
def stored? (t : ScopeTable) (s : ScopeId) (i : Instruction) : Option Variable :=
  match i.op with
  | .storeFast => some ⟨s, i.first⟩
  | .storeFree => t.free? s i.first.toNat
  | .storeGlobal => some ⟨root, i.first⟩
  | _ => none

/-- **The variable whose cell an instruction hands over** to a function inside, in code for a
function scope. -/
def passed? (t : ScopeTable) (s : ScopeId) (i : Instruction) : Option Variable :=
  match i.second with
  | 0 => some ⟨s, i.first⟩
  | 1 => t.free? s i.first.toNat
  | _ => none

variable {t t' : ScopeTable} {s p : ScopeId} {name : String} {symbol : Symbol}

/-! ### Owners -/

theorem functionScope_functionScope (h : t.IsTree) (hs : s.index < t.scopes.size) :
    t.functionScope (t.functionScope s) = t.functionScope s :=
  functionScope_of_function (functionScope_lt h s hs).2

/-- The functions around a function are those around the place where it stands. -/
theorem outward_function (hk : (t.scope s).kind = .function) (hp : (t.scope s).parent = some p)
    (n : Nat) : t.outward (n + 1) s = t.outward n p := by
  rw [outward, functionScope_of_function hk, hp]

/-- A block lies in the same functions as the scope around it. -/
theorem outward_block (h : t.IsTree) (hk : (t.scope s).kind = .block)
    (hp : (t.scope s).parent = some p) (n : Nat) : t.outward n s = t.outward n p := by
  cases n <;> simp only [outward, functionScope_of_block h hk hp]

theorem outward_functionScope (h : t.IsTree) (hs : s.index < t.scopes.size) (n : Nat) :
    t.outward n (t.functionScope s) = t.outward n s := by
  cases n <;> simp only [outward, functionScope_functionScope h hs]

/-- Owners stay what they are. -/
theorem Grows.outward (g : t.Grows t') (h : t.IsTree) (h' : t'.IsTree) :
    ∀ (n : Nat) {s : ScopeId}, s.index < t.scopes.size → t'.outward n s = t.outward n s
  | 0, s, hs => g.functionScope h h' s hs
  | n + 1, s, hs => by
    have howner := (functionScope_lt h s hs).1
    rw [ScopeTable.outward, ScopeTable.outward, g.functionScope h h' s hs,
      (g.scope _ howner).parent]
    cases hp : (t.scope (t.functionScope s)).parent with
    | none => rfl
    | some p => exact g.outward h h' n (Nat.lt_trans (h.parent_lt _ p hp) howner)

theorem Declares.grows {owner : ScopeId} (hd : t.Declares owner symbol) (g : t.Grows t')
    (h : t.IsTree) (h' : t'.IsTree) : t'.Declares owner symbol := by
  obtain ⟨s, hs, rfl⟩ := hd
  exact ⟨s, g.get? hs, g.functionScope h h' s (lt_of_name hs)⟩

/-- **A slot belongs to one name.** -/
theorem Lexical.eq_of_slot (h : t.Lexical) {owner : ScopeId} {symbol' : Symbol}
    (hd : t.Declares owner symbol) (hd' : t.Declares owner symbol')
    (hi : symbol.index = symbol'.index) : symbol = symbol' := by
  obtain ⟨s, hs, hf⟩ := hd
  obtain ⟨s', hs', hf'⟩ := hd'
  obtain ⟨rfl, hname⟩ := h.distinct s s' _ _ _ _ hs hs' (hf.trans hf'.symm) hi
  rw [hname] at hs
  exact Option.some.inj (hs.symm.trans hs')

/-- Whether a variable is a constant can be told from its declaration. -/
theorem Declares.isConstant_iff (hd : t.Declares s symbol) (h : t.Lexical) :
    t.IsConstant ⟨s, symbol.index⟩ ↔ symbol.constant = true := by
  refine ⟨fun hc => ?_, fun hc => ⟨symbol, hd, rfl, hc⟩⟩
  obtain ⟨symbol', hd', hi, hconstant⟩ := hc
  rwa [h.eq_of_slot hd hd' hi.symm]

/-- Free variables stay what they are. -/
theorem Grows.freeVars (g : t.Grows t') (hs : s.index < t.scopes.size) {i : Nat} {r : Resolution}
    (hr : (t.freeVars s)[i]? = some r) : (t'.freeVars s)[i]? = some r := by
  rw [← Array.getElem?_toList] at hr ⊢
  obtain ⟨more, hmore⟩ := (g.scope s hs).free
  rw [ScopeTable.freeVars] at hr ⊢
  rw [← hmore, List.getElem?_append_left (List.getElem?_eq_some_iff.mp hr).1, hr]

theorem Grows.free? (g : t.Grows t') (h : t.IsTree) (h' : t'.IsTree) (hs : s.index < t.scopes.size)
    {i : Nat} {v : Variable} (hv : t.free? s i = some v) : t'.free? s i = some v := by
  obtain ⟨r, hr, rfl⟩ := Option.map_eq_some_iff.mp hv
  rw [ScopeTable.free?, g.freeVars hs hr, Option.map_some, g.outward h h' _ hs]

/-! ### Tables that know more -/

/-- **Variables stay what they are**, and so do the functions around them. -/
structure Continues (t t' : ScopeTable) : Prop where
  size : t.scopes.size ≤ t'.scopes.size
  kind : ∀ s : ScopeId, s.index < t.scopes.size → (t'.scope s).kind = (t.scope s).kind
  get? : ∀ {s : ScopeId} {name : String} {symbol : Symbol}, t.get? s name = some symbol →
    t'.get? s name = some symbol
  outward : ∀ (n : Nat) {s : ScopeId}, s.index < t.scopes.size → t'.outward n s = t.outward n s
  free? : ∀ {s : ScopeId} {i : Nat} {v : Variable}, t.free? s i = some v → t'.free? s i = some v

namespace Continues

theorem refl (t : ScopeTable) : t.Continues t :=
  ⟨Nat.le_refl _, fun _ _ => rfl, id, fun _ _ _ => rfl, id⟩

/-- A scope with free variables is known. -/
theorem lt_of_free? {i : Nat} {v : Variable} (h : t.free? s i = some v) :
    s.index < t.scopes.size := by
  refine Nat.lt_of_not_le fun hs => ?_
  rw [ScopeTable.free?, freeVars, scope_of_size_le hs] at h
  cases h

theorem of_grows (g : t.Grows t') (h : t.IsTree) (h' : t'.IsTree) : t.Continues t' :=
  ⟨g.size, fun s hs => (g.scope s hs).kind, g.get?, fun n _ => g.outward h h' n,
    fun hv => g.free? h h' (lt_of_free? hv) hv⟩

/-- Builtins are no variables. -/
theorem of_scopes (h : t'.scopes = t.scopes) : t.Continues t' := by
  have hscope (s : ScopeId) : t'.scope s = t.scope s := by rw [scope, scope, h]
  have hfunction (s : ScopeId) : t'.functionScope s = t.functionScope s := by
    rw [functionScope, functionScope, h, functionScopeWithin_congr h]
  have houtward : ∀ (n : Nat) (s : ScopeId), t'.outward n s = t.outward n s := by
    intro n
    induction n with
    | zero => exact hfunction
    | succ n ih =>
      intro s
      rw [ScopeTable.outward, ScopeTable.outward, hfunction, hscope]
      cases (t.scope (t.functionScope s)).parent with
      | none => rfl
      | some p => exact ih p
  refine ⟨Nat.le_of_eq (congrArg Array.size h).symm, fun s _ => by rw [hscope], fun hs => ?_,
    fun n s _ => houtward n s, fun hv => ?_⟩
  · rwa [ScopeTable.get?, hscope]
  · rw [ScopeTable.free?, freeVars, hscope]
    simp only [houtward]
    exact hv

theorem declares {owner : ScopeId} (h : t.Continues t') (hd : t.Declares owner symbol) :
    t'.Declares owner symbol := by
  obtain ⟨s, hs, rfl⟩ := hd
  exact ⟨s, h.get? hs, h.outward 0 (lt_of_name hs)⟩

theorem stored? (h : t.Continues t') {i : Instruction} {v : Variable}
    (hv : t.stored? s i = some v) :
    t'.stored? s i = some v := by
  unfold ScopeTable.stored? at hv ⊢
  split at hv
  · exact hv
  · exact h.free? hv
  · exact hv
  · cases hv

theorem passed? (h : t.Continues t') {i : Instruction} {v : Variable}
    (hv : t.passed? s i = some v) :
    t'.passed? s i = some v := by
  unfold ScopeTable.passed? at hv ⊢
  split at hv
  · exact hv
  · exact h.free? hv
  · cases hv

end Continues

/-! ### Lookups -/

/-- **An answer names a variable**, as it is seen from a scope. -/
def Found (t : ScopeTable) (s : ScopeId) (r : Resolution) : Prop :=
  match r.storage with
  | .local => t.Declares (t.functionScope s) r.symbol
  | .free => (t.freeVars (t.functionScope s))[r.freeIndex.toNat]? = some r
  | .global => t.Declares root r.symbol
  | .builtin => r.symbol.constant = true

theorem Found.grows {r : Resolution} (hf : t.Found s r) (g : t.Grows t') (h : t.IsTree)
    (h' : t'.IsTree) (hs : s.index < t.scopes.size) : t'.Found s r := by
  unfold Found at hf ⊢
  rw [g.functionScope h h' s hs]
  split at hf
  · exact hf.grows g h h'
  · exact g.freeVars (functionScope_lt h s hs).1 hf
  · exact hf.grows g h h'
  · exact hf

/-- What a scope itself knows. -/
theorem found_of_known? (h : t.WellFormed) {r : Resolution} (hk : t.known? s name = some r) :
    t.Found s r := by
  unfold known? at hk
  split at hk
  · rename_i symbol hg
    obtain rfl := Option.some.inj hk
    have hname := (h.names s name symbol hg).1
    cases hglobal : t.isGlobal s with
    | true => exact ⟨s, hname ▸ hg, functionScope_of_isGlobal h.toIsTree (lt_of_name hg) hglobal⟩
    | false => exact ⟨s, hname ▸ hg, rfl⟩
  · obtain ⟨i, hi, hr⟩ := Option.bind_eq_some_iff.mp hk
    obtain ⟨hstorage, hindex, hkind, -⟩ := h.free s i r hr
    unfold Found freeVars
    rw [hstorage]
    dsimp only
    rwa [functionScope_of_function hkind, hindex]

/-- An answer on its way inward. -/
theorem found_of_inward (h : t.WellFormed) (hs : s.index < t.scopes.size)
    (hp : (t.scope s).parent = some p) {outer r : Resolution} (hf : t.Found p outer)
    (hi : inward (t.scope s).kind s name (some outer) t = .ok (some r) t') : t'.Found s r := by
  unfold inward at hi
  dsimp only at hi
  split at hi
  · rename_i hdirect
    obtain ⟨heq, rfl⟩ := pure_eq_ok.mp hi
    obtain rfl := Option.some.inj heq
    unfold Found at hf ⊢
    rcases hdirect with hk | hglobal | hbuiltin
    · rwa [functionScope_of_block h.toIsTree hk hp]
    · rw [hglobal] at hf ⊢
      exact hf
    · rw [hbuiltin] at hf ⊢
      exact hf
  · rename_i hcross
    obtain ⟨found, t₁, hc, hr⟩ := bind_eq_ok.mp hi
    obtain ⟨heq, rfl⟩ := pure_eq_ok.mp hr
    obtain rfl := Option.some.inj heq
    rw [capture_eq _ _ _ _ hs] at hc
    split at hc
    · cases hc
    · rename_i hroom
      cases hc
      have hkind : (t.scope s).kind = .function := by
        cases hk : (t.scope s).kind with
        | function => rfl
        | block => exact absurd (.inl hk) hcross
      have hindex : ((t.scope s).free.size.toUInt16).toNat = (t.scope s).free.size := by
        show (t.scope s).free.size % 65536 = _
        unfold wordCount at hroom
        omega
      have hscope := scope_modifyScope (t := t) (fun d => { d with
        free := d.free.push ⟨outer.symbol, .free, outer.depth + 1, (t.scope s).free.size.toUInt16⟩,
        freeIndex := d.freeIndex.insert name d.free.size }) hs
      unfold Found freeVars captured
      dsimp only
      rw [functionScope_of_function (by rw [hscope, if_pos rfl]; exact hkind), hscope, if_pos rfl,
        hindex, Array.getElem?_push, if_pos rfl]

theorem resolveWithin_found : ∀ (n : Nat) {s : ScopeId} {t t' : ScopeTable} {r : Resolution},
    t.WellFormed → s.index < t.scopes.size → s.index < n →
    resolveWithin name n s t = .ok (some r) t' → t'.Found s r
  | 0, _, _, _, _, _, _, hn, _ => absurd hn (Nat.not_lt_zero _)
  | n + 1, s, t, t', r, h, hs, hn, hr => by
    cases hk : t.known? s name with
    | some found =>
      rw [resolveWithin_known n hk] at hr
      cases hr
      exact found_of_known? h hk
    | none =>
      cases hp : (t.scope s).parent with
      | none =>
        rw [resolveWithin_root n hk hp] at hr
        obtain ⟨hbuiltin, rfl⟩ := EStateM.Result.ok.inj hr
        obtain ⟨index, -, rfl⟩ := Option.map_eq_some_iff.mp hbuiltin
        exact rfl
      | some p =>
        rw [resolveWithin_parent n hk hp] at hr
        obtain ⟨o, t₁, hres, hin⟩ := bind_eq_ok.mp hr
        have hlt := h.parent_lt s p hp
        obtain ⟨h₁, g₁, hsame, -⟩ :=
          (resolveWithin_spec name n p h (by omega) (by omega)).2 _ _ hres
        cases o with
        | none => cases (pure_eq_ok.mp hin).1
        | some outer =>
          have hf := resolveWithin_found n h (Nat.lt_trans hlt hs) (by omega) hres
          rw [← hsame s hlt] at hin hp
          exact found_of_inward h₁ (Nat.lt_of_lt_of_le hs g₁.size) hp hf hin

/-- **A lookup answers with a variable**, or with a builtin. -/
theorem resolve_found {r : Resolution} (h : t.WellFormed) (hs : s.index < t.scopes.size)
    (hr : resolve s name t = .ok (some r) t') : t'.Found s r :=
  resolveWithin_found (s.index + 1) h hs (Nat.lt_succ_self _) hr

/-! ### Chains -/

open Chain

variable {l : Layer} {C : Chain}

/-- **The owner of a variable** lies as many functions further out as are crossed on the way to
it. -/
theorem Mirrors.outward_crossed (hw : t.WellFormed) : ∀ {C : Chain} {l : Layer},
    t.Mirrors (l :: C) →
    symbol? (l :: C) name = some symbol →
    t.outward (crossed (l :: C) name).length l.scope = (around (l :: C) name).owner := by
  intro C
  induction C with
  | nil =>
    intro l h hs
    cases hl : l.find? name with
    | none =>
      rw [symbol?_of_none hl] at hs
      cases hs
    | some found => rw [crossed_of_some hl, around_of_some hl]; exact h.functionScope_eq hw
  | cons l' C ih =>
    intro l h hs
    cases hl : l.find? name with
    | some found => rw [crossed_of_some hl, around_of_some hl]; exact h.functionScope_eq hw
    | none =>
      rw [symbol?_of_none hl] at hs
      have hp : (t.scope l.scope).parent = some l'.scope := h.1.parent
      rw [around_of_none hl, ← ih h.2 hs]
      cases hf : l.isFunction with
      | true =>
        rw [crossed_of_function hl hf, List.length_cons]
        exact outward_function (h.1.isFunction.mp hf) hp _
      | false =>
        rw [crossed_of_block hl hf]
        exact outward_block hw.toIsTree (h.1.isBlock.mp hf) hp _

/-- The nearest declaration of a name is one of the function around it. -/
theorem Mirrors.declares (hw : t.WellFormed) : ∀ {C : Chain}, t.Mirrors C →
    C.symbol? name = some symbol → t.Declares (C.around name).owner symbol := by
  intro C
  induction C with
  | nil =>
    intro _ hs
    cases hs
  | cons l C ih =>
    intro h hs
    cases hl : l.find? name with
    | none =>
      rw [symbol?_of_none hl] at hs
      rw [around_of_none hl]
      exact ih h.2 hs
    | some found =>
      have hname := symbol?_name hs
      rw [symbol?_of_some hl] at hs
      obtain rfl := Option.some.inj hs
      rw [around_of_some hl]
      exact ⟨l.scope, by rw [h.1.names, hname, hl], h.functionScope_eq hw⟩

/-- **What a function has recorded** is a declared variable further out. -/
theorem Mirrors.recorded_declares (hw : t.WellFormed) (h : t.Mirrors (l :: C)) {i : Nat}
    (hi : (t.scope l.scope).freeIndex[name]? = some i) :
    ∃ r, (t.freeVars l.scope)[i]? = some r ∧ t.Declares (t.outward r.depth l.scope) r.symbol := by
  obtain ⟨symbol, hs, htop, hr, -⟩ := h.1.recorded name i hi
  refine ⟨_, hr, ?_⟩
  obtain ⟨r', hr', -⟩ := hw.freeIndex l.scope name i hi
  obtain ⟨-, -, hkind, -⟩ := hw.free l.scope i r' hr'
  cases C with
  | nil => cases hs
  | cons l' C =>
    dsimp only
    rw [outward_function hkind h.1.parent, h.2.outward_crossed hw hs]
    exact h.2.declares hw hs

end ScopeTable

end ScriptEngine
