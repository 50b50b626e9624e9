import ScriptEngine.Proofs.Step
import ScriptEngine.Scope.Table

/-!
# Growing scopes

Scopes are only ever added to: what was declared stays declared, and counts only grow, no matter
whether a step succeeds. So what a lookup answered once stays in range.

## Main definitions

* `ScriptEngine.ScopeTable.Grows`: the second table knows all that the first one knows;
* `ScriptEngine.ScopeTable.WellFormed`: the scopes form a tree, and indices are in range;
* `ScriptEngine.Resolution.InRange`: an answer whose index is in range.

## Main results

* `ScriptEngine.ScopeTable.resolve_spec`, `ScriptEngine.ScopeTable.declare_spec`: lookups and
  declarations, whether they succeed or fail, keep tables well-formed and let them grow, and what
  they answer is in range.
-/

namespace ScriptEngine

/-- The second scope is the first one with more names, slots and free variables. -/
structure ScopeData.Grows (d d' : ScopeData) : Prop where
  parent : d'.parent = d.parent
  kind : d'.kind = d.kind
  names : ∀ (name : String) (symbol : Symbol), d.names[name]? = some symbol →
    d'.names[name]? = some symbol
  slots : d.slots ≤ d'.slots
  free : d.free.toList <+: d'.free.toList
  freeIndex : ∀ (name : String) (i : Nat), d.freeIndex[name]? = some i →
    d'.freeIndex[name]? = some i

namespace ScopeData.Grows

theorem refl (d : ScopeData) : d.Grows d :=
  ⟨rfl, rfl, fun _ _ h => h, Nat.le_refl _, List.prefix_rfl, fun _ _ h => h⟩

theorem trans {d₁ d₂ d₃ : ScopeData} (h : d₁.Grows d₂) (h' : d₂.Grows d₃) : d₁.Grows d₃ where
  parent := h'.parent.trans h.parent
  kind := h'.kind.trans h.kind
  names name symbol hn := h'.names name symbol (h.names name symbol hn)
  slots := Nat.le_trans h.slots h'.slots
  free := h.free.trans h'.free
  freeIndex name i hn := h'.freeIndex name i (h.freeIndex name i hn)

end ScopeData.Grows

namespace ScopeTable

/-- **Growth of tables.** -/
structure Grows (t t' : ScopeTable) : Prop where
  size : t.scopes.size ≤ t'.scopes.size
  scope : ∀ s : ScopeId, s.index < t.scopes.size → (t.scope s).Grows (t'.scope s)
  builtins : t'.builtins = t.builtins
  builtinIndex : t'.builtinIndex = t.builtinIndex

namespace Grows

theorem refl (t : ScopeTable) : t.Grows t :=
  ⟨Nat.le_refl _, fun _ _ => .refl _, rfl, rfl⟩

theorem trans {t₁ t₂ t₃ : ScopeTable} (h : t₁.Grows t₂) (h' : t₂.Grows t₃) : t₁.Grows t₃ where
  size := Nat.le_trans h.size h'.size
  scope s hs := (h.scope s hs).trans (h'.scope s (Nat.lt_of_lt_of_le hs h.size))
  builtins := h'.builtins.trans h.builtins
  builtinIndex := h'.builtinIndex.trans h.builtinIndex

end Grows

/-! ### The tree of scopes -/

/-- Every scope but the outermost lies in an earlier one, and a block never is the outermost. -/
structure IsTree (t : ScopeTable) : Prop where
  nonempty : 0 < t.scopes.size
  parent_lt : ∀ s p : ScopeId, (t.scope s).parent = some p → p.index < s.index
  parent_some : ∀ s : ScopeId, s.index < t.scopes.size → 0 < s.index →
    (t.scope s).parent.isSome
  block : ∀ s : ScopeId, (t.scope s).kind = .block → (t.scope s).parent.isSome

/-- **Well-formed tables.** The scopes form a tree, and the indices of symbols and of free variables
are in range. -/
structure WellFormed (t : ScopeTable) : Prop extends IsTree t where
  slots_le : ∀ s : ScopeId, (t.scope s).slots ≤ slotLimit
  names : ∀ (s : ScopeId) (name : String) (symbol : Symbol),
    (t.scope s).names[name]? = some symbol →
    symbol.name = name ∧ symbol.index.toNat < t.slotCount s
  free : ∀ (s : ScopeId) (i : Nat) (r : Resolution), (t.scope s).free[i]? = some r →
    r.storage = .free ∧ r.freeIndex.toNat = i ∧ (t.scope s).kind = .function ∧
      (t.scope s).parent.isSome
  freeIndex : ∀ (s : ScopeId) (name : String) (i : Nat), (t.scope s).freeIndex[name]? = some i →
    ∃ r, (t.scope s).free[i]? = some r ∧ r.symbol.name = name
  builtins : ∀ (name : String) (w : Word), t.builtinIndex[name]? = some w →
    w.toNat < t.builtins.size

theorem scope_of_size_le {t : ScopeTable} {s : ScopeId} (h : t.scopes.size ≤ s.index) :
    t.scope s = { parent := none, kind := .function } := by
  unfold scope
  rw [Array.getD_eq_getD_getElem?, Array.getElem?_eq_none h]
  rfl

/-- A scope with a parent is known. -/
theorem lt_of_parent {t : ScopeTable} {s p : ScopeId} (h : (t.scope s).parent = some p) :
    s.index < t.scopes.size := by
  refine Nat.lt_of_not_le fun hs => ?_
  rw [scope_of_size_le hs] at h
  cases h

/-- A scope with names is known. -/
theorem lt_of_name {t : ScopeTable} {s : ScopeId} {name : String} {symbol : Symbol}
    (h : (t.scope s).names[name]? = some symbol) : s.index < t.scopes.size := by
  refine Nat.lt_of_not_le fun hs => ?_
  rw [scope_of_size_le hs] at h
  simp at h

variable {t t' : ScopeTable} {s : ScopeId}

/-- The function around a scope does not depend on how many steps outward are allowed, if they are
enough. -/
theorem functionScopeWithin_eq (h : t.IsTree) : ∀ (n m : Nat) (s : ScopeId),
    s.index < n → s.index < m → t.functionScopeWithin n s = t.functionScopeWithin m s
  | 0, _, _, hn, _ => absurd hn (Nat.not_lt_zero _)
  | _, 0, _, _, hm => absurd hm (Nat.not_lt_zero _)
  | n + 1, m + 1, s, hn, hm => by
    unfold functionScopeWithin
    split
    · rename_i p _ hp
      have := h.parent_lt s p hp
      exact functionScopeWithin_eq h n m p (by omega) (by omega)
    · rfl

/-- The functions around scopes depend on the scopes alone. -/
theorem functionScopeWithin_congr {t t' : ScopeTable} (h : t'.scopes = t.scopes) :
    ∀ (n : Nat) (s : ScopeId), t'.functionScopeWithin n s = t.functionScopeWithin n s
  | 0, _ => rfl
  | n + 1, s => by
    have hs : t'.scope s = t.scope s := by rw [scope, scope, h]
    unfold functionScopeWithin
    rw [hs]
    split
    · exact functionScopeWithin_congr h n _
    · rfl

theorem slotCount_congr {t t' : ScopeTable} (h : t'.scopes = t.scopes) (s : ScopeId) :
    t'.slotCount s = t.slotCount s := by
  have hf : t'.functionScope s = t.functionScope s := by
    unfold functionScope
    rw [functionScopeWithin_congr h, h]
  unfold slotCount
  rw [hf, scope, scope, h]

theorem functionScope_of_function (hk : (t.scope s).kind = .function) :
    t.functionScope s = s := by
  unfold functionScope
  cases t.scopes.size with
  | zero => rfl
  | succ n =>
    unfold functionScopeWithin
    rw [hk]

/-- **The function around a block** is the one around its surroundings. -/
theorem functionScope_of_block (h : t.IsTree) {p : ScopeId} (hk : (t.scope s).kind = .block)
    (hp : (t.scope s).parent = some p) : t.functionScope s = t.functionScope p := by
  have hs := lt_of_parent hp
  have hlt := h.parent_lt s p hp
  unfold functionScope
  rw [functionScopeWithin_eq h t.scopes.size (s.index + 1) s hs (Nat.lt_succ_self _)]
  rw [functionScopeWithin, hk, hp]
  exact functionScopeWithin_eq h _ _ p hlt (by omega)

/-- Induction from the outermost scope inward. -/
theorem scope_induction (h : t.IsTree) {motive : ScopeId → Prop}
    (step : ∀ s, (∀ p, (t.scope s).parent = some p → motive p) → motive s) (s : ScopeId) :
    motive s := by
  have aux : ∀ n (s : ScopeId), s.index < n → motive s := by
    intro n
    induction n with
    | zero => exact fun s hs => absurd hs (Nat.not_lt_zero _)
    | succ n ih =>
      intro s hs
      refine step s fun p hp => ih p ?_
      have := h.parent_lt s p hp
      omega
  exact aux (s.index + 1) s (Nat.lt_succ_self _)

theorem functionScope_lt (h : t.IsTree) (s : ScopeId) (hs : s.index < t.scopes.size) :
    (t.functionScope s).index < t.scopes.size ∧
      (t.scope (t.functionScope s)).kind = .function := by
  induction s using scope_induction h with
  | step s ih =>
    cases hk : (t.scope s).kind with
    | function =>
      rw [functionScope_of_function hk]
      exact ⟨hs, hk⟩
    | block =>
      obtain ⟨p, hp⟩ := Option.isSome_iff_exists.mp (h.block s hk)
      rw [functionScope_of_block h hk hp]
      have := h.parent_lt s p hp
      exact ih p hp (by omega)

theorem functionScope_le (h : t.IsTree) (s : ScopeId) :
    (t.functionScope s).index ≤ s.index := by
  induction s using scope_induction h with
  | step s ih =>
    cases hk : (t.scope s).kind with
    | function =>
      exact Nat.le_of_eq (congrArg ScopeId.index (functionScope_of_function hk))
    | block =>
      obtain ⟨p, hp⟩ := Option.isSome_iff_exists.mp (h.block s hk)
      rw [functionScope_of_block h hk hp]
      have := h.parent_lt s p hp
      have := ih p hp
      omega

/-- The slots of the program are those of the outermost scope. -/
theorem functionScope_of_isGlobal (h : t.IsTree) (hs : s.index < t.scopes.size)
    (hg : t.isGlobal s = true) : t.functionScope s = root := by
  obtain ⟨hlt, -⟩ := functionScope_lt h s hs
  unfold isGlobal at hg
  cases hi : (t.functionScope s).index with
  | zero => exact congrArg ScopeId.mk hi
  | succ n =>
    have := h.parent_some _ hlt (by omega)
    rw [Option.isNone_iff_eq_none] at hg
    rw [hg] at this
    cases this

/-- **Growth does not move scopes.** -/
theorem Grows.functionScope (g : t.Grows t') (h : t.IsTree) (h' : t'.IsTree) (s : ScopeId)
    (hs : s.index < t.scopes.size) : t'.functionScope s = t.functionScope s := by
  induction s using scope_induction h with
  | step s ih =>
    have gs := g.scope s hs
    cases hk : (t.scope s).kind with
    | function => rw [functionScope_of_function hk, functionScope_of_function (gs.kind.trans hk)]
    | block =>
      obtain ⟨p, hp⟩ := Option.isSome_iff_exists.mp (h.block s hk)
      rw [functionScope_of_block h hk hp,
        functionScope_of_block h' (gs.kind.trans hk) (gs.parent.trans hp)]
      have := h.parent_lt s p hp
      exact ih p hp (by omega)

theorem Grows.slotCount (g : t.Grows t') (h : t.IsTree) (h' : t'.IsTree)
    (hs : s.index < t.scopes.size) : t.slotCount s ≤ t'.slotCount s := by
  unfold ScopeTable.slotCount
  rw [g.functionScope h h' s hs]
  exact (g.scope _ (functionScope_lt h s hs).1).slots

theorem Grows.isGlobal (g : t.Grows t') (h : t.IsTree) (h' : t'.IsTree)
    (hs : s.index < t.scopes.size) : t'.isGlobal s = t.isGlobal s := by
  unfold ScopeTable.isGlobal
  rw [g.functionScope h h' s hs, (g.scope _ (functionScope_lt h s hs).1).parent]

theorem Grows.free_size (g : t.Grows t') (hs : s.index < t.scopes.size) :
    (t.freeVars s).size ≤ (t'.freeVars s).size := by
  have := (g.scope s hs).free.length_le
  rwa [Array.length_toList, Array.length_toList] at this

theorem functionScope_root (h : t.IsTree) : t.functionScope root = root := by
  have := functionScope_le h root
  have h0 : (t.functionScope root).index = 0 := Nat.le_zero.mp this
  exact congrArg ScopeId.mk h0

theorem isGlobal_root (h : t.IsTree) : t.isGlobal root = true := by
  unfold isGlobal
  rw [functionScope_root h]
  cases hp : (t.scope root).parent with
  | none => rfl
  | some p => exact absurd (h.parent_lt root p hp) (Nat.not_lt_zero _)

/-! ### Changes of one scope -/

theorem scope_modifyScope (f : ScopeData → ScopeData) (hs : s.index < t.scopes.size) (u : ScopeId) :
    (t.modifyScope s f).scope u = if u = s then f (t.scope s) else t.scope u := by
  unfold modifyScope scope
  simp only [Array.getD_eq_getD_getElem?, Array.getElem?_modify]
  by_cases hu : u = s
  · subst hu
    rw [if_pos rfl, if_pos rfl, Array.getElem?_eq_getElem hs]
    rfl
  · rw [if_neg hu, if_neg fun h => hu (by cases u; cases s; simp_all)]

theorem size_modifyScope (f : ScopeData → ScopeData) :
    (t.modifyScope s f).scopes.size = t.scopes.size := by
  simp [modifyScope]

/-- A scope that grows lets the table grow. -/
theorem Grows.modifyScope (f : ScopeData → ScopeData) (hs : s.index < t.scopes.size)
    (hf : (t.scope s).Grows (f (t.scope s))) : t.Grows (t.modifyScope s f) where
  size := Nat.le_of_eq (size_modifyScope f).symm
  scope u _ := by
    rw [scope_modifyScope f hs]
    by_cases hu : u = s
    · rw [if_pos hu, hu]
      exact hf
    · rw [if_neg hu]
      exact .refl _
  builtins := rfl
  builtinIndex := rfl

/-- A table whose scopes have the same parents and kinds is as much of a tree. -/
theorem IsTree.congr (h : t.IsTree) (hsize : t'.scopes.size = t.scopes.size)
    (hparent : ∀ u, (t'.scope u).parent = (t.scope u).parent)
    (hkind : ∀ u, (t'.scope u).kind = (t.scope u).kind) : t'.IsTree where
  nonempty := hsize ▸ h.nonempty
  parent_lt u p hp := h.parent_lt u p (hparent u ▸ hp)
  parent_some u hu hpos := hparent u ▸ h.parent_some u (hsize ▸ hu) hpos
  block u hk := hparent u ▸ h.block u (hkind u ▸ hk)

/-! ### New scopes -/

/-- The table after a scope was opened. -/
def opened (t : ScopeTable) (s : ScopeId) (kind : ScopeKind) : ScopeTable :=
  { t with scopes := t.scopes.push { parent := some s, kind } }

@[simp]
theorem size_opened (t : ScopeTable) (s : ScopeId) (kind : ScopeKind) :
    (t.opened s kind).scopes.size = t.scopes.size + 1 :=
  Array.size_push ..

@[simp]
theorem scope_opened_new (t : ScopeTable) (s : ScopeId) (kind : ScopeKind) :
    (t.opened s kind).scope ⟨t.scopes.size⟩ = { parent := some s, kind } := by
  simp [opened, scope, Array.getD_eq_getD_getElem?]

theorem scope_opened_of_ne {kind : ScopeKind} {u : ScopeId} (hu : u ≠ ⟨t.scopes.size⟩) :
    (t.opened s kind).scope u = t.scope u := by
  have hne : u.index ≠ t.scopes.size := fun he => hu (by cases u; simp_all)
  simp only [opened, scope, Array.getD_eq_getD_getElem?, Array.getElem?_push, if_neg hne]

theorem grows_opened (t : ScopeTable) (s : ScopeId) (kind : ScopeKind) :
    t.Grows (t.opened s kind) := by
  refine ⟨by rw [size_opened]; omega, fun u hu => ?_, rfl, rfl⟩
  rw [scope_opened_of_ne (by rintro rfl; exact Nat.lt_irrefl _ hu)]
  exact .refl _

/-- A scope is the new one, which lies inside an old one, or an old one. -/
theorem IsTree.opened (h : t.IsTree) (hs : s.index < t.scopes.size) (kind : ScopeKind) :
    (t.opened s kind).IsTree := by
  refine ⟨by rw [size_opened]; omega, fun u p hp => ?_, fun u hu hpos => ?_, fun u hk => ?_⟩ <;>
    by_cases hn : u = ⟨t.scopes.size⟩
  · rw [hn, scope_opened_new] at hp
    obtain rfl : s = p := Option.some.inj hp
    rw [hn]
    exact hs
  · rw [scope_opened_of_ne hn] at hp
    exact h.parent_lt u p hp
  · rw [hn, scope_opened_new]
    rfl
  · rw [scope_opened_of_ne hn]
    refine h.parent_some u ?_ hpos
    rw [size_opened] at hu
    have hne : u.index ≠ t.scopes.size := fun he => hn (by cases u; simp_all)
    omega
  · rw [hn, scope_opened_new]
    rfl
  · rw [scope_opened_of_ne hn] at hk ⊢
    exact h.block u hk

theorem WellFormed.opened (h : t.WellFormed) (hs : s.index < t.scopes.size) (kind : ScopeKind) :
    (t.opened s kind).WellFormed := by
  have htree := h.toIsTree.opened hs kind
  refine ⟨htree, fun u => ?_, fun u name symbol hu => ?_, fun u i r hr => ?_,
    fun u name i hi => ?_, h.builtins⟩ <;> by_cases hn : u = ⟨t.scopes.size⟩
  · rw [hn, scope_opened_new]
    exact Nat.zero_le _
  · rw [scope_opened_of_ne hn]
    exact h.slots_le u
  · rw [hn, scope_opened_new] at hu
    simp at hu
  · rw [scope_opened_of_ne hn] at hu
    obtain ⟨he, hlt⟩ := h.names u name symbol hu
    have hle := (grows_opened t s kind).slotCount h.toIsTree htree (lt_of_name hu)
    exact ⟨he, Nat.lt_of_lt_of_le hlt hle⟩
  · rw [hn, scope_opened_new] at hr
    simp at hr
  · rw [scope_opened_of_ne hn] at hr ⊢
    exact h.free u i r hr
  · rw [hn, scope_opened_new] at hi
    simp at hi
  · rw [scope_opened_of_ne hn] at hi ⊢
    exact h.freeIndex u name i hi

/-- **A new scope** lies inside the given one, and is empty. -/
theorem openScope_spec {kind : ScopeKind} {inner : ScopeId} (h : t.WellFormed)
    (hs : s.index < t.scopes.size) (ho : openScope s kind t = .ok inner t') :
    t'.WellFormed ∧ t.Grows t' ∧ inner = ⟨t.scopes.size⟩ ∧
      t'.scope inner = { parent := some s, kind } ∧ t'.scopes.size = t.scopes.size + 1 ∧
      ∀ u : ScopeId, u ≠ inner → t'.scope u = t.scope u := by
  obtain ⟨rfl, rfl⟩ := EStateM.Result.ok.inj ho
  exact ⟨h.opened hs kind, grows_opened t s kind, rfl, scope_opened_new t s kind,
    size_opened t s kind, fun _ hu => scope_opened_of_ne hu⟩

/-! ### Declarations -/

/-- The table after a declaration. -/
def declared (t : ScopeTable) (s : ScopeId) (symbol : Symbol) : ScopeTable :=
  (t.modifyScope (t.functionScope s) fun d => { d with slots := t.slotCount s + 1 }).modifyScope s
    fun d => { d with names := d.names.insert symbol.name symbol }

theorem declare_eq (t : ScopeTable) (s : ScopeId) (name : String) (constant : Bool) :
    declare s name constant t =
      if (t.scope s).names.contains name then .error (.duplicateDeclaration name) t
      else if slotLimit ≤ t.slotCount s then .error .tooManySymbols t
      else .ok ⟨name, (t.slotCount s).toUInt16, constant⟩
        (t.declared s ⟨name, (t.slotCount s).toUInt16, constant⟩) := by
  unfold declare
  show (if (t.scope s).names.contains name then _ else _ : Scoped Symbol) t = _
  split
  · rfl
  · show (if slotLimit ≤ t.slotCount s then _ else _ : Scoped Symbol) t = _
    split <;> rfl

theorem scope_declared (h : t.IsTree) (hs : s.index < t.scopes.size) (symbol : Symbol)
    (u : ScopeId) : (t.declared s symbol).scope u =
      { t.scope u with
        slots := if u = t.functionScope s then t.slotCount s + 1 else (t.scope u).slots
        names := if u = s then (t.scope u).names.insert symbol.name symbol
          else (t.scope u).names } := by
  obtain ⟨hlt, -⟩ := functionScope_lt h s hs
  unfold declared
  rw [scope_modifyScope _ (by rwa [size_modifyScope]), scope_modifyScope _ hlt,
    scope_modifyScope _ hlt]
  by_cases ho : u = t.functionScope s
  · rw [if_pos ho, if_pos ho]
    by_cases hu : u = s
    · rw [if_pos hu, if_pos hu, if_pos (hu.symm.trans ho), ← ho]
    · rw [if_neg hu, if_neg hu, ← ho]
  · rw [if_neg ho, if_neg ho]
    by_cases hu : u = s
    · rw [if_pos hu, if_pos hu, if_neg fun he => ho (hu.trans he), hu]
    · rw [if_neg hu, if_neg hu]

@[simp]
theorem size_declared (t : ScopeTable) (s : ScopeId) (symbol : Symbol) :
    (t.declared s symbol).scopes.size = t.scopes.size := by
  rw [declared, size_modifyScope, size_modifyScope]

/-- A name that was not declared in its scope takes nothing away. -/
theorem grows_declared (h : t.IsTree) (hs : s.index < t.scopes.size) {symbol : Symbol}
    (hnone : t.get? s symbol.name = none) : t.Grows (t.declared s symbol) := by
  refine ⟨Nat.le_of_eq (size_declared ..).symm, fun u _ => ?_, rfl, rfl⟩
  rw [scope_declared h hs]
  refine ⟨rfl, rfl, fun other known hn => ?_, ?_, List.prefix_rfl, fun _ _ h => h⟩
  · by_cases hu : u = s
    · simp only [if_pos hu, Std.HashMap.getElem?_insert]
      split
      · rename_i he
        rw [hu, ← eq_of_beq he] at hn
        exact absurd hn (by rw [show (t.scope s).names[symbol.name]? = none from hnone]; simp)
      · exact hn
    · rw [if_neg hu]
      exact hn
  · by_cases ho : u = t.functionScope s
    · simp only [if_pos ho]
      rw [ho]
      exact Nat.le_succ _
    · simp only [if_neg ho]
      exact Nat.le_refl _

theorem IsTree.declared (h : t.IsTree) (hs : s.index < t.scopes.size) (symbol : Symbol) :
    (t.declared s symbol).IsTree :=
  h.congr (size_declared t s symbol) (fun u => by rw [scope_declared h hs])
    fun u => by rw [scope_declared h hs]

/-- The function around the scope has one slot more. -/
theorem slotCount_declared (h : t.IsTree) (hs : s.index < t.scopes.size) {symbol : Symbol}
    (hnone : t.get? s symbol.name = none) :
    (t.declared s symbol).slotCount s = t.slotCount s + 1 := by
  show ((t.declared s symbol).scope ((t.declared s symbol).functionScope s)).slots = _
  rw [(grows_declared h hs hnone).functionScope h (h.declared hs symbol) s hs, scope_declared h hs]
  simp only [if_true]

theorem WellFormed.declared (h : t.WellFormed) (hs : s.index < t.scopes.size) {symbol : Symbol}
    (hnone : t.get? s symbol.name = none) (hroom : t.slotCount s < slotLimit)
    (hindex : symbol.index = (t.slotCount s).toUInt16) : (t.declared s symbol).WellFormed := by
  have hsc := scope_declared h.toIsTree hs symbol
  have htree := h.toIsTree.declared hs symbol
  refine ⟨htree, fun u => ?_, fun u other found hn => ?_, fun u i r hr => ?_,
    fun u other i hi => ?_, h.builtins⟩
  · rw [hsc]
    by_cases ho : u = t.functionScope s
    · simp only [if_pos ho]
      omega
    · simp only [if_neg ho]
      exact h.slots_le u
  · have hold (hn : (t.scope u).names[other]? = some found) : found.name = other ∧
        found.index.toNat < (t.declared s symbol).slotCount u := by
      obtain ⟨he, hlt⟩ := h.names u other found hn
      have hle := (grows_declared h.toIsTree hs hnone).slotCount h.toIsTree htree (lt_of_name hn)
      exact ⟨he, Nat.lt_of_lt_of_le hlt hle⟩
    rw [hsc] at hn
    by_cases hu : u = s
    · simp only [if_pos hu, Std.HashMap.getElem?_insert] at hn
      split at hn
      · -- the new symbol has the slot behind all others
        rename_i he
        obtain rfl := Option.some.inj hn
        refine ⟨eq_of_beq he, ?_⟩
        rw [hu, slotCount_declared h.toIsTree hs hnone, hindex]
        show (t.slotCount s) % 65536 < _
        omega
      · exact hold hn
    · simp only [if_neg hu] at hn
      exact hold hn
  · rw [hsc] at hr ⊢
    exact h.free u i r hr
  · rw [hsc] at hi ⊢
    exact h.freeIndex u other i hi

/-- **A declaration** takes the next slot of the function around its scope. -/
theorem declare_spec {name : String} {constant : Bool} {symbol : Symbol} (h : t.WellFormed)
    (hs : s.index < t.scopes.size) (hd : declare s name constant t = .ok symbol t') :
    t'.WellFormed ∧ t.Grows t' ∧ symbol = ⟨name, (t.slotCount s).toUInt16, constant⟩ ∧
      t.slotCount s < slotLimit ∧ t.get? s name = none ∧ t' = t.declared s symbol := by
  rw [declare_eq] at hd
  split at hd
  · cases hd
  rename_i hnew
  split at hd
  · cases hd
  rename_i hroom
  obtain ⟨rfl, rfl⟩ := EStateM.Result.ok.inj hd
  have hnone : t.get? s name = none := by
    have := Std.HashMap.contains_eq_isSome_getElem? (m := (t.scope s).names) (a := name)
    rw [Bool.not_eq_true, this] at hnew
    simpa [get?] using hnew
  have hlt := Nat.lt_of_not_le hroom
  exact ⟨h.declared hs hnone hlt rfl, grows_declared h.toIsTree hs hnone, rfl, hlt, hnone, rfl⟩

/-- A declaration that fails changes nothing. -/
theorem declare_error {name : String} {constant : Bool} {e : CompileError}
    (hd : declare s name constant t = .error e t') : t' = t := by
  rw [declare_eq] at hd
  split at hd
  · exact (EStateM.Result.error.inj hd).2.symm
  · split at hd
    · exact (EStateM.Result.error.inj hd).2.symm
    · cases hd

/-! ### Lookup -/

/-- **An answer in range**: its index is one of the slots, free variables or builtins that are known
when the answer is used in scope `s`. -/
def InRange (t : ScopeTable) (s : ScopeId) (r : Resolution) : Prop :=
  match r.storage with
  | .global => r.symbol.index.toNat < t.slotCount root
  | .local => t.isGlobal s = false ∧ r.symbol.index.toNat < t.slotCount s
  | .free => t.isGlobal s = false ∧ r.freeIndex.toNat < (t.freeVars (t.functionScope s)).size
  | .builtin => r.symbol.index.toNat < t.builtins.size

theorem InRange.grows {r : Resolution} (hr : t.InRange s r) (g : t.Grows t') (h : t.IsTree)
    (h' : t'.IsTree) (hs : s.index < t.scopes.size) : t'.InRange s r := by
  unfold InRange at hr ⊢
  cases hst : r.storage <;> simp only [hst] at hr ⊢
  · exact Nat.lt_of_lt_of_le hr (g.slotCount h h' h.nonempty)
  · exact ⟨(g.isGlobal h h' hs).trans hr.1, Nat.lt_of_lt_of_le hr.2 (g.slotCount h h' hs)⟩
  · rw [g.functionScope h h' s hs]
    exact ⟨(g.isGlobal h h' hs).trans hr.1,
      Nat.lt_of_lt_of_le hr.2 (g.free_size (functionScope_lt h s hs).1)⟩
  · rw [g.builtins]
    exact hr

/-- What is in range for a scope is in range for a block in it. -/
theorem InRange.block {r : Resolution} {p : ScopeId} (h : t.IsTree)
    (hk : (t.scope s).kind = .block) (hp : (t.scope s).parent = some p) (hr : t.InRange p r) :
    t.InRange s r := by
  have hf := functionScope_of_block h hk hp
  unfold InRange slotCount isGlobal at hr ⊢
  rwa [hf]

/-- The table after a capture. -/
def captured (t : ScopeTable) (s : ScopeId) (name : String) (found : Resolution) : ScopeTable :=
  t.modifyScope s fun d =>
    { d with free := d.free.push found, freeIndex := d.freeIndex.insert name d.free.size }

theorem capture_eq (t : ScopeTable) (s : ScopeId) (name : String) (outer : Resolution)
    (hs : s.index < t.scopes.size) :
    capture s name outer t =
      if wordCount ≤ (t.scope s).free.size then .error .tooManySymbols t
      else .ok ⟨outer.symbol, .free, outer.depth + 1, (t.scope s).free.size.toUInt16⟩
        (t.captured s name
          ⟨outer.symbol, .free, outer.depth + 1, (t.scope s).free.size.toUInt16⟩) := by
  unfold capture captured
  show (if wordCount ≤ (t.scope s).free.size then _ else _ : Scoped Resolution) t = _
  split
  · rfl
  · refine congrArg (EStateM.Result.ok _) ?_
    unfold modifyScope
    refine congrArg (fun scopes => { t with scopes }) ?_
    refine Array.ext (by simp) fun i h₁ h₂ => ?_
    simp only [Array.getElem_modify]
    by_cases hi : s.index = i
    · subst hi
      have : t.scopes[s.index] = t.scope s := by
        simp [scope, Array.getD_eq_getD_getElem?, hs]
      simp only [if_true, this]
    · simp only [if_neg hi]

/-- What becomes of an answer on the way inward through a scope. -/
def inward (kind : ScopeKind) (s : ScopeId) (name : String) :
    Option Resolution → Scoped (Option Resolution)
  | none => return none
  | some outer =>
    if kind = .block ∨ outer.storage = .global ∨ outer.storage = .builtin then return some outer
    else return some (← capture s name outer)

theorem resolveWithin_known {name : String} {found : Resolution} (n : Nat)
    (hk : t.known? s name = some found) :
    resolveWithin name (n + 1) s t = .ok (some found) t := by
  unfold resolveWithin
  rw [get_bind, hk]
  rfl

theorem resolveWithin_root {name : String} (n : Nat) (hk : t.known? s name = none)
    (hp : (t.scope s).parent = none) :
    resolveWithin name (n + 1) s t = .ok (t.resolveBuiltin name) t := by
  unfold resolveWithin
  rw [get_bind, hk]
  dsimp only
  rw [hp]
  rfl

theorem resolveWithin_parent {name : String} {p : ScopeId} (n : Nat) (hk : t.known? s name = none)
    (hp : (t.scope s).parent = some p) :
    resolveWithin name (n + 1) s t =
      (resolveWithin name n p >>= inward (t.scope s).kind s name) t := by
  conv => lhs; unfold resolveWithin
  rw [get_bind, hk]
  dsimp only
  rw [hp]
  show (resolveWithin name n p >>= _) t = _
  refine congrFun (congrArg (resolveWithin name n p >>= ·) (funext fun o => ?_)) t
  cases o <;> rfl

theorem scope_captured (hs : s.index < t.scopes.size) (name : String) (found : Resolution)
    (u : ScopeId) : (t.captured s name found).scope u =
      { t.scope u with
        free := if u = s then (t.scope u).free.push found else (t.scope u).free
        freeIndex := if u = s then (t.scope u).freeIndex.insert name (t.scope u).free.size
          else (t.scope u).freeIndex } := by
  unfold captured
  rw [scope_modifyScope _ hs]
  by_cases hu : u = s
  · rw [if_pos hu, if_pos hu, if_pos hu, hu]
  · rw [if_neg hu, if_neg hu, if_neg hu]

/-- A variable that was not recorded takes no place away. -/
theorem grows_captured (hs : s.index < t.scopes.size) {name : String} (found : Resolution)
    (hnew : (t.scope s).freeIndex[name]? = none) : t.Grows (t.captured s name found) := by
  refine .modifyScope _ hs ⟨rfl, rfl, fun _ _ h => h, Nat.le_refl _, by simp, ?_⟩
  intro other i hother
  simp only [Std.HashMap.getElem?_insert]
  split
  · rename_i he
    rw [← eq_of_beq he, hnew] at hother
    cases hother
  · exact hother

theorem IsTree.captured (h : t.IsTree) (hs : s.index < t.scopes.size) (name : String)
    (found : Resolution) : (t.captured s name found).IsTree :=
  h.congr (size_modifyScope _) (fun u => by rw [scope_captured hs])
    fun u => by rw [scope_captured hs]

/-- A capture keeps the table well-formed. -/
theorem captured_spec {name : String} {found : Resolution} (h : t.WellFormed)
    (hs : s.index < t.scopes.size) (hk : (t.scope s).kind = .function)
    (hp : (t.scope s).parent.isSome) (hst : found.storage = .free)
    (hi : found.freeIndex.toNat = (t.scope s).free.size) (hn : found.symbol.name = name)
    (hnew : (t.scope s).freeIndex[name]? = none) :
    (t.captured s name found).WellFormed ∧ t.Grows (t.captured s name found) := by
  have hsc := scope_captured hs name found
  have htree := h.toIsTree.captured hs name found
  have hgrows := grows_captured hs found hnew
  refine ⟨⟨htree, fun u => ?_, fun u other symbol hu => ?_, fun u i r hr => ?_,
    fun u other i hi' => ?_, h.builtins⟩, hgrows⟩
  · rw [hsc]
    exact h.slots_le u
  · rw [hsc] at hu
    obtain ⟨he, hlt⟩ := h.names u other symbol hu
    exact ⟨he, Nat.lt_of_lt_of_le hlt (hgrows.slotCount h.toIsTree htree (lt_of_name hu))⟩
  · rw [hsc] at hr ⊢
    by_cases hu : u = s
    · simp only [if_pos hu, Array.getElem?_push] at hr
      split at hr
      · -- the new record stands behind the others
        rename_i he
        obtain rfl := Option.some.inj hr
        subst hu
        exact ⟨hst, hi.trans he.symm, hk, hp⟩
      · exact h.free u i r hr
    · simp only [if_neg hu] at hr
      exact h.free u i r hr
  · rw [hsc] at hi' ⊢
    by_cases hu : u = s
    · simp only [if_pos hu, Std.HashMap.getElem?_insert] at hi' ⊢
      split at hi'
      · rename_i he
        obtain rfl := Option.some.inj hi'
        exact ⟨found, by simp, hn.trans (eq_of_beq he)⟩
      · obtain ⟨r, hr, hname⟩ := h.freeIndex u other i hi'
        refine ⟨r, ?_, hname⟩
        have hlt := (Array.getElem?_eq_some_iff.mp hr).1
        rw [Array.getElem?_push, if_neg (by omega)]
        exact hr
    · simp only [if_neg hu] at hi' ⊢
      exact h.freeIndex u other i hi'

theorem isGlobal_of_function (hk : (t.scope s).kind = .function) :
    t.isGlobal s = (t.scope s).parent.isNone := by
  unfold isGlobal
  rw [functionScope_of_function hk]

/-- What a scope itself knows is in range. -/
theorem known?_inRange {name : String} {r : Resolution} (h : t.WellFormed)
    (hs : s.index < t.scopes.size) (hk : t.known? s name = some r) :
    t.InRange s r ∧ r.symbol.name = name := by
  unfold known? at hk
  cases hg : t.get? s name with
  | some symbol =>
    simp only [hg] at hk
    obtain rfl := Option.some.inj hk
    obtain ⟨he, hlt⟩ := h.names s name symbol hg
    refine ⟨?_, he⟩
    unfold InRange
    cases hglob : t.isGlobal s with
    | true =>
      simp only [if_true]
      rwa [slotCount, functionScope_of_isGlobal h.toIsTree hs hglob,
        ← functionScope_root h.toIsTree] at hlt
    | false => exact ⟨rfl, hlt⟩
  | none =>
    simp only [hg] at hk
    obtain ⟨i, hi, hr⟩ := Option.bind_eq_some_iff.mp hk
    obtain ⟨r', hr', hname⟩ := h.freeIndex s name i hi
    obtain rfl : r' = r := Option.some.inj (hr'.symm.trans hr)
    obtain ⟨hst, hidx, hfun, hpar⟩ := h.free s i r' hr
    refine ⟨?_, hname⟩
    unfold InRange
    simp only [hst]
    rw [isGlobal_of_function hfun, functionScope_of_function hfun, hidx]
    refine ⟨?_, (Array.getElem?_eq_some_iff.mp hr).1⟩
    obtain ⟨p, hp⟩ := Option.isSome_iff_exists.mp hpar
    rw [hp]
    rfl

/-- A name of which a scope knows nothing is none of its free variables. -/
theorem freeIndex_of_known?_eq_none {name : String} (h : t.WellFormed)
    (hk : t.known? s name = none) : (t.scope s).freeIndex[name]? = none := by
  unfold known? at hk
  cases hg : t.get? s name with
  | some symbol =>
    rw [hg] at hk
    cases hk
  | none =>
    simp only [hg] at hk
    cases hi : (t.scope s).freeIndex[name]? with
    | none => rfl
    | some i =>
      obtain ⟨r, hr, -⟩ := h.freeIndex s name i hi
      rw [hi, Option.bind_some, hr] at hk
      cases hk

theorem resolveBuiltin_inRange {name : String} {r : Resolution} (h : t.WellFormed)
    (hr : t.resolveBuiltin name = some r) : t.InRange s r ∧ r.symbol.name = name := by
  unfold resolveBuiltin at hr
  obtain ⟨w, hw, rfl⟩ := Option.map_eq_some_iff.mp hr
  exact ⟨h.builtins name w hw, rfl⟩

/-- A free variable of a function is known there afterwards. -/
theorem inward_spec {name : String} {outer : Resolution} (h : t.WellFormed)
    (hs : s.index < t.scopes.size) {p : ScopeId} (hp : (t.scope s).parent = some p)
    (hin : t.InRange p outer) (hname : outer.symbol.name = name)
    (hnew : (t.scope s).freeIndex[name]? = none) :
    (∀ e t', inward (t.scope s).kind s name (some outer) t = .error e t' → t' = t) ∧
    (∀ o t', inward (t.scope s).kind s name (some outer) t = .ok o t' → t'.WellFormed ∧
      t.Grows t' ∧ (∀ u : ScopeId, u ≠ s → t'.scope u = t.scope u) ∧
      ∃ r, o = some r ∧ t'.InRange s r ∧ r.symbol.name = name) := by
  unfold inward
  by_cases hdirect : (t.scope s).kind = .block ∨ outer.storage = .global ∨ outer.storage = .builtin
  · simp only [if_pos hdirect, pure_ne_error, pure_eq_ok]
    refine ⟨by simp, ?_⟩
    rintro o t' ⟨rfl, rfl⟩
    refine ⟨h, .refl t, fun _ _ => rfl, outer, rfl, ?_, hname⟩
    rcases hdirect with hb | hglob | hbuiltin
    · exact hin.block h.toIsTree hb hp
    · unfold InRange at hin ⊢
      simp only [hglob] at hin ⊢
      exact hin
    · unfold InRange at hin ⊢
      simp only [hbuiltin] at hin ⊢
      exact hin
  · simp only [if_neg hdirect, bind_eq_error, bind_eq_ok, pure_ne_error, pure_eq_ok, and_false,
      exists_false, or_false]
    rw [not_or] at hdirect
    have hfun : (t.scope s).kind = .function := by
      cases hkind : (t.scope s).kind with
      | function => rfl
      | block => exact absurd hkind hdirect.1
    have hpar : (t.scope s).parent.isSome := by
      rw [hp]
      rfl
    rw [capture_eq _ _ _ _ hs]
    split
    · refine ⟨?_, ?_⟩
      · rintro e t' ⟨⟩
        rfl
      · rintro o t' ⟨_, _, ⟨⟩, _⟩
    · rename_i hroom
      refine ⟨?_, ?_⟩
      · rintro e t' ⟨⟩
      rintro o t' ⟨_, _, ⟨⟩, rfl, rfl⟩
      have hidx : ((t.scope s).free.size.toUInt16).toNat = (t.scope s).free.size := by
        show (t.scope s).free.size % 65536 = _
        unfold wordCount at hroom
        omega
      let found : Resolution :=
        ⟨outer.symbol, .free, outer.depth + 1, (t.scope s).free.size.toUInt16⟩
      have hstorage : found.storage = .free := rfl
      obtain ⟨h₂, g₂⟩ := captured_spec h hs hfun hpar hstorage hidx hname hnew
      refine ⟨h₂, g₂, fun u hu => ?_, _, rfl, ?_, hname⟩
      · unfold captured
        rw [scope_modifyScope _ hs, if_neg hu]
      have hfun₂ := (g₂.scope s hs).kind.trans hfun
      unfold InRange
      simp only
      rw [isGlobal_of_function hfun₂, functionScope_of_function hfun₂, hidx,
        (g₂.scope s hs).parent, hp]
      refine ⟨rfl, ?_⟩
      unfold freeVars captured
      rw [scope_modifyScope _ hs, if_pos rfl, Array.size_push]
      exact Nat.lt_succ_self _

/-- **Lookups** keep the table well-formed, also when they fail, and what they answer is in range.
Scopes further inside stay as they are. -/
theorem resolveWithin_spec (name : String) : ∀ (n : Nat) (s : ScopeId) {t : ScopeTable},
    t.WellFormed → s.index < t.scopes.size → s.index < n →
      (∀ e t', resolveWithin name n s t = .error e t' → t'.WellFormed ∧ t.Grows t') ∧
      (∀ o t', resolveWithin name n s t = .ok o t' → t'.WellFormed ∧ t.Grows t' ∧
        (∀ u : ScopeId, s.index < u.index → t'.scope u = t.scope u) ∧
        ∀ r, o = some r → t'.InRange s r ∧ r.symbol.name = name)
  | 0, _, _, _, _, hn => absurd hn (Nat.not_lt_zero _)
  | n + 1, s, t, h, hs, hn => by
    cases hk : t.known? s name with
    | some found =>
      rw [resolveWithin_known n hk]
      refine ⟨by simp, ?_⟩
      rintro o t' ⟨⟩
      refine ⟨h, .refl t, fun _ _ => rfl, ?_⟩
      rintro r ⟨⟩
      exact known?_inRange h hs hk
    | none =>
      cases hp : (t.scope s).parent with
      | none =>
        rw [resolveWithin_root n hk hp]
        refine ⟨by simp, ?_⟩
        rintro o t' ⟨⟩
        exact ⟨h, .refl t, fun _ _ => rfl, fun r hr => resolveBuiltin_inRange h hr⟩
      | some p =>
        rw [resolveWithin_parent n hk hp]
        simp only [bind_eq_error, bind_eq_ok]
        have hlt := h.parent_lt s p hp
        obtain ⟨herr, hok⟩ := resolveWithin_spec name n p h (by omega) (by omega)
        -- the table in which the name was looked up further outside
        have hout : ∀ outer t₁, resolveWithin name n p t = .ok (some outer) t₁ →
            (∀ e t', inward (t.scope s).kind s name (some outer) t₁ = .error e t' → t' = t₁) ∧
            (∀ o t', inward (t.scope s).kind s name (some outer) t₁ = .ok o t' → t'.WellFormed ∧
              t₁.Grows t' ∧ (∀ u : ScopeId, u ≠ s → t'.scope u = t₁.scope u) ∧
              ∃ r, o = some r ∧ t'.InRange s r ∧ r.symbol.name = name) := by
          intro outer t₁ hres
          obtain ⟨h₁, g₁, hsame, hr₁⟩ := hok _ _ hres
          obtain ⟨hin, hname⟩ := hr₁ outer rfl
          have hscope := hsame s hlt
          rw [← hscope] at hp ⊢
          refine inward_spec h₁ (Nat.lt_of_lt_of_le hs g₁.size) hp hin hname ?_
          rw [hscope]
          exact freeIndex_of_known?_eq_none h hk
        refine ⟨?_, ?_⟩
        · rintro e t' (he | ⟨o, t₁, hres, he⟩)
          · exact herr _ _ he
          · cases o with
            | none => exact (pure_ne_error.mp he).elim
            | some outer =>
              obtain ⟨h₁, g₁, -, -⟩ := hok _ _ hres
              rw [(hout outer t₁ hres).1 e t' he]
              exact ⟨h₁, g₁⟩
        · rintro o t' ⟨o₁, t₁, hres, ho⟩
          obtain ⟨h₁, g₁, hsame, -⟩ := hok _ _ hres
          cases o₁ with
          | none =>
            obtain ⟨rfl, rfl⟩ := pure_eq_ok.mp ho
            exact ⟨h₁, g₁, fun u hu => hsame u (by omega), by simp⟩
          | some outer =>
            obtain ⟨h₂, g₂, hsame₂, r, rfl, hr⟩ := (hout outer t₁ hres).2 o t' ho
            refine ⟨h₂, g₁.trans g₂, fun u hu => ?_, ?_⟩
            · rw [hsame₂ u (by rintro rfl; exact Nat.lt_irrefl _ hu), hsame u (by omega)]
            · rintro r' ⟨⟩
              exact hr

/-- **Lookups that succeed.** -/
theorem resolve_spec {name : String} {o : Option Resolution} (h : t.WellFormed)
    (hs : s.index < t.scopes.size) (hr : resolve s name t = .ok o t') :
    t'.WellFormed ∧ t.Grows t' ∧ (∀ u : ScopeId, s.index < u.index → t'.scope u = t.scope u) ∧
      ∀ r, o = some r → t'.InRange s r ∧ r.symbol.name = name :=
  (resolveWithin_spec name (s.index + 1) s h hs (Nat.lt_succ_self _)).2 o t' hr

/-- **Lookups that fail**, for want of room for a free variable. -/
theorem resolve_error {name : String} {e : CompileError} (h : t.WellFormed)
    (hs : s.index < t.scopes.size) (hr : resolve s name t = .error e t') :
    t'.WellFormed ∧ t.Grows t' :=
  (resolveWithin_spec name (s.index + 1) s h hs (Nat.lt_succ_self _)).1 e t' hr

/-! ### Builtins and the first table -/

theorem empty_wellFormed : empty.WellFormed := by
  have hsc : ∀ s : ScopeId, empty.scope s = { parent := none, kind := .function } := by
    intro s
    cases hi : s.index with
    | zero => simp [empty, scope, hi]
    | succ n => exact scope_of_size_le (by simp [empty, hi])
  refine ⟨⟨Nat.zero_lt_one, fun s p hp => ?_, fun s hs hpos => ?_, fun s hk => ?_⟩, fun s => ?_,
    fun s name symbol hn => ?_, fun s i r hr => ?_, fun s name i hi => ?_, fun name w hw => ?_⟩
  · rw [hsc] at hp
    cases hp
  · exact absurd hs (Nat.not_lt_of_le hpos)
  · rw [hsc] at hk
    cases hk
  · rw [hsc]
    exact Nat.zero_le _
  · rw [hsc] at hn
    simp at hn
  · rw [hsc] at hr
    simp at hr
  · rw [hsc] at hi
    simp at hi
  · simp [empty] at hw

theorem addBuiltin_known {name : String} {index : Word} (hk : t.builtinIndex[name]? = some index) :
    addBuiltin name t = .ok index t := by
  unfold addBuiltin
  rw [get_bind, hk]
  rfl

theorem addBuiltin_new {name : String} (hk : t.builtinIndex[name]? = none) :
    addBuiltin name t =
      if wordCount ≤ t.builtins.size then .error .tooManySymbols t
      else .ok t.builtins.size.toUInt16
        { t with
          builtins := t.builtins.push name
          builtinIndex := t.builtinIndex.insert name t.builtins.size.toUInt16 } := by
  unfold addBuiltin
  rw [get_bind, hk]
  dsimp only
  split
  · rfl
  · rfl

/-- **A builtin** keeps its number, and a new one is a new entry. -/
theorem addBuiltin_spec (name : String) (h : t.WellFormed) :
    (∀ e t', addBuiltin name t = .error e t' → t' = t) ∧
    (∀ w t', addBuiltin name t = .ok w t' →
      t'.WellFormed ∧ t'.scopes = t.scopes ∧ t.builtins.size ≤ t'.builtins.size) := by
  cases hk : t.builtinIndex[name]? with
  | some index =>
    rw [addBuiltin_known hk]
    refine ⟨by simp, ?_⟩
    rintro w t' ⟨⟩
    exact ⟨h, rfl, Nat.le_refl _⟩
  | none =>
    rw [addBuiltin_new hk]
    split
    · refine ⟨?_, by simp⟩
      rintro e t' ⟨⟩
      rfl
    · rename_i hroom
      refine ⟨by simp, ?_⟩
      rintro w t' ⟨⟩
      have ht := h.toIsTree
      have ht' : IsTree { t with
          builtins := t.builtins.push name
          builtinIndex := t.builtinIndex.insert name t.builtins.size.toUInt16 } :=
        ⟨ht.nonempty, ht.parent_lt, ht.parent_some, ht.block⟩
      refine ⟨⟨ht', h.slots_le, fun u other symbol hu => ?_, h.free, h.freeIndex,
        fun other w hw => ?_⟩, rfl, by simp⟩
      · obtain ⟨he, hlt⟩ := h.names u other symbol hu
        have hs : ScopeTable.slotCount { t with
            builtins := t.builtins.push name
            builtinIndex := t.builtinIndex.insert name t.builtins.size.toUInt16 } u =
            t.slotCount u := by
          refine slotCount_congr ?_ u
          rfl
        exact ⟨he, Nat.lt_of_lt_of_eq hlt hs.symm⟩
      · simp only [Std.HashMap.getElem?_insert, Array.size_push] at hw ⊢
        split at hw
        · obtain rfl := Option.some.inj hw
          show t.builtins.size % 65536 < _
          omega
        · exact Nat.lt_succ_of_lt (h.builtins other w hw)

end ScopeTable

end ScriptEngine
