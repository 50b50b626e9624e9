import ScriptEngine.Proofs.Scope.Steps

/-!
# Tables that differ out of sight

Two tables that started differently look the same to whoever only sees the outermost scope, the
scopes opened since then and names that are not hidden: their scopes have other numbers and their
new globals other slots, and that is all. Every step on scopes keeps it that way.

## Main definitions

* `ScriptEngine.Shift`: where the new scopes and the new globals begin on either side;
* `ScriptEngine.Shift.Tables`: two tables that differ by a shift.

## Main results

* `ScriptEngine.Shift.Tables.declare`, `ScriptEngine.Shift.Tables.resolve`,
  `ScriptEngine.Shift.Tables.enter`: steps on such tables run in lockstep.
-/

namespace ScriptEngine

open ScopeTable

/-- The slots for globals are all taken. -/
def ScopeTable.IsFull (t : ScopeTable) : Prop :=
  slotLimit ≤ t.slotCount root

/-- **A shift**: the numbers of scopes and of global slots with which either side started, and the
names that were declared on the second side only. -/
structure Shift where
  scopes : Nat
  scopes' : Nat
  slots : Nat
  slots' : Nat
  hidden : String → Prop := fun _ => False
  scopes_pos : 0 < scopes
  scopes_pos' : 0 < scopes'
  slots_le : slots ≤ slots'

namespace Shift

variable (θ : Shift)

/-- The scopes that can be seen: the outermost one and the new ones. -/
def Visible (s : ScopeId) : Prop :=
  s = root ∨ θ.scopes ≤ s.index

/-- The scope on the second side. -/
def scope (s : ScopeId) : ScopeId :=
  if s = root then root else ⟨s.index - θ.scopes + θ.scopes'⟩

/-- The slot of a global on the second side. Old globals keep theirs. -/
def slot (w : Word) : Word :=
  if w.toNat < θ.slots then w else (w.toNat - θ.slots + θ.slots').toUInt16

/-- The declaration of a name on the second side. -/
def symbol (isGlobal : Bool) (symbol : Symbol) : Symbol :=
  if isGlobal then { symbol with index := θ.slot symbol.index } else symbol

/-- What a name refers to on the second side. -/
def resolution (r : Resolution) : Resolution :=
  if r.storage = .global then { r with symbol := θ.symbol true r.symbol } else r

/-- The end of a step that found no slot for a global, where the other side has slots left. -/
def Exhausted (e : CompileError) (t : ScopeTable) : Prop :=
  e = .tooManySymbols ∧ t.IsFull ∧ θ.slots < θ.slots'

/-- **A new scope on both sides.** -/
structure Scopes (d d' : ScopeData) : Prop where
  kind : d'.kind = d.kind
  parent : d'.parent = d.parent.map θ.scope
  visible : ∀ p, d.parent = some p → θ.Visible p
  slots : d'.slots = d.slots
  free : d'.free = d.free
  freeIndex : d'.freeIndex = d.freeIndex
  shown : ∀ r ∈ d.free, ¬ θ.hidden r.symbol.name

/-- The same declarations of names that are not hidden. -/
def Names (isGlobal : Bool) (d d' : ScopeData) : Prop :=
  ∀ name, ¬ θ.hidden name → d'.names[name]? = d.names[name]?.map (θ.symbol isGlobal)

/-- **Two tables that differ by a shift.** -/
structure Tables (t t' : ScopeTable) : Prop where
  left : t.WellFormed
  right : t'.WellFormed
  origin : θ.scopes ≤ t.scopes.size
  size : t'.scopes.size + θ.scopes = t.scopes.size + θ.scopes'
  builtinIndex : t'.builtinIndex = t.builtinIndex
  slots_le : θ.slots ≤ (t.scope root).slots
  slots : (t'.scope root).slots + θ.slots = (t.scope root).slots + θ.slots'
  scopes : ∀ s : ScopeId, θ.scopes ≤ s.index → s.index < t.scopes.size →
    θ.Scopes (t.scope s) (t'.scope (θ.scope s))
  names : ∀ s : ScopeId, θ.Visible s → s.index < t.scopes.size →
    θ.Names (t.isGlobal s) (t.scope s) (t'.scope (θ.scope s))

variable {θ}

theorem visible_root : θ.Visible root :=
  .inl rfl

@[simp] theorem scope_root : θ.scope root = root :=
  if_pos rfl

theorem ne_root {s : ScopeId} (h : θ.scopes ≤ s.index) : s ≠ root := by
  rintro rfl
  exact absurd h (Nat.not_le_of_lt θ.scopes_pos)

theorem index_scope {s : ScopeId} (h : θ.scopes ≤ s.index) :
    (θ.scope s).index = s.index - θ.scopes + θ.scopes' := by
  unfold scope
  rw [if_neg (ne_root h)]

theorem scope_ne_root {s : ScopeId} (h : θ.scopes ≤ s.index) : θ.scope s ≠ root := by
  intro he
  have := index_scope h
  rw [he] at this
  have := θ.scopes_pos'
  simp only [root] at *
  omega

/-- Scopes that can be seen are told apart on the second side. -/
theorem scope_inj {s u : ScopeId} (hs : θ.Visible s) (hu : θ.Visible u) :
    θ.scope s = θ.scope u ↔ s = u := by
  constructor
  · intro h
    rcases hs with rfl | hs
    · rcases hu with rfl | hu
      · rfl
      · exact absurd h.symm (scope_root (θ := θ) ▸ scope_ne_root hu)
    · rcases hu with rfl | hu
      · exact absurd h (scope_root (θ := θ) ▸ scope_ne_root hs)
      · have hi := congrArg ScopeId.index h
        rw [index_scope hs, index_scope hu] at hi
        have : s.index = u.index := by omega
        cases s
        cases u
        exact congrArg ScopeId.mk this
  · rintro rfl
    rfl

@[simp] theorem symbol_name (isGlobal : Bool) (symbol : Symbol) :
    (θ.symbol isGlobal symbol).name = symbol.name := by
  unfold Shift.symbol
  split <;> rfl

@[simp] theorem symbol_constant (isGlobal : Bool) (symbol : Symbol) :
    (θ.symbol isGlobal symbol).constant = symbol.constant := by
  unfold Shift.symbol
  split <;> rfl

@[simp] theorem resolution_storage (r : Resolution) : (θ.resolution r).storage = r.storage := by
  unfold resolution
  split <;> rfl

@[simp] theorem resolution_name (r : Resolution) :
    (θ.resolution r).symbol.name = r.symbol.name := by
  unfold resolution
  split
  · exact symbol_name ..
  · rfl

@[simp] theorem resolution_constant (r : Resolution) :
    (θ.resolution r).symbol.constant = r.symbol.constant := by
  unfold resolution
  split
  · exact symbol_constant ..
  · rfl

theorem resolution_of_ne {r : Resolution} (h : r.storage ≠ .global) : θ.resolution r = r :=
  if_neg h

namespace Tables

variable {t t' : ScopeTable} {s : ScopeId} {name : String}

theorem parent_root (h : t.IsTree) : (t.scope root).parent = none := by
  cases hp : (t.scope root).parent with
  | none => rfl
  | some p => exact absurd (h.parent_lt root p hp) (Nat.not_lt_zero _)

theorem kind_root (h : t.IsTree) : (t.scope root).kind = .function := by
  cases hk : (t.scope root).kind with
  | function => rfl
  | block =>
    have := h.block root hk
    rw [parent_root h] at this
    cases this

theorem slotCount_root (h : t.IsTree) : t.slotCount root = (t.scope root).slots := by
  unfold slotCount
  rw [functionScope_root h]

theorem lt (h : θ.Tables t t') (hv : θ.Visible s) (hs : s.index < t.scopes.size) :
    (θ.scope s).index < t'.scopes.size := by
  have := h.size
  have := h.origin
  rcases hv with rfl | hv
  · rw [scope_root]
    exact h.right.nonempty
  · rw [index_scope hv]
    omega

theorem kind (h : θ.Tables t t') (hv : θ.Visible s) (hs : s.index < t.scopes.size) :
    (t'.scope (θ.scope s)).kind = (t.scope s).kind := by
  rcases hv with rfl | hv
  · rw [scope_root, kind_root h.left.toIsTree, kind_root h.right.toIsTree]
  · exact (h.scopes s hv hs).kind

theorem parent (h : θ.Tables t t') (hv : θ.Visible s) (hs : s.index < t.scopes.size) :
    (t'.scope (θ.scope s)).parent = (t.scope s).parent.map θ.scope := by
  rcases hv with rfl | hv
  · rw [scope_root, parent_root h.left.toIsTree, parent_root h.right.toIsTree]
    rfl
  · exact (h.scopes s hv hs).parent

theorem visible_parent (h : θ.Tables t t') (hv : θ.Visible s) {p : ScopeId}
    (hp : (t.scope s).parent = some p) : θ.Visible p := by
  rcases hv with rfl | hv
  · rw [parent_root h.left.toIsTree] at hp
    cases hp
  · exact (h.scopes s hv (lt_of_parent hp)).visible p hp

theorem functionScope (h : θ.Tables t t') (hv : θ.Visible s) (hs : s.index < t.scopes.size) :
    t'.functionScope (θ.scope s) = θ.scope (t.functionScope s) ∧ θ.Visible (t.functionScope s) := by
  induction s using scope_induction h.left.toIsTree with
  | step s ih =>
    have hkind := h.kind hv hs
    cases hk : (t.scope s).kind with
    | function =>
      rw [functionScope_of_function hk, functionScope_of_function (hkind.trans hk)]
      exact ⟨rfl, hv⟩
    | block =>
      obtain ⟨p, hp⟩ := Option.isSome_iff_exists.mp (h.left.block s hk)
      have hp' := h.parent hv hs
      rw [hp] at hp'
      rw [functionScope_of_block h.left.toIsTree hk hp,
        functionScope_of_block h.right.toIsTree (hkind.trans hk) hp']
      exact ih p hp (h.visible_parent hv hp) (Nat.lt_trans (h.left.parent_lt s p hp) hs)

theorem isGlobal (h : θ.Tables t t') (hv : θ.Visible s) (hs : s.index < t.scopes.size) :
    t'.isGlobal (θ.scope s) = t.isGlobal s := by
  obtain ⟨hf, hfv⟩ := h.functionScope hv hs
  unfold ScopeTable.isGlobal
  rw [hf, h.parent hfv (functionScope_lt h.left.toIsTree s hs).1, Option.isNone_map]

/-- The scopes of functions use as many slots on both sides. -/
theorem slotCount (h : θ.Tables t t') (hv : θ.Visible s) (hs : s.index < t.scopes.size)
    (hg : t.isGlobal s = false) : t'.slotCount (θ.scope s) = t.slotCount s := by
  obtain ⟨hf, hfv⟩ := h.functionScope hv hs
  unfold ScopeTable.slotCount
  rw [hf]
  rcases hfv with hr | hfv
  · unfold ScopeTable.isGlobal at hg
    rw [hr, parent_root h.left.toIsTree] at hg
    cases hg
  · exact (h.scopes _ hfv (functionScope_lt h.left.toIsTree s hs).1).slots

theorem slotCount_of_isGlobal (h : θ.Tables t t') (hv : θ.Visible s) (hs : s.index < t.scopes.size)
    (hg : t.isGlobal s = true) : t'.slotCount (θ.scope s) = (t'.scope root).slots ∧
      t.slotCount s = (t.scope root).slots := by
  obtain ⟨hf, -⟩ := h.functionScope hv hs
  have hroot := functionScope_of_isGlobal h.left.toIsTree hs hg
  unfold ScopeTable.slotCount
  rw [hf, hroot, scope_root]
  exact ⟨rfl, rfl⟩

/-! ### Lookups -/

theorem get? (h : θ.Tables t t') (hv : θ.Visible s) (hs : s.index < t.scopes.size)
    (hn : ¬ θ.hidden name) :
    t'.get? (θ.scope s) name = (t.get? s name).map (θ.symbol (t.isGlobal s)) :=
  h.names s hv hs name hn

/-- Nothing is captured by the outermost scope. -/
theorem freeIndex_root (h : t.WellFormed) : (t.scope root).freeIndex[name]? = none := by
  cases hi : (t.scope root).freeIndex[name]? with
  | none => rfl
  | some i =>
    obtain ⟨r, hr, -⟩ := h.freeIndex root name i hi
    obtain ⟨-, -, -, hp⟩ := h.free root i r hr
    rw [parent_root h.toIsTree] at hp
    cases hp

theorem known? (h : θ.Tables t t') (hv : θ.Visible s) (hs : s.index < t.scopes.size)
    (hn : ¬ θ.hidden name) :
    t'.known? (θ.scope s) name = (t.known? s name).map θ.resolution := by
  unfold ScopeTable.known?
  rw [h.get? hv hs hn, h.isGlobal hv hs]
  cases t.get? s name with
  | some symbol =>
    cases t.isGlobal s with
    | true => rfl
    | false => rfl
  | none =>
    rcases hv with rfl | hv
    · rw [scope_root]
      simp only [Option.map_none, freeIndex_root h.left, freeIndex_root h.right, Option.bind_none]
    · have hsc := h.scopes s hv hs
      simp only [Option.map_none, hsc.freeIndex, hsc.free]
      cases hi : (t.scope s).freeIndex[name]? with
      | none => rfl
      | some i =>
        cases hr : (t.scope s).free[i]? with
        | none => simp only [Option.bind_some, hr, Option.map_none]
        | some r =>
          have hst := (h.left.free s i r hr).1
          simp only [Option.bind_some, hr, Option.map_some]
          rw [resolution_of_ne (by rw [hst]; exact Storage.noConfusion)]

/-! ### Steps -/

theorem openScope (h : θ.Tables t t') (hv : θ.Visible s) (hs : s.index < t.scopes.size)
    (kind : ScopeKind) :
    Lockstep (fun inner inner' u u' => θ.Tables u u' ∧ t.scopes.size ≤ u.scopes.size ∧
        inner' = θ.scope inner ∧ θ.Visible inner ∧ inner.index < u.scopes.size)
      (fun _ u u' => θ.Tables u u') θ.Exhausted (openScope s kind t)
      (openScope (θ.scope s) kind t') := by
  obtain ⟨t₁, ho⟩ : ∃ t₁, ScopeTable.openScope s kind t = .ok ⟨t.scopes.size⟩ t₁ := ⟨_, rfl⟩
  obtain ⟨t₁', ho'⟩ : ∃ t₁', ScopeTable.openScope (θ.scope s) kind t' = .ok ⟨t'.scopes.size⟩ t₁' :=
    ⟨_, rfl⟩
  obtain ⟨hw, hg, -, hsc, hsize, hold⟩ := openScope_spec h.left hs ho
  obtain ⟨hw', hg', -, hsc', hsize', hold'⟩ := openScope_spec h.right (h.lt hv hs) ho'
  have hsz := h.size
  have horigin := h.origin
  have hinner : (⟨t'.scopes.size⟩ : ScopeId) = θ.scope ⟨t.scopes.size⟩ := by
    have := index_scope (θ := θ) (s := ⟨t.scopes.size⟩) horigin
    cases hi : θ.scope ⟨t.scopes.size⟩
    rw [hi] at this
    simp only at this
    exact congrArg ScopeId.mk (by omega)
  -- the scopes that were there before are the same
  have old {u : ScopeId} (hu : u.index < t.scopes.size) : t₁.scope u = t.scope u :=
    hold u fun he => by
      rw [he] at hu
      exact Nat.lt_irrefl _ hu
  have old' {u : ScopeId} (hv : θ.Visible u) (hu : u.index < t.scopes.size) :
      t₁'.scope (θ.scope u) = t'.scope (θ.scope u) :=
    hold' _ fun he => by
      have := h.lt hv hu
      rw [he] at this
      exact Nat.lt_irrefl _ this
  have last {u : ScopeId} (hu : u.index < t₁.scopes.size) (hn : ¬ u.index < t.scopes.size) :
      u = ⟨t.scopes.size⟩ := by
    cases u
    exact congrArg ScopeId.mk (by simp only at *; omega)
  have hroot : root.index < t.scopes.size := h.left.nonempty
  rw [ho, ho']
  refine .ok ⟨⟨hw, hw', by omega, by omega, ?_, ?_, ?_, fun u hu hlt => ?_, fun u hu hlt => ?_⟩,
    by omega, hinner, .inr horigin, by rw [hsize]; exact Nat.lt_succ_self _⟩
  · rw [hg'.builtinIndex, hg.builtinIndex]
    exact h.builtinIndex
  · rw [old hroot]
    exact h.slots_le
  · have := old' visible_root hroot
    rw [scope_root] at this
    rw [old hroot, this]
    exact h.slots
  · by_cases hn : u.index < t.scopes.size
    · rw [old hn, old' (.inr hu) hn]
      exact h.scopes u hu hn
    · obtain rfl := last hlt hn
      rw [hsc, ← hinner, hsc']
      refine ⟨rfl, rfl, ?_, rfl, rfl, rfl, fun r hr => absurd hr (Array.not_mem_empty r)⟩
      rintro p ⟨⟩
      exact hv
  · by_cases hn : u.index < t.scopes.size
    · rw [old hn, old' hu hn, hg.isGlobal h.left.toIsTree hw.toIsTree hn]
      exact h.names u hu hn
    · obtain rfl := last hlt hn
      rw [hsc, ← hinner, hsc']
      intro name _
      simp

/-- The slots for globals grow by the same number on both sides. -/
theorem slot_next {L L' : Nat} (hL : L < slotLimit) (hle : θ.slots ≤ L)
    (h : L' + θ.slots = L + θ.slots') : θ.slot L.toUInt16 = L'.toUInt16 := by
  have hword : (L.toUInt16).toNat = L := by
    show L % 65536 = L
    unfold slotLimit at hL
    omega
  unfold slot
  rw [hword, if_neg (Nat.not_lt_of_le hle)]
  congr 1
  omega

theorem functionScope_eq_root (h : t.IsTree) (hs : s.index < t.scopes.size) :
    t.functionScope s = root ↔ t.isGlobal s = true := by
  refine ⟨fun hr => ?_, functionScope_of_isGlobal h hs⟩
  unfold ScopeTable.isGlobal
  rw [hr, parent_root h]
  rfl

/-- **A declaration on both sides.** -/
theorem declared (h : θ.Tables t t') (hv : θ.Visible s) (hs : s.index < t.scopes.size)
    {symbol : Symbol} (hw : (t.declared s symbol).WellFormed)
    (hg : t.Grows (t.declared s symbol))
    (hw' : (t'.declared (θ.scope s) (θ.symbol (t.isGlobal s) symbol)).WellFormed) :
    θ.Tables (t.declared s symbol)
      (t'.declared (θ.scope s) (θ.symbol (t.isGlobal s) symbol)) := by
  have hs' := h.lt hv hs
  obtain ⟨hf, hfv⟩ := h.functionScope hv hs
  have hlt := (functionScope_lt h.left.toIsTree s hs).1
  have hsc := scope_declared h.left.toIsTree hs symbol
  have hsc' := scope_declared h.right.toIsTree hs' (θ.symbol (t.isGlobal s) symbol)
  have hsize : (t.declared s symbol).scopes.size = t.scopes.size := by
    unfold ScopeTable.declared
    rw [size_modifyScope, size_modifyScope]
  have hsize' : (t'.declared (θ.scope s) (θ.symbol (t.isGlobal s) symbol)).scopes.size =
      t'.scopes.size := by
    unfold ScopeTable.declared
    rw [size_modifyScope, size_modifyScope]
  have hroot := functionScope_eq_root h.left.toIsTree hs
  have hslots := h.slots
  have hle := h.slots_le
  refine ⟨hw, hw', by rw [hsize]; exact h.origin, by rw [hsize, hsize']; exact h.size,
    h.builtinIndex, ?_, ?_, fun u hu hlt' => ?_, fun u hu hlt' => ?_⟩
  · exact Nat.le_trans hle (hg.scope root h.left.nonempty).slots
  · rw [hsc root, hsc' root, hf]
    by_cases hr : t.functionScope s = root
    · obtain ⟨h₁, h₂⟩ := h.slotCount_of_isGlobal hv hs (hroot.mp hr)
      simp only [hr, scope_root, if_true, h₁, h₂]
      omega
    · have hr' : root ≠ θ.scope (t.functionScope s) := by
        rw [← scope_root (θ := θ), ne_eq, scope_inj visible_root hfv]
        exact Ne.symm hr
      simp only [if_neg (Ne.symm hr), if_neg hr']
      exact hslots
  · rw [hsize] at hlt'
    have hd := h.scopes u hu hlt'
    rw [hsc u, hsc' (θ.scope u), hf]
    refine ⟨hd.kind, hd.parent, hd.visible, ?_, hd.free, hd.freeIndex, hd.shown⟩
    simp only [scope_inj (.inr hu) hfv]
    by_cases hr : u = t.functionScope s
    · have hglobal : t.isGlobal s = false := by
        rw [Bool.eq_false_iff, ne_eq, ← hroot, ← hr]
        exact ne_root hu
      simp only [if_pos hr, h.slotCount hv hs hglobal]
    · simp only [if_neg hr]
      exact hd.slots
  · rw [hsize] at hlt'
    rw [hg.isGlobal h.left.toIsTree hw.toIsTree hlt', hsc u, hsc' (θ.scope u)]
    intro name hn
    have hold := h.names u hu hlt' name hn
    simp only [scope_inj hu hv]
    by_cases hr : u = s
    · subst hr
      simp only [if_true, Std.HashMap.getElem?_insert, symbol_name]
      split
      · rfl
      · exact hold
    · simp only [if_neg hr]
      exact hold

/-- **A declaration** succeeds on both sides, unless the second one has no slots for globals
left. -/
theorem declare (h : θ.Tables t t') (hv : θ.Visible s) (hs : s.index < t.scopes.size)
    (hn : ¬ θ.hidden name) (constant : Bool) :
    Lockstep (fun a b u u' => θ.Tables u u' ∧ t.scopes.size ≤ u.scopes.size ∧
        b = θ.symbol (t.isGlobal s) a ∧ u.isGlobal s = t.isGlobal s)
      (fun _ u u' => θ.Tables u u') θ.Exhausted (ScopeTable.declare s name constant t)
      (ScopeTable.declare (θ.scope s) name constant t') := by
  have hcontains : (t'.scope (θ.scope s)).names.contains name =
      (t.scope s).names.contains name := by
    rw [Std.HashMap.contains_eq_isSome_getElem?, Std.HashMap.contains_eq_isSome_getElem?,
      h.names s hv hs name hn, Option.isSome_map]
  by_cases hnew : (t.scope s).names.contains name = true
  · rw [declare_eq, declare_eq, if_pos hnew, if_pos (hcontains.trans hnew)]
    exact .error h
  have hnew' : ¬ (t'.scope (θ.scope s)).names.contains name = true := hcontains ▸ hnew
  -- the table after the declaration, on both sides
  have result (hfull : ¬ slotLimit ≤ t.slotCount s)
      (hfull' : ¬ slotLimit ≤ t'.slotCount (θ.scope s))
      (hsym : (⟨name, (t'.slotCount (θ.scope s)).toUInt16, constant⟩ : Symbol) =
        θ.symbol (t.isGlobal s) ⟨name, (t.slotCount s).toUInt16, constant⟩) :
      Lockstep (fun a b u u' => θ.Tables u u' ∧ t.scopes.size ≤ u.scopes.size ∧
          b = θ.symbol (t.isGlobal s) a ∧ u.isGlobal s = t.isGlobal s)
        (fun _ u u' => θ.Tables u u') θ.Exhausted (ScopeTable.declare s name constant t)
        (ScopeTable.declare (θ.scope s) name constant t') := by
    have hd := declare_eq t s name constant
    have hd' := declare_eq t' (θ.scope s) name constant
    rw [if_neg hnew, if_neg hfull] at hd
    rw [if_neg hnew', if_neg hfull'] at hd'
    obtain ⟨hw, hg, -⟩ := declare_spec h.left hs hd
    obtain ⟨hw', -, -⟩ := declare_spec h.right (h.lt hv hs) hd'
    rw [hd, hd']
    rw [hsym] at hw' ⊢
    exact .ok ⟨h.declared hv hs hw hg hw', hg.size, rfl,
      hg.isGlobal h.left.toIsTree hw.toIsTree hs⟩
  cases hglobal : t.isGlobal s with
  | false =>
    rw [hglobal] at result
    have heq := h.slotCount hv hs hglobal
    by_cases hfull : slotLimit ≤ t.slotCount s
    · rw [declare_eq, declare_eq, if_neg hnew, if_neg hnew', if_pos hfull, if_pos (heq ▸ hfull)]
      exact .error h
    · exact result hfull (heq ▸ hfull) (by rw [heq]; rfl)
  | true =>
    rw [hglobal] at result
    obtain ⟨h₁, h₂⟩ := h.slotCount_of_isGlobal hv hs hglobal
    have hslots := h.slots
    have hle := h.slots_le
    have hθ := θ.slots_le
    by_cases hfull' : slotLimit ≤ t'.slotCount (θ.scope s)
    · rw [declare_eq (t := t'), if_neg hnew', if_pos hfull']
      by_cases hfull : slotLimit ≤ t.slotCount s
      · rw [declare_eq, if_neg hnew, if_pos hfull]
        exact .error h
      refine .gaveUp ⟨rfl, ?_, by omega⟩
      rw [h₁] at hfull'
      unfold IsFull
      rwa [slotCount_root h.right.toIsTree]
    · have hfull : ¬ slotLimit ≤ t.slotCount s := by omega
      refine result hfull hfull' ?_
      unfold Shift.symbol
      rw [if_pos rfl]
      simp only [Symbol.mk.injEq, true_and, and_true]
      exact (slot_next (by omega) (by omega) (by omega)).symm

/-- **A captured variable on both sides.** -/
theorem captured (h : θ.Tables t t') (hv : θ.scopes ≤ s.index) (hs : s.index < t.scopes.size)
    {found : Resolution} (hn : ¬ θ.hidden found.symbol.name)
    (hw : (t.captured s name found).WellFormed) (hg : t.Grows (t.captured s name found))
    (hw' : (t'.captured (θ.scope s) name found).WellFormed) :
    θ.Tables (t.captured s name found) (t'.captured (θ.scope s) name found) := by
  have hs' := h.lt (.inr hv) hs
  have hsc (u : ScopeId) := scope_modifyScope (t := t) (fun d =>
    { d with free := d.free.push found, freeIndex := d.freeIndex.insert name d.free.size }) hs u
  have hsc' (u : ScopeId) := scope_modifyScope (t := t') (fun d =>
    { d with free := d.free.push found, freeIndex := d.freeIndex.insert name d.free.size }) hs' u
  have hroot : root ≠ s := Ne.symm (ne_root hv)
  have hroot' : root ≠ θ.scope s := Ne.symm (scope_ne_root hv)
  unfold ScopeTable.captured at hw hg hw' ⊢
  refine ⟨hw, hw', ?_, ?_, h.builtinIndex, ?_, ?_, fun u hu hlt => ?_, fun u hu hlt => ?_⟩
  · rw [size_modifyScope]
    exact h.origin
  · rw [size_modifyScope, size_modifyScope]
    exact h.size
  · rw [hsc root, if_neg hroot]
    exact h.slots_le
  · rw [hsc root, hsc' root, if_neg hroot, if_neg hroot']
    exact h.slots
  · rw [size_modifyScope] at hlt
    have hd := h.scopes u hu hlt
    rw [hsc u, hsc' (θ.scope u)]
    simp only [scope_inj (.inr hu) (.inr hv)]
    by_cases hr : u = s
    · subst hr
      simp only [if_true]
      refine ⟨hd.kind, hd.parent, hd.visible, hd.slots, ?_, ?_, fun r hr => ?_⟩
      · rw [hd.free]
      · rw [hd.free, hd.freeIndex]
      · rcases Array.mem_push.mp hr with hr | rfl
        · exact hd.shown r hr
        · exact hn
    · simp only [if_neg hr]
      exact hd
  · rw [size_modifyScope] at hlt
    rw [hg.isGlobal h.left.toIsTree hw.toIsTree hlt, hsc u, hsc' (θ.scope u)]
    intro other ho
    have hold := h.names u hu hlt other ho
    simp only [scope_inj hu (.inr hv)]
    by_cases hr : u = s
    · subst hr
      simp only [if_true]
      exact hold
    · simp only [if_neg hr]
      exact hold

/-- Crossing a scope on both sides. -/
theorem inward (h : θ.Tables t t') (hv : θ.Visible s) (hs : s.index < t.scopes.size)
    (hn : ¬ θ.hidden name) {p : ScopeId} (hp : (t.scope s).parent = some p)
    (hnew : (t.scope s).freeIndex[name]? = none) {o : Option Resolution}
    (ho : ∀ r, o = some r → r.symbol.name = name) :
    Lockstep (fun a b u u' => θ.Tables u u' ∧ t.scopes.size ≤ u.scopes.size ∧
        b = a.map θ.resolution)
      (fun _ u u' => θ.Tables u u') θ.Exhausted (inward (t.scope s).kind s name o t)
      (inward (t'.scope (θ.scope s)).kind (θ.scope s) name (o.map θ.resolution) t') := by
  have hs' := h.lt hv hs
  have hv : θ.scopes ≤ s.index := hv.resolve_left fun hr => by
    rw [hr, parent_root h.left.toIsTree] at hp
    cases hp
  have hd := h.scopes s hv hs
  cases o with
  | none => exact .ok ⟨h, Nat.le_refl _, rfl⟩
  | some outer =>
    have hname := ho outer rfl
    rw [hd.kind]
    unfold ScopeTable.inward
    simp only [Option.map_some, resolution_storage]
    by_cases hdirect :
        (t.scope s).kind = .block ∨ outer.storage = .global ∨ outer.storage = .builtin
    · rw [if_pos hdirect, if_pos hdirect]
      exact .ok ⟨h, Nat.le_refl _, rfl⟩
    rw [if_neg hdirect, if_neg hdirect]
    rw [not_or, not_or] at hdirect
    have hfun : (t.scope s).kind = .function := by
      cases hkind : (t.scope s).kind with
      | function => rfl
      | block => exact absurd hkind hdirect.1
    rw [resolution_of_ne hdirect.2.1]
    refine Lockstep.bind (S := fun a b u u' => θ.Tables u u' ∧ t.scopes.size ≤ u.scopes.size ∧
      b = a ∧ a.storage = .free) (F := fun _ u u' => θ.Tables u u') ?_ (fun a b u u' hu => ?_)
      fun _ _ _ h => h
    · rw [capture_eq _ _ _ _ hs, capture_eq _ _ _ _ hs', hd.free]
      split
      · exact .error h
      rename_i hroom
      have hidx : ((t.scope s).free.size.toUInt16).toNat = (t.scope s).free.size := by
        show (t.scope s).free.size % 65536 = _
        unfold wordCount at hroom
        omega
      let found : Resolution :=
        ⟨outer.symbol, .free, outer.depth + 1, (t.scope s).free.size.toUInt16⟩
      have hfree : found.storage = .free := rfl
      obtain ⟨hw, hg⟩ := captured_spec h.left hs hfun (by rw [hp]; rfl) hfree hidx hname hnew
      obtain ⟨hw', -⟩ : (t'.captured (θ.scope s) name found).WellFormed ∧ _ :=
        captured_spec h.right hs' (hd.kind.trans hfun) (by rw [hd.parent, hp]; rfl) hfree
          (by rw [hd.free]; exact hidx) hname (by rw [hd.freeIndex]; exact hnew)
      exact .ok ⟨h.captured hv hs (by rw [hname]; exact hn) hw hg hw', hg.size, rfl, rfl⟩
    · obtain ⟨hu, hsize, rfl, hfree⟩ := hu
      refine .ok ⟨hu, hsize, ?_⟩
      rw [Option.map_some, resolution_of_ne (by rw [hfree]; exact Storage.noConfusion)]

/-- **A lookup** on both sides. -/
theorem resolveWithin (hn : ¬ θ.hidden name) : ∀ (n n' : Nat) {t t' : ScopeTable} {s : ScopeId},
    θ.Tables t t' → θ.Visible s → s.index < t.scopes.size → s.index < n →
    (θ.scope s).index < n' →
      Lockstep (fun a b u u' => θ.Tables u u' ∧ t.scopes.size ≤ u.scopes.size ∧
          b = a.map θ.resolution)
        (fun _ u u' => θ.Tables u u') θ.Exhausted (resolveWithin name n s t)
        (resolveWithin name n' (θ.scope s) t')
  | 0, _, _, _, _, _, _, _, hlt, _ => absurd hlt (Nat.not_lt_zero _)
  | _, 0, _, _, _, _, _, _, _, hlt => absurd hlt (Nat.not_lt_zero _)
  | n + 1, n' + 1, t, t', s, h, hv, hs, hlt, hlt' => by
    have hk' := h.known? hv hs hn
    have hp' := h.parent hv hs
    cases hk : t.known? s name with
    | some found =>
      rw [hk] at hk'
      rw [resolveWithin_known _ hk, resolveWithin_known _ hk']
      exact .ok ⟨h, Nat.le_refl _, rfl⟩
    | none =>
      rw [hk] at hk'
      cases hp : (t.scope s).parent with
      | none =>
        rw [hp] at hp'
        rw [resolveWithin_root _ hk hp, resolveWithin_root _ hk' hp']
        refine .ok ⟨h, Nat.le_refl _, ?_⟩
        unfold resolveBuiltin
        rw [h.builtinIndex, Option.map_map]
        rfl
      | some p =>
        rw [hp] at hp'
        rw [resolveWithin_parent _ hk hp, resolveWithin_parent _ hk' hp']
        have hlp := h.left.parent_lt s p hp
        have hpv := h.visible_parent hv hp
        have hps : p.index < t.scopes.size := Nat.lt_trans hlp hs
        have hlp' := h.right.parent_lt _ _ hp'
        obtain ⟨-, hspec⟩ := resolveWithin_spec name n p h.left hps (by omega)
        refine Lockstep.bind ((resolveWithin hn n n' h hpv hps (by omega) (by omega)).ends)
          (fun o o' u u' hu => ?_) fun _ _ _ h => h
        obtain ⟨⟨hu, hsize, rfl⟩, he, -⟩ := hu
        obtain ⟨-, -, hsame, hname⟩ := hspec o u he
        have hsc : u.scope s = t.scope s := hsame s hlp
        have hs₁ : s.index < u.scopes.size := Nat.lt_of_lt_of_le hs hsize
        have := hu.inward hv hs₁ hn (hsc ▸ hp) (hsc ▸ freeIndex_of_known?_eq_none h.left hk)
          fun r hr => (hname r hr).2
        rw [hu.kind hv hs₁, hsc] at this
        rw [h.kind hv hs]
        exact this.mono (fun _ _ _ _ h => ⟨h.1, Nat.le_trans hsize h.2.1, h.2.2⟩) fun _ _ _ h => h

theorem resolve (h : θ.Tables t t') (hv : θ.Visible s) (hs : s.index < t.scopes.size)
    (hn : ¬ θ.hidden name) :
    Lockstep (fun a b u u' => θ.Tables u u' ∧ t.scopes.size ≤ u.scopes.size ∧
        b = a.map θ.resolution)
      (fun _ u u' => θ.Tables u u') θ.Exhausted (resolve s name t) (resolve (θ.scope s) name t') :=
  resolveWithin hn _ _ h hv hs (Nat.lt_succ_self _) (Nat.lt_succ_self _)

/-! ### Functions -/

/-- Declarations in a row. -/
theorem declareEach {γ : Type} (f : γ → String) (constant : Bool) :
    ∀ (l : List γ) {t t' : ScopeTable},
    θ.Tables t t' → θ.Visible s → s.index < t.scopes.size → (∀ c ∈ l, ¬ θ.hidden (f c)) →
      Lockstep (fun _ _ u u' => θ.Tables u u' ∧ t.scopes.size ≤ u.scopes.size)
        (fun _ u u' => θ.Tables u u') θ.Exhausted
        ((l.forM fun c => do let _ ← ScopeTable.declare s (f c) constant : Scoped PUnit) t)
        ((l.forM fun c => do let _ ← ScopeTable.declare (θ.scope s) (f c) constant : Scoped PUnit)
          t')
  | [], _, _, h, _, _, _ => .ok ⟨h, Nat.le_refl _⟩
  | c :: l, t, t', h, hv, hs, hn => by
    have first := h.declare hv hs (hn c (List.mem_cons_self ..)) constant
    refine Lockstep.bind (S := fun _ _ u u' => θ.Tables u u' ∧ t.scopes.size ≤ u.scopes.size)
      (Lockstep.bind first (fun _ _ _ _ hu => .ok ⟨hu.1, hu.2.1⟩) fun _ _ _ h => h)
      (fun _ _ u u' hu => ?_) fun _ _ _ h => h
    obtain ⟨hu, hsize⟩ := hu
    exact (declareEach f constant l hu hv (Nat.lt_of_lt_of_le hs hsize)
      fun d hd => hn d (List.mem_cons_of_mem _ hd)).mono
      (fun _ _ _ _ h => ⟨h.1, Nat.le_trans hsize h.2⟩) fun _ _ _ h => h

theorem declareSelf (h : θ.Tables t t') (hv : θ.Visible s) (hs : s.index < t.scopes.size)
    {name : Option String} (hn : ∀ n, name = some n → ¬ θ.hidden n) :
    Lockstep (fun _ _ u u' => θ.Tables u u' ∧ t.scopes.size ≤ u.scopes.size)
      (fun _ u u' => θ.Tables u u') θ.Exhausted (Generate.declareSelf s name t)
      (Generate.declareSelf (θ.scope s) name t') := by
  cases name with
  | none => exact .ok ⟨h, Nat.le_refl _⟩
  | some name =>
    have hn := hn name rfl
    unfold Generate.declareSelf
    dsimp only
    rw [get_bind, get_bind, h.get? hv hs hn, Option.isNone_map]
    split
    · exact Lockstep.bind (h.declare hv hs hn true) (fun _ _ _ _ hu => .ok ⟨hu.1, hu.2.1⟩)
        fun _ _ _ h => h
    · exact .ok ⟨h, Nat.le_refl _⟩

/-- **The scope of a function** on both sides. -/
theorem enter (h : θ.Tables t t') (hv : θ.Visible s) (hs : s.index < t.scopes.size) (f : Func)
    (hp : ∀ p ∈ f.params, ¬ θ.hidden p.name) (hf : ∀ n, f.name = some n → ¬ θ.hidden n) :
    Lockstep (fun inner inner' u u' => θ.Tables u u' ∧ t.scopes.size ≤ u.scopes.size ∧
        inner' = θ.scope inner ∧ θ.scopes ≤ inner.index ∧ inner.index < u.scopes.size)
      (fun _ u u' => θ.Tables u u') θ.Exhausted (Generate.enter f s t)
      (Generate.enter f (θ.scope s) t') := by
  refine Lockstep.bind (h.openScope hv hs .function).ends (fun inner inner' u u' hu => ?_)
    fun _ _ _ h => h
  obtain ⟨⟨hu, hsize, rfl, hiv, his⟩, he, -⟩ := hu
  have hinner : θ.scopes ≤ inner.index := by
    obtain ⟨-, -, rfl, -⟩ := openScope_spec h.left hs he
    exact h.origin
  refine Lockstep.bind (declareEach Param.name false f.params hu hiv his hp)
    (fun _ _ v v' hv' => ?_) fun _ _ _ h => h
  obtain ⟨hv', hsize'⟩ := hv'
  refine Lockstep.bind (hv'.declareSelf hiv (Nat.lt_of_lt_of_le his hsize') hf)
    (fun _ _ w w' hw => ?_) fun _ _ _ h => h
  exact .ok ⟨hw.1, Nat.le_trans hsize (Nat.le_trans hsize' hw.2), rfl, hinner,
    Nat.lt_of_lt_of_le his (Nat.le_trans hsize' hw.2)⟩

/-- The free variables of a new function are the same on both sides, and none of them is hidden. -/
theorem freeVars (h : θ.Tables t t') (hv : θ.scopes ≤ s.index) (hs : s.index < t.scopes.size) :
    t'.freeVars (θ.scope s) = t.freeVars s ∧ ∀ r ∈ t.freeVars s, ¬ θ.hidden r.symbol.name :=
  ⟨(h.scopes s hv hs).free, (h.scopes s hv hs).shown⟩

end Tables

end Shift

end ScriptEngine
