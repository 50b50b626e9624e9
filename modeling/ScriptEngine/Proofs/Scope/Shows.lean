import ScriptEngine.Proofs.Plan.Outline
import ScriptEngine.Proofs.Scope.Steps

/-!
# Scopes and nestings

The scopes around a point of a program know the names that its text declares around that point. So
a lookup finds a global exactly when the text says that the name means one.

## Main definitions

* `ScriptEngine.ScopeTable.Shows`: the names around a scope are those of a nesting;
* `ScriptEngine.ScopeTable.IsSlot`: a slot of the program is for a destination;
* `ScriptEngine.ScopeTable.Retains`: all slots of a table are for the same in another one.

## Main results

* `ScriptEngine.ScopeTable.Shows.declare`, `ScriptEngine.ScopeTable.Shows.enter`: what the generator
  declares is what the text declares;
* `ScriptEngine.ScopeTable.Shows.resolve`: a lookup finds what the name means.
-/

namespace ScriptEngine.ScopeTable

/-- **The names around a scope**, up to the outermost scope, are those of a nesting. -/
inductive Shows (t : ScopeTable) : Nesting → ScopeId → Prop
  | top : Shows t [] root
  | inner {s p : ScopeId} {names : List String} {around : Nesting}
    (hp : (t.scope s).parent = some p)
    (hn : ∀ name, name ∈ names ↔ (t.get? s name).isSome) (h : Shows t around p) :
    Shows t (names :: around) s

/-- **A slot of the program is for a destination.** A slot that is for no global belongs to a block
at the top level. -/
def IsSlot (t : ScopeTable) (slot : Word) : Destination → Prop
  | .global name => ∃ symbol, t.get? root name = some symbol ∧ slot = symbol.index
  | .inner => ∃ s name symbol, s ≠ root ∧ t.isGlobal s = true ∧ t.get? s name = some symbol ∧
      slot = symbol.index

variable {t t' : ScopeTable} {s inner : ScopeId} {N : Nesting} {name : String} {symbol : Symbol}
  {slot : Word} {d : Destination}

/-- What a slot is for does not change. -/
theorem IsSlot.grows (h : t.IsSlot slot d) (g : t.Grows t') (ht : t.IsTree) (ht' : t'.IsTree) :
    t'.IsSlot slot d := by
  cases d with
  | global name =>
    obtain ⟨symbol, hs, heq⟩ := h
    exact ⟨symbol, g.get? hs, heq⟩
  | inner =>
    obtain ⟨s, name, symbol, hne, hg, hs, heq⟩ := h
    exact ⟨s, name, symbol, hne, (g.isGlobal ht ht' (lt_of_name hs)).trans hg, g.get? hs, heq⟩

/-- **A slot is for the global of a name** exactly when it is the slot of that name. -/
theorem IsSlot.eq_global_iff (h : t.IsSlot slot d) (hl : t.Lexical) (hw : t.WellFormed)
    (hs : t.get? root name = some symbol) : d = .global name ↔ slot = symbol.index := by
  constructor
  · rintro rfl
    obtain ⟨symbol', hs', rfl⟩ := h
    rw [hs] at hs'
    rw [Option.some.inj hs']
  · rintro rfl
    cases d with
    | global name' =>
      obtain ⟨symbol', hs', heq⟩ := h
      obtain ⟨-, rfl⟩ := hl.slot_inj hw hs' (isGlobal_root hw.toIsTree) hs heq.symm
      rfl
    | inner =>
      obtain ⟨u, other, symbol', hne, hg, hu, heq⟩ := h
      exact absurd (hl.slot_inj hw hu hg hs heq.symm).1 hne

/-- **The global of a name** is the slot for it. -/
theorem isSlot_global : t.IsSlot slot (.global name) ↔
    (t.get? root name).map Symbol.index = some slot := by
  rw [Option.map_eq_some_iff]
  exact exists_congr fun _ => and_congr_right fun _ => eq_comm

/-- **A table in which all slots of another one** are still for the same. -/
structure Retains (t t' : ScopeTable) : Prop where
  slots : ∀ {slot : Word} {d : Destination}, t.IsSlot slot d → t'.IsSlot slot d

theorem Retains.refl (t : ScopeTable) : t.Retains t :=
  ⟨id⟩

theorem Retains.of_grows (g : t.Grows t') (ht : t.IsTree) (ht' : t'.IsTree) : t.Retains t' :=
  ⟨fun hs => hs.grows g ht ht'⟩

/-- Builtins take no slots. -/
theorem Retains.of_scopes (hs : t'.scopes = t.scopes) : t.Retains t' := by
  refine ⟨fun {slot d} h => ?_⟩
  have hscope : ∀ s : ScopeId, t'.scope s = t.scope s := fun s => by rw [scope, scope, hs]
  have hget : ∀ (s : ScopeId) (name : String), t'.get? s name = t.get? s name := fun s name => by
    unfold get?
    rw [hscope]
  have hglobal : ∀ s : ScopeId, t'.isGlobal s = t.isGlobal s := fun s => by
    unfold isGlobal functionScope
    rw [functionScopeWithin_congr hs, hs, hscope]
  unfold IsSlot at h ⊢
  simp only [hget, hglobal]
  exact h

namespace Shows

theorem known (h : t.Shows N s) (ht : t.IsTree) : s.index < t.scopes.size := by
  cases h with
  | top => exact ht.nonempty
  | inner hp => exact lt_of_parent hp

/-- Scopes that know the same names around a scope. -/
theorem same (h : t.Shows N s) (g : t.Grows t') (ht : t.IsTree)
    (hn : ∀ u : ScopeId, u.index ≤ s.index → u.index < t.scopes.size →
      (t'.scope u).names = (t.scope u).names) : t'.Shows N s := by
  induction h with
  | top => exact .top
  | @inner s p names around hp hmem h ih =>
    have hs := lt_of_parent hp
    have hlt := ht.parent_lt s p hp
    refine .inner ((g.scope s hs).parent.trans hp) (fun name => ?_) (ih fun u hu => hn u (by omega))
    unfold get?
    rw [hn s (Nat.le_refl _) hs]
    exact hmem name

/-- **Where nothing was declared** the names around are the same. -/
theorem quiet (h : t.Shows N s) (ht : t.IsTree) (hf : From True t s t') : t'.Shows N s :=
  h.same hf.grows ht fun u _ hu => hf.names u hu fun _ => trivial

/-- The names of the innermost scope, in another order or more than once. -/
theorem of_mem {names names' : List String} (h : t.Shows (names :: N) s)
    (hn : ∀ name, name ∈ names' ↔ name ∈ names) : t.Shows (names' :: N) s := by
  cases h with
  | inner hp hmem h => exact .inner hp (fun name => (hn name).trans (hmem name)) h

/-- **A declaration.** -/
theorem declare (h : t.Shows N s) (hw : t.WellFormed) {constant : Bool}
    (hd : ScopeTable.declare s name constant t = .ok symbol t') :
    t'.Shows (N.declare name) s := by
  have hs := h.known hw.toIsTree
  obtain ⟨hw', g, -⟩ := declare_spec hw hs hd
  cases h with
  | top => exact .top
  | @inner s p names around hp hmem h =>
    have hlt := hw.parent_lt s p hp
    refine .inner ((g.scope s hs).parent.trans hp) (fun other => ?_)
      (h.same g hw.toIsTree fun u hu _ => names_of_declare hw hs hd ?_)
    · rw [get?_of_declare hw hs hd, List.mem_cons]
      split
      · rename_i heq
        exact ⟨fun _ => rfl, fun _ => .inl heq⟩
      · rename_i hne
        exact (or_iff_right hne).trans (hmem other)
    · rintro rfl
      exact absurd hlt (Nat.not_lt_of_le hu)

/-- What a declaration makes is the variable that the text says. -/
theorem isSlot_of_declare (h : t.Shows N s) (hw : t.WellFormed) {constant : Bool}
    (hd : ScopeTable.declare s name constant t = .ok symbol t') (hg : t.isGlobal s = true) :
    t'.IsSlot symbol.index (N.place name) := by
  have hs := h.known hw.toIsTree
  obtain ⟨hw', g, -⟩ := declare_spec hw hs hd
  have hnew : t'.get? s name = some symbol := by
    rw [get?_of_declare hw hs hd, if_pos rfl]
  cases h with
  | top => exact ⟨symbol, hnew, rfl⟩
  | inner hp =>
    refine ⟨s, name, symbol, ?_, (g.isGlobal hw.toIsTree hw'.toIsTree hs).trans hg, hnew, rfl⟩
    rintro rfl
    exact Nat.not_lt_zero _ (hw.parent_lt root _ hp)

/-- A declaration in a function is no global. -/
theorem place_inner (h : t.Shows N s) (ht : t.IsTree) (hg : t.isGlobal s = false) (name : String) :
    N.place name = .inner := by
  cases h with
  | top =>
    rw [isGlobal_root ht] at hg
    cases hg
  | inner => rfl

/-- **A new scope.** -/
theorem openScope (h : t.Shows N s) (hw : t.WellFormed) {kind : ScopeKind}
    (ho : ScopeTable.openScope s kind t = .ok inner t') : t'.Shows ([] :: N) inner := by
  have hs := h.known hw.toIsTree
  obtain ⟨-, g, -, hnew, -⟩ := openScope_spec hw hs ho
  refine .inner (by rw [hnew]) (fun name => ?_)
    (h.same g hw.toIsTree fun u _ _ => sameNames_openScope hw hs ho u)
  unfold get?
  rw [hnew]
  simp

/-- **Around a scope** lies its parent. -/
theorem parent {p : ScopeId} {N' : Nesting} (h : t.Shows N' s) (ht : t.IsTree)
    (hp : (t.scope s).parent = some p) (hN : N'.tail = N) : t.Shows N p := by
  subst hN
  cases h with
  | top => exact absurd (ht.parent_lt root p hp) (Nat.not_lt_zero _)
  | inner hp' _ h =>
    rw [hp] at hp'
    exact Option.some.inj hp' ▸ h

/-- The parameters of a function. -/
theorem declareParams : ∀ {params : List Param} {names : List String} {t : ScopeTable},
    t.Shows (names :: N) s → t.WellFormed →
      (params.forM fun p => do let _ ← ScopeTable.declare s p.name false) t = .ok () t' →
      t'.WellFormed ∧ ∃ names', t'.Shows (names' :: N) s ∧
        ∀ name, name ∈ names' ↔ name ∈ names ∨ name ∈ params.map Param.name
  | [], names, t, h, hw, hd => by
    obtain ⟨-, rfl⟩ := pure_eq_ok.mp hd
    exact ⟨hw, names, h, by simp⟩
  | p :: params, names, t, h, hw, hd => by
    obtain ⟨_, t₁, hp, hd⟩ := bind_eq_ok.mp hd
    obtain ⟨symbol, t₂, hparam, heq⟩ := bind_eq_ok.mp hp
    obtain ⟨-, rfl⟩ := pure_eq_ok.mp heq
    obtain ⟨hw₁, -⟩ := declare_spec hw (h.known hw.toIsTree) hparam
    obtain ⟨hw', names', h', hmem⟩ := declareParams (h.declare hw hparam) hw₁ hd
    refine ⟨hw', names', h', fun name => (hmem name).trans ?_⟩
    rw [List.mem_cons, List.map_cons, List.mem_cons, or_comm (a := name = p.name), or_assoc]

/-- **The scope of a function** knows its parameters and its own name. -/
theorem enter (h : t.Shows N s) (hw : t.WellFormed) {f : Func}
    (he : Generate.enter f s t = .ok inner t') :
    t'.Shows ((f.paramNames ++ f.name.toList) :: N) inner := by
  obtain ⟨i, t₁, ho, he⟩ := bind_eq_ok.mp he
  obtain ⟨_, t₂, hp, he⟩ := bind_eq_ok.mp he
  obtain ⟨_, t₃, hself, he⟩ := bind_eq_ok.mp he
  obtain ⟨rfl, rfl⟩ := pure_eq_ok.mp he
  obtain ⟨hw₁, -⟩ := openScope_spec hw (h.known hw.toIsTree) ho
  obtain ⟨hw₂, names, h₂, hmem⟩ := declareParams (h.openScope hw ho) hw₁ hp
  have hnames : ∀ name, name ∈ names ↔ name ∈ f.paramNames := fun name =>
    (hmem name).trans (or_iff_right List.not_mem_nil)
  cases hf : f.name with
  | none =>
    rw [hf] at hself
    obtain ⟨-, rfl⟩ := pure_eq_ok.mp hself
    refine h₂.of_mem fun name => ?_
    rw [Option.toList_none, List.append_nil, hnames]
  | some self =>
    rw [hf] at hself
    unfold Generate.declareSelf at hself
    dsimp only at hself
    rw [get_bind] at hself
    split at hself
    · obtain ⟨symbol, t₄, hd, hself⟩ := bind_eq_ok.mp hself
      obtain ⟨-, rfl⟩ := pure_eq_ok.mp hself
      refine (h₂.declare hw₂ hd).of_mem fun name => ?_
      rw [List.mem_append, List.mem_cons, hnames, Option.mem_toList, or_comm]
      simp [eq_comm]
    · -- a parameter of the same name comes first
      rename_i hparam
      obtain ⟨-, rfl⟩ := pure_eq_ok.mp hself
      refine h₂.of_mem fun name => ?_
      rw [List.mem_append, hnames, Option.mem_toList]
      refine or_iff_left_of_imp fun heq => ?_
      obtain rfl := Option.some.inj heq
      cases h₂ with
      | inner _ hn _ =>
        refine (hnames _).mp ((hn _).mpr ?_)
        rw [← Option.not_isNone, Bool.not_eq_true']
        exact Bool.eq_false_iff.mpr hparam

/-! ### Lookups -/

/-- A name that no scope further inside knows means a global. -/
theorem outside (h : t.Shows N s) (ht : t.IsTree) {r : Resolution} (ho : t.Outside name s r) :
    r.storage = .builtin ∨
      r.storage = .global ∧ t.IsSlot r.symbol.index (N.meaning name) := by
  induction h with
  | top =>
    cases ho with
    | declared hg => exact .inr ⟨rfl, _, hg, rfl⟩
    | builtin _ _ hr =>
      obtain ⟨_, -, rfl⟩ := Option.map_eq_some_iff.mp hr
      exact .inl rfl
    | outward _ hp => exact absurd (ht.parent_lt root _ hp) (Nat.not_lt_zero _)
  | @inner s p names around hp hn h ih =>
    cases ho with
    | declared hg hglobal =>
      refine .inr ⟨rfl, ?_⟩
      have hmem : name ∈ names := (hn name).mpr (by rw [hg]; rfl)
      unfold Nesting.meaning
      rw [if_pos ⟨names, List.mem_cons_self, hmem⟩]
      refine ⟨s, name, _, ?_, hglobal, hg, rfl⟩
      rintro rfl
      exact Nat.not_lt_zero _ (ht.parent_lt root _ hp)
    | builtin _ hp' =>
      rw [hp] at hp'
      cases hp'
    | outward hg hp' ho =>
      rw [hp] at hp'
      obtain rfl := Option.some.inj hp'
      refine (ih ho).imp_right fun h => ⟨h.1, ?_⟩
      have hmem : name ∉ names := fun hm => by
        have := (hn name).mp hm
        rw [hg] at this
        cases this
      have heq : Nesting.meaning (names :: around) name = Nesting.meaning around name := by
        unfold Nesting.meaning
        simp only [List.mem_cons, or_and_right, exists_or, exists_eq_left, hmem, false_or]
      rw [heq]
      exact h.2

/-- A name that is declared in a function around does not mean a global. -/
theorem enclosed (h : t.Shows N s) (ht : t.IsTree) (he : t.Enclosed name s) :
    N.meaning name = .inner := by
  refine if_pos ?_
  induction h with
  | top =>
    cases he with
    | declared _ hg =>
      rw [isGlobal_root ht] at hg
      cases hg
    | outward hp => exact absurd (ht.parent_lt root _ hp) (Nat.not_lt_zero _)
  | @inner s p names around hp hn h ih =>
    cases he with
    | declared hg =>
      exact ⟨names, List.mem_cons_self, (hn name).mpr (by rw [hg]; rfl)⟩
    | outward hp' he =>
      rw [hp] at hp'
      obtain rfl := Option.some.inj hp'
      obtain ⟨names', hm, hname⟩ := ih he
      exact ⟨names', List.mem_cons_of_mem _ hm, hname⟩

/-- **A lookup finds what the name means**: a builtin, a slot of the program for that meaning, or a
variable of a function. -/
theorem resolve (h : t.Shows N s) (hl : t.Lexical) (hw : t.WellFormed) {r : Resolution}
    (hr : ScopeTable.resolve s name t = .ok (some r) t') :
    r.storage = .builtin ∨
      (r.storage = .global ∧ t.IsSlot r.symbol.index (N.meaning name)) ∨
      ((r.storage = .local ∨ r.storage = .free) ∧ N.meaning name = .inner) := by
  have hs := h.known hw.toIsTree
  have outside (hst : r.storage = .global ∨ r.storage = .builtin) :=
    h.outside hw.toIsTree (resolve_outside hw hr hst)
  have function (hst : r.storage = .local ∨ r.storage = .free) : N.meaning name = .inner := by
    obtain ⟨hw', g, -⟩ := resolve_spec hw hs hr
    have h' := h.same g hw.toIsTree fun u _ _ => sameNames_resolve hr u
    exact h'.enclosed hw'.toIsTree ((hl.resolve hw hs hr).2 r rfl hst)
  cases hst : r.storage with
  | builtin => exact .inl rfl
  | global =>
    refine .inr (.inl ⟨rfl, ?_⟩)
    rcases outside (.inl hst) with hb | ⟨-, hi⟩
    · rw [hst] at hb
      cases hb
    · exact hi
  | «local» => exact .inr (.inr ⟨.inl rfl, function (.inl hst)⟩)
  | free => exact .inr (.inr ⟨.inr rfl, function (.inr hst)⟩)

end Shows

end ScriptEngine.ScopeTable
