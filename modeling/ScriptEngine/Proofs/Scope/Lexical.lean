import ScriptEngine.Proofs.Scope.Lookup

/-!
# What names mean

A lookup goes outward through scopes that may be shared by many functions, over records of earlier
lookups. Two facts about tables make it lexical nevertheless: no two names share a slot, and a
function records a name as free only if the name is declared in a function around it.

## Main definitions

* `ScriptEngine.ScopeTable.Enclosed`: a name is declared in a function around a scope;
* `ScriptEngine.ScopeTable.Lexical`: the tables in which names are lexical.

## Main results

* `ScriptEngine.ScopeTable.Lexical.declare`, `ScriptEngine.ScopeTable.Lexical.openScope`,
  `ScriptEngine.ScopeTable.Lexical.resolve`: all steps keep tables lexical;
* `ScriptEngine.ScopeTable.Lexical.slot_inj`: distinct names at the top level have distinct slots.
-/

namespace ScriptEngine.ScopeTable

/-- **A name is declared in a function around a scope**, or in a block of such a function. -/
inductive Enclosed (t : ScopeTable) (name : String) : ScopeId → Prop
  | declared {s : ScopeId} {symbol : Symbol} (h : t.get? s name = some symbol)
    (hg : t.isGlobal s = false) : Enclosed t name s
  | outward {s p : ScopeId} (hp : (t.scope s).parent = some p) (h : Enclosed t name p) :
    Enclosed t name s

/-- **Tables in which names are lexical.** A slot belongs to one name of one scope, and what is
recorded as free is declared in a function around. -/
structure Lexical (t : ScopeTable) : Prop where
  distinct : ∀ (s s' : ScopeId) (name name' : String) (symbol symbol' : Symbol),
    t.get? s name = some symbol → t.get? s' name' = some symbol' →
    t.functionScope s = t.functionScope s' → symbol.index = symbol'.index → s = s' ∧ name = name'
  free : ∀ (s : ScopeId) (name : String) (i : Nat), (t.scope s).freeIndex[name]? = some i →
    t.Enclosed name s

/-- The second table knows the same names. -/
def SameNames (t t' : ScopeTable) : Prop :=
  ∀ s : ScopeId, (t'.scope s).names = (t.scope s).names

theorem SameNames.refl (t : ScopeTable) : SameNames t t :=
  fun _ => rfl

theorem SameNames.trans {t₁ t₂ t₃ : ScopeTable} (h : SameNames t₁ t₂) (h' : SameNames t₂ t₃) :
    SameNames t₁ t₃ :=
  fun s => (h' s).trans (h s)

variable {t t' : ScopeTable} {s : ScopeId} {name : String}

theorem SameNames.get? (h : SameNames t t') (s : ScopeId) (name : String) :
    t'.get? s name = t.get? s name := by
  unfold ScopeTable.get?
  rw [h s]

/-- What was declared stays declared. -/
theorem Grows.get? (g : t.Grows t') {symbol : Symbol} (h : t.get? s name = some symbol) :
    t'.get? s name = some symbol :=
  (g.scope s (lt_of_name h)).names name symbol h

/-- **What is enclosed** stays so. -/
theorem Enclosed.grows (h : t.Enclosed name s) (g : t.Grows t') (ht : t.IsTree) (ht' : t'.IsTree) :
    t'.Enclosed name s := by
  induction h with
  | declared h hg => exact .declared (g.get? h) ((g.isGlobal ht ht' (lt_of_name h)).trans hg)
  | outward hp _ ih => exact .outward ((g.scope _ (lt_of_parent hp)).parent.trans hp) ih

/-- A table that knows no other names and no other free variables. -/
theorem Lexical.of_sameNames (h : t.Lexical) (g : t.Grows t') (ht : t.IsTree) (ht' : t'.IsTree)
    (hn : SameNames t t') (hf : ∀ (s : ScopeId) (name : String) (i : Nat),
      (t'.scope s).freeIndex[name]? = some i →
        (t.scope s).freeIndex[name]? = some i ∨ t'.Enclosed name s) : t'.Lexical where
  distinct s s' name name' symbol symbol' hs hs' heq hi := by
    rw [hn.get?] at hs hs'
    refine h.distinct s s' name name' symbol symbol' hs hs' ?_ hi
    rwa [g.functionScope ht ht' s (lt_of_name hs),
      g.functionScope ht ht' s' (lt_of_name hs')] at heq
  free s name i hi := by
    rcases hf s name i hi with hi | he
    · exact (h.free s name i hi).grows g ht ht'
    · exact he

/-- Builtins do not matter. -/
theorem Lexical.of_scopes (h : t.Lexical) (hs : t'.scopes = t.scopes) : t'.Lexical := by
  have hscope : ∀ s : ScopeId, t'.scope s = t.scope s := fun s => by rw [scope, scope, hs]
  have hfunction : ∀ s : ScopeId, t'.functionScope s = t.functionScope s := fun s => by
    unfold functionScope
    rw [functionScopeWithin_congr hs, hs]
  have hget : ∀ (s : ScopeId) (name : String), t'.get? s name = t.get? s name := fun s name => by
    unfold ScopeTable.get?
    rw [hscope]
  have hglobal : ∀ s : ScopeId, t'.isGlobal s = t.isGlobal s := fun s => by
    unfold isGlobal
    rw [hfunction, hscope]
  constructor
  · intro s s' name name' symbol symbol' h₁ h₂ hf
    rw [hget] at h₁ h₂
    rw [hfunction, hfunction] at hf
    exact h.distinct s s' name name' symbol symbol' h₁ h₂ hf
  · intro s name i hi
    rw [hscope] at hi
    have he := h.free s name i hi
    clear hi
    induction he with
    | declared h hg => exact .declared ((hget _ _).trans h) ((hglobal _).trans hg)
    | outward hp _ ih => exact .outward ((congrArg ScopeData.parent (hscope _)).trans hp) ih

/-- **An empty table.** -/
theorem lexical_of_scopes (hs : t.scopes = empty.scopes) : t.Lexical := by
  have hscope : ∀ s : ScopeId, t.scope s = { parent := none, kind := .function } := by
    intro s
    have heq : t.scope s = empty.scope s := by rw [scope, scope, hs]
    rw [heq]
    cases hi : s.index with
    | zero => simp [empty, scope, hi]
    | succ n => exact scope_of_size_le (by simp [empty, hi])
  constructor
  · intro s s' name name' symbol symbol' h
    unfold get? at h
    rw [hscope] at h
    simp at h
  · intro s name i h
    rw [hscope] at h
    simp at h

/-! ### Declarations and scopes -/

/-- **A declaration** takes a slot that nothing else has. -/
theorem Lexical.declare (h : t.Lexical) (hw : t.WellFormed) (hs : s.index < t.scopes.size)
    {constant : Bool} {symbol : Symbol} (hd : declare s name constant t = .ok symbol t') :
    t'.Lexical := by
  obtain ⟨hw', g, hsymbol, hroom, -, rfl⟩ := declare_spec hw hs hd
  have hscope := scope_declared hw.toIsTree hs symbol
  have hname : symbol.name = name := by rw [hsymbol]
  -- a name is the new one, or was declared before in a slot that is already taken
  have known : ∀ {u : ScopeId} {other : String} {old : Symbol},
      (t.declared s symbol).get? u other = some old →
        (u = s ∧ other = name ∧ old = symbol) ∨ t.get? u other = some old := by
    intro u other old hu
    unfold get? at hu
    rw [hscope] at hu
    by_cases hus : u = s
    · simp only [if_pos hus, Std.HashMap.getElem?_insert] at hu
      split at hu
      · rename_i he
        exact .inl ⟨hus, (eq_of_beq he).symm.trans hname, (Option.some.inj hu).symm⟩
      · exact .inr hu
    · rw [if_neg hus] at hu
      exact .inr hu
  have fresh : ∀ {u : ScopeId} {other : String} {old : Symbol}, t.get? u other = some old →
      (t.declared s symbol).functionScope u = (t.declared s symbol).functionScope s →
        old.index ≠ symbol.index := by
    intro u other old hu hf heq
    rw [g.functionScope hw.toIsTree hw'.toIsTree u (lt_of_name hu),
      g.functionScope hw.toIsTree hw'.toIsTree s hs] at hf
    have hlt := (hw.names u other old hu).2
    have hnew : symbol.index.toNat = t.slotCount s := by
      rw [hsymbol]
      unfold slotLimit at hroom
      show t.slotCount s % 65536 = _
      omega
    unfold slotCount at hlt hnew
    rw [heq, hf] at hlt
    omega
  constructor
  · intro u u' other other' old old' hu hu' hf hi
    rcases known hu with ⟨rfl, rfl, rfl⟩ | hold <;> rcases known hu' with ⟨rfl, rfl, rfl⟩ | hold'
    · exact ⟨rfl, rfl⟩
    · exact absurd hi.symm (fresh hold' hf.symm)
    · exact absurd hi (fresh hold hf)
    · refine h.distinct u u' other other' old old' hold hold' ?_ hi
      rwa [g.functionScope hw.toIsTree hw'.toIsTree u (lt_of_name hold),
        g.functionScope hw.toIsTree hw'.toIsTree u' (lt_of_name hold')] at hf
  · intro u other i hi
    rw [hscope] at hi
    exact (h.free u other i hi).grows g hw.toIsTree hw'.toIsTree

/-- The names of other scopes stay as they are. -/
theorem names_of_declare (hw : t.WellFormed) (hs : s.index < t.scopes.size) {constant : Bool}
    {symbol : Symbol} (hd : ScopeTable.declare s name constant t = .ok symbol t') {u : ScopeId}
    (hu : u ≠ s) : (t'.scope u).names = (t.scope u).names := by
  obtain ⟨-, -, -, -, -, rfl⟩ := declare_spec hw hs hd
  rw [scope_declared hw.toIsTree hs]
  exact if_neg hu

/-- **The scope of a declaration** knows one more name. -/
theorem get?_of_declare (hw : t.WellFormed) (hs : s.index < t.scopes.size) {constant : Bool}
    {symbol : Symbol} (hd : ScopeTable.declare s name constant t = .ok symbol t') (other : String) :
    t'.get? s other = if other = name then some symbol else t.get? s other := by
  obtain ⟨-, -, hsymbol, -, -, rfl⟩ := declare_spec hw hs hd
  unfold get?
  rw [scope_declared hw.toIsTree hs]
  simp only [if_true, Std.HashMap.getElem?_insert, beq_iff_eq, hsymbol, eq_comm (a := other)]

/-- **A new scope** knows no name. -/
theorem sameNames_openScope (hw : t.WellFormed) (hs : s.index < t.scopes.size) {kind : ScopeKind}
    {inner : ScopeId} (ho : openScope s kind t = .ok inner t') : SameNames t t' := by
  obtain ⟨-, -, rfl, hnew, -, hold⟩ := openScope_spec hw hs ho
  intro u
  by_cases hu : u = ⟨t.scopes.size⟩
  · rw [hu, hnew, scope_of_size_le (t := t) (s := ⟨t.scopes.size⟩) (Nat.le_refl _)]
  · rw [hold u hu]

theorem Lexical.openScope (h : t.Lexical) (hw : t.WellFormed) (hs : s.index < t.scopes.size)
    {kind : ScopeKind} {inner : ScopeId} (ho : ScopeTable.openScope s kind t = .ok inner t') :
    t'.Lexical := by
  have hn := sameNames_openScope hw hs ho
  obtain ⟨hw', g, rfl, hnew, -, hold⟩ := openScope_spec hw hs ho
  refine h.of_sameNames g hw.toIsTree hw'.toIsTree hn fun u name i hi => .inl ?_
  by_cases hu : u = ⟨t.scopes.size⟩
  · rw [hu, hnew] at hi
    simp at hi
  · rwa [hold u hu] at hi

/-! ### Lookups -/

/-- A change of a scope that leaves its names alone. -/
theorem sameNames_modifyScope (t : ScopeTable) (s : ScopeId) {f : ScopeData → ScopeData}
    (hf : ∀ d, (f d).names = d.names) : SameNames t (t.modifyScope s f) := by
  intro u
  unfold modifyScope scope
  simp only [Array.getD_eq_getD_getElem?, Array.getElem?_modify]
  split
  · cases t.scopes[u.index]? with
    | none => rfl
    | some d => exact hf d
  · rfl

/-- A capture declares nothing. -/
theorem sameNames_capture {outer : Resolution} :
    Ensures (SameNames t) (capture s name outer) (fun _ => SameNames t) fun _ => SameNames t := by
  refine .get fun t₁ h => ?_
  have add : Ensures (SameNames t) (modify (·.modifyScope s fun d =>
      { d with
        free := d.free.push ⟨outer.symbol, .free, outer.depth + 1, (t₁.scope s).free.size.toUInt16⟩
        freeIndex := d.freeIndex.insert name (t₁.scope s).free.size }) : Scoped Unit)
      (fun _ => SameNames t) fun _ => SameNames t := by
    refine fun t₂ h₂ => ⟨fun _ t' ht => ?_, fun e t' ht => by cases ht⟩
    cases ht
    exact h₂.trans (sameNames_modifyScope _ _ fun _ => rfl)
  dsimp only
  split
  · exact .bind (Q := fun _ => SameNames t) (.throw fun _ ht => ht ▸ h) fun _ =>
      .bind add fun _ => .pure fun _ ht => ht
  · exact .bind (add.mono (fun _ ht => ht ▸ h) (fun _ _ ht => ht) fun _ _ ht => ht) fun _ =>
      .pure fun _ ht => ht

theorem sameNames_resolveWithin (name : String) : ∀ (n : Nat) (s : ScopeId),
    Ensures (SameNames t) (resolveWithin name n s) (fun _ => SameNames t) fun _ => SameNames t
  | 0, _ => .pure fun _ h => h
  | n + 1, s => by
    refine .get fun t₁ h => ?_
    split
    · exact .pure fun _ ht => ht ▸ h
    dsimp only
    split
    · exact .pure fun _ ht => ht ▸ h
    refine .bind ((sameNames_resolveWithin name n _).mono (fun _ ht => ht ▸ h) (fun _ _ h => h)
      fun _ _ h => h) fun o => ?_
    cases o with
    | none => exact .pure fun _ h => h
    | some outer =>
      dsimp only
      split
      · exact .pure fun _ h => h
      · exact .bind sameNames_capture fun _ => .pure fun _ h => h

/-- **A lookup** declares nothing. -/
theorem sameNames_resolve {o : Option Resolution} (hr : ScopeTable.resolve s name t = .ok o t') :
    SameNames t t' :=
  (sameNames_resolveWithin name _ s t (.refl t)).1 o t' hr

theorem sameNames_resolve_error {e : CompileError}
    (hr : ScopeTable.resolve s name t = .error e t') : SameNames t t' :=
  (sameNames_resolveWithin name _ s t (.refl t)).2 e t' hr

/-- What a function records as free is the name that is looked up. -/
theorem freeIndex_captured (hs : s.index < t.scopes.size) {found : Resolution} {u : ScopeId}
    {other : String} {i : Nat}
    (hi : ((t.captured s name found).scope u).freeIndex[other]? = some i) :
    (t.scope u).freeIndex[other]? = some i ∨ u = s ∧ other = name := by
  unfold captured at hi
  rw [scope_modifyScope _ hs] at hi
  by_cases hu : u = s
  · simp only [if_pos hu, Std.HashMap.getElem?_insert] at hi
    split at hi
    · rename_i he
      exact .inr ⟨hu, (eq_of_beq he).symm⟩
    · exact .inl (hu ▸ hi)
  · rw [if_neg hu] at hi
    exact .inl hi

/-- A capture that is refused changes nothing. -/
theorem capture_error {outer : Resolution} {e : CompileError}
    (hc : capture s name outer t = .error e t') : t' = t := by
  unfold capture at hc
  rw [get_bind] at hc
  dsimp only at hc
  split at hc
  · rcases bind_eq_error.mp hc with hc | ⟨_, _, hc, -⟩
    · exact (throw_eq_error.mp hc).2.symm
    · exact (throw_ne_ok.mp hc).elim
  · rcases bind_eq_error.mp hc with hc | ⟨_, _, -, hc⟩
    · cases hc
    · exact (pure_ne_error.mp hc).elim

/-- What becomes of an answer changes nothing if it is refused. -/
theorem inward_error {kind : ScopeKind} {o : Option Resolution} {e : CompileError}
    (hi : inward kind s name o t = .error e t') : t' = t := by
  cases o with
  | none => exact (pure_ne_error.mp hi).elim
  | some outer =>
    unfold inward at hi
    dsimp only at hi
    split at hi
    · exact (pure_ne_error.mp hi).elim
    · rcases bind_eq_error.mp hi with hi | ⟨_, _, -, hi⟩
      · exact capture_error hi
      · exact (pure_ne_error.mp hi).elim

/-- **What a capture makes of a name** that is declared in a function around. -/
theorem Lexical.inward (h : t.Lexical) (hw : t.WellFormed) (hs : s.index < t.scopes.size)
    {p : ScopeId} (hp : (t.scope s).parent = some p) {outer : Resolution}
    (hin : t.InRange p outer) (hname : outer.symbol.name = name)
    (hnew : (t.scope s).freeIndex[name]? = none)
    (ho : outer.storage = .local ∨ outer.storage = .free → t.Enclosed name p)
    {o : Option Resolution}
    (hi : ScopeTable.inward (t.scope s).kind s name (some outer) t = .ok o t') :
    t'.Lexical ∧ ∀ r, o = some r → r.storage = .local ∨ r.storage = .free → t'.Enclosed name s := by
  obtain ⟨hw', g, -⟩ := (inward_spec hw hs hp hin hname hnew).2 o t' hi
  unfold ScopeTable.inward at hi
  dsimp only at hi
  split at hi
  · obtain ⟨rfl, rfl⟩ := pure_eq_ok.mp hi
    refine ⟨h, ?_⟩
    rintro r ⟨⟩ hr
    exact .outward hp (ho hr)
  · rename_i hcaptured
    obtain ⟨found, t₁, hc, hi⟩ := bind_eq_ok.mp hi
    obtain ⟨rfl, rfl⟩ := pure_eq_ok.mp hi
    -- neither a global nor a builtin, so a variable of a function around
    have houter : outer.storage = .local ∨ outer.storage = .free := by
      cases hst : outer.storage with
      | «local» => exact .inl rfl
      | free => exact .inr rfl
      | global => exact absurd (.inr (.inl hst)) hcaptured
      | builtin => exact absurd (.inr (.inr hst)) hcaptured
    have enclosed : t₁.Enclosed name s := by
      refine .outward ((g.scope s hs).parent.trans hp) ?_
      exact (ho houter).grows g hw.toIsTree hw'.toIsTree
    have hn := (sameNames_capture t (.refl t)).1 _ _ hc
    rw [capture_eq _ _ _ _ hs] at hc
    split at hc
    · cases hc
    · obtain ⟨-, rfl⟩ := EStateM.Result.ok.inj hc
      refine ⟨h.of_sameNames g hw.toIsTree hw'.toIsTree hn fun u other i hi => ?_,
        fun _ _ _ => enclosed⟩
      rcases freeIndex_captured hs hi with hi | ⟨rfl, rfl⟩
      · exact .inl hi
      · exact .inr enclosed

theorem Lexical.resolveWithin (name : String) : ∀ (n : Nat) (s : ScopeId) {t : ScopeTable},
    t.Lexical → t.WellFormed → s.index < t.scopes.size → s.index < n →
      (∀ e t', ScopeTable.resolveWithin name n s t = .error e t' → t'.Lexical) ∧
      ∀ o t', ScopeTable.resolveWithin name n s t = .ok o t' → t'.Lexical ∧
        ∀ r, o = some r → r.storage = .local ∨ r.storage = .free → t'.Enclosed name s
  | 0, _, _, _, _, _, hn => absurd hn (Nat.not_lt_zero _)
  | n + 1, s, t, h, hw, hs, hn => by
    cases hk : t.known? s name with
    | some found =>
      rw [resolveWithin_known n hk]
      refine ⟨fun e t' he => (by cases he), ?_⟩
      rintro o t' ⟨⟩
      refine ⟨h, ?_⟩
      rintro r ⟨⟩ hr
      unfold known? at hk
      cases hg : t.get? s name with
      | some symbol =>
        rw [hg] at hk
        obtain rfl := Option.some.inj hk
        refine .declared hg ?_
        cases hglobal : t.isGlobal s with
        | false => rfl
        | true =>
          rw [hglobal] at hr
          rcases hr with hr | hr <;> cases hr
      | none =>
        rw [hg] at hk
        obtain ⟨i, hi, -⟩ := Option.bind_eq_some_iff.mp hk
        exact h.free s name i hi
    | none =>
      cases hp : (t.scope s).parent with
      | none =>
        rw [resolveWithin_root n hk hp]
        refine ⟨fun e t' he => (by cases he), ?_⟩
        rintro o t' ⟨⟩
        refine ⟨h, fun r hr hst => ?_⟩
        obtain ⟨index, -, rfl⟩ := Option.map_eq_some_iff.mp hr
        rcases hst with hst | hst <;> cases hst
      | some p =>
        rw [resolveWithin_parent n hk hp]
        have hlt := hw.parent_lt s p hp
        obtain ⟨herr, hok⟩ := Lexical.resolveWithin name n p h hw (by omega) (by omega)
        obtain ⟨-, hspec⟩ := resolveWithin_spec name n p hw (by omega) (by omega)
        refine ⟨fun e t' he => ?_, fun o t' ho => ?_⟩
        · rcases bind_eq_error.mp he with he | ⟨o, t₁, hres, he⟩
          · exact herr e t' he
          · rw [inward_error he]
            exact (hok o t₁ hres).1
        · obtain ⟨o₁, t₁, hres, hi⟩ := bind_eq_ok.mp ho
          obtain ⟨h₁, henclosed⟩ := hok o₁ t₁ hres
          obtain ⟨hw₁, g₁, hinner, hrange⟩ := hspec o₁ t₁ hres
          cases o₁ with
          | none =>
            obtain ⟨rfl, rfl⟩ := pure_eq_ok.mp hi
            exact ⟨h₁, fun r hr => (by cases hr)⟩
          | some outer =>
            obtain ⟨hin, hname⟩ := hrange outer rfl
            have hscope := hinner s hlt
            rw [← hscope] at hi
            exact h₁.inward hw₁ (Nat.lt_of_lt_of_le hs g₁.size) (hscope ▸ hp) hin hname
              (hscope ▸ freeIndex_of_known?_eq_none hw hk) (henclosed outer rfl) hi

/-- **A variable of a function** that a lookup answers with is declared in a function around. -/
theorem Lexical.resolve (h : t.Lexical) (hw : t.WellFormed) (hs : s.index < t.scopes.size)
    {o : Option Resolution} (hr : ScopeTable.resolve s name t = .ok o t') :
    t'.Lexical ∧ ∀ r, o = some r → r.storage = .local ∨ r.storage = .free → t'.Enclosed name s :=
  (Lexical.resolveWithin name (s.index + 1) s h hw hs (Nat.lt_succ_self _)).2 o t' hr

theorem Lexical.resolve_error (h : t.Lexical) (hw : t.WellFormed) (hs : s.index < t.scopes.size)
    {e : CompileError} (hr : ScopeTable.resolve s name t = .error e t') :
    t'.Lexical :=
  (Lexical.resolveWithin name (s.index + 1) s h hw hs (Nat.lt_succ_self _)).1 e t' hr

/-! ### The top level -/

/-- **Distinct names at the top level have distinct slots**, and no block shares one of them. -/
theorem Lexical.slot_inj (h : t.Lexical) (hw : t.WellFormed) {name' : String}
    {symbol symbol' : Symbol} (hs : t.get? s name = some symbol) (hg : t.isGlobal s = true)
    (hroot : t.get? root name' = some symbol') (hi : symbol.index = symbol'.index) :
    s = root ∧ name = name' := by
  refine h.distinct s root name name' symbol symbol' hs hroot ?_ hi
  rw [functionScope_of_isGlobal hw.toIsTree (lt_of_name hs) hg, functionScope_root hw.toIsTree]

end ScriptEngine.ScopeTable
