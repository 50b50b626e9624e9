import ScriptEngine.Proofs.Compiler.Stores

/-!
# What batches declare

A batch declares a name at the top level when the compiler reaches a declaration of it, which is
when the batch would be accepted if it ended there. What comes behind, and whether it is accepted,
does not matter.

## Main definitions

* `ScriptEngine.Statement.cut?`: a statement, cut behind a declaration of a name;
* `ScriptEngine.Compiler.Reaches`: the compiler reaches a declaration of a name in a batch;
* `ScriptEngine.Emit.Declares`: what steps at the top level declare.

## Main results

* `ScriptEngine.Compiler.Sound.declared_compile`: a batch declares the names of the declarations
  that the compiler reaches.
-/

namespace ScriptEngine

open ScopeTable Emit

/-- **A statement that ends behind a declaration of a name.** Of several names that are declared at
once those up to this one are left. -/
def Statement.cut? (n : String) : Statement → Option Statement
  | .var name value => if name = n then some (.var name value) else none
  | .const name value => if name = n then some (.const name value) else none
  | .multiVar names value =>
    if n ∈ names ∧ names.length ≤ 0xffff then
      some (.multiVar (names.takeWhile (· ≠ n) ++ [n]) value)
    else none
  | .func f => if f.name = some n then some (.func f) else none
  | _ => none

/-- **The compiler reaches a declaration of a name** in a batch: what there is of the batch up to
the end of that declaration is accepted. -/
def Compiler.Reaches (c : Compiler) (fs : Array Function) (program : Program) (n : String) : Prop :=
  ∃ before d after d', program = before ++ d :: after ∧ d.cut? n = some d' ∧
    ∃ code, (c.compile fs (before ++ [d'])).1 = .ok code

/-- A state at the top level. -/
structure Emission.AtRoot (s : Emission) : Prop where
  table : s.table.WellFormed
  scope : s.body.scope = root

/-- A name is declared at the top level. -/
def Emission.Knows (s : Emission) (n : String) : Prop :=
  (s.table.get? root n).isSome

namespace Emit

variable {α β : Type} {n : String} {x : Emit α} {R R' : Emission → Prop} {s s' : Emission}

/-- **What steps at the top level declare**: a name is known in the end, whether they succeed or
fail, if it was known before or if the state in which they began has the property. -/
def Declares (n : String) (x : Emit α) (R : Emission → Prop) : Prop :=
  ∀ s : Emission, s.AtRoot →
    (∀ a s', x s = .ok a s' → s'.AtRoot ∧ (s'.Knows n ↔ s.Knows n ∨ R s)) ∧
      ∀ e s', x s = .error e s' → (s'.Knows n ↔ s.Knows n ∨ R s)

namespace Declares

/-- **One step behind another.** -/
theorem bind {f : α → Emit β} (hx : Declares n x R) (hf : ∀ a, Declares n (f a) R') :
    Declares n (x >>= f) fun s => R s ∨ ∃ a m, x s = .ok a m ∧ R' m := by
  intro s hs
  obtain ⟨hok, herr⟩ := hx s hs
  have both {a : α} {m s' : Emission} (hm : x s = .ok a m)
      (h : s'.Knows n ↔ m.Knows n ∨ R' m) :
      s'.Knows n ↔ s.Knows n ∨ R s ∨ ∃ a m, x s = .ok a m ∧ R' m := by
    rw [h, (hok a m hm).2, or_assoc]
    refine or_congr_right (or_congr_right ⟨fun h => ⟨a, m, hm, h⟩, ?_⟩)
    rintro ⟨a', m', hm', h⟩
    rw [hm] at hm'
    cases hm'
    exact h
  refine ⟨fun b s' h => ?_, fun e s' h => ?_⟩
  · obtain ⟨a, m, hm, h⟩ := bind_eq_ok.mp h
    obtain ⟨hroot, hknows⟩ := (hf a m (hok a m hm).1).1 b s' h
    exact ⟨hroot, both hm hknows⟩
  · rcases bind_eq_error.mp h with h | ⟨a, m, hm, h⟩
    · rw [herr e s' h]
      refine or_congr_right ⟨.inl, ?_⟩
      rintro (h' | ⟨a, m, hm, -⟩)
      · exact h'
      · rw [h] at hm
        cases hm
    · exact both hm ((hf a m (hok a m hm).1).2 e s' h)

theorem congr (h : Declares n x R) (hR : ∀ s, s.AtRoot → (R s ↔ R' s)) : Declares n x R' := by
  intro s hs
  obtain ⟨hok, herr⟩ := h s hs
  refine ⟨fun a s' hx => ?_, fun e s' hx => ?_⟩
  · rw [← hR s hs]
    exact hok a s' hx
  · rw [← hR s hs]
    exact herr e s' hx

/-- **Quiet plans** declare nothing. -/
theorem of_quiet {p : Plan} (hp : p.Quiet) : Declares n p.emit fun _ => False := by
  intro s hs
  have hinside : Emission.Inside True s.table root s.enclosing False s :=
    ⟨.refl hs.table hs.table.nonempty, hs.scope, rfl, False.elim⟩
  obtain ⟨hok, herr⟩ := p.keeps_emit (fun _ => hp) s.table root s.enclosing False s hinside
  have same {s' : Emission} (hf : From True s.table root s'.table) :
      s'.Knows n ↔ s.Knows n ∨ False := by
    have heq : s'.table.get? root n = s.table.get? root n := by
      unfold get?
      rw [hf.names root hs.table.nonempty fun _ => trivial]
    rw [or_false]
    unfold Emission.Knows
    rw [heq]
  refine ⟨fun a s' h => ?_, fun e s' h => same (herr e s' h)⟩
  obtain ⟨grew, hscope, -, -⟩ := hok a s' h
  exact ⟨⟨grew.wellFormed, hscope⟩, same grew⟩

/-- Instructions declare nothing. -/
theorem instruction (op : Opcode) (operands : List Word) :
    Declares n (Emit.instruction op operands) fun _ => False := by
  intro s hs
  refine ⟨fun a s' h => ?_, fun e s' h => by cases h⟩
  rw [instruction_eq_ok] at h
  subst h
  exact ⟨⟨hs.table, hs.scope⟩, (or_false _).symm ▸ Iff.rfl⟩

theorem pure (a : α) : Declares n (pure a : Emit α) fun _ => False := by
  intro s hs
  refine ⟨fun a s' h => ?_, fun e s' h => (pure_ne_error.mp h).elim⟩
  obtain ⟨-, rfl⟩ := pure_eq_ok.mp h
  exact ⟨hs, (or_false _).symm ▸ Iff.rfl⟩

/-- A step on the scopes at the top level. -/
theorem onTable {step : Scoped α} {R : ScopeTable → Prop} (h : ∀ t : ScopeTable, t.WellFormed →
    ∀ t', (∃ a, step t = .ok a t') ∨ (∃ e, step t = .error e t') → t'.WellFormed ∧
      ((t'.get? root n).isSome ↔ (t.get? root n).isSome ∨ R t)) :
    Declares n (Emit.onTable step) fun s => R s.table := by
  intro s hs
  refine ⟨fun a s' hx => ?_, fun e s' hx => ?_⟩
  · obtain ⟨t, ht, rfl⟩ := onTable_eq_ok.mp hx
    obtain ⟨hw, hknows⟩ := h s.table hs.table t (.inl ⟨a, ht⟩)
    exact ⟨⟨hw, hs.scope⟩, hknows⟩
  · cases hstep : step s.table with
    | ok a t =>
      rw [onTable_of_ok hstep] at hx
      cases hx
    | error e' t =>
      rw [onTable_of_error hstep] at hx
      obtain ⟨-, rfl⟩ := EStateM.Result.error.inj hx
      exact (h s.table hs.table t (.inr ⟨e', hstep⟩)).2

theorem forM {γ : Type} {f : γ → Emit PUnit} (h : ∀ c, Declares n (f c) fun _ => False) :
    ∀ l : List γ, Declares n (l.forM f) fun _ => False
  | [] => pure _
  | c :: l => ((h c).bind fun _ => forM h l).congr fun _ _ => by simp

theorem slotStore : Declares n Emit.slotStore fun _ => False := by
  intro s hs
  refine ⟨fun a s' h => ?_, fun e s' h => by cases h⟩
  cases h
  exact ⟨hs, (or_false _).symm ▸ Iff.rfl⟩

end Declares

/-! ### Declarations -/

/-- **A declaration at the top level** declares a name if it succeeds. -/
theorem ends_declare {name : String} {constant : Bool} {t t' : ScopeTable} (hw : t.WellFormed)
    (he : (∃ a, ScopeTable.declare root name constant t = .ok a t') ∨
      ∃ e, ScopeTable.declare root name constant t = .error e t') :
    t'.WellFormed ∧ ((t'.get? root n).isSome ↔ (t.get? root n).isSome ∨
      name = n ∧ ∃ a t', ScopeTable.declare root name constant t = .ok a t') := by
  rcases he with ⟨symbol, hd⟩ | ⟨e, hd⟩
  · obtain ⟨hw', -⟩ := declare_spec hw hw.nonempty hd
    refine ⟨hw', ?_⟩
    have hget := get?_of_declare (s := root) hw hw.nonempty hd n
    rw [hget]
    by_cases hn : n = name
    · rw [if_pos hn]
      exact ⟨fun _ => .inr ⟨hn.symm, symbol, t', hd⟩, fun _ => rfl⟩
    · rw [if_neg hn]
      exact ⟨.inl, fun h => h.resolve_right fun h => hn h.1.symm⟩
  · obtain rfl := declare_error hd
    refine ⟨hw, .inl, fun h => h.resolve_right ?_⟩
    rintro ⟨-, a, t', h⟩
    rw [hd] at h
    cases h

/-- Several declarations succeed one by one. -/
theorem declareEach_cons_eq_ok {name : String} {names : List String} {t t' : ScopeTable} :
    (∃ symbols, ScopeTable.declareEach root (name :: names) t = .ok symbols t') ↔
      ∃ symbol t₁, ScopeTable.declare root name false t = .ok symbol t₁ ∧
        ∃ symbols, ScopeTable.declareEach root names t₁ = .ok symbols t' := by
  rw [declareEach_cons]
  constructor
  · rintro ⟨_, h⟩
    obtain ⟨symbol, t₁, h₁, h⟩ := bind_eq_ok.mp h
    obtain ⟨symbols, t₂, h₂, h⟩ := bind_eq_ok.mp h
    obtain ⟨-, rfl⟩ := pure_eq_ok.mp h
    exact ⟨symbol, t₁, h₁, symbols, h₂⟩
  · rintro ⟨symbol, t₁, h₁, symbols, h₂⟩
    exact ⟨_, bind_eq_ok.mpr ⟨symbol, t₁, h₁, bind_eq_ok.mpr ⟨symbols, t', h₂, rfl⟩⟩⟩

/-- **Several declarations at the top level** declare a name if all of them up to that name
succeed. -/
theorem ends_declareEach : ∀ (names : List String) {t : ScopeTable}, t.WellFormed →
    ∀ t', (∃ a, ScopeTable.declareEach root names t = .ok a t') ∨
      (∃ e, ScopeTable.declareEach root names t = .error e t') → t'.WellFormed ∧
      ((t'.get? root n).isSome ↔ (t.get? root n).isSome ∨ n ∈ names ∧
        ∃ t', ∃ a, ScopeTable.declareEach root (names.takeWhile (· ≠ n) ++ [n]) t = .ok a t')
  | [], t, hw, t', h => by
    unfold ScopeTable.declareEach at h
    rw [List.mapM_nil] at h
    rcases h with ⟨_, h⟩ | ⟨_, h⟩
    · obtain ⟨-, rfl⟩ := pure_eq_ok.mp h
      simp [hw]
    · exact (pure_ne_error.mp h).elim
  | name :: names, t, hw, t', h => by
    -- the first declaration succeeds or is the last one
    have head : (∃ e, ScopeTable.declare root name false t = .error e t') ∨
        ∃ symbol t₁, ScopeTable.declare root name false t = .ok symbol t₁ ∧
          ((∃ a, ScopeTable.declareEach root names t₁ = .ok a t') ∨
            ∃ e, ScopeTable.declareEach root names t₁ = .error e t') := by
      rcases h with h | ⟨e, h⟩
      · obtain ⟨symbol, t₁, h₁, h⟩ := declareEach_cons_eq_ok.mp h
        exact .inr ⟨symbol, t₁, h₁, .inl h⟩
      · rw [declareEach_cons] at h
        rcases bind_eq_error.mp h with h | ⟨symbol, t₁, h₁, h⟩
        · exact .inl ⟨e, h⟩
        · rcases bind_eq_error.mp h with h | ⟨_, _, -, h⟩
          · exact .inr ⟨symbol, t₁, h₁, .inr ⟨e, h⟩⟩
          · exact (pure_ne_error.mp h).elim
    have single {t₁ : ScopeTable} {symbol : Symbol}
        (h : ScopeTable.declare root n false t = .ok symbol t₁) :
        ∃ a, ScopeTable.declareEach root [n] t = .ok a t₁ :=
      declareEach_cons_eq_ok.mpr ⟨symbol, t₁, h, [], rfl⟩
    rcases head with ⟨e, hd⟩ | ⟨symbol, t₁, hd, hrest⟩
    · obtain rfl := declare_error hd
      refine ⟨hw, .inl, fun h => h.resolve_right ?_⟩
      rintro ⟨-, t', h⟩
      obtain ⟨others, heq⟩ : ∃ others, (name :: names).takeWhile (· ≠ n) ++ [n] =
          name :: others := by
        by_cases hn : name = n
        · exact ⟨[], by simp [hn]⟩
        · exact ⟨names.takeWhile (· ≠ n) ++ [n], by simp [hn]⟩
      rw [heq] at h
      obtain ⟨_, _, h, -⟩ := declareEach_cons_eq_ok.mp h
      rw [hd] at h
      cases h
    · obtain ⟨hw₁, hknows⟩ := ends_declare (n := n) hw (.inl ⟨symbol, hd⟩)
      obtain ⟨hw', hknows'⟩ := ends_declareEach names hw₁ t' hrest
      refine ⟨hw', ?_⟩
      rw [hknows', hknows]
      by_cases hn : name = n
      · subst hn
        have hnil : (name :: names).takeWhile (· ≠ name) ++ [name] = [name] := by simp
        rw [hnil]
        exact ⟨fun _ => .inr ⟨List.mem_cons_self, t₁, single hd⟩,
          fun _ => .inl (.inr ⟨rfl, symbol, t₁, hd⟩)⟩
      · have hcons : (name :: names).takeWhile (· ≠ n) ++ [n] =
            name :: (names.takeWhile (· ≠ n) ++ [n]) := by simp [hn]
        rw [hcons, or_assoc, or_iff_right fun h : _ ∧ _ => hn h.1]
        refine or_congr_right (and_congr ⟨List.mem_cons_of_mem _, ?_⟩ ?_)
        · exact fun h => (List.mem_cons.mp h).resolve_left fun heq => hn heq.symm
        · refine exists_congr fun t' => ?_
          rw [declareEach_cons_eq_ok]
          refine ⟨fun h => ⟨symbol, t₁, hd, h⟩, ?_⟩
          rintro ⟨_, _, hd', h⟩
          rw [hd] at hd'
          cases hd'
          exact h

/-! ### Statements -/

/-- Steps that do the same at the top level. -/
theorem Declares.of_eq {y : Emit α} (h : Declares n y R)
    (heq : ∀ s : Emission, s.AtRoot → x s = y s) :
    Declares n x R := by
  intro s hs
  rw [heq s hs]
  exact h s hs

/-- A new name at the top level. -/
theorem newName_eq {s : Emission} (hs : s.body.scope = root) (name : String) (constant : Bool) :
    newName name constant s = Emit.onTable (ScopeTable.declare root name constant) s := by
  show Emit.onTable (ScopeTable.declare s.body.scope name constant) s = _
  rw [hs]

/-- Several new names at the top level. -/
theorem newNames_eq : ∀ (names : List String) {s : Emission}, s.body.scope = root →
    (names.mapM fun name => newName name false) s =
      Emit.onTable (ScopeTable.declareEach root names) s
  | [], _, _ => rfl
  | name :: names, s, hs => by
    rw [List.mapM_cons, declareEach_cons]
    cases hd : ScopeTable.declare root name false s.table with
    | error e t =>
      rw [onTable_of_error (bind_eq_error.mpr (.inl hd))]
      exact bind_eq_error.mpr (.inl ((newName_eq hs ..).trans (onTable_of_error hd)))
    | ok symbol t =>
      have hnew := (newName_eq hs name false).trans (onTable_of_ok hd)
      have hrest := newNames_eq names (s := { s with table := t }) hs
      cases ht : ScopeTable.declareEach root names t with
      | error e u =>
        replace hrest := hrest.trans (onTable_of_error ht)
        rw [onTable_of_error
          (bind_eq_error.mpr (.inr ⟨symbol, t, hd, bind_eq_error.mpr (.inl ht)⟩))]
        exact bind_eq_error.mpr (.inr ⟨symbol, _, hnew, bind_eq_error.mpr (.inl hrest)⟩)
      | ok symbols u =>
        replace hrest := hrest.trans (onTable_of_ok ht)
        have hall : (do
            let symbol ← ScopeTable.declare root name false
            let symbols ← ScopeTable.declareEach root names
            return symbol :: symbols) s.table = .ok (symbol :: symbols) u :=
          bind_eq_ok.mpr ⟨symbol, t, hd, bind_eq_ok.mpr ⟨symbols, u, ht, rfl⟩⟩
        rw [onTable_of_ok hall]
        exact bind_eq_ok.mpr ⟨symbol, _, hnew, bind_eq_ok.mpr ⟨symbols, _, hrest, rfl⟩⟩

/-- A declaration of one name. -/
theorem Declares.declare (name : String) (constant : Bool) :
    Declares n (Emit.declare name constant) fun s => name = n ∧
      ∃ a t, ScopeTable.declare root name constant s.table = .ok a t := by
  have hnew : Declares n (newName name constant) fun s => name = n ∧
      ∃ a t, ScopeTable.declare root name constant s.table = .ok a t :=
    .of_eq (.onTable fun _ hw _ he => ends_declare hw he) fun s hs => newName_eq hs.scope ..
  refine (hnew.bind fun _ => Declares.slotStore.bind fun _ => .instruction _ _).congr fun s _ => ?_
  simp

/-- A declaration of several names. -/
theorem Declares.declareAll (names : List String) :
    Declares n (Plan.declareAll names).emit fun s => n ∈ names ∧
      ∃ t a, ScopeTable.declareEach root (names.takeWhile (· ≠ n) ++ [n]) s.table = .ok a t := by
  have hnew : Declares n (names.mapM fun name => newName name false) fun s => n ∈ names ∧
      ∃ t a, ScopeTable.declareEach root (names.takeWhile (· ≠ n) ++ [n]) s.table = .ok a t :=
    .of_eq (.onTable fun _ hw _ he => ends_declareEach names hw _ he) fun s hs =>
      newNames_eq names hs.scope
  rw [Plan.emit]
  refine (hnew.bind fun _ => Declares.slotStore.bind fun _ =>
    .forM (fun _ => .instruction _ _) _).congr fun s _ => ?_
  simp

/-- **What comes behind a declaration** in its statement is never refused. -/
theorem declare_succeeds {name : String} {constant : Bool} {s : Emission} (hs : s.AtRoot) :
    (∃ s', Emit.declare name constant s = .ok () s') ↔
      ∃ a t, ScopeTable.declare root name constant s.table = .ok a t := by
  constructor
  · rintro ⟨s', h⟩
    obtain ⟨a, m, h, -⟩ := bind_eq_ok.mp h
    rw [newName_eq hs.scope] at h
    obtain ⟨t, ht, -⟩ := onTable_eq_ok.mp h
    exact ⟨a, t, ht⟩
  · rintro ⟨a, t, ht⟩
    exact ⟨_, bind_eq_ok.mpr ⟨a, _, (newName_eq hs.scope ..).trans (onTable_of_ok ht), rfl⟩⟩

theorem forM_instruction {γ : Type} (op : Opcode) (f : γ → List Word) :
    ∀ (l : List γ) (s : Emission),
    ∃ s', (l.forM fun c => Emit.instruction op (f c)) s = .ok () s'
  | [], s => ⟨s, rfl⟩
  | c :: l, s => by
    obtain ⟨m, hm⟩ : ∃ m, Emit.instruction op (f c) s = .ok () m := ⟨_, rfl⟩
    obtain ⟨s', hs'⟩ := forM_instruction op f l m
    exact ⟨s', bind_eq_ok.mpr ⟨(), m, hm, hs'⟩⟩

theorem declareAll_succeeds {names : List String} {s : Emission} (hs : s.AtRoot) :
    (∃ s', (Plan.declareAll names).emit s = .ok () s') ↔
      ∃ t a, ScopeTable.declareEach root names s.table = .ok a t := by
  rw [Plan.emit]
  constructor
  · rintro ⟨s', h⟩
    obtain ⟨a, m, h, -⟩ := bind_eq_ok.mp h
    rw [newNames_eq names hs.scope] at h
    obtain ⟨t, ht, -⟩ := onTable_eq_ok.mp h
    exact ⟨t, a, ht⟩
  · rintro ⟨t, a, ht⟩
    have hnew := (newNames_eq names hs.scope).trans (onTable_of_ok ht)
    obtain ⟨s', hs'⟩ :=
      forM_instruction (if t.isGlobal s.body.scope then .storeGlobal else .storeFast)
      (fun symbol : Symbol => [symbol.index]) a.reverse { s with table := t }
    exact ⟨s', bind_eq_ok.mpr ⟨a, _, hnew, bind_eq_ok.mpr ⟨_, _, rfl, hs'⟩⟩⟩

/-- **A plan behind a quiet one.** -/
theorem Declares.behind {p q : Plan} {R : Emission → Prop} (hp : p.Quiet)
    (hq : Declares n q.emit R) :
    Declares n (Plan.seq p q).emit fun s => ∃ m, m.AtRoot ∧ p.emit s = .ok () m ∧ R m := by
  have hquiet := Declares.of_quiet (n := n) hp
  rw [Plan.emit]
  refine (hquiet.bind fun _ => hq).congr fun s hs => ?_
  constructor
  · rintro (h | ⟨_, m, hm, h⟩)
    · exact h.elim
    · exact ⟨m, ((hquiet s hs).1 _ _ hm).1, hm, h⟩
  · rintro ⟨m, -, hm, h⟩
    exact .inr ⟨(), m, hm, h⟩

theorem seq_succeeds {p q : Plan} {s : Emission} (hp : p.Quiet) (hs : s.AtRoot) :
    (∃ s', (Plan.seq p q).emit s = .ok () s') ↔
      ∃ m, m.AtRoot ∧ p.emit s = .ok () m ∧ ∃ s', q.emit m = .ok () s' := by
  rw [Plan.emit]
  constructor
  · rintro ⟨s', h⟩
    obtain ⟨_, m, hm, h⟩ := bind_eq_ok.mp h
    exact ⟨m, ((Declares.of_quiet (n := "") hp s hs).1 _ _ hm).1, hm, s', h⟩
  · rintro ⟨m, -, hm, s', h⟩
    exact ⟨s', bind_eq_ok.mpr ⟨(), m, hm, h⟩⟩

/-- An operation leaves the scopes alone. -/
theorem instr_succeeds {o : Operation} {s : Emission} (hs : s.AtRoot) {P : ScopeTable → Prop} :
    (∃ m, m.AtRoot ∧ (Plan.instr o).emit s = .ok () m ∧ P m.table) ↔ P s.table := by
  rw [Plan.emit]
  constructor
  · rintro ⟨m, -, hm, h⟩
    rw [instruction_eq_ok] at hm
    subst hm
    exact h
  · intro h
    exact ⟨s.put o.encode.1 o.encode.2, ⟨hs.table, hs.scope⟩, instruction_eq_ok.mpr rfl, h⟩

/-- The names up to a given one are no more than all. -/
theorem length_upTo {n : String} {names : List String} (h : n ∈ names) :
    (names.takeWhile (· ≠ n) ++ [n]).length ≤ names.length := by
  obtain ⟨before, after, rfl, hb⟩ := List.eq_append_cons_of_mem h
  have hbefore : ∀ m ∈ before, decide (m ≠ n) = true := fun m hm =>
    decide_eq_true fun heq => hb (heq ▸ hm)
  rw [List.takeWhile_append_of_pos hbefore, List.takeWhile_cons_of_neg (by simp)]
  simp

/-- **A statement at the top level** declares a name if it would be accepted with its end behind the
declaration of that name. -/
theorem Declares.statement (d : Statement) : Declares n (Plan.ofStatement d).emit fun s =>
    ∃ d', d.cut? n = some d' ∧ ∃ s', (Plan.ofStatement d').emit s = .ok () s' := by
  have quiet (hq : (Plan.ofStatement d).Quiet) (hcut : d.cut? n = none) :
      Declares n (Plan.ofStatement d).emit fun s =>
        ∃ d', d.cut? n = some d' ∧ ∃ s', (Plan.ofStatement d').emit s = .ok () s' :=
    (Declares.of_quiet hq).congr fun s _ => by simp [hcut]
  have single {p : Plan} {name : String} {constant : Bool} (hp : p.Quiet)
      (hd : Plan.ofStatement d = .seq p (.declare name constant))
      (hcut : d.cut? n = if name = n then some d else none) :
      Declares n (Plan.ofStatement d).emit fun s =>
        ∃ d', d.cut? n = some d' ∧ ∃ s', (Plan.ofStatement d').emit s = .ok () s' := by
    have hdeclare : Declares n (Plan.declare name constant).emit fun s => name = n ∧
        ∃ a t, ScopeTable.declare root name constant s.table = .ok a t := by
      rw [Plan.emit]
      exact .declare name constant
    have h := Declares.behind hp hdeclare
    rw [← hd] at h
    refine h.congr fun s hs => ?_
    rw [hcut]
    by_cases hn : name = n
    · rw [if_pos hn]
      simp only [Option.some.injEq, exists_eq_left', hn, true_and]
      rw [hd, seq_succeeds hp hs]
      refine exists_congr fun m => and_congr_right fun hm => and_congr_right fun _ => ?_
      rw [Plan.emit, hn]
      exact (declare_succeeds hm).symm
    · rw [if_neg hn]
      simp [hn]
  cases d with
  | var name value => exact single (Plan.quiet_ofExpr false value) rfl rfl
  | const name value => exact single (Plan.quiet_ofExpr false value) rfl rfl
  | func f =>
    obtain ⟨_ | name, params, body⟩ := f
    · intro s hs
      refine ⟨fun a s' h => (throw_ne_ok.mp (by simpa [Plan.ofStatement, Plan.emit] using h)).elim,
        fun e s' h => ?_⟩
      have h : (throw CompileError.unnamedFunction : Emit Unit) s = .error e s' := by
        simpa [Plan.ofStatement, Plan.emit] using h
      obtain ⟨-, rfl⟩ := throw_eq_error.mp h
      simp [Statement.cut?, Func.name]
    · refine single (p := .func (.mk (some name) params body) (Plan.ofStatements body))
        trivial rfl ?_
      simp only [Statement.cut?, Func.name, Option.some.injEq]
  | multiVar names value =>
    by_cases hlen : 0xffff < names.length
    · have hd : Plan.ofStatement (.multiVar names value) = .refuse .tooManySymbols := if_pos hlen
      refine quiet (hd ▸ trivial) (if_neg fun h => ?_)
      exact absurd h.2 (Nat.not_le_of_lt hlen)
    · -- what is emitted for the first names is quiet up to their declaration
      have plan (l : List String) (hl : l.length ≤ 0xffff) : Plan.ofStatement (.multiVar l value) =
          .seq (Plan.ofExpr false value)
            (.seq (.instr (.unpack l.length.toUInt16)) (.declareAll l)) :=
        if_neg (Nat.not_lt_of_le hl)
      have hle := Nat.le_of_not_lt hlen
      have hvalue := Plan.quiet_ofExpr false value
      have unpack (l : List String) : (Plan.instr (.unpack l.length.toUInt16)).Quiet := trivial
      rw [plan names hle]
      refine (Declares.behind hvalue (.behind (unpack names) (.declareAll names))).congr
        fun s hs => ?_
      by_cases hn : n ∈ names
      · have hcut : (names.takeWhile (· ≠ n) ++ [n]).length ≤ 0xffff := by
          exact Nat.le_trans (length_upTo hn) hle
        simp only [Statement.cut?, hn, hle, and_self, if_true, Option.some.injEq, exists_eq_left',
          true_and]
        rw [plan _ hcut, seq_succeeds hvalue hs]
        refine exists_congr fun m => and_congr_right fun hm => and_congr_right fun _ => ?_
        rw [seq_succeeds (unpack _) hm, instr_succeeds hm (P := fun t => ∃ t' a,
          ScopeTable.declareEach root (names.takeWhile (· ≠ n) ++ [n]) t = .ok a t')]
        have hsucceeds : (∃ m', m'.AtRoot ∧
            (Plan.instr (.unpack (names.takeWhile (· ≠ n) ++ [n]).length.toUInt16)).emit
              m = .ok () m' ∧
            ∃ s', (Plan.declareAll (names.takeWhile (· ≠ n) ++ [n])).emit m' = .ok () s') ↔ _ :=
          exists_congr fun m' => and_congr_right fun hm' => and_congr_right fun _ =>
            declareAll_succeeds hm'
        rw [hsucceeds]
        exact (instr_succeeds hm (P := fun t => ∃ t' a,
          ScopeTable.declareEach root (names.takeWhile (· ≠ n) ++ [n]) t = .ok a t')).symm
      · simp [Statement.cut?, hn]
  | _ => exact quiet (Plan.quiet_ofStatement rfl) rfl

/-! ### Batches -/

/-- A batch behind its first statement. -/
theorem ofStatements_cons (d : Statement) {rest : Program} (h : rest ≠ []) :
    Plan.ofStatements (d :: rest) = .seq (Plan.ofStatement d)
      (.seq (if d.isExpression then .instr .popTop else .skip) (Plan.ofStatements rest)) := by
  cases rest with
  | nil => exact absurd rfl h
  | cons d' rest => rfl

/-- The value of a statement is dropped, or nil is its value. Neither is refused. -/
theorem filler_succeeds (p : Prop) [Decidable p] (o : Operation) (s : Emission) :
    ∃ s', (if p then Plan.instr o else .skip).emit s = .ok () s' := by
  split
  · rw [Plan.emit]
    exact ⟨s.put o.encode.1 o.encode.2, instruction_eq_ok.mpr rfl⟩
  · rw [Plan.emit]
    exact ⟨s, rfl⟩

theorem single_succeeds (d : Statement) (s : Emission) :
    (∃ s', (Plan.ofStatements [d]).emit s = .ok () s') ↔
      ∃ s', (Plan.ofStatement d).emit s = .ok () s' := by
  rw [Plan.ofStatements, Plan.emit]
  constructor
  · rintro ⟨s', h⟩
    obtain ⟨_, m, hm, -⟩ := bind_eq_ok.mp h
    exact ⟨m, hm⟩
  · rintro ⟨m, hm⟩
    obtain ⟨s', hs'⟩ := filler_succeeds ((!d.isExpression && !d.isReturn) = true) .pushNil m
    exact ⟨s', bind_eq_ok.mpr ⟨(), m, hm, hs'⟩⟩

/-- **A batch at the top level** declares a name if it would be accepted with its end behind a
declaration of that name. -/
theorem Declares.statements : ∀ program : Program, Declares n (Plan.ofStatements program).emit
    fun s => ∃ before d after d', program = before ++ d :: after ∧ d.cut? n = some d' ∧
      ∃ s', (Plan.ofStatements (before ++ [d'])).emit s = .ok () s'
  | [] => by
    refine (Declares.of_quiet (p := .instr .pushNil) trivial).congr fun s _ => ?_
    simp
  | [d] => by
    have hfiller :
        (if !d.isExpression && !d.isReturn then Plan.instr .pushNil else .skip).Quiet := by
      split <;> trivial
    rw [Plan.ofStatements, Plan.emit]
    refine ((Declares.statement d).bind fun _ => .of_quiet hfiller).congr fun s _ => ?_
    constructor
    · rintro (⟨d', hcut, h⟩ | ⟨_, _, _, h⟩)
      · exact ⟨[], d, [], d', rfl, hcut, (single_succeeds d' s).mpr h⟩
      · exact h.elim
    · rintro ⟨before, d₁, after, d', heq, hcut, h⟩
      obtain ⟨rfl, ⟨rfl, rfl⟩⟩ : before = [] ∧ d = d₁ ∧ after = [] := by
        cases before with
        | nil => exact ⟨rfl, List.cons.inj heq |>.imp_right Eq.symm⟩
        | cons x before =>
          have := congrArg List.length heq
          simp at this
      exact .inl ⟨d', hcut, (single_succeeds d' s).mp h⟩
  | d :: next :: rest => by
    have hfiller : (if d.isExpression then Plan.instr .popTop else .skip).Quiet := by
      split <;> trivial
    have hne : ∀ (before : Program) (d' : Statement), before ++ [d'] ≠ [] := by simp
    rw [ofStatements_cons d (List.cons_ne_nil next rest), Plan.emit]
    have hrest : Declares n (Plan.seq (if d.isExpression then .instr .popTop else .skip)
        (Plan.ofStatements (next :: rest))).emit _ := .behind hfiller (statements (next :: rest))
    refine ((Declares.statement d).bind fun _ => hrest).congr fun s hs => ?_
    constructor
    · rintro (⟨d', hcut, h⟩ | ⟨_, m, hm, m', -, hm', before, d₁, after, d', heq, hcut, s', h⟩)
      · exact ⟨[], d, next :: rest, d', rfl, hcut, (single_succeeds d' s).mpr h⟩
      · refine ⟨d :: before, d₁, after, d', congrArg (d :: ·) heq, hcut, s', ?_⟩
        rw [List.cons_append, ofStatements_cons d (hne before d'), Plan.emit]
        refine bind_eq_ok.mpr ⟨(), m, hm, ?_⟩
        rw [Plan.emit]
        exact bind_eq_ok.mpr ⟨(), m', hm', h⟩
    · rintro ⟨before, d₁, after, d', heq, hcut, s', h⟩
      cases before with
      | nil =>
        obtain ⟨rfl, rfl⟩ := List.cons.inj heq
        exact .inl ⟨d', hcut, (single_succeeds d' s).mp ⟨s', h⟩⟩
      | cons d₀ before =>
        obtain ⟨rfl, htail⟩ := List.cons.inj heq
        rw [List.cons_append, ofStatements_cons d (hne before d'), Plan.emit] at h
        obtain ⟨_, m, hm, h⟩ := bind_eq_ok.mp h
        have hroot := ((Declares.statement (n := n) d s hs).1 _ _ hm).1
        obtain ⟨m', hroot', hm', h⟩ := (seq_succeeds hfiller hroot).mp ⟨s', h⟩
        exact .inr ⟨(), m, hm, m', hroot', hm', before, d₁, after, d', htail, hcut, h⟩

end Emit

namespace Compiler

variable {c : Compiler} {E : Environment}

theorem isSome_globalIndex? (c : Compiler) (n : String) :
    (c.globalIndex? n).isSome = (c.table.get? root n).isSome :=
  Option.isSome_map

/-- **What a batch declares**, whether it is accepted or refused: the names of the declarations that
the compiler reaches. -/
theorem Sound.declared_compile (h : c.Sound E) (program : Program) (n : String) :
    ((c.compile E.functions program).2.1.globalIndex? n).isSome ↔
      (c.globalIndex? n).isSome ∨ c.Reaches E.functions program n := by
  have hroot : (c.starting E.functions).AtRoot := ⟨h.table, rfl⟩
  have accepted (program : Program) : (∃ code, (c.compile E.functions program).1 = .ok code) ↔
      ∃ s, (Plan.ofStatements program).emit (c.starting E.functions) = .ok () s := by
    rw [Plan.emit_ofStatements]
    cases hs : Generate.statements program (c.starting E.functions) with
    | ok u s =>
      rw [h.compile_of_ok hs]
      exact ⟨fun _ => ⟨s, rfl⟩, fun _ => ⟨_, rfl⟩⟩
    | error e s =>
      rw [h.compile_of_error hs]
      exact ⟨fun ⟨_, h⟩ => (by cases h), fun ⟨_, h⟩ => (by cases h)⟩
  have hreaches : c.Reaches E.functions program n ↔ _ :=
    exists_congr fun before => exists_congr fun d => exists_congr fun after =>
      exists_congr fun d' => and_congr_right fun _ => and_congr_right fun _ =>
        accepted (before ++ [d'])
  rw [hreaches, isSome_globalIndex?, isSome_globalIndex?]
  obtain ⟨hok, herr⟩ := Emit.Declares.statements (n := n) program _ hroot
  rw [Plan.emit_ofStatements] at hok herr
  cases hs : Generate.statements program (c.starting E.functions) with
  | ok u s =>
    rw [h.compile_of_ok hs]
    exact (hok u s hs).2
  | error e s =>
    rw [h.compile_of_error hs]
    exact herr e s hs

/-- A name that cannot be declared leaves everything as it is. -/
theorem declareGlobal_error {name : String} {e : CompileError} {c' : Compiler}
    (hd : c.declareGlobal name = (.error e, c')) : c' = c := by
  unfold Compiler.declareGlobal at hd
  split at hd
  · cases hd
  · unfold onTable at hd
    cases ht : ScopeTable.declare root name false c.table with
    | ok symbol t =>
      rw [ht] at hd
      cases hd
    | error e' t =>
      obtain rfl := declare_error ht
      rw [ht] at hd
      cases hd
      rfl

/-- **What a host declares.** -/
theorem Sound.declared_declareGlobal (h : c.Sound E) {name : String} {slot : Word} {c' : Compiler}
    (hd : c.declareGlobal name = (.ok slot, c')) :
    c'.globalIndex? name = some slot ∧
      ∀ n, (c'.globalIndex? n).isSome ↔ (c.globalIndex? n).isSome ∨ name = n := by
  unfold Compiler.declareGlobal at hd
  split at hd
  · rename_i hg
    cases hd
    refine ⟨hg, fun n => ⟨.inl, fun hn => hn.elim id ?_⟩⟩
    rintro rfl
    rw [hg]
    rfl
  · unfold onTable at hd
    cases ht : ScopeTable.declare root name false c.table with
    | error e t =>
      rw [ht] at hd
      cases hd
    | ok symbol t =>
      rw [ht] at hd
      cases hd
      have hget := get?_of_declare (s := root) h.table h.table.nonempty ht
      have hindex : ∀ n, ({ c with table := t } : Compiler).countGlobals.globalIndex? n =
          (t.get? root n).map Symbol.index := fun _ => rfl
      refine ⟨?_, fun n => ?_⟩
      · rw [hindex, hget, if_pos rfl]
        rfl
      · rw [isSome_globalIndex?, isSome_globalIndex?]
        show (t.get? root n).isSome ↔ _
        rw [hget]
        by_cases hn : n = name
        · rw [if_pos hn]
          exact ⟨fun _ => .inr hn.symm, fun _ => rfl⟩
        · rw [if_neg hn]
          exact ⟨.inl, fun h => h.resolve_right fun heq => hn heq.symm⟩

end Compiler

end ScriptEngine
