import ScriptEngine.Proofs.Layout.Places
import ScriptEngine.Proofs.Scope.Sessions

/-!
# Open scopes while code is emitted

While code is emitted, the scopes around the place that it has come to are a chain, each with what
it has declared so far, and the table is faithful to that chain. The text of the program declares
the same names. So what a name means at a place can be read off the text.

## Main definitions

* `ScriptEngine.Layer.Extends`: a scope with more declarations;
* `ScriptEngine.Emission.Opens`: the scopes around the code that is emitted;
* `ScriptEngine.Emit.Records`: steps that declare the given names in the innermost scope;
* `ScriptEngine.Place.Matches`: the text has declared the same names.

## Main results

* `ScriptEngine.Plan.records_emit`: emitting a plan declares what the plan declares;
* `ScriptEngine.Plan.Reaches.opens`: wherever a compilation comes to, the open scopes are those of
  the text.
-/

namespace ScriptEngine

open ScopeTable Chain

namespace Layer

/-- What a scope has declared so far. -/
def declarations (l : Layer) : Declarations :=
  l.symbols.map fun symbol => (symbol.name, symbol.constant)

/-- **The same scope with more declarations**, newest first. -/
def Extends (ds : Declarations) (l l' : Layer) : Prop :=
  ∃ symbols : List Symbol, l' = { l with symbols := symbols ++ l.symbols } ∧
    symbols.map (fun symbol => (symbol.name, symbol.constant)) = ds

variable {ds ds' : Declarations} {l l' l'' : Layer}

namespace Extends

theorem refl (l : Layer) : Extends [] l l :=
  ⟨[], rfl, rfl⟩

theorem trans (h : Extends ds l l') (h' : Extends ds' l' l'') : Extends (ds' ++ ds) l l'' := by
  obtain ⟨symbols, rfl, rfl⟩ := h
  obtain ⟨symbols', rfl, rfl⟩ := h'
  exact ⟨symbols' ++ symbols, by rw [List.append_assoc], List.map_append⟩

theorem declare (l : Layer) (symbol : Symbol) :
    Extends [(symbol.name, symbol.constant)] l (l.declare symbol) :=
  ⟨[symbol], rfl, rfl⟩

theorem scope (h : Extends ds l l') : l'.scope = l.scope := by
  obtain ⟨_, rfl, -⟩ := h
  rfl

theorem declarations (h : Extends ds l l') : l'.declarations = ds ++ l.declarations := by
  obtain ⟨symbols, rfl, rfl⟩ := h
  exact List.map_append

/-- Where nothing more is declared, the scope is the same. -/
theorem eq (h : Extends [] l l') : l' = l := by
  obtain ⟨symbols, rfl, hds⟩ := h
  rw [List.map_eq_nil_iff.mp hds]
  rfl

end Extends

end Layer

/-- What is true of the scopes around a scope. -/
theorem ScopeTable.Faithful.tail {t : ScopeTable} {l : Layer} {C : Chain}
    (h : t.Faithful (l :: C)) :
    t.Faithful C :=
  ⟨h.wellFormed, h.mirrors.2, h.listed⟩

/-- **The scopes around the code that is emitted**, and the bodies around it. -/
structure Emission.Opens (l : Layer) (C : Chain) (outer : List Body) (s : Emission) : Prop where
  faithful : s.table.Faithful (l :: C)
  scope : s.body.scope = l.scope
  enclosing : s.enclosing = outer

/-- A table after declarations in a scope, of which nothing else is known. -/
def ScopeTable.Follows (l : Layer) (C : Chain) (t : ScopeTable) : Prop :=
  ∃ (ds : Declarations) (l' : Layer), Layer.Extends ds l l' ∧ t.Faithful (l' :: C)

theorem ScopeTable.Follows.extends {l l' : Layer} {C : Chain} {t : ScopeTable} {ds : Declarations}
    (h : t.Follows l' C) (hl : Layer.Extends ds l l') : t.Follows l C := by
  obtain ⟨ds', l'', hl', ht⟩ := h
  exact ⟨_, l'', hl.trans hl', ht⟩

namespace Emit

variable {α β γ : Type} {ds ds' : Declarations}

/-- **Steps that declare names** in the innermost scope, newest first, and leave all other open
scopes as they are. -/
def Records (ds : Declarations) (x : Emit α) : Prop :=
  ∀ l C outer, Ensures (Emission.Opens l C outer) x
    (fun _ s => ∃ l', Layer.Extends ds l l' ∧ s.Opens l' C outer) fun _ s => s.table.Follows l C

namespace Records

theorem pure (a : α) : Records [] (pure a : Emit α) :=
  fun l _ _ => .pure fun _ h => ⟨l, .refl l, h⟩

theorem throw (e : CompileError) : Records ds (throw e : Emit α) :=
  fun l _ _ => .throw fun _ h => ⟨[], l, .refl l, h.faithful⟩

/-- Names are declared one after the other, by steps that may depend on what went before. -/
theorem bindThen {x : Emit α} {f : α → Emit β} (hx : Records ds x)
    (hf : ∀ a s m, x s = .ok a m → Records ds' (f a)) : Records (ds' ++ ds) (x >>= f) := by
  intro l C outer s hs
  obtain ⟨hok, herr⟩ := hx l C outer s hs
  refine ⟨fun b s' h => ?_, fun e s' h => ?_⟩
  · obtain ⟨a, m, ha, hb⟩ := bind_eq_ok.mp h
    obtain ⟨l', hl, hm⟩ := hok a m ha
    obtain ⟨l'', hl', hs'⟩ := (hf a s m ha l' C outer m hm).1 b s' hb
    exact ⟨l'', hl.trans hl', hs'⟩
  · rcases bind_eq_error.mp h with h | ⟨a, m, ha, hb⟩
    · exact herr e s' h
    · obtain ⟨l', hl, hm⟩ := hok a m ha
      exact ((hf a s m ha l' C outer m hm).2 e s' hb).extends hl

theorem bind {x : Emit α} {f : α → Emit β} (hx : Records ds x) (hf : ∀ a, Records ds' (f a)) :
    Records (ds' ++ ds) (x >>= f) :=
  hx.bindThen fun a _ _ _ => hf a

/-- Steps after which nothing more is declared. -/
theorem last {x : Emit α} {f : α → Emit β} (hx : Records ds x) (hf : ∀ a, Records [] (f a)) :
    Records ds (x >>= f) :=
  hx.bind hf

/-- Steps before which nothing was declared. -/
theorem after {x : Emit α} {f : α → Emit β} (hx : Records [] x) (hf : ∀ a, Records ds (f a)) :
    Records ds (x >>= f) := by
  have := hx.bind hf
  rwa [List.append_nil] at this

theorem look {f : Emission → Emit β} (hf : ∀ s, Records ds (f s)) : Records ds (get >>= f) :=
  fun l C outer => .get fun s h => (hf s l C outer).mono (fun _ ht => ht ▸ h) (fun _ _ h => h)
    fun _ _ h => h

theorem ite {p : Prop} [Decidable p] {x y : Emit α} (hx : p → Records ds x)
    (hy : ¬p → Records ds y) :
    Records ds (if p then x else y) := by
  by_cases hp : p
  · rw [if_pos hp]
    exact hx hp
  · rw [if_neg hp]
    exact hy hp

theorem forM {f : γ → Emit PUnit} : ∀ {l : List γ}, (∀ c ∈ l, Records [] (f c)) →
    Records [] (l.forM f)
  | [], _ => pure ()
  | c :: l, h => by
    show Records [] (f c >>= fun _ => l.forM f)
    exact (h c (List.mem_cons_self ..)).last fun _ => forM fun d hd => h d
      (List.mem_cons_of_mem c hd)

theorem mapM {f : γ → Emit α} (h : ∀ c, Records [] (f c)) : ∀ l : List γ, Records [] (l.mapM f)
  | [] => by
    rw [List.mapM_nil]
    exact pure _
  | c :: l => by
    rw [List.mapM_cons]
    exact (h c).last fun _ => (mapM h l).last fun _ => pure _

/-- A step that does not touch the scopes. -/
theorem of_unchanged {x : Emit α} (hok : ∀ s a s', x s = .ok a s' →
      s'.table = s.table ∧ s'.body.scope = s.body.scope ∧ s'.enclosing = s.enclosing)
    (herr : ∀ s e s', x s = .error e s' → s'.table = s.table) : Records [] x := by
  intro l C outer s h
  refine ⟨fun a s' hx => ?_, fun e s' hx => ?_⟩
  · obtain ⟨ht, hs, he⟩ := hok s a s' hx
    exact ⟨l, .refl l, ht ▸ h.faithful, hs.trans h.scope, he.trans h.enclosing⟩
  · refine ⟨[], l, .refl l, ?_⟩
    rw [herr s e s' hx]
    exact h.faithful

/-- A change of the innermost body that leaves its scope alone. -/
theorem onBody {f : Body → α × Body} (h : ∀ b, (f b).2.scope = b.scope) :
    Records [] (onBody f) := by
  refine of_unchanged ?_ ?_
  · rintro ⟨table, body, enclosing, source, functions⟩ a s' hx
    obtain ⟨-, rfl⟩ := EStateM.Result.ok.inj hx
    exact ⟨rfl, h body, rfl⟩
  · rintro ⟨table, body, enclosing, source, functions⟩ e s' hx
    cases hx

theorem onCode (f : Code → α × Code) : Records [] (onCode f) :=
  onBody fun ⟨_, _, _, _⟩ => rfl

theorem position : Records [] position :=
  .look fun _ => .pure _

theorem emit (op : Opcode) (operands : List Word) : Records [] (Emit.emit op operands) :=
  onCode _

theorem instruction (op : Opcode) (operands : List Word) : Records [] (instruction op operands) :=
  .last (emit op operands) fun _ => .pure _

theorem fromPool (add : Code → Option (Word × Code)) : Records [] (fromPool add) := by
  refine of_unchanged (fun s a s' hx => ?_) fun s e s' hx => ?_
  all_goals
    unfold Emit.fromPool at hx
    split at hx
  · obtain ⟨-, rfl⟩ := EStateM.Result.ok.inj hx
    exact ⟨rfl, rfl, rfl⟩
  · cases hx
  · cases hx
  · obtain ⟨-, rfl⟩ := EStateM.Result.error.inj hx
    rfl

theorem constant (v : Value) : Records [] (constant v) :=
  .last (fromPool _) fun _ => instruction _ _

theorem completeJump (jump target : Nat) : Records [] (completeJump jump target) :=
  .ite (fun _ => onCode _) fun _ => .throw _

theorem landHere (jump : Nat) : Records [] (landHere jump) :=
  .last position fun _ => completeJump _ _

theorem jumpBack (target : Nat) : Records [] (jumpBack target) :=
  .last position fun _ => .ite (fun _ => instruction _ _) fun _ => .throw _

theorem onLoop (f : OpenLoop → OpenLoop) : Records [] (onLoop f) := by
  refine onBody fun b => ?_
  obtain ⟨code, scope, loops, inPipe⟩ := b
  cases loops <;> rfl

theorem loopBody {body : Emit Unit} (h : Records ds body) : Records ds (loopBody body) :=
  .after (onBody fun _ => rfl) fun _ => .last h fun _ =>
    .last (onBody fun _ => rfl) fun _ => .last (instruction _ _) fun _ => .pure _

theorem closeLoop (loop : OpenLoop) (exit next : Nat) : Records [] (closeLoop loop exit next) :=
  .last (.forM fun _ _ => completeJump _ _) fun _ => .forM fun _ _ => completeJump _ _

theorem leaveLoop (isBreak : Bool) : Records [] (leaveLoop isBreak) := by
  refine .look fun s => ?_
  split
  · exact .throw _
  · exact .last (.forM fun _ _ => instruction _ _) fun _ => .last (emit _ _) fun _ => onLoop _

theorem holding {steps : Emit Unit} (h : Records ds steps) : Records ds (holding steps) :=
  .after (onLoop _) fun _ => .last h fun _ => onLoop _

/-! ### Names -/

/-- A step on the scopes that is taken in the innermost one. -/
theorem atScope {f : ScopeId → Emit β}
    (h : ∀ l C outer, Ensures (Emission.Opens l C outer) (f l.scope)
    (fun _ s => ∃ l', Layer.Extends ds l l' ∧ s.Opens l' C outer) fun _ s => s.table.Follows l C) :
    Records ds (Emit.scope >>= f) := by
  intro l C outer s hs
  have heq : (Emit.scope >>= f) s = f l.scope s := by
    show f s.body.scope s = _
    rw [hs.scope]
  rw [heq]
  exact h l C outer s hs

/-- A lookup leaves the scopes as they are. -/
theorem lookup (name : String) (l : Layer) (C : Chain) (outer : List Body) :
    Ensures (Emission.Opens l C outer) (onTable (ScopeTable.resolve l.scope name))
      (fun _ => Emission.Opens l C outer) fun _ s => s.table.Follows l C := by
  intro s hs
  have ht : (ScopeTable.after (ScopeTable.resolve l.scope name) s.table).Faithful (l :: C) :=
    ScopeSession.faithful_lookup hs.faithful
  unfold ScopeTable.after at ht
  cases hr : ScopeTable.resolve l.scope name s.table with
  | ok found t =>
    rw [hr] at ht
    rw [onTable_of_ok hr]
    refine ⟨fun a s' hx => ?_, fun e s' hx => by cases hx⟩
    cases hx
    exact ⟨ht, hs.scope, hs.enclosing⟩
  | error e t =>
    rw [hr] at ht
    rw [onTable_of_error hr]
    refine ⟨fun a s' hx => (by cases hx), fun e s' hx => ?_⟩
    obtain ⟨-, rfl⟩ := EStateM.Result.error.inj hx
    exact ⟨[], l, .refl l, ht⟩

theorem resolve (name : String) : Records [] (resolve name) := by
  refine atScope fun l C outer => .bind (lookup name l C outer) fun found => ?_
  cases found with
  | none => exact Records.throw _ l C outer
  | some r => exact Records.pure r l C outer

theorem resolveAssignable (name : String) : Records [] (resolveAssignable name) :=
  .last (resolve name) fun r =>
    .ite (fun _ => .last (.throw _) fun _ => .pure _) fun _ => .pure r

theorem load (r : Resolution) : Records [] (load r) := by
  unfold Emit.load
  split
  all_goals exact instruction _ _

theorem store (r : Resolution) : Records [] (store r) := by
  unfold Emit.store
  split
  case h_4 => exact .throw _
  all_goals exact instruction _ _

theorem slotStore : Records [] slotStore :=
  .look fun _ => .pure _

/-- **A declaration** in a scope that may be any of those just opened. -/
theorem declares (name : String) (constant : Bool) (l : Layer) (C : Chain) {t : ScopeTable}
    (h : t.Faithful (l :: C)) :
    (∀ symbol t', ScopeTable.declare l.scope name constant t = .ok symbol t' →
      ∃ l', Layer.Extends [(name, constant)] l l' ∧ t'.Faithful (l' :: C)) ∧
    ∀ e t', ScopeTable.declare l.scope name constant t = .error e t' → t'.Follows l C := by
  refine ⟨fun symbol t' hd => ?_, fun e t' hd => ?_⟩
  · have hsymbol := (declare_spec h.wellFormed h.mirrors.1.known hd).2.2.1
    refine ⟨l.declare symbol, ?_, ScopeSession.faithful_declare h hd⟩
    have := Layer.Extends.declare l symbol
    rwa [hsymbol] at this ⊢
  · rw [declare_error hd]
    exact ⟨[], l, .refl l, h⟩

theorem newName (name : String) (constant : Bool) :
    Records [(name, constant)] (newName name constant) := by
  refine atScope fun l C outer s hs => ?_
  obtain ⟨hok, herr⟩ := declares name constant l C hs.faithful
  cases hd : ScopeTable.declare l.scope name constant s.table with
  | ok symbol t =>
    rw [onTable_of_ok hd]
    refine ⟨fun a s' hx => ?_, fun e s' hx => by cases hx⟩
    cases hx
    obtain ⟨l', hl, ht⟩ := hok symbol t hd
    exact ⟨l', hl, ht, hs.scope.trans hl.scope.symm, hs.enclosing⟩
  | error e t =>
    rw [onTable_of_error hd]
    refine ⟨fun a s' hx => (by cases hx), fun e s' hx => ?_⟩
    cases hx
    exact herr _ t hd

theorem newNames : ∀ names : List String,
    Records (names.map (·, false)).reverse (names.mapM fun name => Emit.newName name false)
  | [] => by
    rw [List.mapM_nil]
    exact pure _
  | name :: names => by
    rw [List.mapM_cons, List.map_cons, List.reverse_cons]
    exact (newName name false).bind fun _ => (newNames names).last fun _ => pure _

theorem declare (name : String) (constant : Bool) :
    Records [(name, constant)] (declare name constant) :=
  .last (newName name constant) fun _ => .last slotStore fun _ => instruction _ _

/-! ### Blocks and functions -/

/-- Steps inside a scope that was opened for them. -/
theorem within {steps : Emit α} (h : Records ds steps) {l inner : Layer} {C : Chain}
    {outer : List Body} :
    Ensures (Emission.Opens inner (l :: C) outer) steps
      (fun _ s => ∃ inner', Layer.Extends ds inner inner' ∧ s.Opens inner' (l :: C) outer)
      fun _ s => s.table.Follows l C :=
  (h inner (l :: C) outer).mono (fun _ h => h) (fun _ _ h => h) fun _ s hs => by
    obtain ⟨_, inner', -, ht⟩ := hs
    exact ⟨[], l, .refl l, ht.tail⟩

/-- **A block**, whose names are its own. -/
theorem inBlock {steps : Emit Unit} (h : Records ds steps) : Records [] (inBlock steps) := by
  refine atScope fun l C outer => ?_
  refine .bind (Q := fun inner s => s.table.Faithful (⟨inner, .block, []⟩ :: l :: C) ∧
    s.body.scope = l.scope ∧ s.enclosing = outer) ?_ fun inner => .bind (Q := fun _ =>
      Emission.Opens ⟨inner, .block, []⟩ (l :: C) outer) ?_ fun _ => .bind (within h) fun _ => ?_
  · intro s hs
    cases ho : ScopeTable.openScope l.scope .block s.table with
    | ok inner t =>
      rw [onTable_of_ok ho]
      refine ⟨fun a s' hx => ?_, fun e s' hx => by cases hx⟩
      cases hx
      exact ⟨ScopeSession.faithful_openScope hs.faithful ho, hs.scope, hs.enclosing⟩
    | error e t => cases ho
  · rintro ⟨table, body, enclosing, source, functions⟩ ⟨ht, -, he⟩
    refine ⟨fun a s' hx => ?_, fun e s' hx => by cases hx⟩
    obtain ⟨-, rfl⟩ := EStateM.Result.ok.inj hx
    exact ⟨ht, rfl, he⟩
  · rintro ⟨table, body, enclosing, source, functions⟩ ⟨inner', -, hs⟩
    refine ⟨fun a s' hx => ?_, fun e s' hx => by cases hx⟩
    obtain ⟨-, rfl⟩ := EStateM.Result.ok.inj hx
    exact ⟨l, .refl l, hs.faithful.tail, rfl, hs.enclosing⟩

/-- The declaration of a parameter. -/
def declareParam (s : ScopeId) (p : Param) : Scoped Unit := do
  let _ ← ScopeTable.declare s p.name false

/-- The parameters of a function are declared in its scope, one after the other. -/
theorem declareParams : ∀ (params : List Param) {l : Layer} {C : Chain} {t : ScopeTable},
    t.Faithful (l :: C) → (∀ u t', (params.forM (declareParam l.scope)) t = .ok u t' →
      ∃ l', Layer.Extends ((params.map Param.name).map (·, false)).reverse l l' ∧
        t'.Faithful (l' :: C)) ∧
    ∀ e t', (params.forM (declareParam l.scope)) t = .error e t' → t'.Follows l C
  | [], l, C, t, h => by
    refine ⟨fun u t' hx => ?_, fun e t' hx => by cases hx⟩
    cases hx
    exact ⟨l, .refl l, h⟩
  | p :: params, l, C, t, h => by
    obtain ⟨hok, herr⟩ := declares p.name false l C h
    show (∀ u t', (declareParam l.scope p >>= fun _ => params.forM (declareParam l.scope)) t =
      .ok u t' → _) ∧ ∀ e t', (declareParam l.scope p >>= fun _ =>
        params.forM (declareParam l.scope)) t = .error e t' → _
    refine ⟨fun u t' hx => ?_, fun e t' hx => ?_⟩
    · obtain ⟨_, t₁, hp, hrest⟩ := bind_eq_ok.mp hx
      obtain ⟨symbol, t₂, hd, heq⟩ := bind_eq_ok.mp hp
      obtain ⟨-, rfl⟩ := pure_eq_ok.mp heq
      obtain ⟨l₁, hl₁, h₁⟩ := hok symbol t₂ hd
      rw [← hl₁.scope] at hrest
      obtain ⟨l₂, hl₂, h₂⟩ := (declareParams params h₁).1 u t' hrest
      refine ⟨l₂, ?_, h₂⟩
      rw [List.map_cons, List.map_cons, List.reverse_cons]
      exact hl₁.trans hl₂
    · rcases bind_eq_error.mp hx with hp | ⟨_, t₁, hp, hrest⟩
      · rcases bind_eq_error.mp hp with hd | ⟨_, _, _, heq⟩
        · exact herr e t' hd
        · cases heq
      · obtain ⟨symbol, t₂, hd, heq⟩ := bind_eq_ok.mp hp
        obtain ⟨-, rfl⟩ := pure_eq_ok.mp heq
        obtain ⟨l₁, hl₁, h₁⟩ := hok symbol t₂ hd
        rw [← hl₁.scope] at hrest
        exact ((declareParams params h₁).2 e t' hrest).extends hl₁

/-- A function declares its own name, unless it is that of a parameter. -/
theorem declareSelf {f : Func} {l : Layer} {C : Chain} {t : ScopeTable} (h : t.Faithful (l :: C))
    (hl : l.declarations = (f.paramNames.map (·, false)).reverse) :
    (∀ u t', Generate.declareSelf l.scope f.name t = .ok u t' →
      ∃ l', Layer.Extends ((f.name.filter (· ∉ f.paramNames)).toList.map (·, true)) l l' ∧
        t'.Faithful (l' :: C)) ∧
    ∀ e t', Generate.declareSelf l.scope f.name t = .error e t' → t'.Follows l C := by
  cases hname : f.name with
  | none =>
    refine ⟨fun u t' hx => ?_, fun e t' hx => by cases hx⟩
    cases hx
    exact ⟨l, .refl l, h⟩
  | some self =>
    have hknown : (t.get? l.scope self).isNone = true ↔ self ∉ f.paramNames := by
      rw [h.mirrors.1.names self, Option.isNone_iff_eq_none, Layer.find?, List.find?_eq_none]
      have hmem : self ∈ f.paramNames ↔ ∃ symbol ∈ l.symbols, symbol.name = self := by
        have heq : (l.declarations.map Prod.fst).reverse = f.paramNames := by
          rw [hl, List.map_reverse, List.reverse_reverse, List.map_map]
          exact List.map_id _
        rw [← heq, List.mem_reverse, Layer.declarations, List.map_map]
        simp
      rw [hmem]
      simp
    unfold Generate.declareSelf
    dsimp only
    rw [get_bind]
    by_cases hself : self ∈ f.paramNames
    · rw [if_neg (hknown.not.mpr (not_not.mpr hself)),
        Option.filter_some_neg (by simpa using hself)]
      refine ⟨fun u t' hx => ?_, fun e t' hx => by cases hx⟩
      cases hx
      exact ⟨l, .refl l, h⟩
    · rw [if_pos (hknown.mpr hself), Option.filter_some_pos (by simpa using hself)]
      obtain ⟨hok, herr⟩ := declares self true l C h
      refine ⟨fun u t' hx => ?_, fun e t' hx => ?_⟩
      · obtain ⟨symbol, t₁, hd, heq⟩ := bind_eq_ok.mp hx
        obtain ⟨-, rfl⟩ := pure_eq_ok.mp heq
        exact hok symbol t₁ hd
      · rcases bind_eq_error.mp hx with hd | ⟨_, _, _, heq⟩
        · exact herr e t' hd
        · cases heq

/-- **The scope of a function**: its parameters, and then its own name. -/
theorem enter (f : Func) {l : Layer} {C : Chain} {t : ScopeTable} (h : t.Faithful (l :: C)) :
    (∀ inner t', Generate.enter f l.scope t = .ok inner t' →
      ∃ l', l'.scope = inner ∧ l'.declarations = Place.ownNames f ∧ t'.Faithful (l' :: l :: C)) ∧
    ∀ e t', Generate.enter f l.scope t = .error e t' → t'.Follows l C := by
  have outside {l' : Layer} {t' : ScopeTable} (ht : t'.Follows l' (l :: C)) : t'.Follows l C := by
    obtain ⟨_, _, -, ht⟩ := ht
    exact ⟨[], l, .refl l, ht.tail⟩
  refine ⟨fun inner t' hx => ?_, fun e t' hx => ?_⟩
  · obtain ⟨i, t₁, ho, hx⟩ := bind_eq_ok.mp hx
    obtain ⟨_, t₂, hp, hx⟩ := bind_eq_ok.mp hx
    obtain ⟨_, t₃, hself, hx⟩ := bind_eq_ok.mp hx
    obtain ⟨rfl, rfl⟩ := pure_eq_ok.mp hx
    obtain ⟨l₂, hl₂, h₂⟩ :=
      (declareParams f.params (ScopeSession.faithful_openScope h ho)).1 _ t₂ hp
    have hparams : l₂.declarations = (f.paramNames.map (·, false)).reverse :=
      hl₂.declarations.trans (List.append_nil _)
    rw [← show l₂.scope = i from hl₂.scope] at hself
    obtain ⟨l₃, hl₃, h₃⟩ := (declareSelf h₂ hparams).1 _ t₃ hself
    exact ⟨l₃, hl₃.scope.trans hl₂.scope, hl₃.declarations.trans (congrArg _ hparams), h₃⟩
  · rcases bind_eq_error.mp hx with ho | ⟨i, t₁, ho, hx⟩
    · cases ho
    have h₁ := ScopeSession.faithful_openScope h ho
    rcases bind_eq_error.mp hx with hp | ⟨_, t₂, hp, hx⟩
    · exact outside ((declareParams f.params h₁).2 e t' hp)
    obtain ⟨l₂, hl₂, h₂⟩ := (declareParams f.params h₁).1 _ t₂ hp
    have hparams : l₂.declarations = (f.paramNames.map (·, false)).reverse :=
      hl₂.declarations.trans (List.append_nil _)
    rcases bind_eq_error.mp hx with hself | ⟨_, t₃, -, hx⟩
    · rw [← show l₂.scope = i from hl₂.scope] at hself
      exact outside ((declareSelf h₂ hparams).2 e t' hself)
    · cases hx

/-- What declares nothing leaves the scope as it is, also when it is refused. -/
theorem opens {α : Type} {x : Emit α} (hx : Records [] x) (l : Layer) (C : Chain)
    (outer : List Body) :
    Ensures (Emission.Opens l C outer) x (fun _ => Emission.Opens l C outer)
      fun _ s => s.table.Follows l C :=
  (hx l C outer).mono (fun _ h => h) (fun _ _ ⟨_, hl, hs⟩ => hl.eq ▸ hs) fun _ _ h => h

theorem passCell (name : String) (l : Layer) (C : Chain) (outer : List Body) :
    Ensures (Emission.Opens l C outer) (Generate.passCell l.scope name)
      (fun _ => Emission.Opens l C outer) fun _ s => s.table.Follows l C := by
  refine .bind (lookup name l C outer) fun found => ?_
  split
  · exact opens (.throw _) l C outer
  · split
    case h_3 | h_4 => exact opens (.throw _) l C outer
    all_goals exact opens (instruction _ _) l C outer

theorem instantiate (r : Ref .function) (free : List Resolution) (l : Layer) (C : Chain)
    (outer : List Body) :
    Ensures (Emission.Opens l C outer) (Generate.instantiate l.scope r free)
      (fun _ => Emission.Opens l C outer) fun _ s => s.table.Follows l C := by
  refine .bind (opens (fromPool _) l C outer) fun index => ?_
  split
  · exact opens (instruction _ _) l C outer
  · refine .bind (.forM fun found _ => passCell found.symbol.name l C outer) fun _ => ?_
    split
    · exact opens (.last (.throw _) fun _ => instruction _ _) l C outer
    · exact opens (instruction _ _) l C outer

theorem defaultValue (p : Param) : Records [] (Generate.defaultValue p) := by
  unfold Generate.defaultValue
  split
  · exact .pure _
  · split
    · exact .pure _
    · exact .throw _

/-- **A function**, whose names are its own. -/
theorem function (f : Func) {body : Emit Unit} (h : Records ds body) :
    Records [] (Generate.function f body) := by
  have hrest : Records [] (do
      let defaults ← f.params.mapM Generate.defaultValue
      let outer ← Emit.scope
      let inner ← Emit.onTable (Generate.enter f outer)
      Generate.openBody f inner
      Emit.inBlock body
      if !Block.endsWithReturn f.body then Emit.instruction .returnValue [1]
      let r ← Generate.closeBody f defaults inner
      Generate.instantiate outer r ((← get).table.freeVars inner).toList) := by
    refine .last (.mapM defaultValue _) fun defaults => atScope fun l C outer => ?_
    -- the scope of the function, and then its body as well, inside the body that comes back
    let Entered (inner : ScopeId) (s : Emission) : Prop := ∃ l', l'.scope = inner ∧
      s.table.Faithful (l' :: l :: C) ∧ s.body.scope = l.scope ∧ s.enclosing = outer
    let Around (inner : ScopeId) (s : Emission) : Prop :=
      ∃ (l' : Layer) (b : Body), l'.scope = inner ∧
      b.scope = l.scope ∧ s.Opens l' (l :: C) (b :: outer)
    have lift {inner : ScopeId} {γ : Type} {x : Emit γ} (hx : Records [] x) :
        Ensures (Around inner) x (fun _ => Around inner) fun _ s => s.table.Follows l C := by
      rintro s ⟨l', b, hscope, hb, hs⟩
      obtain ⟨hok, herr⟩ := within hx s hs
      refine ⟨fun a s' hx => ?_, herr⟩
      obtain ⟨l'', hl, hs'⟩ := hok a s' hx
      exact ⟨l', b, hscope, hb, hl.eq ▸ hs'⟩
    refine .bind (Q := fun inner => Entered inner) ?_ fun inner =>
      .bind (Q := fun _ => Around inner) ?_ fun _ => .bind (lift (inBlock h)) fun _ => ?_
    · intro s hs
      obtain ⟨hok, herr⟩ := enter f hs.faithful
      cases he : Generate.enter f l.scope s.table with
      | ok inner t =>
        rw [onTable_of_ok he]
        refine ⟨fun a s' hx => ?_, fun e s' hx => by cases hx⟩
        cases hx
        obtain ⟨l', hl', -, ht⟩ := hok inner t he
        exact ⟨l', hl', ht, hs.scope, hs.enclosing⟩
      | error e t =>
        rw [onTable_of_error he]
        refine ⟨fun a s' hx => (by cases hx), fun e s' hx => ?_⟩
        cases hx
        exact herr _ t he
    · rintro ⟨table, b, enclosing, source, functions⟩ ⟨l', hl', ht, hscope, henclosing⟩
      refine ⟨fun a s' hx => ?_, fun e s' hx => by cases hx⟩
      obtain ⟨-, rfl⟩ := EStateM.Result.ok.inj hx
      exact ⟨l', b, hl', hscope, ht, hl'.symm, congrArg (b :: ·) henclosing⟩
    · have hend : Ensures (Around inner) (do
          let r ← Generate.closeBody f defaults inner
          Generate.instantiate l.scope r ((← get).table.freeVars inner).toList)
          (fun _ => Emission.Opens l C outer) fun _ s => s.table.Follows l C := by
        refine .bind (Q := fun _ => Emission.Opens l C outer) ?_ fun r => .get fun s hs => ?_
        · rintro ⟨table, b', enclosing, source, functions⟩ ⟨l', b, -, hb, hs⟩
          refine ⟨fun a s' hx => ?_, fun e s' hx => by cases hx⟩
          obtain ⟨-, rfl⟩ := EStateM.Result.ok.inj hx
          obtain rfl : enclosing = b :: outer := hs.enclosing
          exact ⟨hs.faithful.tail, hb, rfl⟩
        · exact (instantiate r _ l C outer).mono (fun _ ht => ht ▸ hs)
            (fun _ _ h => h) fun _ _ h => h
      refine Ensures.mono (Q := fun _ => Emission.Opens l C outer) ?_ (fun _ h => h)
        (fun _ s hs => ⟨l, .refl l, hs⟩) fun _ _ h => h
      split
      · exact .bind (lift (instruction _ _)) fun _ => hend
      · exact hend
  exact .ite (fun _ => .last (.throw _) fun _ => hrest) fun _ => hrest

end Records

end Emit

/-! ### Plans -/

open Emit

/-- As many lists of jumps as there are cases wait for the bodies. -/
def Arms.length : Arms → Nat
  | .nil => 0
  | .arm _ _ rest => rest.length + 1

theorem Arms.length_of_emitTests : ∀ {c : Arms} {s s' : Emission} {jumps : List (List Nat)},
    c.emitTests s = .ok jumps s' → jumps.length = c.length
  | .nil, _, _, _, h => by
    obtain ⟨rfl, -⟩ := pure_eq_ok.mp h
    rfl
  | .arm _ _ rest, _, _, _, h => by
    obtain ⟨js, m, -, h⟩ := bind_eq_ok.mp h
    obtain ⟨others, m', hr, h⟩ := bind_eq_ok.mp h
    obtain ⟨rfl, -⟩ := pure_eq_ok.mp h
    exact congrArg (· + 1) (Arms.length_of_emitTests hr)

mutual

/-- **Emitting a plan declares what the plan declares.** -/
theorem Plan.records_emit : ∀ p : Plan, Records p.declarations p.emit
  | .skip => .pure ()
  | .seq x y => .bind x.records_emit fun _ => y.records_emit
  | .instr _ => .instruction _ _
  | .const v _ => .constant v
  | .attr _ _ => .last (.fromPool _) fun _ => .instruction _ _
  | .load name => .last (.resolve name) fun r => .load r
  | .update name reads value => by
    refine .after (.resolveAssignable name) fun r => ?_
    cases reads with
    | true => exact .after (.load r) fun _ => .last value.records_emit fun _ => .store r
    | false => exact .last value.records_emit fun _ => .store r
  | .declare name constant => .declare name constant
  | .declareAll names =>
    .last (.newNames names) fun _ => .last .slotStore fun _ => .forM fun _ _ => .instruction _ _
  | .refuse e => .throw e
  | .outsidePipe => .look fun _ => .ite (fun _ => .throw _) fun _ => .pure ()
  | .stages body =>
    .after (.onBody fun _ => rfl) fun _ => .last body.records_emit fun _ => .onBody fun _ => rfl
  | .insideFunction => .look fun _ => .ite (fun _ => .throw _) fun _ => .pure ()
  | .leave isBreak => .leaveLoop isBreak
  | .branch condition ifTrue ifFalse => by
    rw [Plan.declarations, ← List.append_assoc]
    refine .bind condition.records_emit fun _ => .after (.emit _ _) fun _ =>
      .bind ifTrue.records_emit fun _ => .after (.emit _ _) fun _ =>
        .after (.landHere _) fun _ => .last ifFalse.records_emit fun _ => .landHere _
  | .shortCircuit _ left right =>
    .bind left.records_emit fun _ => .after (.instruction _ _) fun _ =>
      .after (.emit _ _) fun _ => .last right.records_emit fun _ =>
        .last (.instruction _ _) fun _ => .last (.landHere _) fun _ => .instruction _ _
  | .switch subject arms default => by
    rw [Plan.declarations, ← List.append_assoc, ← List.append_assoc]
    refine .bind subject.records_emit fun _ =>
      .bindThen arms.records_emitTests fun jumps s m hjumps => .after (.emit _ _) fun _ =>
        .last (.holding
          (.bind (arms.records_emitBodies jumps (Arms.length_of_emitTests hjumps)) fun _ =>
            .after (.landHere _) fun _ => .last default.records_emit fun _ =>
              .forM fun _ _ => .landHere _))
        fun _ => .last (.instruction _ _) fun _ => .instruction _ _
  | .block body => .inBlock body.records_emit
  | .loop tested condition body post => by
    rw [Plan.declarations, ← List.append_assoc]
    refine .after .position fun _ => .bind condition.records_emit fun _ =>
      .after ?_ fun leave => .bind (.loopBody body.records_emit) fun _ =>
        .after .position fun _ => .last post.records_emit fun _ =>
          .last (.jumpBack _) fun _ => .last .position fun _ => ?_
    · cases tested with
      | true => exact .last (.emit _ _) fun _ => .pure _
      | false => exact .pure _
    · cases leave with
      | none => exact .last (.pure _) fun _ => .last (.instruction _ _) fun _ => .closeLoop _ _ _
      | some j => exact .last (.landHere j) fun _ => .last (.instruction _ _) fun _ =>
          .closeLoop _ _ _
  | .iterate _ bind body =>
    .after .position fun _ => .after (.emit _ _) fun _ =>
      .bind bind.records_emit fun _ =>
        .last (.loopBody body.records_emit) fun _ => .last .position fun _ =>
          .last (.jumpBack _) fun _ => .last .position fun _ => .last (.instruction _ _) fun _ =>
            .last (.landHere _) fun _ => .last (.instruction _ _) fun _ => .closeLoop _ _ _
  | .func f body => .function f body.records_emit

/-- The tests of all cases. -/
theorem Arms.records_emitTests : ∀ c : Arms, Records c.testDeclarations c.emitTests
  | .nil => .pure _
  | .arm tests _ rest =>
    .bind tests.records_emit fun _ => .last rest.records_emitTests fun _ => .pure _

/-- The tests of a case. -/
theorem Tests.records_emit : ∀ t : Tests, Records t.declarations t.emit
  | .nil => .pure _
  | .test value rest =>
    .after (.instruction _ _) fun _ => .bind value.records_emit fun _ =>
      .after (.instruction _ _) fun _ => .after (.emit _ _) fun _ =>
        .last rest.records_emit fun _ => .pure _

/-- The bodies of all cases. -/
theorem Arms.records_emitBodies : ∀ (c : Arms) (jumps : List (List Nat)), jumps.length = c.length →
    Records c.bodyDeclarations (c.emitBodies jumps)
  | .nil, _, _ => .pure _
  | .arm _ _ _, [], h => by cases h
  | .arm _ body rest, _ :: pending, h =>
    .after (.forM fun _ _ => .landHere _) fun _ => .bind body.records_emit fun _ =>
      .after (.emit _ _) fun _ =>
        .last (rest.records_emitBodies pending (Nat.succ.inj h)) fun _ => .pure _

end

/-! ### Places -/

/-- **The text has declared the same names** as the open scopes. -/
def Place.Matches (P : Place) (C : Chain) : Prop :=
  List.Forall₂ (fun (ds : Declarations) (l : Layer) =>
    ∀ name, ds.lookup name = (l.find? name).map Symbol.constant) P.scopes C

namespace Place

variable {P : Place} {l l' : Layer} {C : Chain} {ds : Declarations}

/-- What names of a scope are constants can be looked up in what it declared. -/
theorem lookup_map (name : String) : ∀ symbols : List Symbol,
    (symbols.map fun symbol => (symbol.name, symbol.constant)).lookup name =
      (symbols.find? (·.name == name)).map Symbol.constant
  | [] => rfl
  | symbol :: symbols => by
    rw [List.map_cons, List.lookup_cons, List.find?_cons, lookup_map name symbols,
      show (name == symbol.name) = (symbol.name == name) from BEq.comm]
    cases symbol.name == name <;> rfl

theorem Matches.declare (h : P.Matches (l :: C)) (hl : Layer.Extends ds l l') :
    (P.declare ds).Matches (l' :: C) := by
  obtain ⟨piped, scopes⟩ := P
  obtain ⟨symbols, rfl, rfl⟩ := hl
  obtain _ | @⟨known, _, scopes, _, hknown, hC⟩ := h
  refine .cons (fun name => ?_) hC
  show ((symbols.map fun symbol => (symbol.name, symbol.constant)) ++ known).lookup name =
    ((symbols ++ l.symbols).find? (·.name == name)).map Symbol.constant
  rw [List.lookup_append, lookup_map, hknown, List.find?_append, Layer.find?]
  cases symbols.find? (·.name == name) <;> rfl

theorem Matches.open (h : P.Matches C) (scope : ScopeId) (kind : ScopeKind) :
    P.inBlock.Matches (⟨scope, kind, []⟩ :: C) :=
  .cons (fun _ => rfl) h

end Place

/-! ### Reaching a place -/

section Reaching

variable {P Q : Place} {s t : Emission} {l : Layer} {C : Chain} {outer : List Body}

/-- **The open scopes are those of the text.** -/
def Place.Describes (P : Place) (s : Emission) : Prop :=
  ∃ l C outer, s.Opens l C outer ∧ P.Matches (l :: C)

/-- The place behind steps that declare names. -/
theorem Place.Describes.behind {α : Type} {ds : Declarations} {x : Emit α} {a : α}
    (h : P.Describes s)
    (hx : Records ds x) (ha : x s = .ok a t) : (P.declare ds).Describes t := by
  obtain ⟨l, C, outer, hs, hP⟩ := h
  obtain ⟨l', hl, ht⟩ := (hx l C outer s hs).1 a t ha
  exact ⟨l', C, outer, ht, hP.declare hl⟩

/-- The place behind steps that declare nothing. -/
theorem Place.Describes.after {α : Type} {x : Emit α} {a : α} (h : P.Describes s)
    (hx : Records [] x) (ha : x s = .ok a t) : P.Describes t := by
  obtain ⟨l, C, outer, hs, hP⟩ := h
  obtain ⟨l', hl, ht⟩ := (hx l C outer s hs).1 a t ha
  exact ⟨l, C, outer, hl.eq ▸ ht, hP⟩

/-- The open scopes do not depend on jumps, loops and pipes. -/
theorem Place.Describes.of_eq (h : P.Describes s) (ht : t.table = s.table)
    (hb : t.body.scope = s.body.scope) (hQ : Q.scopes = P.scopes) : Q.Describes t := by
  obtain ⟨l, C, outer, hs, hP⟩ := h
  refine ⟨l, C, t.enclosing, ⟨ht ▸ hs.faithful, hb.trans hs.scope, rfl⟩, ?_⟩
  unfold Place.Matches
  rw [hQ]
  exact hP

theorem Tests.Comes.describes {q : Plan} {tests : Tests} (h : tests.Comes P s q Q t)
    (hs : P.Describes s) :
    Q.Describes t := by
  induction h with
  | here hcopy => exact hs.after (.instruction _ _) hcopy
  | @later value q rest P Q s m₁ m₂ m₃ m₄ t j hcopy hvalue hcompare hjump _ ih =>
    exact ih (((hs.after (.instruction _ _) hcopy).behind value.records_emit hvalue).after
      (.instruction _ _) hcompare |>.after (.emit _ _) hjump)

theorem Arms.ComesToTest.describes {q : Plan} {arms : Arms} (h : arms.ComesToTest P s q Q t)
    (hs : P.Describes s) : Q.Describes t := by
  induction h with
  | here h => exact h.describes hs
  | @later tests body q rest P Q s m t js htests _ ih =>
    exact ih (hs.behind tests.records_emit htests)

theorem Arms.ComesToBody.describes {q : Plan} {arms : Arms} {jumps : List (List Nat)}
    (h : arms.ComesToBody jumps P s q Q t) (hs : P.Describes s) : Q.Describes t := by
  induction h with
  | here hland => exact hs.after (.forM fun _ _ => .landHere _) hland
  | @later tests body q rest js pending P Q s m₁ m₂ m₃ t done hland hbody hdone _ ih =>
    exact ih (((hs.after (.forM fun _ _ => .landHere _) hland).behind body.records_emit hbody).after
      (.emit _ _) hdone)

theorem exitIf_records (tested : Bool) : Records [] (exitIf tested) := by
  cases tested with
  | true => exact .last (.emit _ _) fun _ => .pure _
  | false => exact .pure _

/-- **Wherever a compilation comes to**, the open scopes are those of the text. -/
theorem Plan.Reaches.describes {p q : Plan} (h : p.Reaches P s q Q t) (hs : P.Describes s) :
    Q.Describes t := by
  induction h with
  | refl => exact hs
  | first _ ih | condition _ ih | left _ ih | subject _ ih | loopCondition _ ih => exact ih hs
  | second hx _ ih => exact ih (hs.behind (Plan.records_emit _) hx)
  | @update name reads value q P Q s m₁ m₂ t r hr hload _ ih =>
    have h₁ := hs.after (.resolveAssignable name) hr
    cases reads with
    | true => exact ih (h₁.after (.load r) hload)
    | false =>
      obtain ⟨-, rfl⟩ := pure_eq_ok.mp hload
      exact ih h₁
  | stages _ ih => exact ih (hs.of_eq rfl rfl rfl)
  | ifTrue hc hj _ ih => exact ih ((hs.behind (Plan.records_emit _) hc).after (.emit _ _) hj)
  | ifFalse hc hj ht hd hl _ ih =>
    exact ih (((((hs.behind (Plan.records_emit _) hc).after (.emit _ _) hj).behind
      (Plan.records_emit _) ht).after (.emit _ _) hd).after (.landHere _) hl)
  | right hl hcopy hj _ ih =>
    exact ih (((hs.behind (Plan.records_emit _) hl).after (.instruction _ _) hcopy).after
      (.emit _ _) hj)
  | test hsubject hc _ ih => exact ih (hc.describes (hs.behind (Plan.records_emit _) hsubject))
  | arm hsubject ht hj hh hc _ ih =>
    exact ih (hc.describes ((((hs.behind (Plan.records_emit _) hsubject).behind
      (Arms.records_emitTests _) ht).after (.emit _ _) hj).after (.onLoop _) hh))
  | otherwise hsubject ht hj hh hb hl _ ih =>
    refine ih ((((((hs.behind (Plan.records_emit _) hsubject).behind
      (Arms.records_emitTests _) ht).after (.emit _ _) hj).after (.onLoop _) hh).behind
        (Arms.records_emitBodies _ _ (Arms.length_of_emitTests ht)) hb).after (.landHere _) hl)
  | @block body q P Q s m t inner hi _ ih =>
    obtain ⟨l, C, outer, hs, hP⟩ := hs
    obtain ⟨table, ho, rfl⟩ := onTable_eq_ok.mp hi
    rw [hs.scope] at ho
    exact ih ⟨_, _, outer, ⟨ScopeSession.faithful_openScope hs.faithful ho, rfl, hs.enclosing⟩,
      hP.open inner .block⟩
  | loopBody hc he _ ih =>
    exact ih (((hs.behind (Plan.records_emit _) hc).after (exitIf_records _) he).of_eq rfl rfl rfl)
  | loopPost hc he hb _ ih =>
    exact ih (((hs.behind (Plan.records_emit _) hc).after (exitIf_records _) he).behind
      (.loopBody (Plan.records_emit _)) hb)
  | binding ha _ ih => exact ih (hs.after (.emit _ _) ha)
  | round ha hb _ ih =>
    exact ih (((hs.after (.emit _ _) ha).behind (Plan.records_emit _) hb).of_eq rfl rfl rfl)
  | @func f body q P Q s m₁ m₂ m₃ t defaults inner block hcount hd he ho _ ih =>
    obtain ⟨l, C, outer, h₁, hP⟩ := hs.after (.mapM Records.defaultValue _) hd
    obtain ⟨table, henter, rfl⟩ := onTable_eq_ok.mp he
    obtain ⟨opened, hopen, rfl⟩ := onTable_eq_ok.mp ho
    rw [h₁.scope] at henter
    obtain ⟨l', hl', hnames, ht⟩ := (Records.enter f h₁.faithful).1 inner table henter
    rw [← hl'] at hopen
    refine ih ⟨⟨block, .block, []⟩, l' :: l :: C, _,
      ⟨ScopeSession.faithful_openScope ht hopen, rfl, rfl⟩, .cons (fun _ => rfl)
        (.cons (fun name => ?_) hP)⟩
    rw [← hnames]
    exact Place.lookup_map name l'.symbols

end Reaching

end ScriptEngine
