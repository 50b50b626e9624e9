import ScriptEngine.Proofs.Layout.Lockstep

/-!
# Plans emitted twice

Every plan is emitted in lockstep from states that differ by a pairing, as long as it mentions no
hidden name.

## Main definitions

* `ScriptEngine.Plan.Mentions`: the names that a plan looks up or declares.

## Main results

* `ScriptEngine.Pairing.Matched.function`: functions are emitted in lockstep;
* `ScriptEngine.Plan.matched`: plans are emitted in lockstep.
-/

namespace ScriptEngine

open ScopeTable Emit

/-- The code of a function before anything is emitted. -/
def freshCode (f : Func) (source : Option String) : Code :=
  { name := f.name, source }

namespace Emission

/-- The state in another scope. -/
def withScope (s : Emission) (c : ScopeId) : Emission :=
  { s with body := { s.body with scope := c } }

/-- The state in which the body of a function begins. -/
def beginBody (s : Emission) (f : Func) (inner : ScopeId) : Emission :=
  { s with
    enclosing := s.body :: s.enclosing
    body := { code := freshCode f s.source, scope := inner } }

/-- The function of a body that ends. -/
def bodyFunction (s : Emission) (f : Func) (defaults : List (Option Value)) (inner : ScopeId) :
    Function :=
  ⟨f.name, f.paramNames, defaults, { s.body.code with localCount := s.table.slotCount inner }⟩

/-- The state in which the body of a function has ended. -/
def endBody (s : Emission) (f : Func) (defaults : List (Option Value))
    (inner : ScopeId) : Emission :=
  { s with
    body := s.enclosing.headD default
    enclosing := s.enclosing.tail
    functions := s.functions.push (s.bodyFunction f defaults inner) }

end Emission

namespace Pairing

variable {φ : Pairing}

/-- The scope in which code is emitted. -/
def Fact.inScope (c : ScopeId) : φ.Fact :=
  ⟨fun s _ => s.body.scope = c, fun h hs => h.scope.trans hs⟩

namespace Alike

variable {α β : Type} {s t : Emission}

/-- **A step on the scopes.** -/
theorem onTable {x : Scoped α} {y : Scoped β} {S : α → β → ScopeTable → Prop}
    {T : α → ScopeTable → Prop} {E : CompileError → ScopeTable → Prop} (hst : φ.Alike s t)
    (hx : Ensures (From False s.table s.body.scope) x
      (fun a u => From False s.table s.body.scope u ∧ T a u) E)
    (h : Lockstep (fun a b u u' => φ.Tables u u' ∧ s.table.scopes.size ≤ u.scopes.size ∧ S a b u)
      (fun _ u u' => φ.Tables u u') φ.Exhausted (x s.table) (y t.table)) :
    Lockstep (fun a b s' t' => φ.Alike s' t' ∧ φ.Evolves s t s' t' ∧ S a b s'.table ∧ T a s'.table)
      (fun _ s' t' => φ.Refused s s' t') (fun e t' => φ.Exhausted e t'.table)
      (onTable x s) (onTable y t) := by
  have hx := (hx s.table (.refl hst.tables.left hst.known)).1
  generalize hr : x s.table = r, hr' : y t.table = r' at h hx
  cases h with
  | ok h =>
    obtain ⟨ht, -, hq⟩ := h
    obtain ⟨hf, hT⟩ := hx _ _ rfl
    obtain ⟨h', he⟩ := hst.withTable ht hf.grows
    rw [onTable_of_ok hr, onTable_of_ok hr']
    exact .ok ⟨h', he, hq, hT⟩
  | error ht =>
    rw [onTable_of_error hr, onTable_of_error hr']
    exact .error (hst.refused rfl rfl ht)
  | gaveUp h =>
    rw [onTable_of_error hr']
    exact .gaveUp h

/-- States in another scope that can be seen. -/
theorem withScope (hst : φ.Alike s t) {c : ScopeId} (hv : φ.Visible c)
    (hc : c.index < s.table.scopes.size) : φ.Alike (s.withScope c) (t.withScope (φ.scope c)) :=
  { hst with visible := hv, known := hc, scope := rfl }

theorem isGlobal (hst : φ.Alike s t) :
    t.table.isGlobal t.body.scope = s.table.isGlobal s.body.scope := by
  rw [hst.scope]
  exact hst.tables.isGlobal hst.visible hst.known

end Alike

namespace Matched

variable {α β γ δ : Type} {P : φ.Fact} {Q : α → β → φ.Fact} {R : γ → δ → φ.Fact}

/-! ### Names -/

/-- A step at the scope in which code is emitted. -/
theorem atScope {f : ScopeId → Emit γ} {g : ScopeId → Emit δ}
    (h : ∀ c, φ.Matched (P.and (.inScope c)) (f c) (g (φ.scope c)) R) :
    φ.Matched P (scope >>= f) (scope >>= g) R := by
  refine look fun s t hst hp => ?_
  have := h s.body.scope s t hst ⟨hp, rfl⟩
  rw [← hst.scope] at this
  exact this

theorem resolveAt {name : String} (hn : ¬ φ.hidden name) {c : ScopeId}
    (hc : ∀ s t, P.holds s t → s.body.scope = c) :
    φ.Matched P (Emit.onTable (ScopeTable.resolve c name))
      (Emit.onTable (ScopeTable.resolve (φ.scope c) name)) fun a b =>
        .that (b = a.map φ.resolution) := by
  intro s t hst hp
  obtain rfl := hc s t hp
  exact (hst.onTable (S := fun (a b : Option Resolution) _ => b = a.map φ.resolution)
      (ensures_resolve name)
    (hst.tables.resolve hst.visible hst.known hn)).mono
      (fun _ _ _ _ h => ⟨h.1, h.2.1, h.2.2.1⟩) fun _ _ _ h => h

theorem resolve {name : String} (hn : ¬ φ.hidden name) :
    φ.Matched P (resolve name) (resolve name) fun a b => .that (b = φ.resolution a) :=
  atScope fun c => bindThat (resolveAt hn fun _ _ h => h.2) fun a b hab => by
    subst hab
    cases a with
    | none => exact throw _
    | some r => exact pure fun _ _ _ => rfl

theorem resolveAssignable {name : String} (hn : ¬ φ.hidden name) :
    φ.Matched P (resolveAssignable name) (resolveAssignable name) fun a b =>
      .that (b = φ.resolution a) :=
  bindThat (resolve hn) fun r r' hr => by
    subst hr
    dsimp only
    rw [Shift.resolution_constant, Shift.resolution_storage]
    exact ite (fun _ => bind (Q := fun _ _ => .always) (throw _) fun _ _ => pure fun _ _ _ => rfl)
      fun _ => pure fun _ _ _ => rfl

/-- An instruction with the slot of a global. -/
theorem onGlobal {op : Opcode} (hop : op.namesGlobal = true) (hl : op.operandCount = 1) (w : Word) :
    φ.Matched P (Emit.instruction op [w]) (Emit.instruction op [φ.slot w]) fun _ _ => .always := by
  have : φ.Matched P (Emit.instruction op [w])
      (Emit.instruction op (op.renumber φ.slot [w])) fun _ _ => .always := renumbered op hl.symm
  unfold Opcode.renumber at this
  rwa [hop] at this

theorem load (r : Resolution) :
    φ.Matched P (load r) (load (φ.resolution r)) fun _ _ => .always := by
  unfold Emit.load
  rw [Shift.resolution_storage]
  unfold Shift.resolution
  cases hr : r.storage with
  | global =>
    dsimp only
    rw [if_pos rfl]
    exact onGlobal rfl rfl _
  | _ => exact instruction _ rfl rfl

theorem store (r : Resolution) :
    φ.Matched P (store r) (store (φ.resolution r)) fun _ _ => .always := by
  unfold Emit.store
  rw [Shift.resolution_storage, Shift.resolution_name]
  unfold Shift.resolution
  cases hr : r.storage with
  | global =>
    dsimp only
    rw [if_pos rfl]
    exact onGlobal rfl rfl _
  | builtin => exact throw _
  | _ => exact instruction _ rfl rfl

/-- **A new name** keeps the kind of the scope. -/
theorem newName {s t : Emission} (hst : φ.Alike s t) {name : String} (hn : ¬ φ.hidden name)
    (constant : Bool) :
    Lockstep (fun a b s' t' => φ.Alike s' t' ∧ φ.Evolves s t s' t' ∧
        b = φ.symbol (s.table.isGlobal s.body.scope) a ∧
        s'.table.isGlobal s'.body.scope = s.table.isGlobal s.body.scope)
      (fun _ s' t' => φ.Refused s s' t') (fun e t' => φ.Exhausted e t'.table)
      (newName name constant s) (newName name constant t) := by
  have := hst.tables.declare hst.visible hst.known hn constant
  rw [← hst.scope] at this
  exact (hst.onTable (S := fun a b u => b = φ.symbol (s.table.isGlobal s.body.scope) a ∧
      u.isGlobal s.body.scope = s.table.isGlobal s.body.scope) (ensures_declare id name constant)
    this).mono (fun _ _ _ _ h => ⟨h.1, h.2.1, h.2.2.1.1, h.2.1.scope.symm ▸ h.2.2.1.2⟩)
    fun _ _ _ h => h

/-- New names in a row. -/
theorem newNames : ∀ {names : List String} {s t : Emission}, φ.Alike s t →
    (∀ name ∈ names, ¬ φ.hidden name) →
      Lockstep (fun as bs s' t' => φ.Alike s' t' ∧ φ.Evolves s t s' t' ∧
          bs = as.map (φ.symbol (s.table.isGlobal s.body.scope)) ∧
          s'.table.isGlobal s'.body.scope = s.table.isGlobal s.body.scope)
        (fun _ s' t' => φ.Refused s s' t') (fun e t' => φ.Exhausted e t'.table)
        ((names.mapM fun name => Emit.newName name false) s)
        ((names.mapM fun name => Emit.newName name false) t)
  | [], s, t, hst, _ => .ok ⟨hst, .refl s t, rfl, rfl⟩
  | name :: names, s, t, hst, hn => by
    rw [List.mapM_cons]
    refine Lockstep.bind (newName hst (hn name (List.mem_cons_self ..)) false)
      (fun a b s₁ t₁ h₁ => ?_) fun _ _ _ h => h
    obtain ⟨h₁, he₁, rfl, hg₁⟩ := h₁
    refine Lockstep.bind (newNames h₁ fun other ho => hn other (List.mem_cons_of_mem _ ho))
      (fun as bs s₂ t₂ h₂ => ?_) fun _ _ _ h => he₁.refused h
    obtain ⟨h₂, he₂, rfl, hg₂⟩ := h₂
    exact .ok ⟨h₂, he₁.trans he₂, by rw [hg₁]; rfl, hg₂.trans hg₁⟩

/-- The opcode that stores into a slot, according to the kind of the scope. -/
theorem storesSymbol (isGlobal : Bool) (symbol : Symbol) :
    φ.Matched P (Emit.instruction (if isGlobal then .storeGlobal else .storeFast) [symbol.index])
      (Emit.instruction (if isGlobal then .storeGlobal else .storeFast)
        [(φ.symbol isGlobal symbol).index]) fun _ _ => .always := by
  cases isGlobal with
  | true => exact onGlobal rfl rfl _
  | false => exact instruction _ rfl rfl

/-- Symbols of the current scope are stored alike. -/
theorem intoSlots {s t : Emission} (hst : φ.Alike s t) {f : Opcode → Emit Unit}
    {g : Opcode → Emit Unit}
    (h : φ.Matched .always (f (if s.table.isGlobal s.body.scope then .storeGlobal else .storeFast))
      (g (if s.table.isGlobal s.body.scope then .storeGlobal else .storeFast)) fun _ _ => .always) :
    Lockstep (fun _ _ s' t' => φ.Alike s' t' ∧ φ.Evolves s t s' t' ∧ True)
      (fun _ s' t' => φ.Refused s s' t') (fun e t' => φ.Exhausted e t'.table)
      ((slotStore >>= f) s) ((slotStore >>= g) t) := by
  have := h s t hst trivial
  show Lockstep _ _ _
    (f (if s.table.isGlobal s.body.scope then .storeGlobal else .storeFast) s)
    (g (if t.table.isGlobal t.body.scope then .storeGlobal else .storeFast) t)
  rw [hst.isGlobal]
  exact this

theorem declare {name : String} (hn : ¬ φ.hidden name) (constant : Bool) :
    φ.Matched P (declare name constant) (declare name constant) fun _ _ => .always := by
  intro s t hst _
  refine Lockstep.bind (newName hst hn constant) (fun a b s₁ t₁ h₁ => ?_) fun _ _ _ h => h
  obtain ⟨h₁, he₁, rfl, hg₁⟩ := h₁
  refine (intoSlots h₁ ?_).mono (fun _ _ _ _ h => ⟨h.1, he₁.trans h.2.1, trivial⟩) fun _ _ _ h =>
    he₁.refused h
  rw [hg₁]
  exact storesSymbol _ _

theorem declareAll {names : List String} (hn : ∀ name ∈ names, ¬ φ.hidden name) :
    φ.Matched P (Plan.declareAll names).emit (Plan.declareAll names).emit fun _ _ => .always := by
  intro s t hst _
  refine Lockstep.bind (newNames hst hn) (fun as bs s₁ t₁ h₁ => ?_) fun _ _ _ h => h
  obtain ⟨h₁, he₁, rfl, hg₁⟩ := h₁
  refine (intoSlots h₁ ?_).mono (fun _ _ _ _ h => ⟨h.1, he₁.trans h.2.1, trivial⟩) fun _ _ _ h =>
    he₁.refused h
  rw [hg₁, ← List.map_reverse]
  generalize as.reverse = l
  induction l with
  | nil => exact pure fun _ _ _ => trivial
  | cons a l ih => exact seq (storesSymbol _ a) fun _ _ => ih

/-! ### Blocks and functions -/

theorem setScope_eq (c : ScopeId) (s : Emission) :
    Emit.onBody (fun b => ((), { b with scope := c })) s = .ok () (s.withScope c) := rfl

/-- **A block.** -/
theorem inBlock {x y : Emit Unit} (h : φ.Matched .always x y fun _ _ => .always) :
    φ.Matched P (inBlock x) (inBlock y) fun _ _ => .always := by
  intro s t hst _
  have := hst.tables.openScope hst.visible hst.known .block
  rw [← hst.scope] at this
  refine Lockstep.after (a := s.body.scope) (b := t.body.scope) rfl rfl (Lockstep.bind (hst.onTable
    (S := fun inner inner' u => inner' = φ.scope inner ∧ φ.Visible inner ∧
      inner.index < u.scopes.size) (ensures_openScope .block) this)
        (fun inner inner' s₁ t₁ h₁ => ?_)
    fun _ _ _ h => h)
  obtain ⟨h₁, he₁, ⟨rfl, hv, hi⟩, -⟩ := h₁
  refine Lockstep.after (setScope_eq ..) (setScope_eq ..) (Lockstep.bind
    (h _ _ (h₁.withScope hv hi) trivial) (fun _ _ s₂ t₂ h₂ => ?_) fun _ _ _ h =>
      he₁.refused ⟨h.retains, h.tables⟩)
  obtain ⟨h₂, he₂, -⟩ := h₂
  have hgrows := he₁.grows.trans he₂.grows
  have h₃ := h₂.withScope hst.visible (Nat.lt_of_lt_of_le hst.known hgrows.size)
  rw [← hst.scope] at h₃
  exact .ok ⟨h₃, ⟨fun p p' hp => he₂.waits p p' (he₁.waits p p' hp), hgrows, rfl,
    he₂.left.trans he₁.left, he₂.right.trans he₁.right⟩, trivial⟩

theorem passCell {c : ScopeId} {name : String} (hn : ¬ φ.hidden name) :
    φ.Matched (P.and (.inScope c)) (Generate.passCell c name)
      (Generate.passCell (φ.scope c) name) fun _ _ => .always := by
  refine bindThat (resolveAt hn fun _ _ h => h.2) fun a b hab => ?_
  subst hab
  cases a with
  | none => exact throw _
  | some r =>
    dsimp only [Option.map_some]
    rw [Shift.resolution_storage]
    cases hr : r.storage with
    | global => exact throw _
    | builtin => exact throw _
    | _ =>
      rw [Shift.resolution_of_ne (by rw [hr]; exact Storage.noConfusion)]
      exact instruction _ rfl rfl

theorem instantiate {c : ScopeId} (r : Ref .function) {free : List Resolution}
    (hn : ∀ found ∈ free, ¬ φ.hidden found.symbol.name) :
    φ.Matched (P.and (.inScope c)) (Generate.instantiate c r free)
      (Generate.instantiate (φ.scope c) r free) fun _ _ => .always := by
  refine bindThat (constantIndex _) fun i j hij => ?_
  subst hij
  refine ite (fun _ => instruction _ rfl rfl) fun _ => seq
    (each fun found hf => passCell (hn found hf))
    fun _ _ => ?_
  exact ite (fun _ => seq (throw _) fun _ _ => instruction _ rfl rfl) fun _ => instruction _ rfl rfl

theorem defaultValue (p : Param) :
    φ.Matched P (Generate.defaultValue p) (Generate.defaultValue p) fun a b => .that (b = a) := by
  unfold Generate.defaultValue
  cases p.default with
  | none => exact pure fun _ _ _ => rfl
  | some e =>
    dsimp only
    cases Generate.literal? e with
    | none => exact throw _
    | some v => exact pure fun _ _ _ => rfl

theorem defaultValues : ∀ ps : List Param, φ.Matched P (ps.mapM Generate.defaultValue)
    (ps.mapM Generate.defaultValue) fun a b => .that (b = a)
  | [] => pure fun _ _ _ => rfl
  | p :: ps => by
    rw [List.mapM_cons]
    exact bindThat (defaultValue p) fun a b hab => bindThat (defaultValues ps) fun as bs habs =>
      pure fun _ _ _ => by rw [hab, habs]; rfl

end Matched

/-! ### Functions -/

variable (φ) in
/-- The pairing of two bodies that begin. -/
abbrev inside (fresh : Code) : Pairing :=
  { φ with old := fresh, start := 0 }

theorem openBody_eq (f : Func) (inner : ScopeId) (s : Emission) :
    Generate.openBody f inner s = .ok () (s.beginBody f inner) := rfl

theorem closeBody_eq (f : Func) (defaults : List (Option Value)) (inner : ScopeId) (s : Emission) :
    Generate.closeBody f defaults inner s =
      .ok ⟨s.functions.size⟩ (s.endBody f defaults inner) := rfl

namespace Alike

variable {s t s' t' : Emission} {f : Func} {inner : ScopeId}

/-- **A body begins** on both sides. -/
theorem beginBody (h : φ.Alike s t) (hv : φ.Visible inner)
    (hi : inner.index < s.table.scopes.size) :
    (φ.inside (freshCode f s.source)).Alike (s.beginBody f inner)
      (t.beginBody f (φ.scope inner)) := by
  unfold Emission.beginBody
  rw [h.source]
  exact ⟨h.tables, hv, hi, rfl, .refl _, rfl, .refl _ _, .nil, rfl, rfl, rfl, h.functions_size,
    h.functions⟩

/-- The functions of two bodies that end. -/
theorem bodyFunction {fresh : Code} (h : (φ.inside fresh).Alike s t) (hv : φ.scopes ≤ inner.index)
    (hi : inner.index < s.table.scopes.size) (hk : (s.table.scope inner).kind = .function)
    (hfresh : fresh.size = 0) (defaults : List (Option Value)) :
    φ.Functions (s.bodyFunction f defaults inner)
      (t.bodyFunction f defaults (φ.scope inner)) := by
  have hcount : t.table.slotCount (φ.scope inner) = s.table.slotCount inner := by
    obtain ⟨hf, -⟩ := h.tables.functionScope (.inr hv) hi
    unfold ScopeTable.slotCount
    rw [hf, functionScope_of_function hk]
    exact (h.tables.scopes inner hv hi).slots
  refine ⟨rfl, ?_, ?_⟩
  · unfold Emission.bodyFunction
    rw [hcount, h.code]
  · have := h.parallel.of_words (c := { s.body.code with localCount := s.table.slotCount inner })
      (d := { t.body.code with localCount := t.table.slotCount (φ.scope inner) })
      (fun _ _ _ _ hx => hx) fun _ _ _ _ hx => hx
    rwa [show (φ.inside fresh).old.size = 0 from hfresh] at this

/-- **A body ends** on both sides, and what was around it goes on. -/
theorem endBody (h : φ.Alike s t) (hv : φ.scopes ≤ inner.index)
    (hi : inner.index < s.table.scopes.size) (hk : (s.table.scope inner).kind = .function)
    (h' : (φ.inside (freshCode f s.source)).Alike s' t')
    (he : (φ.inside (freshCode f s.source)).Evolves (s.beginBody f inner)
      (t.beginBody f (φ.scope inner)) s' t')
    (defaults : List (Option Value)) :
    φ.Alike (s'.endBody f defaults inner) (t'.endBody f defaults (φ.scope inner)) ∧
      φ.Evolves s t (s'.endBody f defaults inner)
        (t'.endBody f defaults (φ.scope inner)) := by
  have hgrows : s.table.Grows s'.table := he.grows
  have hsize := hgrows.size
  have hleft : s'.enclosing = s.body :: s.enclosing := he.left
  have hright : t'.enclosing = t.body :: t.enclosing := he.right
  have hfun := h'.bodyFunction (f := f) hv (Nat.lt_of_lt_of_le hi hsize)
    ((hgrows.scope inner hi).kind.trans hk) rfl defaults
  unfold Emission.endBody
  rw [hleft, hright]
  refine ⟨⟨h'.tables, h.visible, Nat.lt_of_lt_of_le h.known hsize, h.scope, h.extends_old, h.code,
    h.parallel, h.loops, h.inPipe, h.nested, h'.source, ?_, fun i g hi hg => ?_⟩,
    fun _ _ hp => hp, hgrows, rfl, rfl, rfl⟩
  · rw [Array.size_push, Array.size_push, h'.functions_size]
  · rw [Array.getElem?_push] at hg ⊢
    rw [h'.functions_size]
    split at hg
    · rename_i heq
      cases hg
      exact ⟨_, if_pos heq, hfun⟩
    · rename_i hne
      obtain ⟨g', hg', hfg⟩ := h'.functions i g hi hg
      exact ⟨g', (if_neg hne).trans hg', hfg⟩

end Alike

/-- A refusal inside the body leaves the code around it alone. -/
theorem Alike.refused_of_beginBody {s t s' t' : Emission} {f : Func} {inner : ScopeId}
    {fresh : Code}
    (h : φ.Alike s t) (hr : (φ.inside fresh).Refused (s.beginBody f inner) s' t') :
    φ.Refused s s' t' := by
  obtain ⟨⟨above, b, hb, -⟩, ht⟩ := hr
  refine ⟨⟨above ++ [b], s.body, ?_, h.extends_old⟩, ht⟩
  rw [hb, List.append_assoc]
  rfl

/-- **From the end of a body on**, the code goes on where the function stands: its closure is made
in the scope around it, of the same variables. -/
theorem Alike.closeFunction {s t s₁ t₁ s₂ t₂ : Emission} {f : Func} {inner : ScopeId}
    (hst : φ.Alike s t) (h₁ : φ.Alike s₁ t₁) (he₁ : φ.Evolves s t s₁ t₁)
    (hv : φ.scopes ≤ inner.index) (hi : inner.index < s₁.table.scopes.size)
    (hk : (s₁.table.scope inner).kind = .function)
    (h₂ : (φ.inside (freshCode f s₁.source)).Alike s₂ t₂)
    (he₂ : (φ.inside (freshCode f s₁.source)).Evolves (s₁.beginBody f inner)
      (t₁.beginBody f (φ.scope inner)) s₂ t₂) (defaults : List (Option Value)) :
    Lockstep (fun _ _ s' t' => φ.Alike s' t' ∧ φ.Evolves s t s' t' ∧ True)
      (fun _ s' t' => φ.Refused s s' t') (fun e t' => φ.Exhausted e t'.table)
      ((do
        let r ← Generate.closeBody f defaults inner
        Generate.instantiate s.body.scope r ((← get).table.freeVars inner).toList) s₂)
      ((do
        let r ← Generate.closeBody f defaults (φ.scope inner)
        Generate.instantiate t.body.scope r
          ((← get).table.freeVars (φ.scope inner)).toList) t₂) := by
  have hi₂ := Nat.lt_of_lt_of_le hi (show s₁.table.Grows s₂.table from he₂.grows).size
  obtain ⟨hfree, hshown⟩ := h₂.tables.freeVars hv hi₂
  obtain ⟨h₃, he₃⟩ := h₁.endBody hv hi hk h₂ he₂ defaults
  have hinst : φ.Matched _ (Generate.instantiate s.body.scope ⟨s₂.functions.size⟩
      (s₂.table.freeVars inner).toList) _ fun _ _ => .always :=
    .instantiate (P := .always) _ fun r hr => hshown r (Array.mem_toList_iff.mp hr)
  have hclosed := hinst _ _ h₃ ⟨trivial, (he₁.trans he₃).scope⟩
  refine Lockstep.after (closeBody_eq ..) (closeBody_eq ..) ?_
  rw [get_bind, get_bind, hst.scope, h₂.functions_size]
  have hfree : (t₂.endBody f defaults (φ.scope inner)).table.freeVars (φ.scope inner) =
    s₂.table.freeVars inner := hfree
  rw [hfree]
  exact hclosed.mono (fun _ _ _ _ h => ⟨h.1, (he₁.trans he₃).trans h.2.1, trivial⟩)
    fun _ _ _ h => (he₁.trans he₃).refused h

/-- **A function.** -/
theorem Matched.function {P : φ.Fact} {f : Func} {x y : Emit Unit}
    (hp : ∀ p ∈ f.params, ¬ φ.hidden p.name) (hf : ∀ n, f.name = some n → ¬ φ.hidden n)
    (h : ∀ fresh, (φ.inside fresh).Matched .always x y fun _ _ => .always) :
    φ.Matched P (Generate.function f x) (Generate.function f y) fun _ _ => .always := by
  have hrest : φ.Matched P
      (do
        let defaults ← f.params.mapM Generate.defaultValue
        let outer ← scope
        let inner ← Emit.onTable (Generate.enter f outer)
        Generate.openBody f inner
        Emit.inBlock x
        if !Block.endsWithReturn f.body then Emit.instruction .returnValue [1]
        let r ← Generate.closeBody f defaults inner
        Generate.instantiate outer r ((← get).table.freeVars inner).toList)
      (do
        let defaults ← f.params.mapM Generate.defaultValue
        let outer ← scope
        let inner ← Emit.onTable (Generate.enter f outer)
        Generate.openBody f inner
        Emit.inBlock y
        if !Block.endsWithReturn f.body then Emit.instruction .returnValue [1]
        let r ← Generate.closeBody f defaults inner
        Generate.instantiate outer r ((← get).table.freeVars inner).toList)
      fun _ _ => .always := by
    refine bindThat (defaultValues f.params) fun _ defaults hd => ?_
    subst hd
    intro s t hst _
    have := hst.tables.enter hst.visible hst.known f hp hf
    rw [← hst.scope] at this
    refine Lockstep.after (a := s.body.scope) (b := t.body.scope) rfl rfl
      (Lockstep.bind (hst.onTable (S := fun inner inner' u => inner' = φ.scope inner ∧
        φ.scopes ≤ inner.index ∧ inner.index < u.scopes.size) (ensures_enter f) this)
        (fun inner inner' s₁ t₁ h₁ => ?_) fun _ _ _ h => h)
    obtain ⟨h₁, he₁, ⟨rfl, hv, hi⟩, -, -, hk, -⟩ := h₁
    refine Lockstep.after (openBody_eq ..) (openBody_eq ..) (Lockstep.bind
      (inBlock (P := .always) (h _) _ _ (h₁.beginBody (.inr hv) hi) trivial)
      (fun _ _ s₂ t₂ h₂ => ?_) fun _ _ _ h => he₁.refused (h₁.refused_of_beginBody h))
    obtain ⟨h₂, he₂, -⟩ := h₂
    -- a body without a `return` at its end gets one, on both sides
    cases Block.endsWithReturn f.body with
    | true => exact hst.closeFunction h₁ he₁ hv hi hk h₂ he₂ defaults
    | false =>
      have hreturn : (φ.inside (freshCode f s₁.source)).Matched .always
          (Emit.instruction .returnValue [1]) (Emit.instruction .returnValue [1])
          fun _ _ => .always := instruction _ rfl rfl
      refine Lockstep.bind (hreturn s₂ t₂ h₂ trivial) (fun _ _ s₃ t₃ h₃ => ?_)
        fun _ _ _ h => he₁.refused (h₁.refused_of_beginBody (he₂.refused h))
      exact hst.closeFunction h₁ he₁ hv hi hk h₃.1 (he₂.trans h₃.2.1) defaults
  exact ite (fun _ => seq (throw _) fun _ _ => hrest) fun _ => hrest

end Pairing

/-! ### Plans -/

theorem Operation.namesGlobal_encode (o : Operation) : o.encode.1.namesGlobal = false := by
  cases o with
  | pushBool b => cases b <;> rfl
  | unary op => cases op <;> rfl
  | binary op => cases op <;> rfl
  | call bound count => cases bound <;> rfl
  | _ => rfl

mutual

/-- **The names that a plan looks up or declares**, whatever they refer to. -/
def Plan.Mentions (name : String) : Plan → Prop
  | .load n | .declare n _ => n = name
  | .update n _ value => n = name ∨ value.Mentions name
  | .declareAll names => name ∈ names
  | .seq x y | .shortCircuit _ x y | .iterate _ x y => x.Mentions name ∨ y.Mentions name
  | .stages body | .block body => body.Mentions name
  | .branch x y z | .loop _ x y z => x.Mentions name ∨ y.Mentions name ∨ z.Mentions name
  | .switch subject arms default =>
    subject.Mentions name ∨ arms.Mentions name ∨ default.Mentions name
  | .func f body => f.name = some name ∨ (∃ p ∈ f.params, p.name = name) ∨ body.Mentions name
  | .skip | .instr _ | .const _ _ | .attr _ _ | .refuse _ | .outsidePipe | .insideFunction
  | .leave _ => False

def Arms.Mentions (name : String) : Arms → Prop
  | .nil => False
  | .arm tests body rest => tests.Mentions name ∨ body.Mentions name ∨ rest.Mentions name

def Tests.Mentions (name : String) : Tests → Prop
  | .nil => False
  | .test value rest => value.Mentions name ∨ rest.Mentions name

end

namespace Pairing

variable {φ : Pairing}

/-- The jump out of a loop waits on both sides, if there is one. -/
theorem Matched.exitIf {P : φ.Fact} (tested : Bool) :
    φ.Matched P (exitIf tested) (exitIf tested) fun j j' => .waitAll j.toList j'.toList := by
  cases tested with
  | true => exact bind (jump rfl rfl) fun _ _ => pure fun _ _ h => .cons h.2 .nil
  | false => exact pure fun _ _ _ => .nil

end Pairing

open Pairing

mutual

/-- **Plans are emitted in lockstep.** -/
theorem Plan.matched : ∀ (p : Plan) (φ : Pairing) (P : φ.Fact),
    (∀ name, p.Mentions name → ¬ φ.hidden name) →
      φ.Matched P p.emit p.emit fun _ _ => .always
  | .skip, _, _, _ => .pure fun _ _ _ => trivial
  | .seq x y, φ, P, h =>
    .seq (x.matched φ P fun n hn => h n (.inl hn)) fun _ _ =>
      y.matched φ P fun n hn => h n (.inr hn)
  | .instr o, _, _, _ => .instruction _ o.length_encode o.namesGlobal_encode
  | .const v _, _, _, _ => .constant v
  | .attr sets name, φ, P, _ => .bindThat (.nameIndex name) fun i j hij => by
    subst hij
    cases sets with
    | true => exact .instruction _ rfl rfl
    | false => exact .instruction _ rfl rfl
  | .load name, φ, P, h => .bindThat (.resolve (h name rfl)) fun r _ hr => hr ▸ .load r
  | .update name reads value, φ, P, h => by
    refine .bindThat (.resolveAssignable (h name (.inl rfl))) fun r r' hr => ?_
    subst hr
    have hv := value.matched φ P fun n hn => h n (.inr hn)
    exact .ite (fun _ => .seq (.load r) fun _ _ => .seq hv fun _ _ => .store r)
      fun _ => .seq hv fun _ _ => .store r
  | .declare name constant, φ, P, h => .declare (h name rfl) constant
  | .declareAll names, φ, P, h => .declareAll h
  | .refuse e, _, _, _ => .throw e
  | .outsidePipe, _, _, _ => .look fun s t hst hp => by
    rw [hst.inPipe]
    exact Matched.ite (fun _ => .throw _) (fun _ => .pure fun _ _ _ => trivial) s t hst hp
  | .stages body, φ, P, h => by
    refine .seq (.onBody fun s t hst _ => ⟨_, _, true, rfl, rfl, hst.loops, trivial⟩) fun _ _ =>
      .seq (body.matched φ P h) fun _ _ => .onBody fun s t hst _ =>
        ⟨_, _, false, rfl, rfl, hst.loops, trivial⟩
  | .insideFunction, _, _, _ => .look fun s t hst hp => by
    rw [hst.nested]
    exact Matched.ite (fun _ => .throw _) (fun _ => .pure fun _ _ _ => trivial) s t hst hp
  | .leave isBreak, _, _, _ => .leaveLoop isBreak
  | .branch x y z, φ, P, h =>
    .seq (x.matched φ P fun n hn => h n (.inl hn)) fun _ _ => .bind (.jump rfl rfl) fun _ _ =>
      .seq (y.matched φ _ fun n hn => h n (.inr (.inl hn))) fun _ _ =>
        .bind (.jump rfl rfl) fun _ _ => .seq (.landHere fun _ _ h => h.1.2) fun _ _ =>
          .seq (z.matched φ _ fun n hn => h n (.inr (.inr hn))) fun _ _ =>
            .landHere fun _ _ h => h.2
  | .shortCircuit both x y, φ, P, h => by
    have hj : φ.Matched P
        (Emit.jump (if both then .popJumpForwardIfFalse else .popJumpForwardIfTrue))
        (Emit.jump (if both then .popJumpForwardIfFalse else .popJumpForwardIfTrue))
        fun j j' => .waits j j' := by
      cases both with
      | true => exact .jump rfl rfl
      | false => exact .jump rfl rfl
    refine .seq (x.matched φ P fun n hn => h n (.inl hn)) fun _ _ =>
      .seq (.instruction _ rfl rfl) fun _ _ => .bind hj fun _ _ =>
        .seq (y.matched φ _ fun n hn => h n (.inr hn)) fun _ _ => .seq ?_ fun _ _ =>
          .seq (.landHere fun _ _ h => h.2) fun _ _ => .instruction _ rfl rfl
    cases both with
    | true => exact .instruction _ rfl rfl
    | false => exact .instruction _ rfl rfl
  | .switch subject arms default, φ, P, h => by
    refine .seq (subject.matched φ P fun n hn => h n (.inl hn)) fun _ _ =>
      .bind (arms.matched_emitTests φ P fun n hn => h n (.inr (.inl hn))) fun jumps jumps' =>
        .bind (.jump rfl rfl) fun _ _ => .seq (.holding ?_) fun _ _ =>
          .seq (.instruction _ rfl rfl) fun _ _ => .instruction _ rfl rfl
    exact .bind (arms.matched_emitBodies φ _ (fun n hn => h n (.inr (.inl hn))) jumps jumps'
      fun _ _ h => h.1.2) fun _ _ => .seq (.landHere fun _ _ h => h.1.2) fun _ _ =>
        .seq (default.matched φ _ fun n hn => h n (.inr (.inr hn))) fun _ _ =>
          .landAll fun _ _ h => h.2
  | .block body, φ, _, h => .inBlock (body.matched φ .always h)
  | .loop tested condition body post, φ, P, h => by
    refine .bindThat .position fun _ _ hstart =>
      .seq (condition.matched φ _ fun n hn => h n (.inl hn)) fun _ _ =>
        .bind (.exitIf tested) fun leave leave' =>
          .bind (.loopBody (body.matched φ _ fun n hn => h n (.inr (.inl hn)))) fun _ _ =>
            .bindThat .position fun _ _ hnext =>
              .seq (post.matched φ _ fun n hn => h n (.inr (.inr hn))) fun _ _ =>
                .seq (.jumpBack hstart) fun _ _ => .bindThat .position fun _ _ hexit =>
                  .seq ?_ fun _ _ => .seq (.instruction _ rfl rfl) fun _ _ =>
                    .closeLoop (fun _ _ h => h.2) hexit hnext
    rw [Emission.Emits.option_landAll, Emission.Emits.option_landAll]
    exact .landAll fun _ _ h => h.1.2
  | .iterate names bind body, φ, P, h =>
    .bindThat .position fun _ _ hstart => .bind (.waiting .forIter rfl rfl Nat.two_pos) fun _ _ =>
      .seq (bind.matched φ _ fun n hn => h n (.inl hn)) fun _ _ =>
        .bind (.loopBody (body.matched φ _ fun n hn => h n (.inr hn))) fun _ _ =>
          .bindThat .position fun _ _ hnext => .seq (.jumpBack hstart) fun _ _ =>
            .bindThat .position fun _ _ hexit => .seq (.instruction _ rfl rfl) fun _ _ =>
              .seq (.landHere fun _ _ h => h.1.2) fun _ _ => .seq
                (.instruction _ rfl rfl) fun _ _ =>
                .closeLoop (fun _ _ h => h.2) hexit hnext
  | .func f body, φ, P, h =>
    .function (fun p hp => h p.name (.inr (.inl ⟨p, hp, rfl⟩))) (fun n hn => h n (.inl hn))
      fun fresh => body.matched (φ.inside fresh) .always fun n hn => h n (.inr (.inr hn))

theorem Arms.matched_emitTests : ∀ (c : Arms) (φ : Pairing) (P : φ.Fact),
    (∀ name, c.Mentions name → ¬ φ.hidden name) →
      φ.Matched P c.emitTests c.emitTests fun l l' => .waitEach l l'
  | .nil, _, _, _ => .pure fun _ _ _ => .nil
  | .arm tests _ rest, φ, P, h =>
    .bind (tests.matched φ P fun n hn => h n (.inl hn)) fun _ _ =>
      .bind (rest.matched_emitTests φ _ fun n hn => h n (.inr (.inr hn))) fun _ _ =>
        .pure fun _ _ h => .cons h.1.2 h.2

theorem Tests.matched : ∀ (c : Tests) (φ : Pairing) (P : φ.Fact),
    (∀ name, c.Mentions name → ¬ φ.hidden name) →
      φ.Matched P c.emit c.emit fun l l' => .waitAll l l'
  | .nil, _, _, _ => .pure fun _ _ _ => .nil
  | .test value rest, φ, P, h =>
    .seq (.instruction _ rfl rfl) fun _ _ => .seq (value.matched φ P fun n hn => h n (.inl hn))
      fun _ _ => .seq (.instruction _ rfl rfl) fun _ _ => .bind (.jump rfl rfl) fun _ _ =>
        .bind (rest.matched φ _ fun n hn => h n (.inr hn)) fun _ _ =>
          .pure fun _ _ h => .cons h.1.2 h.2

theorem Arms.matched_emitBodies : ∀ (c : Arms) (φ : Pairing) (P : φ.Fact),
    (∀ name, c.Mentions name → ¬ φ.hidden name) → ∀ jumps jumps' : List (List Nat),
      (∀ s t, P.holds s t →
        List.Forall₂ (List.Forall₂ (φ.Waits s.body.code t.body.code)) jumps jumps') →
      φ.Matched P (c.emitBodies jumps) (c.emitBodies jumps') fun l l' => .waitAll l l'
  | .nil, _, _, _, _, _, _ => .pure fun _ _ _ => .nil
  | .arm _ _ _, _, _, _, [], [], _ => .pure fun _ _ _ => .nil
  | .arm _ _ _, _, _, _, [], _ :: _, hj => fun s t _ hp => by cases hj s t hp
  | .arm _ _ _, _, _, _, _ :: _, [], hj => fun s t _ hp => by cases hj s t hp
  | .arm _ body rest, φ, P, h, l :: pending, l' :: pending', hj =>
    .seq (.landAll fun s t hp => (List.forall₂_cons.mp (hj s t hp)).1) fun _ _ =>
      .seq (body.matched φ _ fun n hn => h n (.inr (.inl hn))) fun _ _ =>
        .bind (.jump rfl rfl) fun _ _ =>
          .bind (rest.matched_emitBodies φ _ (fun n hn => h n (.inr (.inr hn))) pending pending'
            fun s t hp => (List.forall₂_cons.mp (hj s t hp.1)).2) fun _ _ =>
              .pure fun _ _ h => .cons h.1.2 h.2

end

end ScriptEngine
