import ScriptEngine.Proofs.Scope.Lexical

/-!
# Chains of open scopes

What a name means where it stands can be read off the scopes that are open there and what each of
them has declared so far. A lookup goes the same way outward, but it stops early where a function
has recorded the name before, and leaves such records behind. It answers the same nevertheless.

## Main definitions

* `ScriptEngine.Chain`: the open scopes with their declarations;
* `ScriptEngine.Chain.symbol?`, `ScriptEngine.Chain.storage`, `ScriptEngine.Chain.depth`: the
  nearest declaration of a name, and how it is seen from inside;
* `ScriptEngine.ScopeTable.Faithful`: a table that knows the scopes of a chain, and has recorded of
  them nothing but what is true;
* `ScriptEngine.ScopeTable.Crowded`: a function on the way to a variable has no room to record it.

## Main results

* `ScriptEngine.ScopeTable.Faithful.looks`: a lookup answers with the nearest declaration, unless a
  function is crowded.
-/

namespace ScriptEngine

/-- **An open scope**, with what it declared so far, newest first. -/
structure Layer where
  scope : ScopeId
  kind : ScopeKind
  symbols : List Symbol := []

namespace Layer

/-- The declaration of a name in the scope itself. -/
def find? (l : Layer) (name : String) : Option Symbol :=
  l.symbols.find? (·.name == name)

def declares (l : Layer) (name : String) : Bool :=
  (l.find? name).isSome

/-- The scope with one more declaration. -/
def declare (l : Layer) (symbol : Symbol) : Layer :=
  { l with symbols := symbol :: l.symbols }

def isFunction (l : Layer) : Bool :=
  l.kind == .function

theorem find?_declare (l : Layer) (symbol : Symbol) (name : String) :
    (l.declare symbol).find? name = if name = symbol.name then some symbol else l.find? name := by
  simp only [find?, declare, List.find?_cons, eq_comm (a := name)]
  by_cases h : symbol.name = name
  · simp [h]
  · simp [h, beq_false_of_ne h]

end Layer

/-- **The open scopes**, innermost first. The last one is the outermost of all. -/
abbrev Chain := List Layer

namespace Chain

/-- The scopes that lie between a point and the nearest declaration of a name. -/
def inside (C : Chain) (name : String) : Chain :=
  C.takeWhile (!·.declares name)

/-- The scopes around the nearest declaration of a name, its own scope included. -/
def around (C : Chain) (name : String) : Chain :=
  C.dropWhile (!·.declares name)

/-- **The nearest declaration** of a name. -/
def symbol? (C : Chain) (name : String) : Option Symbol :=
  (C.around name).head?.bind (·.find? name)

/-- **The functions between** a point and the nearest declaration of a name. -/
def crossed (C : Chain) (name : String) : Chain :=
  (C.inside name).filter Layer.isFunction

/-- The outermost scope and the blocks in it, with no function in between. -/
def atTop (C : Chain) : Bool :=
  C.dropLast.all (!·.isFunction)

/-- **How a name is stored**, seen from a point: as a global if it is declared at the top, as a
local variable if the current function owns it, and as a free variable otherwise. -/
def storage (C : Chain) (name : String) : Storage :=
  if (C.around name).atTop then .global
  else if (C.crossed name).length = 0 then .local else .free

/-- The number of functions between a point and a variable. -/
def depth (C : Chain) (name : String) : Nat :=
  if (C.around name).atTop then 0 else (C.crossed name).length

/-- **The function that owns** what is declared at a point. -/
def owner (C : Chain) : ScopeId :=
  ((C.find? Layer.isFunction).map Layer.scope).getD ScopeTable.root

variable {l l' : Layer} {C : Chain} {name : String} {symbol : Symbol}

theorem declares_eq_false (h : l.find? name = none) : l.declares name = false := by
  unfold Layer.declares
  rw [h]
  rfl

theorem declares_eq_true (h : l.find? name = some symbol) : l.declares name = true := by
  unfold Layer.declares
  rw [h]
  rfl

/-! A name that the innermost scope declares, and one that it does not. -/

theorem around_of_some (h : l.find? name = some symbol) : around (l :: C) name = l :: C := by
  simp [around, declares_eq_true h]

theorem around_of_none (h : l.find? name = none) : around (l :: C) name = C.around name := by
  simp [around, declares_eq_false h]

theorem symbol?_of_some (h : l.find? name = some symbol) : symbol? (l :: C) name = some symbol := by
  rw [symbol?, around_of_some h, List.head?_cons, Option.bind_some, h]

theorem symbol?_of_none (h : l.find? name = none) : symbol? (l :: C) name = C.symbol? name := by
  rw [symbol?, around_of_none h, symbol?]

theorem crossed_of_some (h : l.find? name = some symbol) : crossed (l :: C) name = [] := by
  simp [crossed, inside, declares_eq_true h]

theorem crossed_of_block (h : l.find? name = none) (hl : l.isFunction = false) :
    crossed (l :: C) name = C.crossed name := by
  simp [crossed, inside, declares_eq_false h, hl]

theorem crossed_of_function (h : l.find? name = none) (hl : l.isFunction = true) :
    crossed (l :: C) name = l :: C.crossed name := by
  simp [crossed, inside, declares_eq_false h, hl]

theorem mem_of_mem_crossed (h : l ∈ C.crossed name) : l ∈ C := by
  have hinside : l ∈ C.inside name := (List.mem_filter.mp h).1
  exact (List.takeWhile_prefix _).mem hinside

theorem atTop_cons_cons : atTop (l :: l' :: C) = (!l.isFunction && atTop (l' :: C)) := by
  simp [atTop, List.dropLast_cons_cons]

theorem owner_of_function (hl : l.isFunction = true) : owner (l :: C) = l.scope := by
  simp [owner, hl]

theorem owner_of_block (hl : l.isFunction = false) : owner (l :: C) = owner C := by
  simp [owner, hl]

/-- A name that is declared nowhere. -/
theorem symbol?_eq_none (h : C.symbol? name = none) : C.around name = [] := by
  induction C with
  | nil => rfl
  | cons l C ih =>
    cases hl : l.find? name with
    | some symbol =>
      rw [symbol?_of_some hl] at h
      cases h
    | none =>
      rw [around_of_none hl]
      exact ih (symbol?_of_none hl ▸ h)

/-- The nearest declaration of a name has that name. -/
theorem symbol?_name (h : C.symbol? name = some symbol) : symbol.name = name := by
  obtain ⟨l, -, hfind⟩ := Option.bind_eq_some_iff.mp h
  have hname := List.find?_some hfind
  exact eq_of_beq hname

/-- **A block** sees everything as its surroundings do. -/
theorem storage_of_block (h : l.find? name = none) (hl : l.isFunction = false) :
    storage (l :: C) name = C.storage name ∧ depth (l :: C) name = C.depth name := by
  rw [storage, depth, around_of_none h, crossed_of_block h hl]
  exact ⟨rfl, rfl⟩

/-- **A global** is seen alike from everywhere. -/
theorem storage_of_atTop (h : l.find? name = none) (ht : (C.around name).atTop = true) :
    storage (l :: C) name = .global ∧ depth (l :: C) name = 0 := by
  rw [storage, depth, around_of_none h, if_pos ht, if_pos ht]
  exact ⟨rfl, rfl⟩

/-- **A variable of a function** is free in the functions inside. -/
theorem storage_of_function (h : l.find? name = none) (hl : l.isFunction = true)
    (ht : (C.around name).atTop = false) :
    storage (l :: C) name = .free ∧ depth (l :: C) name = (C.crossed name).length + 1 := by
  rw [storage, depth, around_of_none h, crossed_of_function h hl, ht]
  exact ⟨rfl, rfl⟩

/-- **A declaration in an inner function** is not at the top. -/
theorem visible_of_function (h : l.find? name = some symbol) (hl : l.isFunction = true) :
    symbol? (l :: l' :: C) name = some symbol ∧ (around (l :: l' :: C) name).atTop = false := by
  rw [around_of_some h, atTop_cons_cons, hl]
  exact ⟨symbol?_of_some h, rfl⟩

/-- A name that is not stored as a global is declared in a function. -/
theorem atTop_of_storage (h : C.storage name ≠ .global) : (C.around name).atTop = false := by
  rw [← Bool.not_eq_true]
  intro ht
  exact h (if_pos ht)

theorem storage_cases (h : (C.around name).atTop = false) :
    (C.storage name = .local ∨ C.storage name = .free) ∧
    C.depth name = (C.crossed name).length := by
  unfold storage depth
  simp only [h, Bool.false_eq_true, if_false, and_true]
  split
  · exact .inl rfl
  · exact .inr rfl

end Chain

/-- What a scope is apart from its slots. -/
structure ScopeData.Alike (d d' : ScopeData) : Prop where
  parent : d'.parent = d.parent
  kind : d'.kind = d.kind
  names : d'.names = d.names
  free : d'.free = d.free
  freeIndex : d'.freeIndex = d.freeIndex

namespace ScopeTable

open Chain

variable {t t' : ScopeTable} {l l' : Layer} {C : Chain} {name : String} {symbol : Symbol}

/-! ### Tables and chains -/

/-- All functions between a point and the nearest declaration of a name have recorded it. -/
def Knows (t : ScopeTable) (name : String) (C : Chain) : Prop :=
  ∀ f ∈ C.crossed name, ∃ i, (t.scope f.scope).freeIndex[name]? = some i

/-- **A table knows an open scope** that lies in a chain. What the scope has recorded are variables
of functions around, and those on the way have recorded them too. -/
structure Opened (t : ScopeTable) (l : Layer) (C : Chain) : Prop where
  known : l.scope.index < t.scopes.size
  kind : (t.scope l.scope).kind = l.kind
  parent : (t.scope l.scope).parent = C.head?.map Layer.scope
  names : ∀ name, t.get? l.scope name = l.find? name
  recorded : ∀ (name : String) (i : Nat), (t.scope l.scope).freeIndex[name]? = some i →
    ∃ symbol, C.symbol? name = some symbol ∧ (C.around name).atTop = false ∧
      (t.scope l.scope).free[i]? =
        some ⟨symbol, .free, (C.crossed name).length + 1, i.toUInt16⟩ ∧ t.Knows name C

/-- **A table mirrors a chain.** -/
def Mirrors (t : ScopeTable) : Chain → Prop
  | [] => True
  | l :: C => t.Opened l C ∧ t.Mirrors C

theorem Opened.isFunction (h : t.Opened l C) :
    l.isFunction = true ↔ (t.scope l.scope).kind = .function := by
  rw [h.kind, Layer.isFunction, beq_iff_eq]

theorem Opened.isBlock (h : t.Opened l C) :
    l.isFunction = false ↔ (t.scope l.scope).kind = .block := by
  rw [h.kind, Layer.isFunction]
  cases l.kind <;> simp

namespace Mirrors

/-- Inner scopes are newer. -/
theorem index_lt (hw : t.WellFormed) : ∀ {C : Chain} {l : Layer}, t.Mirrors (l :: C) →
    ∀ l' ∈ C, l'.scope.index < l.scope.index
  | [], _, _, _, hm => absurd hm List.not_mem_nil
  | l₁ :: C, l, ⟨h, h'⟩, l', hm => by
    have hlt := hw.parent_lt l.scope l₁.scope h.parent
    rcases List.mem_cons.mp hm with rfl | hm
    · exact hlt
    · exact Nat.lt_trans (index_lt hw h' l' hm) hlt

theorem known_of_mem (h : t.Mirrors C) (hl : l ∈ C) : l.scope.index < t.scopes.size := by
  induction C with
  | nil => exact absurd hl List.not_mem_nil
  | cons l' C ih =>
    rcases List.mem_cons.mp hl with rfl | hl
    · exact h.1.known
    · exact ih h.2 hl

/-- What is recorded stays recorded. -/
theorem knows_mono (hk : t.Knows name C) (h : ∀ l ∈ C, ∀ i,
    (t.scope l.scope).freeIndex[name]? = some i → (t'.scope l.scope).freeIndex[name]? = some i) :
    t'.Knows name C := by
  intro f hf
  obtain ⟨i, hi⟩ := hk f hf
  exact ⟨i, h f (mem_of_mem_crossed hf) i hi⟩

/-- **Another table with the same open scopes**, up to their slots. -/
theorem congr (h : t.Mirrors C) (hsize : t.scopes.size ≤ t'.scopes.size)
    (hs : ∀ l ∈ C, (t.scope l.scope).Alike (t'.scope l.scope)) : t'.Mirrors C := by
  induction C with
  | nil => trivial
  | cons l C ih =>
    obtain ⟨hl, hC⟩ := h
    have hl' := hs l List.mem_cons_self
    have hC' : ∀ l ∈ C, (t.scope l.scope).Alike (t'.scope l.scope) :=
      fun u hu => hs u (List.mem_cons_of_mem l hu)
    refine ⟨⟨Nat.lt_of_lt_of_le hl.known hsize, hl'.kind.trans hl.kind,
      hl'.parent.trans hl.parent, fun name => ?_, fun name i hi => ?_⟩, ih hC hC'⟩
    · unfold get?
      rw [hl'.names]
      exact hl.names name
    · rw [hl'.freeIndex] at hi
      rw [hl'.free]
      obtain ⟨symbol, hsymbol, htop, hfree, hknows⟩ := hl.recorded name i hi
      refine ⟨symbol, hsymbol, htop, hfree, knows_mono hknows fun u hu j hj => ?_⟩
      rw [(hC' u hu).freeIndex]
      exact hj

/-- The outermost scope belongs to a function. -/
theorem isFunction_of_outermost (hw : t.WellFormed) (h : t.Mirrors [l]) : l.isFunction = true := by
  have hnone : (t.scope l.scope).parent = none := h.1.parent
  refine h.1.isFunction.mpr ?_
  cases hk : (t.scope l.scope).kind with
  | function => rfl
  | block =>
    have := hw.block l.scope hk
    rw [hnone] at this
    cases this

/-- **The scopes at the top** are those of a chain without functions. -/
theorem isGlobal_eq (hw : t.WellFormed) : ∀ {C : Chain} {l : Layer}, t.Mirrors (l :: C) →
    t.isGlobal l.scope = atTop (l :: C)
  | [], l, h => by
    have hnone : (t.scope l.scope).parent = none := h.1.parent
    rw [isGlobal_of_function (h.1.isFunction.mp (isFunction_of_outermost hw h)), hnone]
    rfl
  | l' :: C, l, ⟨h, h'⟩ => by
    have hp : (t.scope l.scope).parent = some l'.scope := h.parent
    rw [atTop_cons_cons]
    cases hl : l.isFunction with
    | true =>
      rw [isGlobal_of_function (h.isFunction.mp hl), hp]
      rfl
    | false =>
      rw [Bool.not_false, Bool.true_and, ← isGlobal_eq hw h']
      unfold isGlobal
      rw [functionScope_of_block hw.toIsTree (h.isBlock.mp hl) hp]

/-- **The function around a scope** owns what the scope declares. -/
theorem functionScope_eq (hw : t.WellFormed) : ∀ {C : Chain} {l : Layer}, t.Mirrors (l :: C) →
    t.functionScope l.scope = owner (l :: C)
  | [], l, h => by
    have hl := isFunction_of_outermost hw h
    rw [functionScope_of_function (h.1.isFunction.mp hl), owner_of_function hl]
  | l' :: C, l, ⟨h, h'⟩ => by
    have hp : (t.scope l.scope).parent = some l'.scope := h.parent
    cases hl : l.isFunction with
    | true => rw [functionScope_of_function (h.isFunction.mp hl), owner_of_function hl]
    | false =>
      rw [functionScope_of_block hw.toIsTree (h.isBlock.mp hl) hp, owner_of_block hl,
        functionScope_eq hw h']

end Mirrors

/-- **A table is faithful to a chain**: it mirrors the chain, and finds every free variable of every
function under its name. -/
structure Faithful (t : ScopeTable) (C : Chain) : Prop where
  wellFormed : t.WellFormed
  mirrors : t.Mirrors C
  listed : ∀ (s : ScopeId) (i : Nat) (r : Resolution), (t.scope s).free[i]? = some r →
    (t.scope s).freeIndex[r.symbol.name]? = some i

/-! ### Lookups -/

/-- **A function on the way to a variable is crowded**: it has as many free variables as it can
have, and the variable is none of them. -/
def Crowded (t : ScopeTable) (C : Chain) (name : String) : Prop :=
  C.storage name ≠ .global ∧ ∃ f ∈ C.crossed name,
    wordCount ≤ (t.freeVars f.scope).size ∧ ∀ r ∈ t.freeVars f.scope, r.symbol.name ≠ name

/-- **What a lookup ends with**, from inside a chain. -/
inductive Looks (t : ScopeTable) (C : Chain) (name : String) :
    EStateM.Result CompileError ScopeTable (Option Resolution) → Prop
  | undeclared (hs : C.symbol? name = none) : Looks t C name (.ok (t.resolveBuiltin name) t)
  | found {symbol : Symbol} {i : Word} {t' : ScopeTable} (hs : C.symbol? name = some symbol)
    (hroom : ¬t.Crowded C name) (ht : t'.Faithful C)
    (hk : C.storage name ≠ .global → t'.Knows name C)
    (hi : C.storage name = .free → (t'.freeVars C.owner)[i.toNat]? =
      some ⟨symbol, C.storage name, C.depth name, i⟩) (h0 : C.storage name ≠ .free → i = 0) :
    Looks t C name (.ok (some ⟨symbol, C.storage name, C.depth name, i⟩) t')
  | refused {symbol : Symbol} {t' : ScopeTable} (hs : C.symbol? name = some symbol)
    (hcrowded : t.Crowded C name) (ht : t'.Faithful C) : Looks t C name (.error .tooManySymbols t')

/-- Outside of a scope nothing else matters. -/
theorem crowded_of_block (hl : l.find? name = none) (hb : l.isFunction = false) :
    t.Crowded (l :: C) name ↔ t.Crowded C name := by
  unfold Crowded
  rw [(storage_of_block hl hb).1, crossed_of_block hl hb]

/-- **A function is crowded**, or one further outside. -/
theorem crowded_of_function (hl : l.find? name = none) (hf : l.isFunction = true)
    (htop : (C.around name).atTop = false) :
    t.Crowded (l :: C) name ↔
      (wordCount ≤ (t.freeVars l.scope).size ∧ ∀ r ∈ t.freeVars l.scope, r.symbol.name ≠ name) ∨
        t.Crowded C name := by
  have hglobal : storage C name ≠ .global := by
    rcases (storage_cases htop).1 with h | h <;> rw [h] <;> decide
  unfold Crowded
  rw [(storage_of_function hl hf htop).1, crossed_of_function hl hf]
  simp only [ne_eq, reduceCtorEq, not_false_eq_true, true_and, List.mem_cons, exists_eq_or_imp,
    hglobal]

/-- Nothing is on the way to a global. -/
theorem not_crowded_of_atTop (htop : (C.around name).atTop = true) : ¬t.Crowded C name :=
  fun h => h.1 (if_pos htop)

/-- A variable that is known to all functions on the way has room in them. -/
theorem not_crowded_of_knows (hw : t.WellFormed) (hk : t.Knows name C) : ¬t.Crowded C name := by
  rintro ⟨-, f, hf, -, hnot⟩
  obtain ⟨i, hi⟩ := hk f hf
  obtain ⟨r, hr, hname⟩ := hw.freeIndex f.scope name i hi
  exact hnot r (Array.mem_of_getElem? hr) hname

/-- What a function knows of a variable that it has recorded. -/
theorem knows_of_recorded (hl : l.find? name = none) (hf : l.isFunction = true) {i : Nat}
    (hi : (t.scope l.scope).freeIndex[name]? = some i) (hk : t.Knows name C) :
    t.Knows name (l :: C) := by
  intro f hmem
  rw [crossed_of_function hl hf] at hmem
  rcases List.mem_cons.mp hmem with rfl | hmem
  · exact ⟨i, hi⟩
  · exact hk f hmem

namespace Faithful

/-- **A lookup that the innermost scope answers** with a declaration of its own. -/
theorem looks_declared (h : t.Faithful (l :: C)) (hl : l.find? name = some symbol) (n : Nat) :
    t.Looks (l :: C) name (resolveWithin name (n + 1) l.scope t) := by
  have hknown : t.known? l.scope name =
      some ⟨symbol, storage (l :: C) name, depth (l :: C) name, 0⟩ := by
    unfold known?
    rw [h.mirrors.1.names, hl, h.mirrors.isGlobal_eq h.wellFormed, storage, depth,
      around_of_some hl, crossed_of_some hl]
    cases atTop (l :: C) <;> rfl
  rw [resolveWithin_known n hknown]
  have hnear := crossed_of_some (C := C) hl
  refine .found (symbol?_of_some hl) ?_ h (fun _ f hf => ?_) (fun hfree => ?_) fun _ => rfl
  · rintro ⟨-, f, hf, -⟩
    rw [hnear] at hf
    cases hf
  · rw [hnear] at hf
    cases hf
  · rw [storage, hnear] at hfree
    split at hfree <;> cases hfree

/-- **A lookup that a function answers from its records.** -/
theorem looks_recorded (h : t.Faithful (l :: C)) (hl : l.find? name = none) {i : Nat}
    (hi : (t.scope l.scope).freeIndex[name]? = some i) (n : Nat) :
    t.Looks (l :: C) name (resolveWithin name (n + 1) l.scope t) := by
  have hw := h.wellFormed
  obtain ⟨symbol, hsymbol, htop, hfree, hknows⟩ := h.mirrors.1.recorded name i hi
  have hfunction := h.mirrors.1.isFunction.mpr (hw.free _ _ _ hfree).2.2.1
  obtain ⟨hstorage, hdepth⟩ := storage_of_function hl hfunction htop
  have hknown : t.known? l.scope name =
      some ⟨symbol, storage (l :: C) name, depth (l :: C) name, i.toUInt16⟩ := by
    unfold known?
    rw [h.mirrors.1.names, hl, hi, Option.bind_some, hfree, hstorage, hdepth]
  rw [resolveWithin_known n hknown]
  have hall := knows_of_recorded hl hfunction hi hknows
  refine .found ((symbol?_of_none hl).trans hsymbol) (not_crowded_of_knows hw hall) h
    (fun _ => hall)
    (fun _ => ?_) fun hfree => absurd hstorage hfree
  rw [owner_of_function hfunction, (hw.free _ _ _ hfree).2.1, hstorage, hdepth]
  exact hfree

/-- What a scope has recorded stays true where its surroundings record more. -/
theorem of_outer (h : t.Faithful (l :: C)) (g : t.Grows t')
    (hl : t'.scope l.scope = t.scope l.scope) (h' : t'.Faithful C) : t'.Faithful (l :: C) := by
  refine ⟨h'.wellFormed, ?_, h'.listed⟩
  obtain ⟨⟨hknown, hkind, hparent, hnames, hrecorded⟩, hC⟩ := h.mirrors
  refine ⟨⟨Nat.lt_of_lt_of_le hknown g.size, hl ▸ hkind, hl ▸ hparent, fun name => ?_,
    fun name i hi => ?_⟩, h'.mirrors⟩
  · unfold get?
    rw [hl]
    exact hnames name
  · rw [hl] at hi ⊢
    obtain ⟨symbol, hsymbol, htop, hfree, hknows⟩ := hrecorded name i hi
    refine ⟨symbol, hsymbol, htop, hfree, fun f hf => ?_⟩
    obtain ⟨j, hj⟩ := hknows f hf
    exact ⟨j, (g.scope f.scope (hC.known_of_mem (mem_of_mem_crossed hf))).freeIndex name j hj⟩

/-- **A function records a variable** that all functions around it know. -/
theorem captured (h : t.Faithful (l :: C)) (hl : l.find? name = none) (hf : l.isFunction = true)
    (hi : (t.scope l.scope).freeIndex[name]? = none) (hsymbol : C.symbol? name = some symbol)
    (htop : (C.around name).atTop = false) (hk : t.Knows name C) {found : Resolution}
    (hfound : found = ⟨symbol, .free, (C.crossed name).length + 1,
      (t.scope l.scope).free.size.toUInt16⟩) (hname : symbol.name = name)
    (hw : (t.captured l.scope name found).WellFormed) :
    (t.captured l.scope name found).Faithful (l :: C) ∧
      (t.captured l.scope name found).Knows name (l :: C) := by
  obtain ⟨hopened, hC⟩ := h.mirrors
  have hscope := fun u => scope_modifyScope (t := t)
    (fun d => { d with
      free := d.free.push found
      freeIndex := d.freeIndex.insert name d.free.size })
    hopened.known u
  have hsize : (t.captured l.scope name found).scopes.size = t.scopes.size := size_modifyScope _
  have hnew : (t.captured l.scope name found).scope l.scope = { t.scope l.scope with
      free := (t.scope l.scope).free.push found
      freeIndex := (t.scope l.scope).freeIndex.insert name (t.scope l.scope).free.size } :=
    (hscope l.scope).trans (if_pos rfl)
  have hothers {u : ScopeId} (hu : u ≠ l.scope) :
      (t.captured l.scope name found).scope u = t.scope u := (hscope u).trans (if_neg hu)
  -- the scopes around are older, so none of them is the one that records
  have hold : ∀ u ∈ C, (t.captured l.scope name found).scope u.scope = t.scope u.scope := by
    intro u hu
    refine hothers fun heq => ?_
    have := h.mirrors.index_lt h.wellFormed u hu
    rw [heq] at this
    exact Nat.lt_irrefl _ this
  have hknows {other : String} (hother : t.Knows other C) :
      (t.captured l.scope name found).Knows other C :=
    Mirrors.knows_mono hother fun u hu j hj => by rwa [hold u hu]
  have hrecords : ((t.captured l.scope name found).scope l.scope).freeIndex[name]? =
      some (t.scope l.scope).free.size := by
    rw [hnew]
    exact Std.HashMap.getElem?_insert_self
  refine ⟨⟨hw, ⟨⟨hsize ▸ hopened.known, ?_, ?_, ?_, ?_⟩, ?_⟩, ?_⟩,
    knows_of_recorded hl hf hrecords (hknows hk)⟩
  · rw [hnew]
    exact hopened.kind
  · rw [hnew]
    exact hopened.parent
  · intro other
    unfold get?
    rw [hnew]
    exact hopened.names other
  -- what was recorded before keeps its place in front of the new variable
  · intro other i hi'
    rw [hnew] at hi' ⊢
    simp only [Std.HashMap.getElem?_insert, beq_iff_eq] at hi'
    split at hi'
    · rename_i heq
      subst heq
      obtain rfl := Option.some.inj hi'
      exact ⟨symbol, hsymbol, htop, by simp [hfound], hknows hk⟩
    · obtain ⟨symbol', hsymbol', htop', hfree, hother⟩ := hopened.recorded other i hi'
      refine ⟨symbol', hsymbol', htop', ?_, hknows hother⟩
      have hlt := (Array.getElem?_eq_some_iff.mp hfree).1
      rw [Array.getElem?_push, if_neg (Nat.ne_of_lt hlt)]
      exact hfree
  · refine hC.congr (Nat.le_of_eq hsize.symm) fun u hu => ?_
    rw [hold u hu]
    exact ⟨rfl, rfl, rfl, rfl, rfl⟩
  · intro u i r hr
    by_cases hu : u = l.scope
    · subst hu
      rw [hnew] at hr ⊢
      simp only [Std.HashMap.getElem?_insert, beq_iff_eq]
      rw [Array.getElem?_push] at hr
      split at hr
      · rename_i heq
        obtain rfl := Option.some.inj hr
        rw [hfound, if_pos hname.symm, heq]
      · have hr := h.listed l.scope i r hr
        rw [if_neg]
        · exact hr
        -- an old entry of the same name would have been found
        · rintro rfl
          rw [hi] at hr
          cases hr
    · rw [hothers hu] at hr ⊢
      exact h.listed u i r hr

end Faithful

/-- What a function makes of an answer that it has to record. -/
theorem inward_capture {s : ScopeId} {kind : ScopeKind} {outer : Resolution}
    (hs : s.index < t.scopes.size)
    (hk : ¬(kind = .block ∨ outer.storage = .global ∨ outer.storage = .builtin)) :
    inward kind s name (some outer) t =
      if wordCount ≤ (t.scope s).free.size then .error .tooManySymbols t
      else .ok (some ⟨outer.symbol, .free, outer.depth + 1, (t.scope s).free.size.toUInt16⟩)
        (t.captured s name
          ⟨outer.symbol, .free, outer.depth + 1, (t.scope s).free.size.toUInt16⟩) := by
  unfold inward
  dsimp only
  rw [if_neg hk]
  show EStateM.bind _ _ t = _
  unfold EStateM.bind
  rw [capture_eq _ _ _ _ hs]
  by_cases hfull : wordCount ≤ (t.scope s).free.size
  · rw [if_pos hfull, if_pos hfull]
  · rw [if_neg hfull, if_neg hfull]
    rfl

/-- A builtin, or the lack of one, is the same for all scopes. -/
theorem inward_builtin {s : ScopeId} {kind : ScopeKind} :
    inward kind s name (t.resolveBuiltin name) t = .ok (t.resolveBuiltin name) t := by
  cases hb : t.resolveBuiltin name with
  | none => rfl
  | some r =>
    obtain ⟨w, -, rfl⟩ := Option.map_eq_some_iff.mp hb
    exact congrFun (if_pos (.inr (.inr rfl))) t

/-- **A lookup that is refused** leaves the scopes further inside alone. -/
theorem scope_of_resolveWithin_error {e : CompileError} : ∀ (n : Nat) (s : ScopeId)
    {t' : ScopeTable}, t.WellFormed → s.index < t.scopes.size → s.index < n →
    resolveWithin name n s t = .error e t' → ∀ u : ScopeId, s.index < u.index →
      t'.scope u = t.scope u
  | 0, _, _, _, _, hn, _ => absurd hn (Nat.not_lt_zero _)
  | n + 1, s, t', hw, hs, hn, hr => by
    intro u hu
    cases hk : t.known? s name with
    | some found =>
      rw [resolveWithin_known n hk] at hr
      cases hr
    | none =>
      cases hp : (t.scope s).parent with
      | none =>
        rw [resolveWithin_root n hk hp] at hr
        cases hr
      | some p =>
        have hlt := hw.parent_lt s p hp
        have hsize : p.index < t.scopes.size := by omega
        rw [resolveWithin_parent n hk hp] at hr
        rcases bind_eq_error.mp hr with hr | ⟨o, t₁, hres, hr⟩
        · exact scope_of_resolveWithin_error n p hw hsize (by omega) hr u (by omega)
        · rw [inward_error hr]
          exact ((resolveWithin_spec name n p hw hsize (by omega)).2 o t₁ hres).2.2.1 u (by omega)

/-- The table after a step, whether it succeeds or fails. -/
def after {α : Type} (step : Scoped α) (t : ScopeTable) : ScopeTable :=
  match step t with
  | .ok _ t' => t'
  | .error _ t' => t'

/-- **A lookup records** no other name than its own. -/
theorem name_of_recorded {f : ScopeId} {r : Resolution} :
    ∀ (n : Nat) (s : ScopeId) {t : ScopeTable},
    t.WellFormed → s.index < t.scopes.size → s.index < n →
    r ∈ (after (resolveWithin name n s) t).freeVars f → r ∈ t.freeVars f ∨ r.symbol.name = name
  | 0, _, _, _, _, hn => absurd hn (Nat.not_lt_zero _)
  | n + 1, s, t, hw, hs, hn => by
    unfold after
    cases hk : t.known? s name with
    | some found =>
      rw [resolveWithin_known n hk]
      exact .inl
    | none =>
      cases hp : (t.scope s).parent with
      | none =>
        rw [resolveWithin_root n hk hp]
        exact .inl
      | some p =>
        have hlt := hw.parent_lt s p hp
        have hsize : p.index < t.scopes.size := Nat.lt_trans hlt hs
        have hn' : p.index < n := Nat.lt_of_lt_of_le hlt (Nat.le_of_lt_succ hn)
        have ih := name_of_recorded (f := f) (r := r) n p hw hsize hn'
        obtain ⟨-, hspec⟩ := resolveWithin_spec name n p hw hsize hn'
        rw [resolveWithin_parent n hk hp]
        change r ∈ (after (EStateM.bind _ _) t).freeVars f → _
        unfold after EStateM.bind
        unfold after at ih
        generalize resolveWithin name n p t = answer at ih hspec
        cases answer with
        | error e t₁ => exact ih
        | ok o t₁ =>
          obtain ⟨-, g, -, hanswer⟩ := hspec o t₁ rfl
          cases o with
          | none => exact ih
          | some outer =>
            have hknown : s.index < t₁.scopes.size := Nat.lt_of_lt_of_le hs g.size
            by_cases hd : (t.scope s).kind = .block ∨ outer.storage = .global ∨
                outer.storage = .builtin
            · have hdirect : inward (t.scope s).kind s name (some outer) t₁ = .ok (some outer) t₁ :=
                congrFun (if_pos hd) t₁
              dsimp only
              rw [hdirect]
              exact ih
            · dsimp only
              rw [inward_capture hknown hd]
              by_cases hfull : wordCount ≤ (t₁.scope s).free.size
              · rw [if_pos hfull]
                exact ih
              · rw [if_neg hfull]
                -- the only new record is about the name
                intro hr
                unfold freeVars captured at hr
                rw [scope_modifyScope _ hknown] at hr
                split at hr
                · rename_i heq
                  rcases Array.mem_push.mp hr with hr | rfl
                  · exact ih (heq ▸ hr)
                  · exact .inr (hanswer outer rfl).2
                · exact ih hr

namespace Faithful

/-- **What a scope makes of an answer** from further outside, if it neither declares the name nor
has recorded it. -/
theorem looks_inward (h : t.Faithful (l :: C)) (hl : l.find? name = none)
    (hi : (t.scope l.scope).freeIndex[name]? = none) (g : t.Grows t')
    (hscope : t'.scope l.scope = t.scope l.scope) (hs : C.symbol? name = some symbol)
    (hname : symbol.name = name)
    (hroom : ¬t.Crowded C name) (ht : t'.Faithful C)
    (hk : C.storage name ≠ .global → t'.Knows name C) {i : Word}
    (hfree : C.storage name = .free → (t'.freeVars C.owner)[i.toNat]? =
      some ⟨symbol, C.storage name, C.depth name, i⟩) (h0 : C.storage name ≠ .free → i = 0)
    (hw : ∀ o t'', inward (t.scope l.scope).kind l.scope name
      (some ⟨symbol, C.storage name, C.depth name, i⟩) t' = .ok o t'' → t''.WellFormed) :
    t.Looks (l :: C) name (inward (t.scope l.scope).kind l.scope name
      (some ⟨symbol, C.storage name, C.depth name, i⟩) t') := by
  have hopened := h.mirrors.1
  have hsymbol := (symbol?_of_none (C := C) hl).trans hs
  have ht' := h.of_outer g hscope ht
  cases hf : l.isFunction with
  | false =>
    -- a block answers as its surroundings do
    obtain ⟨hstorage, hdepth⟩ := storage_of_block (C := C) hl hf
    have hdirect : inward (t.scope l.scope).kind l.scope name
        (some ⟨symbol, C.storage name, C.depth name, i⟩) t' =
        .ok (some ⟨symbol, C.storage name, C.depth name, i⟩) t' :=
      congrFun (if_pos (.inl (hopened.isBlock.mp hf))) t'
    rw [hdirect, ← hstorage, ← hdepth]
    refine .found hsymbol (fun hc => hroom ((crowded_of_block hl hf).mp hc)) ht' ?_ ?_
      (hstorage ▸ h0)
    · rw [hstorage]
      intro hg f hmem
      rw [crossed_of_block hl hf] at hmem
      exact hk hg f hmem
    · rw [hstorage, hdepth, owner_of_block hf]
      exact hfree
  | true =>
    -- a function hands a global on as it is, and records everything else
    cases htop : (C.around name).atTop with
    | true =>
      obtain ⟨hstorage, hdepth⟩ := storage_of_atTop (l := l) hl htop
      have hglobal : C.storage name = .global := if_pos htop
      have hzero : C.depth name = 0 := if_pos htop
      have hdirect : inward (t.scope l.scope).kind l.scope name
          (some ⟨symbol, C.storage name, C.depth name, i⟩) t' =
          .ok (some ⟨symbol, C.storage name, C.depth name, i⟩) t' :=
        congrFun (if_pos (.inr (.inl hglobal))) t'
      rw [hdirect, hglobal, hzero, ← hstorage, ← hdepth]
      refine .found hsymbol (not_crowded_of_atTop (by rwa [around_of_none hl])) ht' ?_ ?_
        fun _ => h0 (by rw [hglobal]; decide)
      · exact fun hg => absurd hstorage hg
      · intro hfree
        rw [hstorage] at hfree
        cases hfree
    | false =>
      -- a function records a variable of another function, if it has room
      obtain ⟨hcases, hlength⟩ := storage_cases htop
      obtain ⟨hstorage, hdepth⟩ := storage_of_function (C := C) hl hf htop
      have hcapture : ¬((t.scope l.scope).kind = .block ∨ C.storage name = .global ∨
          C.storage name = .builtin) := by
        rw [hopened.isFunction.mp hf]
        rcases hcases with hc | hc <;> rw [hc] <;> decide
      have hglobal : C.storage name ≠ .global := fun hc => hcapture (.inr (.inl hc))
      -- a variable that is recorded is listed under its name
      have hnone : ∀ r ∈ t.freeVars l.scope, r.symbol.name ≠ name := by
        rintro r hr rfl
        obtain ⟨j, hj⟩ := Array.getElem?_of_mem hr
        rw [h.listed l.scope j r hj] at hi
        cases hi
      have hsame : t'.freeVars l.scope = t.freeVars l.scope := congrArg ScopeData.free hscope
      have hcrowded := crowded_of_function (t := t) hl hf htop
      rw [inward_capture ht'.mirrors.1.known hcapture] at hw ⊢
      dsimp only at hw ⊢
      split at hw <;> rename_i hfull
      · rw [if_pos hfull]
        refine .refused hsymbol (hcrowded.mpr (.inl ⟨?_, hnone⟩)) ht'
        rw [← hsame]
        exact hfull
      · rw [if_neg hfull]
        obtain ⟨hfaithful, hknows⟩ := ht'.captured hl hf (hscope ▸ hi) hs htop (hk hglobal)
          (by rw [hlength]) hname (hw _ _ rfl)
        rw [hlength, ← hdepth, ← hstorage] at hfaithful hknows ⊢
        refine .found hsymbol (fun hc => ?_) hfaithful (fun _ => hknows) (fun _ => ?_)
          fun hf => absurd hstorage hf
        · rcases hcrowded.mp hc with hc | hc
          · exact hfull (hscope ▸ hc.1)
          · exact hroom hc
        · have hindex : ((t'.scope l.scope).free.size.toUInt16).toNat =
              (t'.scope l.scope).free.size := by
            show (t'.scope l.scope).free.size % 65536 = _
            unfold wordCount at hfull
            omega
          rw [owner_of_function hf, hindex]
          unfold freeVars ScopeTable.captured
          rw [scope_modifyScope _ ht'.mirrors.1.known, if_pos rfl, Array.getElem?_push_size]

/-- **Lookups**, within enough steps outward. -/
theorem looksWithin : ∀ {C : Chain} {l : Layer} (n : Nat), t.Faithful (l :: C) → l.scope.index < n →
    t.Looks (l :: C) name (resolveWithin name n l.scope t)
  | _, _, 0, _, hn => absurd hn (Nat.not_lt_zero _)
  | C, l, n + 1, h, hn => by
    cases hl : l.find? name with
    | some symbol => exact h.looks_declared hl n
    | none =>
      cases hi : (t.scope l.scope).freeIndex[name]? with
      | some i => exact h.looks_recorded hl hi n
      | none =>
        have hunknown : t.known? l.scope name = none := by
          unfold known?
          rw [h.mirrors.1.names, hl, hi]
          rfl
        cases C with
        | nil =>
          have hp : (t.scope l.scope).parent = none := h.mirrors.1.parent
          rw [resolveWithin_root n hunknown hp]
          exact .undeclared ((symbol?_of_none hl).trans rfl)
        | cons l' C =>
          have hw := h.wellFormed
          have hp : (t.scope l.scope).parent = some l'.scope := h.mirrors.1.parent
          have hlt := hw.parent_lt l.scope l'.scope hp
          have hn' : l'.scope.index < n := by omega
          have h' : t.Faithful (l' :: C) := ⟨hw, h.mirrors.2, h.listed⟩
          have ho := looksWithin n h' hn'
          obtain ⟨-, hwhole⟩ := resolveWithin_spec name (n + 1) l.scope hw h.mirrors.1.known hn
          rw [resolveWithin_parent n hunknown hp] at hwhole ⊢
          change ∀ o t', EStateM.bind _ _ t = .ok o t' → _ at hwhole
          show t.Looks _ name (EStateM.bind _ _ t)
          unfold EStateM.bind at hwhole ⊢
          have hinner : ∀ t', resolveWithin name n l'.scope t = .error .tooManySymbols t' →
              ∀ u : ScopeId, l'.scope.index < u.index → t'.scope u = t.scope u := fun t' hr =>
            scope_of_resolveWithin_error n l'.scope hw h'.mirrors.1.known hn' hr
          obtain ⟨herror, hspec⟩ := resolveWithin_spec name n l'.scope hw h'.mirrors.1.known hn'
          generalize resolveWithin name n l'.scope t = answer at ho herror hspec hwhole hinner
          cases ho with
          | undeclared hs =>
            have hnone := (symbol?_of_none (C := l' :: C) hl).trans hs
            dsimp only
            rw [inward_builtin]
            exact .undeclared hnone
          | refused hs hcrowded ht =>
            obtain ⟨-, g⟩ := herror _ _ rfl
            have htop := atTop_of_storage hcrowded.1
            refine .refused ((symbol?_of_none hl).trans hs) ?_
              (h.of_outer g (hinner _ rfl l.scope hlt) ht)
            cases hf : l.isFunction with
            | false => exact (crowded_of_block hl hf).mpr hcrowded
            | true => exact (crowded_of_function hl hf htop).mpr (.inr hcrowded)
          | found hs hroom ht hk hfree h0 =>
            obtain ⟨-, g, hsame, hanswer⟩ := hspec _ _ rfl
            exact h.looks_inward hl hi g (hsame l.scope hlt) hs (hanswer _ rfl).2 hroom ht hk hfree
              h0 fun o t'' ho => (hwhole o t'' ho).1

/-- **A lookup** from the innermost scope answers with the nearest declaration or with the builtin,
unless a function on the way is crowded. -/
theorem looks (h : t.Faithful (l :: C)) (name : String) :
    t.Looks (l :: C) name (resolve l.scope name t) :=
  h.looksWithin (l.scope.index + 1) (Nat.lt_succ_self _)

end Faithful

end ScopeTable

end ScriptEngine
