import ScriptEngine.Proofs.Evaluation.Instructions
import ScriptEngine.Proofs.Layout.Spans
import ScriptEngine.Proofs.Scope.Sessions

/-!
# Variables that follow an evaluation

Code knows a variable by its slot and an evaluation by its name. Without functions, all variables
are globals, and the symbols that are visible at a place are those of the scopes that are open
there.

## Main definitions

* `ScriptEngine.Chain.symbols`: the symbols of open scopes;
* `ScriptEngine.Ground.Opens`: a table knows which scopes are open.

## Main results

* `ScriptEngine.Ground.Follows.load`, `ScriptEngine.Ground.Follows.assign`,
  `ScriptEngine.Ground.Follows.declare`: the instructions that read and write variables;
* `ScriptEngine.Ground.Follows.inScope`: a block.
-/

namespace ScriptEngine

open ScopeTable

/-- **The symbols of open scopes**, newest first. -/
def Chain.symbols (C : Chain) : List Symbol :=
  C.flatMap Layer.symbols

/-- The names that are visible in open scopes. -/
def ScopeTable.visible (t : ScopeTable) (C : Chain) : Names :=
  ⟨C.symbols, (t.scope root).slots⟩

namespace Chain

variable {C : Chain} {l : Layer} {name : String}

theorem symbols_cons : symbols (l :: C) = l.symbols ++ C.symbols :=
  List.flatMap_cons

/-- The nearest declaration of a name is the newest one. -/
theorem find?_symbols (C : Chain) (name : String) :
    C.symbols.find? (·.name == name) = C.symbol? name := by
  induction C with
  | nil => rfl
  | cons l C ih =>
    rw [symbols_cons, List.find?_append, ih]
    cases hl : l.find? name with
    | some symbol =>
      rw [symbol?_of_some hl]
      show (l.find? name).or _ = _
      rw [hl, Option.some_or]
    | none =>
      rw [symbol?_of_none hl]
      show (l.find? name).or _ = _
      rw [hl, Option.none_or]

/-- What is declared at the top is a global. -/
theorem storage_of_top (h : C.atTop = true) (name : String) : C.storage name = .global := by
  refine if_pos ?_
  induction C with
  | nil => rfl
  | cons l C ih =>
    cases hl : l.find? name with
    | some symbol => rwa [around_of_some hl]
    | none =>
      rw [around_of_none hl]
      cases C with
      | nil => rfl
      | cons l' C =>
        rw [atTop_cons_cons, Bool.and_eq_true] at h
        exact ih h.2

end Chain

/-! ### Stores -/

theorem lookup_store (w : World) (symbols : List Symbol) (name : String) :
    (w.store symbols).bindings.lookup name =
      (symbols.find? (·.name == name)).map fun s => w.content s.index.toNat := by
  show (symbols.map fun s => (s.name, w.content s.index.toNat)).lookup name = _
  induction symbols with
  | nil => rfl
  | cons s symbols ih =>
    rw [List.map_cons, List.lookup_cons, List.find?_cons, ih, BEq.comm (a := name)]
    cases s.name == name <;> rfl

/-- Newer symbols have higher slots. -/
abbrev Newest (symbols : List Symbol) : Prop :=
  symbols.Pairwise fun x y => y.index.toNat < x.index.toNat

/-- **A variable with another value**, in its slot and under its name. -/
theorem assign_store {symbols : List Symbol} {name : String} {s : Symbol} (hn : Newest symbols)
    (hs : symbols.find? (·.name == name) = some s) (w : World) (v : Value) :
    Bindings.assign name v (w.store symbols).bindings =
      ((w.setGlobal s.index.toNat v).store symbols).bindings := by
  show Bindings.assign name v (symbols.map fun s => (s.name, w.content s.index.toNat)) =
    symbols.map fun x => (x.name, (w.setGlobal s.index.toNat v).content x.index.toNat)
  induction symbols with
  | nil => cases hs
  | cons x symbols ih =>
    obtain ⟨hx, hrest⟩ := List.pairwise_cons.mp hn
    rw [List.map_cons, List.map_cons, Bindings.assign, World.content_setGlobal]
    rw [List.find?_cons] at hs
    by_cases hname : x.name = name
    · rw [beq_iff_eq.mpr hname] at hs
      obtain rfl : x = s := Option.some.inj hs
      rw [if_pos hname, if_pos rfl, hname]
      refine congrArg _ (List.map_congr_left fun y hy => ?_)
      rw [World.content_setGlobal, if_neg (Nat.ne_of_lt (hx y hy))]
    · rw [beq_false_of_ne hname] at hs
      rw [if_neg hname, if_neg (Nat.ne_of_gt (hx s (List.mem_of_find?_eq_some hs))), ih hrest hs]

/-- Older symbols do not see what newer slots hold. -/
theorem store_setGlobal {symbols : List Symbol} {slot : Nat}
    (h : ∀ s ∈ symbols, s.index.toNat < slot) (w : World) (v : Value) :
    (w.setGlobal slot v).store symbols = w.store symbols := by
  have hmap : (symbols.map fun s => (s.name, (w.setGlobal slot v).content s.index.toNat)) =
      symbols.map fun s => (s.name, w.content s.index.toNat) :=
    List.map_congr_left fun s hs => by
      rw [World.content_setGlobal, if_neg (Nat.ne_of_lt (h s hs))]
  show (⟨symbols.map fun s => (s.name, (w.setGlobal slot v).content s.index.toNat), _, _⟩ : Store) =
      _
  rw [hmap]
  rfl

namespace Ground

variable {G : Ground} {α β : Type} {J : Option Escape} {N : Nat} {ν ν' ν₀ : Names}
  {p q : Nat} {i : Instruction} {v u t : Value} {vs us K : List Value} {k : UInt32}
  {w w' w₀ : World}
  {x : Eval α} {Q : α → Nat → List Value → Prop}

/-- The world after a slot was set that had been given out. -/
theorem Later.setGlobal {slots slot : Nat} (hw : G.Fits w) (hs : slot < slots)
    (hv : Discipline.plain.value () v) : G.Later slots w (w.setGlobal slot v) := by
  refine ⟨⟨hw.allows, hw.heap, fun other => ?_⟩, List.prefix_rfl, fun other hle => ?_⟩
  · rw [World.content_setGlobal]
    split
    · exact hv
    · exact hw.globals other
  · rw [World.content_setGlobal, if_neg (by omega)]

/-- What a run follows does not depend on the slots that are given out before. -/
theorem Follows.start (hs : ν₀.symbols = ν.symbols) (h : G.Follows J N ν p vs x ν' Q) :
    G.Follows J N ν₀ p vs x ν' Q := by
  intro k w hw
  rw [hs]
  exact h k w hw

/-- **An instruction that always goes on.** -/
theorem Follows.goes (hc : G.code.Has i)
    (h : ∀ k w, G.Fits w → ∃ v q us w', Q v q us ∧ G.Later ν'.slots w w' ∧
      Exec.execute G.setting.ctx i ⟨G.machineAt i.stop vs k, w⟩ =
        .ok .next ⟨G.machineAt q us k, w'⟩ ∧
      x (w.store ν.symbols) = .ok v (w'.store ν'.symbols)) :
    G.Follows J N ν i.offset vs x ν' Q := by
  intro k w hw
  obtain ⟨v, q, us, w', hQ, hw', hrun, heval⟩ := h (k + 1) w hw
  have hstep := step_fiber vs k hc hw.allows
  rw [hrun] at hstep
  rw [heval]
  exact Comes.of_step hstep (.refl ⟨q, us, k + 1, rfl, hQ, rfl, hw'⟩)

/-! ### Open scopes -/

/-- **A table knows which scopes are open**, the innermost of which is given. All of them are at the
top, and the builtins are those of an evaluation. -/
structure Opens (G : Ground) (s : ScopeId) (C : Chain) (t : ScopeTable) : Prop where
  faithful : t.Faithful C
  head : C.head?.map Layer.scope = some s
  atTop : C.atTop = true
  newest : Newest C.symbols
  given : ∀ x ∈ C.symbols, x.index.toNat < (t.scope root).slots
  distinct : ∀ l ∈ C, (l.symbols.map Symbol.name).Nodup
  builtins : ∀ (name : String) (i : Word), t.builtinIndex[name]? = some i →
    G.machine.registry.get? i.toNat = some (G.setting.builtins name) ∧
      Discipline.plain.value () (G.setting.builtins name)

/-- What the code of a site is made of is the code that runs. -/
structure Hosts (G : Ground) (c : Code) : Prop where
  words : c.words = G.code.words
  constants : ∀ (i : Nat) (v : Value), c.constants[i]? = some v → G.code.constants[i]? = some v

namespace Opens

variable {s inner : ScopeId} {C : Chain} {l : Layer} {a b : ScopeTable} {name : String}

theorem nonempty (h : G.Opens s C a) : 0 < a.scopes.size :=
  h.faithful.wellFormed.nonempty

/-- The innermost open scope. -/
theorem exists_cons (h : G.Opens s C a) : ∃ l C', C = l :: C' ∧ l.scope = s := by
  obtain ⟨l, hl, rfl⟩ := Option.map_eq_some_iff.mp h.head
  obtain ⟨C', rfl⟩ := List.head?_eq_some_iff.mp hl
  exact ⟨l, C', rfl, rfl⟩

/-- **A table that knows more**, but opens the same scopes. -/
theorem grow (h : G.Opens s C a) (g : a.Grows b) (hb : b.Faithful C) :
    G.Opens s C b ∧ (a.visible C).Grows (b.visible C) := by
  have hslots := (g.scope root h.nonempty).slots
  exact ⟨⟨hb, h.head, h.atTop, h.newest, fun x hx => Nat.lt_of_lt_of_le (h.given x hx) hslots,
    h.distinct, g.builtinIndex ▸ h.builtins⟩, .of_slots hslots⟩

/-- **A lookup** finds the newest symbol of a name, which is a global, or the builtin. -/
theorem resolve (h : G.Opens s C a) {r : Resolution}
    (hr : ScopeTable.resolve s name a = .ok (some r) b) :
    G.Opens s C b ∧ (a.visible C).Grows (b.visible C) ∧
      (C.symbols.find? (·.name == name) = some r.symbol ∧ r.storage = .global ∨
        C.symbols.find? (·.name == name) = none ∧ r.storage = .builtin ∧
          a.builtinIndex[name]? = some r.symbol.index) := by
  obtain ⟨l, C', rfl, rfl⟩ := h.exists_cons
  have hlooks := h.faithful.looks name
  rw [hr] at hlooks
  rw [Chain.find?_symbols]
  generalize hres : (EStateM.Result.ok (some r) b : EStateM.Result CompileError ScopeTable _) = o
    at hlooks
  cases hlooks with
  | undeclared hs =>
    obtain ⟨hbuiltin, rfl⟩ := EStateM.Result.ok.inj hres
    obtain ⟨i, hi, rfl⟩ := Option.map_eq_some_iff.mp hbuiltin.symm
    exact ⟨h, .refl _, .inr ⟨hs, rfl, hi⟩⟩
  | found hs hroom ht hk hi h0 =>
    obtain ⟨hfound, rfl⟩ := EStateM.Result.ok.inj hres
    obtain rfl := Option.some.inj hfound
    obtain ⟨-, g, -⟩ := resolve_spec h.faithful.wellFormed h.faithful.mirrors.1.known hr
    obtain ⟨hopens, hgrows⟩ := h.grow g ht
    exact ⟨hopens, hgrows, .inl ⟨hs, Chain.storage_of_top h.atTop name⟩⟩
  | refused => cases hres

/-- The scope is at the top. -/
theorem isGlobal (h : G.Opens s C a) : a.isGlobal s = true := by
  obtain ⟨l, C', rfl, rfl⟩ := h.exists_cons
  rw [h.faithful.mirrors.isGlobal_eq h.faithful.wellFormed, h.atTop]

theorem functionScope (h : G.Opens s C a) : a.functionScope s = root := by
  have hglobal := h.isGlobal
  obtain ⟨l, C', rfl, rfl⟩ := h.exists_cons
  exact functionScope_of_isGlobal h.faithful.wellFormed.toIsTree h.faithful.mirrors.1.known hglobal

/-- **A declaration** takes the next slot. -/
theorem declared (h : G.Opens s (l :: C) a) {constant : Bool} {symbol : Symbol}
    (hd : ScopeTable.declare s name constant a = .ok symbol b) :
    G.Opens s (l.declare symbol :: C) b ∧
      (a.visible (l :: C)).Grows (b.visible (l.declare symbol :: C)) ∧ symbol.name = name ∧
      symbol.index.toNat = (a.scope root).slots ∧
      (b.scope root).slots = (a.scope root).slots + 1 := by
  obtain rfl : l.scope = s := Option.some.inj h.head
  have hknown := h.faithful.mirrors.1.known
  have hroot := h.functionScope
  obtain ⟨hw, g, hsymbol, hlt, hnone, hb⟩ := declare_spec h.faithful.wellFormed hknown hd
  have hcount : a.slotCount l.scope = (a.scope root).slots := by
    unfold slotCount
    rw [hroot]
  have hslots : (b.scope root).slots = (a.scope root).slots + 1 := by
    rw [hb, scope_declared h.faithful.wellFormed.toIsTree hknown, hroot, if_pos rfl, hcount]
  have hindex : symbol.index.toNat = (a.scope root).slots := by
    rw [hsymbol, ← hcount]
    exact Nat.mod_eq_of_lt (Nat.lt_of_lt_of_le hlt (by decide))
  have hname : symbol.name = name := by rw [hsymbol]
  have hsymbols : Chain.symbols (l.declare symbol :: C) = symbol :: Chain.symbols (l :: C) := by
    rw [Chain.symbols_cons, Chain.symbols_cons]
    rfl
  have hgrows : (a.scope root).slots ≤ (b.scope root).slots := hslots ▸ Nat.le_succ _
  refine ⟨⟨ScopeSession.faithful_declare h.faithful hd, h.head, ?_, ?_, fun x hx => ?_,
    fun l' hl' => ?_, g.builtinIndex ▸ h.builtins⟩, ⟨hgrows, [symbol], hsymbols, ?_⟩, hname, hindex,
    hslots⟩
  · have htop := h.atTop
    cases C with
    | nil => rfl
    | cons l' C => rwa [Chain.atTop_cons_cons] at htop ⊢
  · rw [hsymbols]
    exact List.pairwise_cons.mpr ⟨fun x hx => hindex ▸ h.given x hx, h.newest⟩
  · rw [hsymbols] at hx
    rw [hslots]
    rcases List.mem_cons.mp hx with rfl | hx
    · exact hindex ▸ Nat.lt_succ_self _
    · exact Nat.lt_succ_of_lt (h.given x hx)
  · rcases List.mem_cons.mp hl' with rfl | hl'
    · refine List.nodup_cons.mpr ⟨fun hmem => ?_, h.distinct l List.mem_cons_self⟩
      -- a name is declared only once in a scope
      obtain ⟨x, hx, hxname⟩ := List.mem_map.mp hmem
      have hfind := (h.faithful.mirrors.1.names name).symm.trans hnone
      have := List.find?_eq_none.mp hfind x hx
      exact this (beq_iff_eq.mpr (hxname.trans hname))
    · exact h.distinct l' (List.mem_cons_of_mem _ hl')
  · intro x hx
    obtain rfl := List.mem_singleton.mp hx
    exact Nat.le_of_eq hindex.symm

/-- **A block is opened.** -/
theorem openScope (h : G.Opens s C a) (ho : ScopeTable.openScope s .block a = .ok inner b) :
    G.Opens inner (⟨inner, .block, []⟩ :: C) b ∧ (b.scope root).slots = (a.scope root).slots := by
  obtain ⟨l, C', rfl, rfl⟩ := h.exists_cons
  obtain ⟨-, g, hinner, -, -, hold⟩ :=
    openScope_spec h.faithful.wellFormed h.faithful.mirrors.1.known ho
  have hroot : root ≠ inner := by
    rw [hinner]
    exact fun heq => Nat.ne_of_lt h.nonempty (congrArg ScopeId.index heq)
  have hslots : (b.scope root).slots = (a.scope root).slots := by rw [hold root hroot]
  refine ⟨⟨ScopeSession.faithful_openScope h.faithful ho, rfl, ?_, h.newest, hslots ▸ h.given,
    fun l' hl' => ?_, g.builtinIndex ▸ h.builtins⟩, hslots⟩
  · rw [Chain.atTop_cons_cons, h.atTop]
    rfl
  · rcases List.mem_cons.mp hl' with rfl | hl'
    · exact List.nodup_nil
    · exact h.distinct l' hl'

/-- **A block is closed.** -/
theorem close (h : G.Opens inner (l :: C) b) (hs : C.head?.map Layer.scope = some s) :
    G.Opens s C b := by
  have hsymbols : (Chain.symbols C).Sublist (Chain.symbols (l :: C)) :=
    Chain.symbols_cons ▸ List.sublist_append_right ..
  refine ⟨⟨h.faithful.wellFormed, h.faithful.mirrors.2, h.faithful.listed⟩, hs, ?_,
    h.newest.sublist hsymbols, fun x hx => h.given x (hsymbols.subset hx),
    fun l' hl' => h.distinct l' (List.mem_cons_of_mem _ hl'), h.builtins⟩
  have htop := h.atTop
  cases C with
  | nil => cases hs
  | cons l' C =>
    rw [Chain.atTop_cons_cons, Bool.and_eq_true] at htop
    exact htop.2

/-- **Several declarations** take the next slots, one by one. -/
theorem declaredEach :
    ∀ {names : List String} {l : Layer} {a b : ScopeTable} {symbols : List Symbol},
    G.Opens s (l :: C) a → ScopeTable.declareEach s names a = .ok symbols b →
    ∃ l', G.Opens s (l' :: C) b ∧ l'.symbols = symbols.reverse ++ l.symbols ∧
      symbols.map Symbol.name = names ∧ (a.visible (l :: C)).Grows (b.visible (l' :: C))
  | [], l, a, _, symbols, h, hd => by
    obtain ⟨rfl, rfl⟩ := ScopeTable.of_declareEach_nil hd
    exact ⟨l, h, rfl, rfl, .refl _⟩
  | name :: names, l, a, _, symbols, h, hd => by
    obtain ⟨symbol, t, rest, hfirst, hrest, rfl⟩ := ScopeTable.of_declareEach_cons hd
    obtain ⟨hopens, hgrows, hname, -⟩ := h.declared hfirst
    obtain ⟨l', hopens', hsymbols, hnames, hgrows'⟩ :=
      declaredEach hopens hrest
    refine ⟨l', hopens', ?_, ?_, hgrows.trans hgrows'⟩
    · rw [hsymbols, List.reverse_cons, List.append_assoc]
      rfl
    · rw [List.map_cons, hname, hnames]

end Opens

/-! ### Instructions -/

/-- **A variable is read.** -/
theorem Follows.load {name : String} {s : Symbol} (hc : G.code.Has ⟨p, .loadGlobal, [s.index]⟩)
    (hs : ν.symbols.find? (·.name == name) = some s) :
    G.Follows J N ν p K (Eval.load G.setting name) ν (Atop K (p + 2) ([·])) := by
  refine .exec hc fun k w hw => ?_
  have heval : Eval.load G.setting name (w.store ν.symbols) =
      .ok (w.content s.index.toNat) (w.store ν.symbols) := by
    unfold Eval.load
    rw [lookup_store, hs]
    rfl
  rw [heval]
  show G.Answers w ν _ k (Exec.proceed (Exec.push (w.content s.index.toNat))
    ⟨G.machineAt (p + 2) K k, w⟩) _
  exact .push ⟨rfl, rfl, Discipline.values_cons.mpr ⟨hw.globals _, Discipline.values_nil⟩⟩
    (.refl hw)

/-- **A builtin is read** under a name that no variable has. -/
theorem Follows.loadBuiltin {name : String} {i : Word} (hc : G.code.Has ⟨p, .loadBuiltin, [i]⟩)
    (hs : ν.symbols.find? (·.name == name) = none)
    (hi : G.machine.registry.get? i.toNat = some (G.setting.builtins name))
    (hp : Discipline.plain.value () (G.setting.builtins name)) :
    G.Follows J N ν p K (Eval.load G.setting name) ν (Atop K (p + 2) ([·])) := by
  refine .exec hc fun k w hw => ?_
  have heval : Eval.load G.setting name (w.store ν.symbols) =
      .ok (G.setting.builtins name) (w.store ν.symbols) := by
    unfold Eval.load
    rw [lookup_store, hs]
    rfl
  have hentry : Exec.entry (G.machine.registry.get? i.toNat) (.builtinMissing i.toNat) =
      Pure.pure (G.setting.builtins name) := by
    rw [hi]
    rfl
  have hrun : Exec.execute G.setting.ctx ⟨p, .loadBuiltin, [i]⟩ ⟨G.machineAt (p + 2) K k, w⟩ =
      Exec.proceed (Exec.push (G.setting.builtins name)) ⟨G.machineAt (p + 2) K k, w⟩ := by
    show Exec.proceed (Exec.entry (G.machine.registry.get? i.toNat) (.builtinMissing i.toNat) >>=
      Exec.push) _ = _
    rw [hentry, pure_bind]
  rw [heval]
  show G.Answers w ν _ k (Exec.execute G.setting.ctx ⟨p, .loadBuiltin, [i]⟩
    ⟨G.machineAt (p + 2) K k, w⟩) _
  rw [hrun]
  exact .push ⟨rfl, rfl, Discipline.values_cons.mpr ⟨hp, Discipline.values_nil⟩⟩ (.refl hw)

/-- **A variable is written.** -/
theorem Follows.assign {name : String} {s : Symbol} (hc : G.code.Has ⟨p, .storeGlobal, [s.index]⟩)
    (hn : Newest ν.symbols) (hs : ν.symbols.find? (·.name == name) = some s)
    (hlt : s.index.toNat < ν.slots) (hv : Discipline.plain.value () v) :
    G.Follows J N ν p (v :: K) (Eval.assign name v) ν (Atop K (p + 2) fun _ => []) := by
  refine .goes hc fun k w hw => ⟨(), p + 2, K, w.setGlobal s.index.toNat v,
    ⟨rfl, rfl, Discipline.values_nil⟩, .setGlobal hw hlt hv, rfl, ?_⟩
  show EStateM.Result.ok () { w.store ν.symbols with
    bindings := Bindings.assign name v (w.store ν.symbols).bindings } = _
  rw [assign_store hn hs]
  rfl

/-- **A variable is declared**: its slot is newer than all others. -/
theorem Follows.declare {s : Symbol} {slots : Nat} (hc : G.code.Has ⟨p, .storeGlobal, [s.index]⟩)
    (hold : ∀ x ∈ ν.symbols, x.index.toNat < s.index.toNat) (hlt : s.index.toNat < slots)
    (hv : Discipline.plain.value () v) :
    G.Follows J N ν p (v :: K) (Eval.declare s.name v) ⟨s :: ν.symbols, slots⟩
      (Atop K (p + 2) fun _ => []) := by
  refine .goes hc fun k w hw => ⟨(), p + 2, K, w.setGlobal s.index.toNat v,
    ⟨rfl, rfl, Discipline.values_nil⟩, .setGlobal hw hlt hv, rfl, ?_⟩
  have hcontent : (w.setGlobal s.index.toNat v).content s.index.toNat = v := by
    rw [World.content_setGlobal, if_pos rfl]
  show EStateM.Result.ok () { w.store ν.symbols with
      bindings := (s.name, v) :: (w.store ν.symbols).bindings } =
    .ok () { (w.setGlobal s.index.toNat v).store ν.symbols with
      bindings := (s.name, (w.setGlobal s.index.toNat v).content s.index.toNat) ::
        ((w.setGlobal s.index.toNat v).store ν.symbols).bindings }
  rw [store_setGlobal hold, hcontent]

/-! ### Scopes -/

theorem Ends.widen {symbols : List Symbol} {slots : Nat} {F : Fiber}
    {r : EStateM.Result Stop Store α}
    (h : G.Ends J N w₀ symbols ν' Q F w r) (hs : ν'.slots ≤ slots) :
    G.Ends J N w₀ symbols ⟨ν'.symbols, slots⟩ Q F w r := by
  match r with
  | .ok _ _ =>
    refine Comes.mono h (Nat.le_refl 0) fun F' w' => ?_
    rintro ⟨q, us, k, hF, hQ, hτ, hw⟩
    exact ⟨q, us, k, hF, hQ, hτ, hw.mono hs⟩
  | .error (.leave _) _ =>
    refine Comes.mono h (Nat.le_refl 0) fun F' w' => ?_
    rintro ⟨j, δ, k, hJ, hF, hτ, hw⟩
    exact ⟨j, δ, k, hJ, hF, hτ, hw.mono hs⟩
  | .error (.failure _) _ =>
    refine Comes.mono h (Nat.le_refl 0) fun F' w' => ?_
    rintro ⟨ε, δ, hF, hν, hτ, hε, hw⟩
    exact ⟨ε, δ, hF, hν, hτ, hε, hw.mono hs⟩
  | .error .unfinished _ => exact h

/-- More slots may be given out. -/
theorem Follows.widen {slots : Nat} (h : G.Follows J N ν p vs x ν' Q) (hs : ν'.slots ≤ slots) :
    G.Follows J N ν p vs x ⟨ν'.symbols, slots⟩ Q :=
  fun k w hw => (h k w hw).widen hs

/-- The slots that are given out before and during an evaluation do not matter as long as there are
enough. -/
theorem Follows.settle (h : G.Follows J N ν p vs x ν' Q) (hs : ν₀.symbols = ν.symbols)
    (hs' : ν'.symbols = ν₀.symbols) (hle : ν'.slots ≤ ν₀.slots) : G.Follows J N ν₀ p vs x ν₀ Q := by
  obtain ⟨symbols, slots⟩ := ν'
  obtain rfl : symbols = ν₀.symbols := hs'
  exact .start hs (h.widen hle)

/-- Only the oldest variables are left. -/
theorem cut_store (w w' : World) (δ symbols : List Symbol) :
    (w.store (δ ++ symbols)).cut (w'.store symbols).bindings.length = w.store symbols := by
  have hlength : (w.store (δ ++ symbols)).bindings.length - (w'.store symbols).bindings.length =
      δ.length := by
    show ((δ ++ symbols).map _).length - (symbols.map _).length = _
    rw [List.length_map, List.length_map, List.length_append, Nat.add_sub_cancel]
  unfold Store.cut
  rw [hlength]
  show (⟨((δ ++ symbols).map _).drop δ.length, _, _⟩ : Store) = _
  rw [List.map_append, List.drop_append_of_le_length (by rw [List.length_map]),
    List.drop_of_length_le (by rw [List.length_map]), List.nil_append]
  rfl

/-- **A scope**: what was declared in it is gone afterwards, but its slots are not given out
again. -/
theorem Follows.inScope (h : G.Follows J N ν p vs x ν' Q) (hg : ν.Grows ν') :
    G.Follows J N ν p vs (Eval.inScope x) ⟨ν.symbols, ν'.slots⟩ Q := by
  intro k w hw
  have hends := h k w hw
  unfold Eval.inScope
  match x (w.store ν.symbols), hends with
  | .ok v τ, hends =>
    refine Comes.mono hends (Nat.le_refl 0) fun F' w' => ?_
    rintro ⟨q, us, k, hF, hQ, rfl, hw'⟩
    obtain ⟨-, δ, hδ, -⟩ := hg
    exact ⟨q, us, k, hF, hQ, by rw [hδ, cut_store], hw'⟩
  | .error (.leave _) τ, hends =>
    refine Comes.mono hends (Nat.le_refl 0) fun F' w' => ?_
    rintro ⟨j, δ, k, hJ, hF, rfl, hw'⟩
    exact ⟨j, [], k, hJ, hF, cut_store .., hw'⟩
  | .error (.failure _) τ, hends =>
    refine Comes.mono hends (Nat.le_refl 0) fun F' w' => ?_
    rintro ⟨ε, δ, hF, -, rfl, -, hw'⟩
    exact ⟨[], [], hF, rfl, cut_store .., fun s hs => absurd hs List.not_mem_nil, hw'⟩
  | .error .unfinished τ, hends => exact hends

end Ground

end ScriptEngine
