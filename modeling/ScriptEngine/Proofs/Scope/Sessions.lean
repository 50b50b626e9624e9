import Mathlib.Data.List.Induction
import Mathlib.Data.List.Nodup
import Mathlib.Data.List.Perm.Subperm
import Std.Data.String.ToNat
import ScriptEngine.Proofs.Compiler.Builtins
import ScriptEngine.Proofs.Scope.Chain

/-!
# Sessions

What names mean in the course of a program. Scopes are opened inside the innermost open one and
closed in the opposite order, and names are declared and looked up in the innermost one.

## Main definitions

* `ScriptEngine.ScopeAct`: the acts of which a session consists;
* `ScriptEngine.ScopeSession.run`: a session after a sequence of acts;
* `ScriptEngine.ScopeSession.Lexical`: what lookups answer in a session, and what functions have
  recorded.

## Main results

* `ScriptEngine.ScopeSession.lookups_lexical`: lookups are lexical after every sequence of acts.
-/

namespace ScriptEngine

open ScopeTable Chain

/-- **An act on the scopes**, which takes place in the innermost open one. -/
inductive ScopeAct where
  | addBuiltin (name : String)
  | enter (kind : ScopeKind)
  | leave
  | declare (name : String) (constant : Bool)
  | lookup (name : String)
deriving DecidableEq

namespace ScopeAct

/-- Only a registration changes the builtins. -/
def registers : ScopeAct → Bool
  | addBuiltin _ => true
  | _ => false

theorem eq_addBuiltin {a : ScopeAct} (h : a.registers = true) : ∃ name, a = addBuiltin name := by
  cases a with
  | addBuiltin name => exact ⟨name, rfl⟩
  | enter | leave | declare | lookup => cases h

end ScopeAct

/-- **A session**: the scopes, those of them that are open, and all declarations so far, newest
first, each with the function that owns it. -/
structure ScopeSession where
  table : ScopeTable
  chain : Chain
  declared : List (ScopeId × Symbol) := []

namespace ScopeSession

/-- **A new session**, in which only the outermost scope is open. -/
def start : ScopeSession :=
  { table := ScopeTable.empty, chain := [⟨root, .function, []⟩] }

/-- **The session after an act.** A declaration or a lookup that is refused leaves no trace but in
the table, and the outermost scope stays open. -/
def act (s : ScopeSession) (a : ScopeAct) : ScopeSession :=
  match a, s with
  | .addBuiltin name, ⟨t, C, D⟩ => ⟨after (ScopeTable.addBuiltin name) t, C, D⟩
  | .enter kind, ⟨t, l :: C, D⟩ =>
    ⟨after (openScope l.scope kind) t, ⟨⟨t.scopes.size⟩, kind, []⟩ :: l :: C, D⟩
  | .leave, ⟨t, _ :: l :: C, D⟩ => ⟨t, l :: C, D⟩
  | .declare name constant, ⟨t, l :: C, D⟩ =>
    match ScopeTable.declare l.scope name constant t with
    | .ok symbol t => ⟨t, l.declare symbol :: C, (owner (l :: C), symbol) :: D⟩
    | .error _ t => ⟨t, l :: C, D⟩
  | .lookup name, ⟨t, l :: C, D⟩ => ⟨after (resolve l.scope name) t, l :: C, D⟩
  | _, s => s

theorem act_declare {t t' : ScopeTable} {l : Layer} {C : Chain} {D : List (ScopeId × Symbol)}
    {name : String} {constant : Bool} {symbol : Symbol}
    (hd : ScopeTable.declare l.scope name constant t = .ok symbol t') :
    act ⟨t, l :: C, D⟩ (.declare name constant) =
      ⟨t', l.declare symbol :: C, (owner (l :: C), symbol) :: D⟩ := by
  unfold act
  simp only [hd]

theorem act_declare_error {t t' : ScopeTable} {l : Layer} {C : Chain} {D : List (ScopeId × Symbol)}
    {name : String} {constant : Bool} {e : CompileError}
    (hd : ScopeTable.declare l.scope name constant t = .error e t') :
    act ⟨t, l :: C, D⟩ (.declare name constant) = ⟨t', l :: C, D⟩ := by
  unfold act
  simp only [hd]

/-- **The session after a sequence of acts.** -/
def run (s : ScopeSession) (acts : List ScopeAct) : ScopeSession :=
  acts.foldl act s

/-- **The answer to a lookup** from the innermost scope. -/
def answer (s : ScopeSession) (name : String) : Except CompileError (Option Resolution) :=
  match s.chain with
  | [] => .ok none
  | l :: _ =>
    match resolve l.scope name s.table with
    | .ok found _ => .ok found
    | .error e _ => .error e

theorem run_cons (s : ScopeSession) (a : ScopeAct) (acts : List ScopeAct) :
    s.run (a :: acts) = (s.act a).run acts :=
  rfl

theorem run_append (s : ScopeSession) (acts more : List ScopeAct) :
    s.run (acts ++ more) = (s.run acts).run more :=
  List.foldl_append

/-! ### What stays true -/

/-- **Sound sessions.** The table is faithful to the open scopes, and no slot of a function was
given out twice. -/
structure Sound (s : ScopeSession) : Prop where
  faithful : s.table.Faithful s.chain
  numbered : s.table.Numbered
  inRange : ∀ d ∈ s.declared, d.1.index < s.table.scopes.size ∧
    d.2.index.toNat < (s.table.scope d.1).slots
  distinct : s.declared.Pairwise fun d d' => d.1 = d'.1 → d.2.index ≠ d'.2.index

variable {s : ScopeSession} {t t' : ScopeTable} {l : Layer} {C : Chain}
  {D : List (ScopeId × Symbol)}
  {name : String}

/-- The scopes of the empty table. -/
theorem scope_empty (u : ScopeId) :
    ScopeTable.empty.scope u = { parent := none, kind := .function } := by
  cases hi : u.index with
  | zero => simp [ScopeTable.empty, scope, hi]
  | succ n => exact scope_of_size_le (by simp [ScopeTable.empty, hi])

theorem freeVars_empty (u : ScopeId) : ScopeTable.empty.freeVars u = #[] := by
  rw [freeVars, scope_empty]

/-- **A new session** is sound. -/
theorem sound_start : start.Sound := by
  have hopened : ScopeTable.empty.Opened ⟨root, .function, []⟩ [] := by
    refine ⟨Nat.zero_lt_one, ?_, ?_, fun name => ?_, fun name i hi => ?_⟩
    · rw [scope_empty]
    · rw [scope_empty]
      rfl
    · unfold get?
      rw [scope_empty]
      simp [Layer.find?]
    · rw [scope_empty] at hi
      simp at hi
  refine ⟨⟨empty_wellFormed, ⟨hopened, trivial⟩, fun u i r hr => ?_⟩, numbered_empty,
    fun _ hd => absurd hd List.not_mem_nil, .nil⟩
  change (ScopeTable.empty.scope u).free[i]? = some r at hr
  rw [scope_empty] at hr
  simp at hr

/-- Builtins are no matter of the scopes. -/
theorem faithful_of_scopes (h : t.Faithful C) (hw : t'.WellFormed) (hs : t'.scopes = t.scopes) :
    t'.Faithful C := by
  have hscope : ∀ u : ScopeId, t'.scope u = t.scope u := fun u => by rw [scope, scope, hs]
  refine ⟨hw, h.mirrors.congr (Nat.le_of_eq (congrArg Array.size hs.symm)) fun u _ => ?_,
    fun u i r hr => ?_⟩
  · rw [hscope]
    exact ⟨rfl, rfl, rfl, rfl, rfl⟩
  · rw [hscope] at hr ⊢
    exact h.listed u i r hr

/-- **A new scope** is open inside the others. -/
theorem faithful_openScope (h : t.Faithful (l :: C)) {kind : ScopeKind} {inner : ScopeId}
    (ho : openScope l.scope kind t = .ok inner t') :
    t'.Faithful (⟨inner, kind, []⟩ :: l :: C) := by
  obtain ⟨hw, g, rfl, hnew, hsize, hold⟩ := openScope_spec h.wellFormed h.mirrors.1.known ho
  refine ⟨hw, ⟨⟨?_, ?_, ?_, fun name => ?_, fun name i hi => ?_⟩, ?_⟩, fun u i r hr => ?_⟩
  · rw [hsize]
    exact Nat.lt_succ_self _
  · rw [hnew]
  · rw [hnew]
    rfl
  · unfold get?
    rw [hnew]
    simp [Layer.find?]
  · rw [hnew] at hi
    simp at hi
  · refine h.mirrors.congr g.size fun u hu => ?_
    rw [hold u.scope]
    · exact ⟨rfl, rfl, rfl, rfl, rfl⟩
    · rintro heq
      have := h.mirrors.known_of_mem hu
      rw [heq] at this
      exact Nat.lt_irrefl _ this
  · by_cases hu : u = ⟨t.scopes.size⟩
    · rw [hu, hnew] at hr
      simp at hr
    · rw [hold u hu] at hr ⊢
      exact h.listed u i r hr

/-- **A declaration** changes the innermost scope only. -/
theorem faithful_declare (h : t.Faithful (l :: C)) {constant : Bool} {symbol : Symbol}
    (hd : ScopeTable.declare l.scope name constant t = .ok symbol t') :
    t'.Faithful (l.declare symbol :: C) := by
  obtain ⟨hopened, hC⟩ := h.mirrors
  obtain ⟨hw, g, hsymbol, -, -, rfl⟩ := declare_spec h.wellFormed hopened.known hd
  have hscope := scope_declared h.wellFormed.toIsTree hopened.known symbol
  have hnames := get?_of_declare h.wellFormed hopened.known hd
  have hC' : (t.declared l.scope symbol).Mirrors C := by
    refine hC.congr g.size fun u hu => ?_
    rw [hscope]
    refine ⟨rfl, rfl, if_neg fun heq => ?_, rfl, rfl⟩
    have := h.mirrors.index_lt h.wellFormed u hu
    rw [heq] at this
    exact Nat.lt_irrefl _ this
  refine ⟨hw, ⟨⟨Nat.lt_of_lt_of_le hopened.known g.size, ?_, ?_, fun other => ?_,
    fun other i hi => ?_⟩, hC'⟩, fun u i r hr => ?_⟩
  · exact (g.scope l.scope hopened.known).kind.trans hopened.kind
  · exact (g.scope l.scope hopened.known).parent.trans hopened.parent
  · rw [Layer.find?_declare]
    refine (hnames other).trans ?_
    rw [hopened.names, hsymbol]
  · have heq : ((t.declared l.scope symbol).scope l.scope).free = (t.scope l.scope).free := by
      rw [hscope]
    have hi : (t.scope l.scope).freeIndex[other]? = some i := by
      have heq' : ((t.declared l.scope symbol).scope l.scope).freeIndex =
          (t.scope l.scope).freeIndex := by rw [hscope]
      exact heq' ▸ hi
    obtain ⟨symbol', hs', htop, hfree, hk⟩ := hopened.recorded other i hi
    refine ⟨symbol', hs', htop, heq ▸ hfree, Mirrors.knows_mono hk fun u _ j hj => ?_⟩
    rw [hscope]
    exact hj
  · rw [hscope] at hr ⊢
    exact h.listed u i r hr

/-- **The table after a lookup** is faithful to the same scopes. -/
theorem faithful_lookup (h : t.Faithful (l :: C)) :
    (after (resolve l.scope name) t).Faithful (l :: C) := by
  have hlooks := h.looks name
  unfold after
  generalize resolve l.scope name t = answer at hlooks
  cases hlooks with
  | undeclared => exact h
  | found _ _ ht => exact ht
  | refused _ _ ht => exact ht

/-- Scopes and builtins after a lookup. -/
theorem grows_lookup (name : String) (h : t.Faithful (l :: C)) :
    t.Grows (after (resolve l.scope name) t) := by
  unfold after
  split
  · rename_i hr
    exact (resolve_spec h.wellFormed h.mirrors.1.known hr).2.1
  · rename_i hr
    exact (resolve_error h.wellFormed h.mirrors.1.known hr).2

/-- Declarations stay in range. -/
theorem inRange_mono (h : ∀ d ∈ D, d.1.index < t.scopes.size ∧
    d.2.index.toNat < (t.scope d.1).slots) (g : t.Grows t') :
    ∀ d ∈ D, d.1.index < t'.scopes.size ∧ d.2.index.toNat < (t'.scope d.1).slots := by
  intro d hd
  obtain ⟨hknown, hlt⟩ := h d hd
  exact ⟨Nat.lt_of_lt_of_le hknown g.size, Nat.lt_of_lt_of_le hlt (g.scope d.1 hknown).slots⟩

/-- A registration changes no scope. -/
theorem scopes_after_addBuiltin (hw : t.WellFormed) (name : String) :
    (after (ScopeTable.addBuiltin name) t).scopes = t.scopes := by
  obtain ⟨herr, hok⟩ := addBuiltin_spec name hw
  unfold after
  cases ha : ScopeTable.addBuiltin name t with
  | error e t' => rw [herr e t' ha]
  | ok w t' => exact (hok w t' ha).2.1

/-- **A registration** changes nothing but the builtins. -/
theorem Sound.addBuiltin (h : Sound ⟨t, C, D⟩) (name : String) :
    Sound ⟨after (ScopeTable.addBuiltin name) t, C, D⟩ := by
  have hw := h.faithful.wellFormed
  obtain ⟨herr, hok⟩ := addBuiltin_spec name hw
  unfold after
  cases ha : ScopeTable.addBuiltin name t with
  | error e t' =>
    obtain rfl := herr e t' ha
    exact h
  | ok w t' =>
    obtain ⟨hw', hscopes, -⟩ := hok w t' ha
    obtain ⟨hnumbered, -⟩ := h.numbered.addBuiltin ha
    refine ⟨faithful_of_scopes h.faithful hw' hscopes, hnumbered, fun d hd => ?_, h.distinct⟩
    unfold scope
    dsimp only
    rw [hscopes]
    exact h.inRange d hd

/-- **A declaration** gets a slot that no other declaration of its function has. -/
theorem Sound.declare (h : Sound ⟨t, l :: C, D⟩) {constant : Bool} {symbol : Symbol}
    (hd : ScopeTable.declare l.scope name constant t = .ok symbol t') :
    Sound ⟨t', l.declare symbol :: C, (owner (l :: C), symbol) :: D⟩ := by
  have hf : t.Faithful (l :: C) := h.faithful
  have hw := hf.wellFormed
  have hs := hf.mirrors.1.known
  have hfaithful := faithful_declare hf hd
  have howner := hf.mirrors.functionScope_eq hw
  obtain ⟨hw', g, hsymbol, hroom, -, rfl⟩ := declare_spec hw hs hd
  have hindex : symbol.index.toNat = (t.scope (owner (l :: C))).slots := by
    rw [hsymbol, ← howner]
    unfold slotLimit at hroom
    show t.slotCount l.scope % 65536 = _
    unfold slotCount at hroom ⊢
    omega
  have hslots : ((t.declared l.scope symbol).scope (owner (l :: C))).slots =
      (t.scope (owner (l :: C))).slots + 1 := by
    rw [scope_declared hw.toIsTree hs, ← howner]
    exact if_pos rfl
  have hknown : (owner (l :: C)).index < t.scopes.size :=
    howner ▸ (functionScope_lt hw.toIsTree l.scope hs).1
  refine ⟨hfaithful, ⟨g.builtinIndex ▸ g.builtins ▸ h.numbered.finds,
    g.builtins ▸ h.numbered.size⟩, fun d hd => ?_, List.pairwise_cons.mpr ⟨fun d hd ho hi => ?_,
      h.distinct⟩⟩
  · rcases List.mem_cons.mp hd with rfl | hd
    · refine ⟨Nat.lt_of_lt_of_le hknown g.size, ?_⟩
      show symbol.index.toNat < _
      rw [hindex, hslots]
      exact Nat.lt_succ_self _
    · exact inRange_mono h.inRange g d hd
  · -- the slots of the function that were given out before are smaller
    obtain ⟨-, hlt⟩ := h.inRange d hd
    have ho : owner (l :: C) = d.1 := ho
    have hi : symbol.index = d.2.index := hi
    rw [← hi, hindex, ho] at hlt
    exact Nat.lt_irrefl _ hlt

/-- **Every act** keeps a session sound. -/
theorem Sound.act (h : s.Sound) (a : ScopeAct) : (s.act a).Sound := by
  obtain ⟨t, C, D⟩ := s
  cases a with
  | addBuiltin name => exact h.addBuiltin name
  | enter kind =>
    cases C with
    | nil => exact h
    | cons l C =>
      have ho : openScope l.scope kind t = .ok ⟨t.scopes.size⟩ (after (openScope l.scope kind) t) :=
        rfl
      obtain ⟨-, g, -⟩ := openScope_spec h.faithful.wellFormed h.faithful.mirrors.1.known ho
      exact ⟨faithful_openScope h.faithful ho, ⟨h.numbered.finds, h.numbered.size⟩,
        inRange_mono h.inRange g, h.distinct⟩
  | leave =>
    cases C with
    | nil => exact h
    | cons l C =>
      cases C with
      | nil => exact h
      | cons l' C =>
        obtain ⟨hw, ⟨-, hm⟩, hlisted⟩ := h.faithful
        exact ⟨⟨hw, hm, hlisted⟩, h.numbered, h.inRange, h.distinct⟩
  | declare name constant =>
    cases C with
    | nil => exact h
    | cons l C =>
      cases hd : ScopeTable.declare l.scope name constant t with
      | ok symbol t' => exact act_declare hd ▸ h.declare hd
      | error e t' =>
        obtain rfl := declare_error hd
        rw [act_declare_error hd]
        exact h
  | lookup name =>
    cases C with
    | nil => exact h
    | cons l C =>
      have g := grows_lookup name h.faithful
      exact ⟨faithful_lookup h.faithful, ⟨g.builtinIndex ▸ g.builtins ▸ h.numbered.finds,
        g.builtins ▸ h.numbered.size⟩, inRange_mono h.inRange g, h.distinct⟩

/-- **Every sequence of acts** keeps a session sound. -/
theorem Sound.run (h : s.Sound) (acts : List ScopeAct) : (s.run acts).Sound := by
  induction acts generalizing s with
  | nil => exact h
  | cons a acts ih => exact ih (h.act a)

/-! ### What functions have recorded -/

/-- **Acts on the scopes** leave all records in place, and new ones come behind them. -/
theorem grows_act (h : s.Sound) {a : ScopeAct} (ha : a.registers = false) :
    s.table.Grows (s.act a).table := by
  obtain ⟨t, C, D⟩ := s
  cases a with
  | addBuiltin name => cases ha
  | leave => match C with
    | [] | [_] | _ :: _ :: _ => exact .refl t
  | enter kind =>
    cases C with
    | nil => exact .refl t
    | cons l C =>
      have ho : openScope l.scope kind t = .ok ⟨t.scopes.size⟩ (after (openScope l.scope kind) t) :=
        rfl
      exact (openScope_spec h.faithful.wellFormed h.faithful.mirrors.1.known ho).2.1
  | declare name constant =>
    cases C with
    | nil => exact .refl t
    | cons l C =>
      cases hd : ScopeTable.declare l.scope name constant t with
      | ok symbol t' =>
        rw [act_declare hd]
        exact (declare_spec h.faithful.wellFormed h.faithful.mirrors.1.known hd).2.1
      | error e t' =>
        obtain rfl := declare_error hd
        rw [act_declare_error hd]
        exact .refl t'
  | lookup name =>
    cases C with
    | nil => exact .refl t
    | cons l C => exact grows_lookup _ h.faithful

theorem grows_run (h : s.Sound) {acts : List ScopeAct} (ha : ∀ a ∈ acts, a.registers = false) :
    s.table.Grows (s.run acts).table := by
  induction acts generalizing s with
  | nil => exact .refl _
  | cons a acts ih =>
    refine (grows_act h (ha a List.mem_cons_self)).trans ?_
    exact ih (h.act a) fun b hb => ha b (List.mem_cons_of_mem a hb)

end ScopeSession

namespace ScopeTable

variable {t t' : ScopeTable} {C : Chain} {name : String}

/-- The free variables of a function are numbered in order, so they are not too many. -/
theorem WellFormed.free_size_le (hw : t.WellFormed) (f : ScopeId) :
    (t.freeVars f).size ≤ wordCount := by
  refine Nat.le_of_not_lt fun hlt => ?_
  obtain ⟨-, hi, -⟩ := hw.free f wordCount _ (Array.getElem?_eq_getElem hlt)
  have hlt := (t.freeVars f)[wordCount].freeIndex.toNat_lt
  rw [hi] at hlt
  exact Nat.lt_irrefl _ hlt

/-- **No name is recorded twice.** -/
theorem Faithful.nodup (h : t.Faithful C) (f : ScopeId) :
    ((t.freeVars f).toList.map (·.symbol.name)).Nodup := by
  refine List.pairwise_map.mpr (List.pairwise_iff_getElem.mpr fun i j hi hj hlt heq => ?_)
  have hrecorded (k : Nat) (hk : k < (t.freeVars f).toList.length) :
      (t.scope f).freeIndex[((t.freeVars f).toList[k]).symbol.name]? = some k :=
    h.listed f k _
      (by simp only [freeVars, Array.getElem_toList]; exact Array.getElem?_eq_getElem _)
  have hfirst := hrecorded i hi
  rw [heq, hrecorded j hj] at hfirst
  exact Nat.ne_of_gt hlt (Option.some.inj hfirst)

/-- What is known stays known. -/
theorem Knows.mono (hk : t.Knows name C) (g : t.Grows t')
    (hC : ∀ l ∈ C, l.scope.index < t.scopes.size) :
    t'.Knows name C := by
  refine Mirrors.knows_mono hk fun l hl i hi => ?_
  exact (g.scope l.scope (hC l hl)).freeIndex name i hi

/-- **A crowded function stays crowded**: it cannot record the variable any more. -/
theorem Crowded.mono (hc : t.Crowded C name) (g : t.Grows t') (hw' : t'.WellFormed)
    (hC : ∀ l ∈ C, l.scope.index < t.scopes.size) : t'.Crowded C name := by
  obtain ⟨hglobal, f, hf, hfull, hnot⟩ := hc
  have hfree := (g.scope f.scope (hC f (mem_of_mem_crossed hf))).free
  have hsame : t.freeVars f.scope = t'.freeVars f.scope := by
    refine Array.ext' (hfree.eq_of_length_le ?_)
    rw [Array.length_toList]
    exact Nat.le_trans (hw'.free_size_le f.scope) hfull
  exact ⟨hglobal, f, hf, hsame ▸ hfull, hsame ▸ hnot⟩

end ScopeTable

namespace ScopeSession

variable {s : ScopeSession} {t t' : ScopeTable} {l l' : Layer} {C : Chain} {name : String}

/-! ### What lookups answer -/

/-- **Lookups are lexical**: what they answer, and what functions record. -/
structure Lexical (s : ScopeSession) : Prop where
  /-- A name refers to its nearest declaration, however many scopes lie between, and a free variable
  is recorded. -/
  nearest : ∀ (name : String) (symbol : Symbol), s.chain.symbol? name = some symbol →
    ¬s.table.Crowded s.chain name →
      ∃ i, s.answer name = .ok (some ⟨symbol, s.chain.storage name, s.chain.depth name, i⟩) ∧
        (s.chain.storage name = .free →
          ((s.act (.lookup name)).table.freeVars s.chain.owner)[i.toNat]? =
            some ⟨symbol, s.chain.storage name, s.chain.depth name, i⟩)
  /-- A free variable is refused where a function on the way to it is full. -/
  crowded : ∀ name : String, s.table.Crowded s.chain name → s.answer name = .error .tooManySymbols
  /-- A name that is not declared refers to the builtin of that name, if there is one. -/
  builtin : ∀ name : String, s.chain.symbol? name = none →
    ∃ number : Option Word,
      s.answer name = .ok (number.map fun w => ⟨⟨name, w, true⟩, .builtin, 0, 0⟩) ∧
        ∀ i : Nat, number.map UInt16.toNat = some i ↔ s.table.builtins[i]? = some name
  /-- The records of a function are numbered, -/
  numbered : ∀ (f : ScopeId) (i : Nat) (r : Resolution), (s.table.freeVars f)[i]? = some r →
    r.storage = .free ∧ r.freeIndex.toNat = i
  /-- are about different names, -/
  nodup : ∀ f : ScopeId, ((s.table.freeVars f).toList.map (·.symbol.name)).Nodup
  /-- and stay in the order in which they were made. -/
  kept : ∀ (f : ScopeId) (a : ScopeAct), f.index < s.table.scopes.size →
    (s.table.freeVars f).toList <+: ((s.act a).table.freeVars f).toList
  /-- What a function has recorded is a variable of the function around it, or a free variable
  there. -/
  captured : ∀ (l l' : Layer) (C : Chain), s.chain = l :: l' :: C →
    ∀ r ∈ s.table.freeVars l.scope, ∃ (storage : Storage) (depth : Nat) (i : Word),
      (s.act .leave).answer r.symbol.name = .ok (some ⟨r.symbol, storage, depth, i⟩) ∧
        (storage = .local ∨ storage = .free) ∧ r.depth = depth + 1
  /-- An answer is the same again later, unless something was declared. -/
  stable : ∀ (name : String) (acts : List ScopeAct), (∀ a ∈ acts, a.registers = false) →
    ((s.act (.lookup name)).run acts).chain = s.chain →
      ((s.act (.lookup name)).run acts).answer name = s.answer name
  /-- No two declarations of a function get the same slot. -/
  slots : s.declared.Pairwise fun d d' => d.1 = d'.1 → d.2.index ≠ d'.2.index

/-- **A lookup** as the table sees it. -/
theorem answer_eq {D : List (ScopeId × Symbol)} : answer ⟨t, l :: C, D⟩ name =
    match resolve l.scope name t with
    | .ok found _ => .ok found
    | .error e _ => .error e :=
  rfl

/-- The builtins of a sound session. -/
theorem Sound.builtin (h : s.Sound) (name : String) : ∃ number : Option Word,
    s.table.resolveBuiltin name = number.map (fun w => ⟨⟨name, w, true⟩, .builtin, 0, 0⟩) ∧
      ∀ i : Nat, number.map UInt16.toNat = some i ↔ s.table.builtins[i]? = some name := by
  refine ⟨s.table.builtinIndex[name]?, rfl, fun i => ?_⟩
  rw [← Array.getElem?_toList]
  exact h.numbered.finds name i

/-- **What a function has recorded** is known to the scopes around it. -/
theorem Sound.captured {D : List (ScopeId × Symbol)} (h : Sound ⟨t, l :: l' :: C, D⟩)
    {r : Resolution} (hr : r ∈ t.freeVars l.scope) :
    ∃ (storage : Storage) (depth : Nat) (i : Word),
      answer ⟨t, l' :: C, D⟩ r.symbol.name = .ok (some ⟨r.symbol, storage, depth, i⟩) ∧
        (storage = .local ∨ storage = .free) ∧ r.depth = depth + 1 := by
  have hfaithful : t.Faithful (l :: l' :: C) := h.faithful
  obtain ⟨hw, ⟨hopened, hm⟩, hlisted⟩ := hfaithful
  obtain ⟨j, hj⟩ := Array.getElem?_of_mem hr
  obtain ⟨symbol, hsymbol, htop, hfree, hknows⟩ :=
    hopened.recorded r.symbol.name j (hlisted l.scope j r hj)
  have hrecord := Option.some.inj (hj.symm.trans hfree)
  obtain ⟨hcases, hdepth⟩ := storage_cases htop
  have hlooks := Faithful.looks ⟨hw, hm, hlisted⟩ r.symbol.name
  rw [answer_eq]
  generalize resolve l'.scope r.symbol.name t = found at hlooks
  cases hlooks with
  | undeclared hs => cases hs.symm.trans hsymbol
  | @found found i t' hs =>
    obtain rfl := Option.some.inj (hs.symm.trans hsymbol)
    obtain rfl : r.symbol = found := congrArg Resolution.symbol hrecord
    refine ⟨_, _, i, rfl, hcases, ?_⟩
    rw [hdepth]
    exact congrArg Resolution.depth hrecord
  | refused _ hcrowded => exact absurd hcrowded (not_crowded_of_knows hw hknows)

/-- **An answer is the same again** for as long as the same scopes are open and nothing is declared
in them. -/
theorem Sound.stable (h : s.Sound) {acts : List ScopeAct} (ha : ∀ a ∈ acts, a.registers = false)
    (hchain : ((s.act (.lookup name)).run acts).chain = s.chain) :
    ((s.act (.lookup name)).run acts).answer name = s.answer name := by
  have h₁ : (s.act (.lookup name)).Sound := Sound.act h (.lookup name)
  have g₁ := grows_act h (a := .lookup name) rfl
  have h₂ : ((s.act (.lookup name)).run acts).Sound := Sound.run h₁ acts
  have g₂ := grows_run h₁ ha
  obtain ⟨t, C, D⟩ := s
  cases C with
  | nil =>
    unfold answer
    rw [hchain]
  | cons l C =>
    have hf : t.Faithful (l :: C) := h.faithful
    change t.Grows (after (resolve l.scope name) t) at g₁
    change (after (resolve l.scope name) t).Grows _ at g₂
    generalize (ScopeSession.act ⟨t, l :: C, D⟩ (.lookup name)).run acts = s' at hchain h₂ g₂ ⊢
    obtain ⟨t', C', D'⟩ := s'
    obtain rfl : C' = l :: C := hchain
    have hf' : t'.Faithful (l :: C) := h₂.faithful
    have hknown : ∀ u ∈ l :: C, u.scope.index < t.scopes.size := fun u hu =>
      hf.mirrors.known_of_mem hu
    have hknown₁ : ∀ u ∈ l :: C, u.scope.index < (after (resolve l.scope name) t).scopes.size :=
      fun u hu => Nat.lt_of_lt_of_le (hknown u hu) g₁.size
    have howner : (owner (l :: C)).index < t.scopes.size := by
      rw [← hf.mirrors.functionScope_eq hf.wellFormed]
      exact (functionScope_lt hf.wellFormed.toIsTree l.scope (hknown l List.mem_cons_self)).1
    have g₃ := grows_lookup name hf'
    have hnow := hf.looks name
    have hlater := hf'.looks name
    rw [answer_eq, answer_eq]
    unfold after at g₁ g₂ g₃ hknown₁
    generalize resolve l.scope name t = now at hnow g₁ g₂ hknown₁
    generalize resolve l.scope name t' = later at hlater g₃
    cases hnow with
    | undeclared hs =>
      cases hlater with
      | undeclared =>
        dsimp only at g₂ ⊢
        unfold resolveBuiltin
        rw [g₂.builtinIndex]
      | found hs' => cases hs.symm.trans hs'
      | refused hs' => cases hs.symm.trans hs'
    | refused hs hcrowded =>
      have hcrowded' := hcrowded.mono (g₁.trans g₂) hf'.wellFormed hknown
      cases hlater with
      | undeclared hs' => cases hs.symm.trans hs'
      | found _ hroom => exact absurd hcrowded' hroom
      | refused => rfl
    | @found symbol i t₁ hs hroom ht hk hi h0 =>
      cases hlater with
      | undeclared hs' => cases hs.symm.trans hs'
      | refused _ hcrowded' =>
        exact absurd hcrowded' (not_crowded_of_knows hf'.wellFormed
          ((hk hcrowded'.1).mono g₂ hknown₁))
      | @found symbol' i' t₂ hs' _ ht' _ hi' h0' =>
        obtain rfl := Option.some.inj (hs.symm.trans hs')
        -- the record that was made is the only one of the name
        by_cases hfree : Chain.storage (l :: C) name = .free
        · have hplace := ht.listed _ _ _ (hi hfree)
          have hplace' := ht'.listed _ _ _ (hi' hfree)
          have howner₁ := Nat.lt_of_lt_of_le howner g₁.size
          have hsame := ((g₂.trans g₃).scope _ howner₁).freeIndex _ _ hplace
          rw [hsame] at hplace'
          rw [UInt16.toNat.inj (Option.some.inj hplace')]
        · rw [h0 hfree, h0' hfree]

/-- **Lookups are lexical in sound sessions.** -/
theorem Sound.lexical (h : s.Sound) (hchain : s.chain ≠ []) : s.Lexical := by
  obtain ⟨t, C, D⟩ := s
  cases C with
  | nil => exact absurd rfl hchain
  | cons l C =>
    have hf : t.Faithful (l :: C) := h.faithful
    have hlooks := hf.looks
    refine ⟨fun name symbol hs hroom => ?_, fun name hc => ?_, fun name hs => ?_,
      fun f i r hr => ?_, hf.nodup, fun f a hknown => ?_, fun l₁ l₂ C₁ heq r hr => ?_,
      fun name acts => h.stable, h.distinct⟩
    · rw [answer_eq]
      show ∃ i, _ ∧ (_ → (after (resolve l.scope name) t |>.freeVars _)[_]? = _)
      have hlooks := hlooks name
      unfold after
      generalize resolve l.scope name t = found at hlooks
      cases hlooks with
      | undeclared hs' => cases hs.symm.trans hs'
      | refused _ hcrowded => exact absurd hcrowded hroom
      | @found _ i t' hs' _ _ _ hi =>
        obtain rfl := Option.some.inj (hs.symm.trans hs')
        exact ⟨i, rfl, hi⟩
    · rw [answer_eq]
      have hlooks := hlooks name
      generalize resolve l.scope name t = found at hlooks
      cases hlooks with
      | undeclared hs =>
        -- a name that is not declared counts as a global
        exact absurd (by rw [symbol?_eq_none hs]; rfl) (atTop_of_storage hc.1 ▸ Bool.false_ne_true)
      | found _ hroom => exact absurd hc hroom
      | refused => rfl
    · obtain ⟨number, hnumber, hplaces⟩ := h.builtin name
      refine ⟨number, ?_, hplaces⟩
      rw [answer_eq]
      have hlooks := hlooks name
      generalize resolve l.scope name t = found at hlooks
      cases hlooks with
      | undeclared => exact congrArg Except.ok hnumber
      | found hs' => cases hs.symm.trans hs'
      | refused hs' => cases hs.symm.trans hs'
    · obtain ⟨hstorage, hindex, -⟩ := hf.wellFormed.free f i r hr
      exact ⟨hstorage, hindex⟩
    · cases ha : a.registers with
      | false => exact ((grows_act h ha).scope f hknown).free
      | true =>
        obtain ⟨name, rfl⟩ := ScopeAct.eq_addBuiltin ha
        have hsame : (after (ScopeTable.addBuiltin name) t).freeVars f = t.freeVars f := by
          unfold freeVars scope
          rw [scopes_after_addBuiltin hf.wellFormed name]
        exact (congrArg Array.toList hsame).symm ▸ List.prefix_rfl
    · obtain ⟨rfl, rfl⟩ := List.cons.inj heq
      exact h.captured hr

/-- The outermost scope is never closed. -/
theorem chain_act (h : s.chain ≠ []) (a : ScopeAct) : (s.act a).chain ≠ [] := by
  obtain ⟨t, C, D⟩ := s
  cases C with
  | nil => exact absurd rfl h
  | cons l C =>
    cases a with
    | leave => cases C <;> exact nofun
    | declare name constant =>
      cases hd : ScopeTable.declare l.scope name constant t with
      | ok => exact act_declare hd ▸ nofun
      | error => exact act_declare_error hd ▸ nofun
    | addBuiltin | enter | lookup => exact nofun

theorem chain_run (h : s.chain ≠ []) (acts : List ScopeAct) : (s.run acts).chain ≠ [] := by
  induction acts generalizing s with
  | nil => exact h
  | cons a acts ih => exact ih (chain_act h a)

/-- **Names are resolved lexically.** After every sequence of acts, a lookup answers with the
nearest declaration in the open scopes or else with the builtin, no matter what was looked up
before, unless a function has no room for one more free variable. -/
theorem lookups_lexical (acts : List ScopeAct) : (start.run acts).Lexical :=
  (sound_start.run acts).lexical (chain_run (List.cons_ne_nil _ _) acts)

/-! ### Functions without room -/

variable {D : List (ScopeId × Symbol)} {names : List String}

/-- **Declarations in a function** that has slots for them leave the free variables alone. -/
theorem run_declare (h : Sound ⟨t, l :: C, D⟩) (hl : l.isFunction = true) (hnodup : names.Nodup)
    (hnew : ∀ name ∈ names, l.find? name = none)
    (hroom : (t.scope l.scope).slots + names.length ≤ slotLimit) :
    ∃ (t' : ScopeTable) (l' : Layer) (D' : List (ScopeId × Symbol)),
      run ⟨t, l :: C, D⟩ (names.map (.declare · false)) = ⟨t', l' :: C, D'⟩ ∧
        Sound ⟨t', l' :: C, D'⟩ ∧ l'.isFunction = true ∧
        (∀ name, l'.find? name = none ↔ l.find? name = none ∧ name ∉ names) ∧
        ∀ u, t'.freeVars u = t.freeVars u := by
  induction names generalizing t l D with
  | nil => exact ⟨t, l, D, rfl, h, hl, fun name => by simp, fun _ => rfl⟩
  | cons name names ih =>
    have hf : t.Faithful (l :: C) := h.faithful
    have hw := hf.wellFormed
    have hopened := hf.mirrors.1
    obtain ⟨hnot, hnodup⟩ := List.nodup_cons.mp hnodup
    have hown : t.functionScope l.scope = l.scope :=
      functionScope_of_function (hopened.isFunction.mp hl)
    have hcount : t.slotCount l.scope = (t.scope l.scope).slots := by rw [slotCount, hown]
    have hname : (t.scope l.scope).names.contains name = false := by
      rw [Std.HashMap.contains_eq_isSome_getElem?]
      have hget := hopened.names name
      rw [hnew name List.mem_cons_self] at hget
      rw [show (t.scope l.scope).names[name]? = none from hget]
      rfl
    rw [List.length_cons] at hroom
    have hd := declare_eq t l.scope name false
    rw [hname, if_neg Bool.false_ne_true, if_neg (by omega)] at hd
    have hsound := h.declare hd
    have hscope := scope_declared hw.toIsTree hopened.known
      ⟨name, (t.slotCount l.scope).toUInt16, false⟩
    have hslots : ((t.declared l.scope ⟨name, (t.slotCount l.scope).toUInt16, false⟩).scope
        l.scope).slots = (t.scope l.scope).slots + 1 := by
      rw [hscope, hcount]
      exact if_pos hown.symm
    have hnew' : ∀ other ∈ names, (l.declare ⟨name, (t.slotCount l.scope).toUInt16, false⟩).find?
        other = none := by
      intro other hother
      have hne : other ≠ name := fun heq => hnot (heq ▸ hother)
      rw [Layer.find?_declare, if_neg hne]
      exact hnew other (List.mem_cons_of_mem name hother)
    have hroom' : ((t.declared l.scope ⟨name, (t.slotCount l.scope).toUInt16, false⟩).scope
        l.scope).slots + names.length ≤ slotLimit := by
      rw [hslots]
      omega
    obtain ⟨t', l', D', hrun, hsound', hl', hfind, hfree⟩ := ih hsound hl hnodup hnew' hroom'
    refine ⟨t', l', D', ?_, hsound', hl', fun other => ?_, fun u => ?_⟩
    · rw [← hrun, ← act_declare hd]
      rfl
    · rw [hfind, Layer.find?_declare, List.mem_cons]
      by_cases heq : other = name
      · simp [heq]
      · simp [heq]
    · rw [hfree, freeVars, freeVars, hscope]

/-- **Lookups of free variables** are all recorded, and nothing else is. -/
theorem run_lookup (h : Sound ⟨t, l :: C, D⟩) (hempty : ∀ u, t.freeVars u = #[])
    (hnodup : names.Nodup) (hlength : names.length ≤ wordCount)
    (hfree : ∀ name ∈ names, (∃ symbol, symbol? (l :: C) name = some symbol) ∧
      storage (l :: C) name = .free) :
    ∃ t' : ScopeTable, run ⟨t, l :: C, D⟩ (names.map .lookup) = ⟨t', l :: C, D⟩ ∧
      Sound ⟨t', l :: C, D⟩ ∧ (∀ u, ∀ r ∈ t'.freeVars u, r.symbol.name ∈ names) ∧
      ∀ name ∈ names, ∃ r ∈ t'.freeVars (owner (l :: C)), r.symbol.name = name := by
  induction names using List.reverseRec with
  | nil =>
    refine ⟨t, rfl, h, fun u r hr => ?_, nofun⟩
    rw [hempty] at hr
    exact absurd hr (Array.not_mem_empty r)
  | append_singleton names name ih =>
    obtain ⟨hnodup, -, hnot⟩ := List.nodup_append.mp hnodup
    have hnot : name ∉ names := fun hm => hnot name hm name List.mem_cons_self rfl
    rw [List.length_append, List.length_singleton] at hlength
    obtain ⟨t', hrun, hsound, honly, hall⟩ := ih hnodup (by omega) fun other hother =>
      hfree other (List.mem_append_left _ hother)
    have hf : t'.Faithful (l :: C) := hsound.faithful
    obtain ⟨⟨symbol, hsymbol⟩, hstorage⟩ := hfree name (by simp)
    -- the functions on the way have recorded fewer names than they can
    have hroom : ¬t'.Crowded (l :: C) name := by
      rintro ⟨-, f, -, hfull, -⟩
      have hsub : (t'.freeVars f.scope).toList.map (·.symbol.name) ⊆ names := by
        intro other hother
        obtain ⟨r, hr, rfl⟩ := List.mem_map.mp hother
        exact honly f.scope r (Array.mem_toList_iff.mp hr)
      have hle := (List.Nodup.subperm (hf.nodup f.scope) hsub).length_le
      rw [List.length_map, Array.length_toList] at hle
      omega
    have hlexical := hsound.lexical (List.cons_ne_nil _ _)
    obtain ⟨i, -, hrecord⟩ := hlexical.nearest name symbol hsymbol hroom
    have hrecord := hrecord hstorage
    have g := grows_lookup name hf
    have hlt := (functionScope_lt hf.wellFormed.toIsTree l.scope hf.mirrors.1.known).1
    rw [hf.mirrors.functionScope_eq hf.wellFormed] at hlt
    have hact : ScopeSession.act ⟨t', l :: C, D⟩ (.lookup name) =
      ⟨after (resolve l.scope name) t', l :: C, D⟩ := rfl
    refine ⟨after (resolve l.scope name) t', ?_, hact ▸ hsound.act (.lookup name),
      fun u r hr => ?_, fun other hother => ?_⟩
    · rw [List.map_append, run_append, hrun]
      rfl
    · rcases name_of_recorded _ _ hf.wellFormed hf.mirrors.1.known (Nat.lt_succ_self _) hr with
        hr | rfl
      · exact List.mem_append_left _ (honly u r hr)
      · simp
    · rcases List.mem_append.mp hother with hother | hother
      · obtain ⟨r, hr, hname⟩ := hall other hother
        refine ⟨r, ?_, hname⟩
        exact Array.mem_toList_iff.mp ((g.scope _ hlt).free.mem (Array.mem_toList_iff.mpr hr))
      · obtain rfl := List.mem_singleton.mp hother
        refine ⟨_, Array.mem_of_getElem? hrecord, ?_⟩
        exact symbol?_name hsymbol

/-- **A new scope** has no slots and no free variables. -/
theorem act_enter (h : Sound ⟨t, l :: C, D⟩) (hempty : ∀ u, t.freeVars u = #[]) (kind : ScopeKind) :
    ∃ (t' : ScopeTable) (inner : ScopeId),
      act ⟨t, l :: C, D⟩ (.enter kind) = ⟨t', ⟨inner, kind, []⟩ :: l :: C, D⟩ ∧
        Sound ⟨t', ⟨inner, kind, []⟩ :: l :: C, D⟩ ∧ (t'.scope inner).slots = 0 ∧
        ∀ u, t'.freeVars u = #[] := by
  have hf : t.Faithful (l :: C) := h.faithful
  have ho : openScope l.scope kind t = .ok ⟨t.scopes.size⟩ (after (openScope l.scope kind) t) := rfl
  obtain ⟨-, -, -, hnew, -, hold⟩ := openScope_spec hf.wellFormed hf.mirrors.1.known ho
  refine ⟨_, _, rfl, h.act (.enter kind), by rw [hnew], fun u => ?_⟩
  unfold freeVars
  by_cases hu : u = ⟨t.scopes.size⟩
  · rw [hu, hnew]
  · rw [hold u hu]
    exact hempty u

/-- **What two functions declare** is a free variable of a third one inside them. -/
theorem free_of_functions {l₁ l₂ l₃ : Layer} {C : Chain} {name : String} (s : ScopeId)
    (h₁ : l₁.isFunction = true) (h₂ : l₂.isFunction = true)
    (h : l₁.find? name = none → l₂.find? name ≠ none) :
    (∃ symbol, symbol? (⟨s, .function, []⟩ :: l₁ :: l₂ :: l₃ :: C) name = some symbol) ∧
      storage (⟨s, .function, []⟩ :: l₁ :: l₂ :: l₃ :: C) name = .free := by
  have houter : (∃ symbol, symbol? (l₁ :: l₂ :: l₃ :: C) name = some symbol) ∧
      (around (l₁ :: l₂ :: l₃ :: C) name).atTop = false := by
    cases hfind : l₁.find? name with
    | some symbol =>
      obtain ⟨hsymbol, htop⟩ := visible_of_function hfind h₁
      exact ⟨⟨symbol, hsymbol⟩, htop⟩
    | none =>
      obtain ⟨symbol, hfind'⟩ := Option.ne_none_iff_exists'.mp (h hfind)
      obtain ⟨hsymbol, htop⟩ := visible_of_function hfind' h₂
      rw [symbol?_of_none hfind, around_of_none hfind]
      exact ⟨⟨symbol, hsymbol⟩, htop⟩
  obtain ⟨hsymbol, htop⟩ := houter
  exact ⟨hsymbol, (storage_of_function rfl rfl htop).1⟩

/-- **A function that has recorded as many names as it can** refuses another one. -/
theorem refused_of_full (h : Sound ⟨t, l :: C, D⟩) (hl : l.isFunction = true) {name : String}
    (hfind : l.find? name = none) (hstorage : storage (l :: C) name = .free) (hnodup : names.Nodup)
    (hfull : wordCount ≤ names.length)
    (hrecorded : ∀ other ∈ names, ∃ r ∈ t.freeVars l.scope, r.symbol.name = other)
    (hnot : ∀ r ∈ t.freeVars l.scope, r.symbol.name ≠ name) :
    answer ⟨t, l :: C, D⟩ name = .error .tooManySymbols := by
  refine (h.lexical (List.cons_ne_nil _ _)).crowded name ⟨?_, l, ?_, ?_, hnot⟩
  · rw [hstorage]
    decide
  · rw [crossed_of_function hfind hl]
    exact List.mem_cons_self
  · have hsub : names ⊆ (t.freeVars l.scope).toList.map (·.symbol.name) := by
      intro other hother
      obtain ⟨r, hr, rfl⟩ := hrecorded other hother
      exact List.mem_map_of_mem (Array.mem_toList_iff.mpr hr)
    have hle := (List.Nodup.subperm hnodup hsub).length_le
    rw [List.length_map, Array.length_toList] at hle
    exact Nat.le_trans hfull hle

/-- The variables of the session that follows. -/
def crowd (i : Nat) : String :=
  "v" ++ toString i

theorem crowd_injective : Function.Injective crowd := by
  intro i j h
  have hdigits : toString i = toString j := by
    have hlist := congrArg String.toList h
    simp only [crowd, String.toList_append] at hlist
    exact String.toList_injective (List.append_cancel_left hlist)
  exact Nat.repr_injective hdigits

theorem mem_crowd {i n : Nat} : crowd i ∈ (List.range n).map crowd ↔ i < n := by
  rw [List.mem_map_of_injective crowd_injective, List.mem_range]

/-- **A session with full functions**: the innermost function has looked up as many variables of the
functions around it as it can record, and one variable is left. -/
def crowding : List ScopeAct :=
  .enter .function :: ((List.range 65535).map crowd).map (.declare · false) ++
  (.enter .function :: [crowd 65535, crowd 65536].map (.declare · false)) ++
  .enter .function :: ((List.range 65536).map crowd).map .lookup

/-- **A lookup that is refused**, though the name is declared in a function around. -/
theorem crowding_refuses :
    (∃ symbol, (start.run crowding).chain.symbol? (crowd 65536) = some symbol) ∧
      (start.run crowding).answer (crowd 65536) = .error .tooManySymbols := by
  have hdistinct (n : Nat) : ((List.range n).map crowd).Nodup :=
    List.nodup_range.map crowd_injective
  have htwo : [crowd 65535, crowd 65536].Nodup := by
    simp [crowd_injective.eq_iff]
  -- the session, act by act
  obtain ⟨t₁, s₁, hact₁, h₁, hslots₁, hfree₁⟩ := act_enter sound_start freeVars_empty .function
  obtain ⟨t₂, l₂, D₂, hrun₂, h₂, hl₂, hfind₂, hfree₂⟩ := run_declare h₁ rfl (hdistinct 65535)
    (fun _ _ => rfl) (by rw [hslots₁, List.length_map, List.length_range]; decide)
  obtain ⟨t₃, s₃, hact₃, h₃, hslots₃, hfree₃⟩ := act_enter h₂ (fun u => (hfree₂ u).trans (hfree₁ u))
    .function
  obtain ⟨t₄, l₄, D₄, hrun₄, h₄, hl₄, hfind₄, hfree₄⟩ := run_declare h₃ rfl htwo (fun _ _ => rfl)
    (by rw [hslots₃]; decide)
  obtain ⟨t₅, s₅, hact₅, h₅, -, hfree₅⟩ := act_enter h₄ (fun u => (hfree₄ u).trans (hfree₃ u))
    .function
  have hvisible : ∀ i < 65537,
      (∃ symbol, symbol? [⟨s₅, .function, []⟩, l₄, l₂, ⟨root, .function, []⟩] (crowd i) =
        some symbol) ∧
        storage [⟨s₅, .function, []⟩, l₄, l₂, ⟨root, .function, []⟩] (crowd i) = .free := by
    intro i hi
    refine free_of_functions s₅ hl₄ hl₂ fun hfind => ?_
    -- a variable that is not among the last two is among the first
    obtain ⟨-, hnot⟩ := (hfind₄ _).mp hfind
    rw [ne_eq, hfind₂, mem_crowd]
    rintro ⟨-, hge⟩
    simp only [List.mem_cons, crowd_injective.eq_iff, List.not_mem_nil, or_false, not_or] at hnot
    omega
  obtain ⟨t₆, hrun₆, h₆, honly, hrecorded⟩ := run_lookup h₅ hfree₅ (hdistinct 65536)
    (by rw [List.length_map, List.length_range]; exact Nat.le_refl _) fun name hname => by
      obtain ⟨i, hi, rfl⟩ := List.mem_map.mp hname
      exact hvisible i (Nat.lt_succ_of_lt (List.mem_range.mp hi))
  have hrun : start.run crowding =
      ⟨t₆, [⟨s₅, .function, []⟩, l₄, l₂, ⟨root, .function, []⟩], D₄⟩ := by
    have hact : start.act (.enter .function) = _ := hact₁
    rw [crowding, run_append, run_append, run_cons start, hact, hrun₂, run_cons,
      run_cons, hact₃, hrun₄, hact₅, hrun₆]
  rw [hrun]
  obtain ⟨hsymbol, hstorage⟩ := hvisible 65536 (Nat.lt_succ_self _)
  refine ⟨hsymbol, refused_of_full h₆ rfl rfl hstorage (hdistinct 65536) ?_ hrecorded
    fun r hr hname => ?_⟩
  · rw [List.length_map, List.length_range]
    exact Nat.le_refl _
  · have hmem := honly s₅ r hr
    rw [hname, mem_crowd] at hmem
    exact Nat.lt_irrefl _ hmem

end ScopeSession

end ScriptEngine
