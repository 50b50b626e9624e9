import ScriptEngine.Proofs.Code.Stores
import ScriptEngine.Proofs.Scope.Variables

/-!
# Code and the variables that it refers to

The code of a function refers to variables as they are seen from the scope of the function, which is
where the code is at home. It stores into constants only where they are declared, once for each, and
it instantiates a function inside with the cells of exactly the variables that this function has
recorded as free.

## Main definitions

* `ScriptEngine.Code.Hands`: cells are handed over to a function;
* `ScriptEngine.Instruction.AtHome`: what an instruction refers to;
* `ScriptEngine.Instruction.Sets`: an instruction stores into a constant;
* `ScriptEngine.Code.Settles`: what lies between two offsets of a code;
* `ScriptEngine.Function.Housed`: a function whose code is at home in a scope.
-/

namespace ScriptEngine

open ScopeTable

/-- **Cells are handed over to a function**, that of the variable with the given number next. The
cells of all its free variables are pushed, in order and one behind the other, and then it is bound
to them. -/
inductive Code.Hands (t : ScopeTable) (s : ScopeId) (c : Code) (g : Nat) (inner : ScopeId) :
    Nat → Nat → Prop
  | bind {n p : Nat} {index count : Word} (has : c.Has ⟨p, .loadClosure, [index, count]⟩)
    (constant : c.constants[index.toNat]? = some (.function ⟨g⟩)) (number : count.toNat = n) :
    Hands t s c g inner n p
  | pass {n : Nat} {i : Instruction} {v : Variable} (has : c.Has i) (op : i.op = .makeCell)
    (passed : t.passed? s i = some v) (free : t.free? inner n = some v)
    (rest : Hands t s c g inner (n + 1) i.stop) : Hands t s c g inner n i.offset

/-- **What an instruction refers to.** A store is into a declared variable, which is a constant only
if the function owns it and the store is not through a captured cell. Cells are pushed for a
function inside, and bound to it. -/
structure Instruction.AtHome (t : ScopeTable) (homes : List ScopeId) (c : Code) (s : ScopeId)
    (i : Instruction) : Prop where
  stores : i.isStore = true → ∃ owner symbol, t.Declares owner symbol ∧
    t.stored? s i = some ⟨owner, symbol.index⟩ ∧
      (symbol.constant = true → owner = s ∧ i.op ≠ .storeFree)
  hands : i.op = .makeCell ∨ i.op = .loadClosure → ∃ g inner n, homes[g]? = some inner ∧
    inner.index < t.scopes.size ∧ t.outward 1 inner = s ∧ c.Hands t s g inner n i.offset

/-- **An instruction stores into a constant** of the function itself. -/
def Instruction.Sets (t : ScopeTable) (s : ScopeId) (symbol : Symbol) (i : Instruction) : Prop :=
  t.Declares s symbol ∧ symbol.constant = true ∧ t.stored? s i = some ⟨s, symbol.index⟩

/-- **What lies between two offsets of a code**, at home in a scope: the constants that it stores
into have slots from the given one on, and each of them is stored into by one instruction at
most. -/
structure Code.Settles (t : ScopeTable) (homes : List ScopeId) (s : ScopeId)
    (first : Nat) (c : Code)
    (p : Nat) (is : List Instruction) (q : Nat) : Prop where
  lists : c.Lists p is q
  atHome : ∀ i ∈ is, i.AtHome t homes c s
  fresh : ∀ i ∈ is, ∀ symbol, i.Sets t s symbol → first ≤ symbol.index.toNat
  once : ∀ i ∈ is, ∀ j ∈ is, ∀ symbol, i.Sets t s symbol → j.Sets t s symbol → i = j

/-- **A function whose code is at home in a scope**, in which its parameters and its own name are
declared. No instruction stores into its own name. -/
structure Function.Housed (t : ScopeTable) (homes : List ScopeId) (f : Function) (s : ScopeId) :
    Prop where
  known : s.index < t.scopes.size
  inner : s ≠ root
  kind : (t.scope s).kind = .function
  parameters : ∀ (i : Nat) n, f.parameters[i]? = some n → t.get? s n = some ⟨n, i.toUInt16, false⟩
  self : ∀ n, f.name = some n → n ∉ f.parameters →
    t.get? s n = some ⟨n, f.parameters.length.toUInt16, true⟩
  code : ∃ first is, f.code.Settles t homes s first 0 is f.code.size ∧
    (∀ n, f.name = some n → n ∉ f.parameters → f.parameters.length < first ∧
      f.parameters.length < 65536)

variable {t t' : ScopeTable} {homes homes' : List ScopeId} {s : ScopeId} {c c' : Code}
  {i j : Instruction}
  {symbol : Symbol}

namespace Instruction

theorem isStore_of_stored? {v : Variable} (h : t.stored? s i = some v) : i.isStore = true := by
  unfold ScopeTable.stored? at h
  unfold isStore
  split at h
  all_goals simp_all

end Instruction

namespace Code.Hands

variable {g n p : Nat} {inner : ScopeId}

theorem continues (h : c.Hands t s g inner n p) (ht : t.Continues t') :
    c.Hands t' s g inner n p := by
  induction h with
  | bind has constant number => exact .bind has constant number
  | pass has op passed free _ ih => exact .pass has op (ht.passed? passed) (ht.free? free) ih

/-- What is handed over in a code is handed over in every code that goes on behind it. -/
theorem of_words (hw : ∀ (i : Nat) (w : Word), c.words[i]? = some w → c'.words[i]? = some w)
    (hk : ∀ (i : Nat) (v : Value), c.constants[i]? = some v → c'.constants[i]? = some v)
    (h : c.Hands t s g inner n p) : c'.Hands t s g inner n p := by
  induction h with
  | bind has constant number => exact .bind (has.of_words hw) (hk _ _ constant) number
  | pass has op passed free _ ih => exact .pass (has.of_words hw) op passed free ih

end Code.Hands

namespace Instruction.AtHome

/-- An instruction that has nothing to do with variables. -/
theorem of_op (hs : i.isStore = false) (hm : i.op ≠ .makeCell) (hl : i.op ≠ .loadClosure) :
    i.AtHome t homes c s where
  stores h := absurd (hs.symm.trans h) Bool.false_ne_true
  hands h := (h.elim hm hl).elim

theorem continues (h : i.AtHome t homes c s) (ht : t.Continues t') (hh : homes <+: homes') :
    i.AtHome t' homes' c s where
  stores hi := by
    obtain ⟨owner, symbol, hd, hs, hc⟩ := h.stores hi
    exact ⟨owner, symbol, ht.declares hd, ht.stored? hs, hc⟩
  hands hi := by
    obtain ⟨g, inner, n, hg, hlt, ho, hands⟩ := h.hands hi
    obtain ⟨more, rfl⟩ := hh
    refine ⟨g, inner, n, ?_, Nat.lt_of_lt_of_le hlt ht.size, (ht.outward 1 hlt).trans ho,
      hands.continues ht⟩
    rw [List.getElem?_append_left (List.getElem?_eq_some_iff.mp hg).1, hg]

theorem of_words (hw : ∀ (i : Nat) (w : Word), c.words[i]? = some w → c'.words[i]? = some w)
    (hk : ∀ (i : Nat) (v : Value), c.constants[i]? = some v → c'.constants[i]? = some v)
    (h : i.AtHome t homes c s) : i.AtHome t homes c' s where
  stores := h.stores
  hands hi := by
    obtain ⟨g, inner, n, hg, hlt, ho, hands⟩ := h.hands hi
    exact ⟨g, inner, n, hg, hlt, ho, hands.of_words hw hk⟩

/-- **A constant that an instruction stores into** was one when the instruction was emitted. -/
theorem sets_of_continues (h : i.AtHome t homes c s) (ht : t.Continues t') (hl : t'.Lexical)
    (hi : i.Sets t' s symbol) : i.Sets t s symbol := by
  obtain ⟨hd, hc, hs⟩ := hi
  obtain ⟨owner, symbol', hd', hs', -⟩ := h.stores (isStore_of_stored? hs)
  have heq := (ht.stored? hs').symm.trans hs
  obtain ⟨rfl, hindex⟩ := Variable.mk.inj (Option.some.inj heq)
  obtain rfl := hl.eq_of_slot (ht.declares hd') hd hindex
  exact ⟨hd', hc, hs'⟩

/-- **A store into a constant** is one of the function that owns it. -/
theorem sets_of_isConstant (h : i.AtHome t homes c s) (hl : t.Lexical) {v : Variable}
    (hv : t.stored? s i = some v) (hc : t.IsConstant v) :
    v.owner = s ∧ i.op ≠ .storeFree ∧ ∃ symbol, symbol.index = v.slot ∧ i.Sets t s symbol := by
  obtain ⟨owner, symbol, hd, hs, hconstant⟩ := h.stores (isStore_of_stored? hv)
  obtain rfl := Option.some.inj (hs.symm.trans hv)
  have hc := (hd.isConstant_iff hl).mp hc
  obtain ⟨rfl, hop⟩ := hconstant hc
  exact ⟨rfl, hop, symbol, rfl, hd, hc, hs⟩

end Instruction.AtHome

namespace Code.Settles

variable {p q r first first' : Nat} {is js : List Instruction}

theorem continues (h : c.Settles t homes s first p is q) (ht : t.Continues t') (hl : t'.Lexical)
    (hh : homes <+: homes') : c.Settles t' homes' s first p is q where
  lists := h.lists
  atHome i hi := (h.atHome i hi).continues ht hh
  fresh i hi symbol hs := h.fresh i hi symbol ((h.atHome i hi).sets_of_continues ht hl hs)
  once i hi j hj symbol hs hs' :=
    h.once i hi j hj symbol ((h.atHome i hi).sets_of_continues ht hl hs)
    ((h.atHome j hj).sets_of_continues ht hl hs')

theorem of_words (hw : ∀ (i : Nat) (w : Word), c.words[i]? = some w → c'.words[i]? = some w)
    (hk : ∀ (i : Nat) (v : Value), c.constants[i]? = some v → c'.constants[i]? = some v)
    (h : c.Settles t homes s first p is q) : c'.Settles t homes s first p is q where
  lists := h.lists.of_words hw
  atHome i hi := (h.atHome i hi).of_words hw hk
  fresh := h.fresh
  once := h.once

/-- Nothing lies between an offset and itself. -/
theorem nil (p : Nat) : c.Settles t homes s first p [] p :=
  ⟨.nil p, nofun, nofun, nofun⟩

/-- Instructions that do not store into any constant. -/
theorem of_lists (h : c.Lists p is q)
    (hi : ∀ i ∈ is, i.AtHome t homes c s ∧ ∀ symbol, ¬i.Sets t s symbol) :
    c.Settles t homes s first p is q where
  lists := h
  atHome i hm := (hi i hm).1
  fresh i hm symbol hs := ((hi i hm).2 symbol hs).elim
  once i hm _ _ symbol hs := ((hi i hm).2 symbol hs).elim

theorem weaken (h : c.Settles t homes s first' p is q) (hle : first ≤ first') :
    c.Settles t homes s first p is q :=
  ⟨h.lists, h.atHome, fun i hi symbol hs => Nat.le_trans hle (h.fresh i hi symbol hs), h.once⟩

/-- **A single instruction.** -/
theorem single (hc : c.Has i) (hi : i.AtHome t homes c s)
    (hf : ∀ symbol, i.Sets t s symbol → first ≤ symbol.index.toNat) :
    c.Settles t homes s first i.offset [i] i.stop where
  lists := .single hc
  atHome _ hj := List.mem_singleton.mp hj ▸ hi
  fresh _ hj := List.mem_singleton.mp hj ▸ hf
  once _ hj _ hk _ _ _ := (List.mem_singleton.mp hj).trans (List.mem_singleton.mp hk).symm

/-- **One stretch behind another**, which stores into constants that were declared later. -/
theorem append (h : c.Settles t homes s first p is q) (h' : c.Settles t homes s first' q js r)
    (hle : first ≤ first')
    (hlt : ∀ i ∈ is, ∀ symbol, i.Sets t s symbol → symbol.index.toNat < first') :
    c.Settles t homes s first p (is ++ js) r where
  lists := h.lists.append h'.lists
  atHome i hi := (List.mem_append.mp hi).elim (h.atHome i) (h'.atHome i)
  fresh i hi symbol hs := by
    rcases List.mem_append.mp hi with hi | hi
    · exact h.fresh i hi symbol hs
    · exact Nat.le_trans hle (h'.fresh i hi symbol hs)
  once i hi j hj symbol hs hs' := by
    rcases List.mem_append.mp hi with hi | hi <;> rcases List.mem_append.mp hj with hj | hj
    · exact h.once i hi j hj symbol hs hs'
    · exact absurd (hlt i hi symbol hs) (Nat.not_lt_of_le (h'.fresh j hj symbol hs'))
    · exact absurd (hlt j hj symbol hs') (Nat.not_lt_of_le (h'.fresh i hi symbol hs))
    · exact h'.once i hi j hj symbol hs hs'

/-- Instructions that do not store into any constant, behind a stretch. -/
theorem append_plain (h : c.Settles t homes s first p is q) (h' : c.Lists q js r)
    (hj : ∀ j ∈ js, j.AtHome t homes c s ∧ ∀ symbol, ¬j.Sets t s symbol) :
    c.Settles t homes s first p (is ++ js) r where
  lists := h.lists.append h'
  atHome i hi := (List.mem_append.mp hi).elim (h.atHome i) fun hi => (hj i hi).1
  fresh i hi symbol hs :=
    (List.mem_append.mp hi).elim (h.fresh i · symbol hs) fun hi => ((hj i hi).2 symbol hs).elim
  once i hi j hj' symbol hs hs' := by
    rcases List.mem_append.mp hi with hi | hi
    · rcases List.mem_append.mp hj' with hj' | hj'
      · exact h.once i hi j hj' symbol hs hs'
      · exact ((hj j hj').2 symbol hs').elim
    · exact ((hj i hi).2 symbol hs).elim

end Code.Settles

theorem Function.Housed.continues {f : Function} (h : f.Housed t homes s) (ht : t.Continues t')
    (hl : t'.Lexical) (hh : homes <+: homes') : f.Housed t' homes' s where
  known := Nat.lt_of_lt_of_le h.known ht.size
  inner := h.inner
  kind := (ht.kind s h.known).trans h.kind
  parameters i n hi := ht.get? (h.parameters i n hi)
  self n hn hnot := ht.get? (h.self n hn hnot)
  code := by
    obtain ⟨first, is, hc, hself⟩ := h.code
    exact ⟨first, is, hc.continues ht hl hh, hself⟩

end ScriptEngine
