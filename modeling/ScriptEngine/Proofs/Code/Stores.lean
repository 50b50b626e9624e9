import Mathlib.Data.List.Forall2
import ScriptEngine.Proofs.Code.Walk
import ScriptEngine.Proofs.Scope.Shows

/-!
# The stores of a code

The instructions of a code that store into a variable, in order, and what they are for.

## Main definitions

* `ScriptEngine.Code.stores`: the stores of a code from an offset on;
* `ScriptEngine.Code.Lists`: the instructions between two offsets;
* `ScriptEngine.Instruction.IsFor`: a store is for a destination.

## Main results

* `ScriptEngine.Code.Lists.stores`: the stores of a code are those among its instructions;
* `ScriptEngine.Code.mem_stores`: a store that a walk through the code meets is one of them.
-/

namespace ScriptEngine

/-- **A store** into a variable, whichever it is. -/
def Instruction.isStore (i : Instruction) : Bool :=
  i.op = .storeGlobal ∨ i.op = .storeFast ∨ i.op = .storeFree

/-- **The stores of a code** from an offset on, in order. -/
def Code.stores (c : Code) (start : Nat) : List Instruction :=
  ((decodeFrom start 0 (c.words.toList.drop start)).toOption.getD []).filter Instruction.isStore

/-- **A store is for a destination**: one for a global stores into its slot, and one for another
variable into a slot that belongs to no global, or into no slot of the program at all. -/
def Instruction.IsFor (t : ScopeTable) (i : Instruction) (d : Destination) : Prop :=
  if i.op = .storeGlobal then t.IsSlot i.first d else d = .inner

/-- Stores are for the given destinations, one by one. -/
abbrev Instruction.AreFor (t : ScopeTable) : List Instruction → List Destination → Prop :=
  List.Forall₂ (Instruction.IsFor t)

/-- A store that is listed is for the destination that is listed at the same place. -/
theorem Instruction.AreFor.isFor {t : ScopeTable} {is : List Instruction} {ds : List Destination}
    {i : Instruction} {d : Destination} {k : Nat} (h : Instruction.AreFor t is ds)
    (hi : is[k]? = some i) (hd : ds[k]? = some d) : i.IsFor t d := by
  obtain ⟨hlt, rfl⟩ := List.getElem?_eq_some_iff.mp hi
  obtain ⟨hlt', rfl⟩ := List.getElem?_eq_some_iff.mp hd
  exact List.Forall₂.get h hlt hlt'

/-- Every store that is listed has a destination at its place. -/
theorem Instruction.AreFor.exists_destination {t : ScopeTable} {is : List Instruction}
    {ds : List Destination} {i : Instruction} (h : Instruction.AreFor t is ds) (hi : i ∈ is) :
    ∃ (k : Nat) (d : Destination), is[k]? = some i ∧ ds[k]? = some d := by
  obtain ⟨k, hk⟩ := List.getElem?_of_mem hi
  have hlen := (List.getElem?_eq_some_iff.mp hk).1
  rw [h.length_eq] at hlen
  exact ⟨k, ds[k], hk, List.getElem?_eq_getElem hlen⟩

namespace Code

variable {c c' : Code} {p q r : Nat} {is js : List Instruction}

/-- **The instructions between two offsets.** -/
inductive Lists (c : Code) : Nat → List Instruction → Nat → Prop
  | nil (p : Nat) : Lists c p [] p
  | cons {i : Instruction} {p q : Nat} {is : List Instruction} (start : i.offset = p)
    (has : c.Has i) (rest : Lists c i.stop is q) : Lists c p (i :: is) q

namespace Lists

theorem single {i : Instruction} (h : c.Has i) : c.Lists i.offset [i] i.stop :=
  .cons rfl h (.nil _)

theorem append (h : c.Lists p is q) (h' : c.Lists q js r) : c.Lists p (is ++ js) r := by
  induction h with
  | nil p => exact h'
  | cons start has _ ih => exact .cons start has (ih h')

theorem of_words (hw : ∀ (i : Nat) (w : Word), c.words[i]? = some w → c'.words[i]? = some w)
    (h : c.Lists p is q) : c'.Lists p is q := by
  induction h with
  | nil p => exact .nil p
  | cons start has _ ih => exact .cons start (has.of_words hw) ih

/-- **What lies between two offsets is what is decoded** if the second one is the end. -/
theorem decodeFrom (h : c.Lists p is q) (hq : q = c.size) :
    Code.decodeFrom p 0 (c.words.toList.drop p) = .ok is := by
  induction h with
  | nil p => rw [hq, drop_size, Code.decodeFrom]
  | cons start has _ ih =>
    subst start
    rw [has.decodeFrom, ih hq]
    rfl

/-- **The stores of a code** are those among its instructions. -/
theorem stores (h : c.Lists p is q) (hq : q = c.size) :
    c.stores p = is.filter Instruction.isStore := by
  unfold Code.stores
  rw [h.decodeFrom hq]
  rfl

theorem has (h : c.Lists p is q) {i : Instruction} (hi : i ∈ is) : c.Has i := by
  induction h with
  | nil => cases hi
  | cons _ has _ ih =>
    rcases List.mem_cons.mp hi with rfl | hi
    · exact has
    · exact ih hi

/-- The instruction at a boundary is one of those between the offsets. -/
theorem mem (h : c.Lists p is r) {P : Instruction → Prop} (hw : c.Walks P p q) (hq : q < r)
    {i : Instruction} (hi : c.Has i) (ho : i.offset = q) : i ∈ is := by
  induction h with
  | nil p => exact absurd hw.le (Nat.not_le_of_lt hq)
  | cons start has _ ih =>
    cases hw with
    | refl _ =>
      obtain rfl := has.unique hi (start.trans ho.symm)
      exact List.mem_cons_self
    | step start' has' _ rest' =>
      obtain rfl := has'.unique has (start'.trans start.symm)
      exact List.mem_cons_of_mem _ (ih rest' hq)

/-- Every walk is over the instructions between its ends. -/
theorem of_walks {P : Instruction → Prop} (h : c.Walks P p q) : ∃ is, c.Lists p is q := by
  induction h with
  | refl p => exact ⟨[], .nil p⟩
  | step start has _ _ ih =>
    obtain ⟨is, h⟩ := ih
    exact ⟨_, .cons start has h⟩

end Lists

/-- **The stores of a code** are all that a walk to its end meets. -/
theorem mem_stores {P Q : Instruction → Prop} (h : c.Walks P p c.size) {i : Instruction}
    (hi : c.Has i) (hw : c.Walks Q p i.offset) (hs : i.isStore = true) : i ∈ c.stores p := by
  obtain ⟨is, hl⟩ := Lists.of_walks h
  rw [hl.stores rfl]
  exact List.mem_filter.mpr ⟨hl.mem hw hi.offset_lt hi rfl, hs⟩

/-- **What lies in a code that goes on behind another one**, but before the end of that one, lies in
that one. -/
theorem Walks.of_longer {P Q : Instruction → Prop} (h : c.Walks P p r)
    (hw : ∀ (i : Nat) (w : Word), c.words[i]? = some w → c'.words[i]? = some w)
    {i : Instruction} (hi : c'.Has i) (h' : c'.Walks Q p i.offset) (hlt : i.offset < r) :
    c.Has i ∧ c.Walks P p i.offset := by
  induction h with
  | refl p => exact absurd h'.le (Nat.not_le_of_lt hlt)
  | @step j p r start has prop rest ih =>
    cases h' with
    | refl _ =>
      obtain rfl := (has.of_words hw).unique hi start
      exact ⟨has, .refl _⟩
    | step start' has' _ rest' =>
      obtain rfl := has'.unique (has.of_words hw) (start'.trans start.symm)
      obtain ⟨hi, hwalk⟩ := ih rest' hlt
      exact ⟨hi, .step start has prop hwalk⟩

end Code

end ScriptEngine
