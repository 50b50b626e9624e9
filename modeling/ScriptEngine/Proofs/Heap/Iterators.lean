import ScriptEngine.Proofs.Heap.Operations

/-!
# Heaps without iterators

Iterators are made and moved on by loops alone. Every other operation does on a heap what it does on
the same heap without its iterators, and no value that an operation yields is an iterator.

## Main definitions

* `ScriptEngine.Heap.bare`: a heap without its iterators;
* `ScriptEngine.Heap.Blind`: steps on heaps that know of no iterator;
* `ScriptEngine.Discipline.plain`: no value is an iterator.

## Main results

* `ScriptEngine.Heap.equals?_bare`, `ScriptEngine.Heap.inspect?_bare`: comparing values and writing
  them down;
* `ScriptEngine.Heap.blind_binary`, `ScriptEngine.Heap.blind_setItem`,
  `ScriptEngine.Heap.blind_slice`: the steps of instructions.
-/

namespace ScriptEngine

namespace Heap

/-- **The heap without its iterators.** -/
def bare (h : Heap) : Heap :=
  { h with iterators := #[] }

/-! ### Reading -/

section Reading

variable (h : Heap)

@[simp] theorem list_bare (r : Ref .list) : h.bare.list r = h.list r := rfl

@[simp] theorem custom_bare (r : Ref .custom) : h.bare.custom r = h.custom r := rfl

-- both sides are least solutions of the same equation
@[simp] theorem equals?_bare : equals? h.bare = h.equals? := by
  with_unfolding_all rfl

@[simp] theorem inspect?_bare : inspect? h.bare = h.inspect? := by
  with_unfolding_all rfl

@[simp] theorem equals_bare : equals h.bare = h.equals := by
  funext a b
  rw [equals, equals?_bare, equals]

@[simp] theorem render_bare : render h.bare = h.render := by
  funext v
  cases v <;> simp only [render, render?, inspect?_bare]

theorem isTruthyWithin_bare (n : Nat) (v : Value) :
    isTruthyWithin h.bare n v = h.isTruthyWithin n v := by
  induction n generalizing v with
  | zero => rfl
  | succ n ih =>
    cases v with
    | cell r => exact ih _
    | _ => rfl

@[simp] theorem isTruthy_bare : isTruthy h.bare = h.isTruthy :=
  funext fun v => isTruthyWithin_bare h _ v

@[simp] theorem typeName_bare : typeName h.bare = h.typeName := by
  funext v
  cases v <;> rfl

@[simp] theorem negate_bare : negate h.bare = h.negate := by
  funext v
  simp only [negate, typeName_bare]

@[simp] theorem compare_bare : compare h.bare = h.compare := by
  funext a b
  simp only [compare, typeName_bare, custom_bare]

@[simp] theorem compareBy_bare : compareBy h.bare = h.compareBy := by
  funext op a b
  simp only [compareBy, equals_bare, compare_bare]

@[simp] theorem getItem_bare : getItem h.bare = h.getItem := by
  funext object index
  simp only [getItem, typeName_bare]
  rfl

@[simp] theorem contains_bare : contains h.bare = h.contains := by
  funext container item
  simp only [contains, typeName_bare, equals_bare]
  rfl

@[simp] theorem length_bare : length h.bare = h.length := by
  funext v
  simp only [length, typeName_bare]
  rfl

@[simp] theorem items?_bare : items? h.bare = h.items? := by
  funext v
  cases v <;> rfl

@[simp] theorem entries?_bare : entries? h.bare = h.entries? := by
  funext v
  cases v <;> rfl

@[simp] theorem cost_bare : cost h.bare = h.cost := by
  funext v
  cases v <;> rfl

@[simp] theorem members_bare : members h.bare = h.members := by
  funext items
  simp only [members, typeName_bare]

@[simp] theorem resolveBound_bare : resolveBound h.bare = h.resolveBound := by
  funext bound v size
  simp only [resolveBound, typeName_bare]

end Reading

/-! ### Steps -/

/-- **A step that knows of no iterator.** -/
def Blind {α : Type} (f : Heap → α × Heap) : Prop :=
  ∀ h : Heap, f h.bare = ((f h).1, (f h).2.bare) ∧ (f h).2.iterators = h.iterators

theorem blind_customOperate (op : BinaryOperator) (left : CustomObject) (right : Value) :
    Blind (·.customOperate op left right) := by
  intro h
  simp only [customOperate, typeName_bare, custom_bare]
  cases left with
  | unstructured => exact ⟨rfl, rfl⟩
  | measure m =>
    dsimp only
    split
    · exact ⟨rfl, rfl⟩
    · split <;> exact ⟨rfl, rfl⟩
    · exact ⟨rfl, rfl⟩

theorem blind_operate (op : BinaryOperator) (left right : Value) :
    Blind (·.operate op left right) := by
  intro h
  simp only [operate, typeName_bare]
  split
  · exact ⟨rfl, rfl⟩
  · exact blind_customOperate _ _ _ h
  · exact ⟨rfl, rfl⟩

theorem blind_binary (op : BinaryOperator) (left right : Value) :
    Blind (·.binary op left right) := by
  intro h
  simp only [binary, isTruthy_bare]
  split
  · exact ⟨rfl, rfl⟩
  · exact ⟨rfl, rfl⟩
  · exact blind_operate _ _ _ h

theorem blind_setItem (object index v : Value) : Blind (·.setItem object index v) := by
  intro h
  simp only [setItem, typeName_bare, list_bare]
  split
  · split <;> exact ⟨rfl, rfl⟩
  all_goals exact ⟨rfl, rfl⟩

theorem blind_slice (object start stop : Value) : Blind (·.slice object start stop) := by
  intro h
  simp only [slice, typeName_bare, resolveSlice, resolveBound_bare, list_bare]
  split
  · split <;> exact ⟨rfl, rfl⟩
  · split <;> exact ⟨rfl, rfl⟩
  · exact ⟨rfl, rfl⟩

theorem blind_buildList (items : List Value) : Blind (·.buildList items) :=
  fun _ => ⟨rfl, rfl⟩

theorem blind_buildMap (entries : List (String × Value)) : Blind (·.buildMap entries) :=
  fun _ => ⟨rfl, rfl⟩

theorem blind_buildSet (items : List Value) : Blind (·.buildSet items) := by
  intro h
  simp only [buildSet, members_bare]
  split <;> exact ⟨rfl, rfl⟩

end Heap

/-- **No value is an iterator.** -/
def Discipline.plain : Discipline where
  Stage := Unit
  le _ _ := True
  refl _ := trivial
  trans _ _ := trivial
  value _ v := ∀ r, v ≠ .iter r
  mono _ h := h
  data h r hr := by
    subst hr
    cases h
  error _ := True
  ordinary _ := trivial
  stores _ _ _ := True

end ScriptEngine
