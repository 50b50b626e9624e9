import ScriptEngine.Builtin.Method
import ScriptEngine.Machine.Execute
import ScriptEngine.Proofs.Heap.Discipline

/-!
# Operations keep heaps sound

Every operation on values yields plain data, or a value that it was given or has found in the heap,
and stores nothing else. So each of them keeps a heap sound, whatever the discipline says.

## Main results

* `ScriptEngine.Heap.Sound.binary`, `ScriptEngine.Heap.isData_compareBy`: operators;
* `ScriptEngine.Heap.Sound.getItem`, `ScriptEngine.Heap.Sound.setItem`,
  `ScriptEngine.Heap.Sound.slice`: items of containers;
* `ScriptEngine.Heap.Sound.iterate`, `ScriptEngine.Heap.Sound.next`: iterators;
* `ScriptEngine.Heap.Sound.getAttr`, `ScriptEngine.Heap.Sound.setAttr`: attributes.
-/

namespace ScriptEngine

/-! ### Operators yield data -/

theorem Integer.isData_shift (a b : Int64) (move : Int64 → Int64 → Int64) :
    (shift a b move).isData = true := by
  unfold shift
  split
  · rfl
  · split <;> rfl

theorem Integer.isData_operate? {op : BinaryOperator} {a b : Int64} {v : Value}
    (h : operate? op a b = some v) : v.isData = true := by
  cases op <;> simp only [operate?, Option.some.injEq, reduceCtorEq] at h
  case divide | modulo | power =>
    subst h
    split <;> rfl
  case shiftLeft | shiftRight =>
    subst h
    exact isData_shift ..
  all_goals
    subst h
    rfl

theorem Double.isData_operate? {op : BinaryOperator} {a b : Double} {v : Value}
    (h : operate? op a b = some v) : v.isData = true := by
  cases op <;> simp only [operate?, Option.some.injEq, reduceCtorEq] at h
  all_goals
    subst h
    rfl

theorem isData_boolOperate? {op : BinaryOperator} {a b : Bool} {v : Value}
    (h : boolOperate? op a b = some v) : v.isData = true := by
  cases op <;> simp only [boolOperate?, Option.some.injEq, reduceCtorEq] at h
  all_goals
    subst h
    rfl

namespace Heap

theorem isData_operateInPlace? {op : BinaryOperator} {left right v : Value}
    (h : operateInPlace? op left right = some v) : v.isData = true := by
  unfold operateInPlace? at h
  split at h
  · exact Integer.isData_operate? h
  · exact Double.isData_operate? h
  · exact Double.isData_operate? h
  · exact Double.isData_operate? h
  · split at h
    · obtain rfl := Option.some.inj h
      rfl
    · cases h
  · exact isData_boolOperate? h
  · cases h

theorem isData_compareBy (h : Heap) (op : Comparison) (left right : Value) :
    (h.compareBy op left right).isData = true := by
  unfold compareBy
  split
  · rfl
  · rfl
  · split <;> rfl

theorem isData_negate (h : Heap) (v : Value) : (h.negate v).isData = true := by
  cases v <;> rfl

theorem isData_contains (h : Heap) (container item : Value) :
    (h.contains container item).isData = true := by
  cases container <;> rfl

theorem isData_length (h : Heap) (v : Value) : (h.length v).isData = true := by
  cases v <;> rfl

namespace Sound

variable {D : Discipline} {w : D.Stage} {h : Heap}

/-- Data, with a sound heap. -/
theorem yields (hs : h.Sound D w) {v : Value} (hv : v.isData = true) : D.Yields w (v, h) :=
  ⟨D.data hv, hs⟩

/-- An operator of an object of the host makes new objects of the host only. -/
theorem customOperate (hs : h.Sound D w) (op : BinaryOperator) (left : CustomObject)
    (right : Value) : D.Yields w (h.customOperate op left right) := by
  unfold Heap.customOperate
  split
  · exact hs.yields rfl
  · split
    · exact ⟨D.data rfl, hs.newCustom _⟩
    · split
      · exact ⟨D.data rfl, hs.newCustom _⟩
      · exact hs.yields rfl
    · exact hs.yields rfl

theorem operate (hs : h.Sound D w) (op : BinaryOperator) (left right : Value) :
    D.Yields w (h.operate op left right) := by
  unfold Heap.operate
  split
  · refine ⟨D.data rfl, hs.newList ?_⟩
    rw [Array.toList_append]
    exact Discipline.values_append.mpr ⟨hs.list _, hs.list _⟩
  · exact hs.customOperate ..
  · refine hs.yields ?_
    cases hv : operateInPlace? op left right with
    | none => rfl
    | some v => exact isData_operateInPlace? hv

/-- **The operators of instructions.** Conjunction and disjunction yield an operand. -/
theorem binary (hs : h.Sound D w) (op : BinaryOperator) {left right : Value}
    (hl : D.value w left) (hr : D.value w right) : D.Yields w (h.binary op left right) := by
  unfold Heap.binary
  split
  · refine ⟨?_, hs⟩
    show D.value w (if h.isTruthy left then right else left)
    split
    · exact hr
    · exact hl
  · refine ⟨?_, hs⟩
    show D.value w (if h.isTruthy left then left else right)
    split
    · exact hl
    · exact hr
  · exact hs.operate ..

/-! ### Items -/

/-- **The item under an index** was found in the heap, or is data. -/
theorem getItem (hs : h.Sound D w) (object index : Value) :
    D.value w (h.getItem object index) := by
  unfold Heap.getItem
  split
  · rename_i r i
    dsimp only
    cases hi : resolveIndex i (h.list r).size with
    | error f => exact D.data rfl
    | ok k =>
      show D.value w ((h.list r).getD k .nil)
      refine getD_of_forall_mem (fun v hv => hs.list r v ?_) (D.data rfl) k
      exact Array.mem_toList_iff.mpr hv
  · exact D.data rfl
  · rename_i s i
    dsimp only
    cases hi : resolveIndex i s.toList.length with
    | error f => exact D.data rfl
    | ok k => exact D.data rfl
  · exact D.data rfl
  · exact hs.map_getD _ _ (D.data rfl)
  · exact D.data rfl
  · split <;> exact D.data rfl
  · exact D.data rfl

/-- **Storing an item** keeps the heap sound, whether it fails or not. -/
theorem setItem (hs : h.Sound D w) (object index : Value) {v : Value} (hv : D.value w v) :
    (h.setItem object index v).2.Sound D w := by
  unfold Heap.setItem
  split
  · split
    · refine hs.modifyList _ fun xs hx u hu => ?_
      rw [Array.mem_toList_iff] at hu
      exact forall_mem_setIfInBounds (fun u hu => hx u (Array.mem_toList_iff.mpr hu)) hv _ u hu
    · exact hs
  · exact hs
  · refine hs.modifyMap _ fun m hm k u hu => ?_
    rw [Std.TreeMap.getElem?_insert] at hu
    split at hu
    · obtain rfl := Option.some.inj hu
      exact hv
    · exact hm k u hu
  · exact hs
  · exact hs

/-- **A slice** is a new list of items of the old one, or data. -/
theorem slice (hs : h.Sound D w) (object start stop : Value) :
    D.Yields w (h.slice object start stop) := by
  unfold Heap.slice
  split
  · rename_i r
    dsimp only
    split
    · refine ⟨D.data rfl, hs.newList fun v hv => hs.list r v ?_⟩
      rw [Array.toList_extract] at hv
      exact List.mem_of_mem_drop (List.mem_of_mem_take hv)
    · exact hs.yields rfl
  · dsimp only
    split
    · exact hs.yields rfl
    · exact hs.yields rfl
  · exact hs.yields rfl

theorem items? (hs : h.Sound D w) {v : Value} {items : List Value} (hi : h.items? v = some items) :
    D.values w items := by
  unfold Heap.items? at hi
  split at hi
  · obtain rfl := Option.some.inj hi
    exact hs.list _
  · cases hi

/-! ### Iterators -/

theorem numbered {items : List Value} (hi : D.values w items) :
    ∀ e ∈ Heap.numbered items, D.value w e.1 ∧ D.value w e.2 := by
  intro e he
  obtain ⟨⟨v, i⟩, hv, rfl⟩ := List.mem_map.mp (List.mem_toArray.mp he)
  exact ⟨D.data rfl, hi v (List.fst_mem_of_mem_zipIdx hv)⟩

/-- The entries of a container were found in the heap. -/
theorem entries? (hs : h.Sound D w) {v : Value} {entries : Array (Value × Value)}
    (he : h.entries? v = some entries) : ∀ e ∈ entries, D.value w e.1 ∧ D.value w e.2 := by
  unfold Heap.entries? at he
  split at he
  · obtain rfl := Option.some.inj he
    exact numbered (hs.list _)
  · rename_i r
    obtain rfl := Option.some.inj he
    intro e hm
    obtain ⟨⟨k, u⟩, hu, rfl⟩ := List.mem_map.mp (List.mem_toArray.mp hm)
    exact ⟨D.data rfl, hs.map_toList r hu⟩
  · obtain rfl := Option.some.inj he
    intro e hm
    obtain ⟨k, hk, rfl⟩ := List.mem_map.mp (List.mem_toArray.mp hm)
    refine ⟨D.data ?_, D.data rfl⟩
    cases k <;> rfl
  · obtain rfl := Option.some.inj he
    refine numbered fun v hv => ?_
    obtain ⟨c, -, rfl⟩ := List.mem_map.mp hv
    exact D.data rfl
  · cases he

theorem iterate (hs : h.Sound D w) (v : Value) : (h.iterate v).2.Sound D w := by
  unfold Heap.iterate
  split
  · exact hs
  · split
    · rename_i he
      exact hs.newIterator (hs.entries? he)
    · exact hs

/-- **The next entry** of an iterator is one with which it was made. -/
theorem next (hs : h.Sound D w) (r : Ref .iterator) :
    (h.next r).2.Sound D w ∧
      ∀ key v, (h.next r).1 = some (key, v) → D.value w key ∧ D.value w v := by
  unfold Heap.next
  dsimp only
  split
  · rename_i entry he
    refine ⟨hs.setIterator r (hs.iterator r), fun key v hkv => ?_⟩
    obtain rfl := Option.some.inj hkv
    exact hs.iterator r _ (Array.mem_of_getElem? he)
  · exact ⟨hs, fun key v hkv => by cases hkv⟩

/-! ### New containers -/

theorem buildList (hs : h.Sound D w) {items : List Value} (hi : D.values w items) :
    D.Yields w (h.buildList items) :=
  ⟨D.data rfl, hs.newList (by simpa using hi)⟩

/-- A map of values is made of them. -/
theorem entries_ofList {entries : List (String × Value)} (he : ∀ e ∈ entries, D.value w e.2) :
    D.entries w (Entries.ofList entries) := by
  suffices aux : ∀ (es : List (String × Value)) (m : Entries), D.entries w m →
      (∀ e ∈ es, D.value w e.2) → D.entries w (es.foldl (fun m e => m.insert e.1 e.2) m) from
    aux entries ∅ (fun k v hv => by simp at hv) he
  intro es
  induction es with
  | nil => exact fun m hm _ => hm
  | cons e es ih =>
    intro m hm he
    refine ih _ (fun k v hv => ?_) fun e' he' => he e' (List.mem_cons_of_mem _ he')
    rw [Std.TreeMap.getElem?_insert] at hv
    split at hv
    · obtain rfl := Option.some.inj hv
      exact he e (List.mem_cons_self ..)
    · exact hm k v hv

theorem buildMap (hs : h.Sound D w) {entries : List (String × Value)}
    (he : ∀ e ∈ entries, D.value w e.2) : D.Yields w (h.buildMap entries) :=
  ⟨D.data rfl, hs.newMap (entries_ofList he)⟩

theorem buildSet (hs : h.Sound D w) (items : List Value) :
    (h.buildSet items).2.Sound D w ∧ ∀ v, (h.buildSet items).1 = .ok v → D.value w v := by
  unfold Heap.buildSet
  split
  · refine ⟨hs.newSet _, fun v hv => ?_⟩
    obtain rfl := Except.ok.inj hv
    exact D.data rfl
  · exact ⟨hs, fun v hv => by cases hv⟩

/-! ### Attributes -/

/-- **An attribute** is a new method, or data. -/
theorem getAttr (hs : h.Sound D w) (object : Value) (name : String) :
    (h.getAttr object name).2.Sound D w ∧
      ∀ v, (h.getAttr object name).1 = some v → D.value w v := by
  unfold Heap.getAttr
  split
  · split
    · refine ⟨hs, fun v hv => ?_⟩
      simp only at hv
      split at hv
      · obtain rfl := Option.some.inj hv
        exact D.data rfl
      · cases hv
    · exact ⟨hs, fun v hv => by cases hv⟩
  · split
    · refine ⟨hs.newBuiltin fun key captured he => (by cases he), fun v hv => ?_⟩
      obtain rfl := Option.some.inj hv
      exact D.data rfl
    · exact ⟨hs, fun v hv => by cases hv⟩

theorem setAttr (hs : h.Sound D w) (object : Value) (name : String) (v : Value) :
    (h.setAttr object name v).2.Sound D w := by
  unfold Heap.setAttr
  split
  · split
    · split
      · exact hs.setCustom ..
      · exact hs
    · exact hs
    · exact hs
  · exact hs

/-! ### Methods -/

theorem popList (hs : h.Sound D w) (r : Ref .list) : D.Yields w (Heap.popList r h) := by
  unfold Heap.popList
  split
  · rename_i v hv
    refine ⟨hs.list r v ?_, hs.modifyList r fun xs hx u hu => hx u ?_⟩
    · rw [Array.back?_eq_getElem?] at hv
      exact Array.mem_toList_iff.mpr (Array.mem_of_getElem? hv)
    · rw [Array.toList_pop] at hu
      exact List.dropLast_subset _ hu
  · exact hs.yields rfl

theorem getOr (hs : h.Sound D w) (r : Ref .map) {v : Value} (hv : D.value w v) (key : String) :
    D.Yields w (Heap.getOr r v key h) :=
  ⟨hs.map_getD r key hv, hs⟩

theorem withString (hs : h.Sound D w) (method : String) (v : Value)
    {f : String → Heap → Value × Heap} (hf : ∀ s, D.Yields w (f s h)) :
    D.Yields w (h.withString method v f) := by
  unfold Heap.withString
  split
  · exact hf _
  · exact hs.yields rfl

end Sound

end Heap

end ScriptEngine
