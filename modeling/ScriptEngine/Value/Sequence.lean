import ScriptEngine.Text.Search
import ScriptEngine.Value.Equality
import ScriptEngine.Value.Heap

/-!
# Items of containers

Indexing, slicing, membership and iteration. A list or string of `n` items has the indexes `0` to
`n - 1`, and a negative index counts from the end. Strings consist of characters.

## Main definitions

* `ScriptEngine.resolveIndex`, `ScriptEngine.resolveSlice`: the positions behind indexes;
* `ScriptEngine.Heap.getItem`, `ScriptEngine.Heap.setItem`, `ScriptEngine.Heap.slice`,
  `ScriptEngine.Heap.contains`, `ScriptEngine.Heap.length`: the operations on containers;
* `ScriptEngine.Heap.iterate`, `ScriptEngine.Heap.next`: iterators, which keep the entries that
  their container had when they were made.
-/

namespace ScriptEngine

/-- An index counted from the start, where a negative one counts from the end of `size` items. -/
def fromStart (index : Int64) (size : Nat) : Int :=
  if index < 0 then index.toInt + size else index.toInt

/-- **The position of an item** among `size` items. -/
def resolveIndex (index : Int64) (size : Nat) : Except Fault Nat :=
  let i := fromStart index size
  if 0 ≤ i ∧ i < size then .ok i.toNat else .error (.indexOutOfRange index)

namespace Heap

/-- The position of a bound of a slice, which may lie behind the last of `size` items. -/
def resolveBound (h : Heap) (bound : SliceBound) (v : Value) (size : Nat) : Except Fault Nat :=
  match v with
  | .int n =>
    let i := fromStart n size
    if 0 ≤ i ∧ i ≤ size then .ok i.toNat else .error (.sliceOutOfRange bound)
  | v => .error (.sliceIndex bound (h.typeName v))

/-- **The positions of a slice** of `size` items. -/
def resolveSlice (h : Heap) (start stop : Value) (size : Nat) : Except Fault (Nat × Nat) := do
  let start ← h.resolveBound .start start size
  let stop ← h.resolveBound .stop stop size
  if stop < start then throw .sliceReversed
  return (start, stop)

/-- A result, or the error value of the fault that stands in its place. -/
def orFault : Except Fault Value → Value
  | .ok v => v
  | .error f => .fault f

/-- **The item under an index.** A map yields nil for a key that it does not have, and a set says
whether it has a member. -/
def getItem (h : Heap) (object index : Value) : Value :=
  orFault <| match object, index with
    | .list r, .int i => do
      let items := h.list r
      return items.getD (← resolveIndex i items.size) .nil
    | .list _, index => .error (.listIndex (h.typeName index))
    | .str s, .int i => do
      let chars := s.toList
      return .str (((chars[← resolveIndex i chars.length]?).map Char.toString).getD "")
    | .str _, index => .error (.stringIndex (h.typeName index))
    | .map r, .str key => .ok ((h.map r).getD key .nil)
    | .map _, index => .error (.mapKey (h.typeName index))
    | .set r, index =>
      match Key.ofValue? index with
      | some key => .ok (.bool ((h.set r).contains key))
      | none => .error (.unhashable (h.typeName index))
    | object, _ => .error (.notSubscriptable (h.typeName object))

/-- **Storing an item** under an index. A list keeps its length, and a map takes new keys. -/
def setItem (h : Heap) (object index v : Value) : Except Fault Unit × Heap :=
  match object, index with
  | .list r, .int i =>
    match resolveIndex i (h.list r).size with
    | .ok position => (.ok (), h.modifyList r (·.setIfInBounds position v))
    | .error f => (.error f, h)
  | .list _, index => (.error (.listIndex (h.typeName index)), h)
  | .map r, .str key => (.ok (), h.modifyMap r (·.insert key v))
  | .map _, index => (.error (.mapKey (h.typeName index)), h)
  | object, _ => (.error (.itemAssignment (h.typeName object)), h)

/-- **Membership**, or the fault of a value that has no members. An item of a list with which the
comparison would not end counts as a different one, as `Heap.equals` says. -/
def contains (h : Heap) (container item : Value) : Value :=
  match container with
  | .list r => .bool ((h.list r).any fun v => h.equals v item)
  | .map r => .bool (item.toStr?.any fun key => (h.map r).contains key)
  | .set r => .bool ((Key.ofValue? item).any fun key => (h.set r).contains key)
  | .str s => .bool (item.toStr?.any fun sub => Text.occursIn sub.toList s.toList)
  | container => .fault (.notContainer (h.typeName container))

/-- **The number of items**, or the fault of a value that has none. -/
def length (h : Heap) (v : Value) : Value :=
  let count (n : Nat) : Value := .int (Int64.ofNat n)
  match v with
  | .list r => count (h.list r).size
  | .map r => count (h.map r).size
  | .set r => count (h.set r).size
  | .str s => count s.length
  | .chan r => count (h.channel r).buffer.length
  | v => .fault (.noLength (h.typeName v))

/-- **The items between two bounds**, as a new list or a string. -/
def slice (h : Heap) (object start stop : Value) : Value × Heap :=
  match object with
  | .list r =>
    let items := h.list r
    match h.resolveSlice start stop items.size with
    | .ok (i, j) =>
      let (r, h) := h.newList (items.extract i j)
      (.list r, h)
    | .error f => (.fault f, h)
  | .str s =>
    let chars := s.toList
    match h.resolveSlice start stop chars.length with
    | .ok (i, j) => (.str (String.ofList ((chars.drop i).take (j - i))), h)
    | .error f => (.fault f, h)
  | object => (.fault (.notSliceable (h.typeName object)), h)

/-- The items of a list, for unpacking into several names. -/
def items? (h : Heap) : Value → Option (List Value)
  | .list r => some (h.list r).toList
  | _ => none

/-- Values with their positions as keys. -/
def numbered (items : List Value) : Array (Value × Value) :=
  (items.zipIdx.map fun (v, i) => (.int (Int64.ofNat i), v)).toArray

/-- The entries that an iterator over a value gives out, as keys and values. -/
def entries? (h : Heap) : Value → Option (Array (Value × Value))
  | .list r => some (numbered (h.list r).toList)
  | .map r => some ((h.map r).toList.map fun (k, v) => (.str k, v)).toArray
  | .set r => some ((h.set r).keys.map fun k => (k.toValue, .bool true)).toArray
  | .str s => some (numbered (s.toList.map fun c => .str c.toString))
  | _ => none

/-- **An iterator** over a value. An iterator is its own, and all others are new. -/
def iterate (h : Heap) : Value → Option (Ref .iterator) × Heap
  | .iter r => (some r, h)
  | v =>
    match h.entries? v with
    | some entries =>
      let (r, h) := h.newIterator { entries }
      (some r, h)
    | none => (none, h)

/-- **The next entry** of an iterator, which does not move beyond its last one. -/
def next (h : Heap) (r : Ref .iterator) : Option (Value × Value) × Heap :=
  let i := h.iterator r
  match i.entries[i.position]? with
  | some entry => (some entry, h.setIterator r { i with position := i.position + 1 })
  | none => (none, h)

/-- A new map of entries in order, where a later one replaces an earlier one of the same key. -/
def buildMap (h : Heap) (entries : List (String × Value)) : Value × Heap :=
  let (r, h) := h.newMap (Entries.ofList entries)
  (.map r, h)

/-- The members that values are, or the fault of the first that cannot be one. -/
def members (h : Heap) (items : List Value) : Except Fault Members := do
  let keys ← items.mapM fun v =>
    match Key.ofValue? v with
    | some k => .ok k
    | none => .error (Fault.unhashable (h.typeName v))
  return Members.ofList keys

/-- A new set of values, or the fault of the first that cannot be a member. -/
def buildSet (h : Heap) (items : List Value) : Except Fault Value × Heap :=
  match h.members items with
  | .ok members =>
    let (r, h) := h.newSet members
    (.ok (.set r), h)
  | .error f => (.error f, h)

/-- A new list of values. -/
def buildList (h : Heap) (items : List Value) : Value × Heap :=
  let (r, h) := h.newList items.toArray
  (.list r, h)

end Heap

end ScriptEngine
