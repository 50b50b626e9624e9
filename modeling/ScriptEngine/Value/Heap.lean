import Std.Data.TreeMap
import ScriptEngine.Bytecode.Code
import ScriptEngine.Machine.Error
import ScriptEngine.Value.Key

/-!
# The heap

The objects that references stand for. Each kind of object has its own store, and a reference is a
position in the store of its kind. Stores only grow; an object is changed by replacing the content
at its position, which every reference to it sees.

## Main definitions

* `ScriptEngine.Heap`: the stores;
* `new…` in the namespace `ScriptEngine.Heap`: a new object and its reference;
* `list`, `map`, `set` and the other readers: the content behind a reference;
* `ScriptEngine.Heap.typeName`: the name of the type of a value.
-/

namespace ScriptEngine

/-- The content of a map, in the order of its keys. -/
abbrev Entries := Std.TreeMap String Value

/-- The content of a set, in the order of its members. -/
abbrev Members := Std.TreeMap Key Unit

/-- A function bound to the cells that it captured. -/
structure Closure where
  function : Ref .function
  cells : Array (Ref .cell)
deriving DecidableEq, Inhabited

/-- A callable whose last arguments are already bound. -/
structure PartialCall where
  callee : Value
  args : List Value
deriving DecidableEq, Inhabited

/-- The methods of built-in types, together with the object they belong to. -/
inductive Method where
  | append (list : Ref .list)
  | pop (list : Ref .list)
  | listLength (list : Ref .list)
  | keys (map : Ref .map)
  | values (map : Ref .map)
  | get (map : Ref .map)
  | delete (map : Ref .map)
  | upper (text : String)
  | lower (text : String)
  | split (text : String)
  | contains (text : String)
  | message (e : ErrorValue)
  | wait (thread : Ref .thread)
  | send (chan : Ref .channel)
  | receive (chan : Ref .channel)
  | close (chan : Ref .channel)
  | chanLength (chan : Ref .channel)
deriving DecidableEq, Repr

/-- What a builtin does: a method, one of the two that start workers and make channels, or a
function of the host, which the host knows by a key and by values that belong to it. -/
inductive BuiltinBody where
  | method (m : Method)
  | spawn
  | channel
  | host (key : String) (captured : List Value)
deriving DecidableEq, Repr

instance : Inhabited BuiltinBody := ⟨.channel⟩

structure Builtin where
  name : String
  body : BuiltinBody
deriving DecidableEq, Repr, Inhabited

/-- The entries that an iterator was made with, as keys and values, and how many of them it has
given out. -/
structure Iterator where
  entries : Array (Value × Value)
  position : Nat := 0
deriving DecidableEq, Inhabited

/-- An object of the host: a length in metres that can be changed, or an object about which nothing
is known. -/
inductive CustomObject where
  | measure (metres : Int64)
  | unstructured
deriving DecidableEq, Repr

instance : Inhabited CustomObject := ⟨.unstructured⟩

def CustomObject.typeName : CustomObject → String
  | .measure _ => "meters"
  | .unstructured => "opaque"

/-- A channel. A channel without a buffer hands a value over directly: `offers` are the values that
senders hold out, each under its own number. -/
structure Channel where
  capacity : Nat
  closed : Bool := false
  buffer : List Value := []
  offers : List (Nat × Value) := []
  offered : Nat := 0
deriving DecidableEq, Inhabited

/-- A worker as those see it that wait for it. It sends what it ended with into `mailbox` once, and
the first to take it from there stores it as `outcome`, holding the lock. -/
structure Thread where
  mailbox : Option Outcome := none
  exited : Bool := false
  locked : Bool := false
  outcome : Option Outcome := none
deriving Inhabited

/-- **The heap.** -/
structure Heap where
  lists : Array (Array Value) := #[]
  maps : Array Entries := #[]
  sets : Array Members := #[]
  functions : Array Function := #[]
  closures : Array Closure := #[]
  builtins : Array Builtin := #[]
  partialCalls : Array PartialCall := #[]
  cells : Array Value := #[]
  iterators : Array Iterator := #[]
  customs : Array CustomObject := #[]
  channels : Array Channel := #[]
  threads : Array Thread := #[]

namespace Heap

/-! ### New objects -/

def newList (h : Heap) (items : Array Value) : Ref .list × Heap :=
  (⟨h.lists.size⟩, { h with lists := h.lists.push items })

def newMap (h : Heap) (entries : Entries) : Ref .map × Heap :=
  (⟨h.maps.size⟩, { h with maps := h.maps.push entries })

def newSet (h : Heap) (members : Members) : Ref .set × Heap :=
  (⟨h.sets.size⟩, { h with sets := h.sets.push members })

def newFunction (h : Heap) (f : Function) : Ref .function × Heap :=
  (⟨h.functions.size⟩, { h with functions := h.functions.push f })

def newClosure (h : Heap) (c : Closure) : Ref .closure × Heap :=
  (⟨h.closures.size⟩, { h with closures := h.closures.push c })

def newBuiltin (h : Heap) (b : Builtin) : Ref .builtin × Heap :=
  (⟨h.builtins.size⟩, { h with builtins := h.builtins.push b })

def newPartialCall (h : Heap) (p : PartialCall) : Ref .partialCall × Heap :=
  (⟨h.partialCalls.size⟩, { h with partialCalls := h.partialCalls.push p })

def newCell (h : Heap) (v : Value) : Ref .cell × Heap :=
  (⟨h.cells.size⟩, { h with cells := h.cells.push v })

def newIterator (h : Heap) (i : Iterator) : Ref .iterator × Heap :=
  (⟨h.iterators.size⟩, { h with iterators := h.iterators.push i })

def newCustom (h : Heap) (o : CustomObject) : Ref .custom × Heap :=
  (⟨h.customs.size⟩, { h with customs := h.customs.push o })

def newChannel (h : Heap) (capacity : Nat) : Ref .channel × Heap :=
  (⟨h.channels.size⟩, { h with channels := h.channels.push { capacity } })

def newThread (h : Heap) : Ref .thread × Heap :=
  (⟨h.threads.size⟩, { h with threads := h.threads.push {} })

/-! ### Reading

A reference that belongs to no object reads as an empty one. -/

def list (h : Heap) (r : Ref .list) : Array Value :=
  h.lists.getD r.index #[]

def map (h : Heap) (r : Ref .map) : Entries :=
  h.maps.getD r.index ∅

def set (h : Heap) (r : Ref .set) : Members :=
  h.sets.getD r.index ∅

def function (h : Heap) (r : Ref .function) : Function :=
  h.functions.getD r.index default

def closure (h : Heap) (r : Ref .closure) : Closure :=
  h.closures.getD r.index default

def builtin (h : Heap) (r : Ref .builtin) : Builtin :=
  h.builtins.getD r.index default

def partialCall (h : Heap) (r : Ref .partialCall) : PartialCall :=
  h.partialCalls.getD r.index default

def cell (h : Heap) (r : Ref .cell) : Value :=
  h.cells.getD r.index .nil

def iterator (h : Heap) (r : Ref .iterator) : Iterator :=
  h.iterators.getD r.index default

def custom (h : Heap) (r : Ref .custom) : CustomObject :=
  h.customs.getD r.index default

def channel (h : Heap) (r : Ref .channel) : Channel :=
  h.channels.getD r.index default

def thread (h : Heap) (r : Ref .thread) : Thread :=
  h.threads.getD r.index default

/-! ### Changing an object -/

def modifyList (h : Heap) (r : Ref .list) (f : Array Value → Array Value) : Heap :=
  { h with lists := h.lists.modify r.index f }

def modifyMap (h : Heap) (r : Ref .map) (f : Entries → Entries) : Heap :=
  { h with maps := h.maps.modify r.index f }

def modifySet (h : Heap) (r : Ref .set) (f : Members → Members) : Heap :=
  { h with sets := h.sets.modify r.index f }

def setCell (h : Heap) (r : Ref .cell) (v : Value) : Heap :=
  { h with cells := h.cells.setIfInBounds r.index v }

def setIterator (h : Heap) (r : Ref .iterator) (i : Iterator) : Heap :=
  { h with iterators := h.iterators.setIfInBounds r.index i }

def setCustom (h : Heap) (r : Ref .custom) (o : CustomObject) : Heap :=
  { h with customs := h.customs.setIfInBounds r.index o }

def setChannel (h : Heap) (r : Ref .channel) (c : Channel) : Heap :=
  { h with channels := h.channels.setIfInBounds r.index c }

def setThread (h : Heap) (r : Ref .thread) (t : Thread) : Heap :=
  { h with threads := h.threads.setIfInBounds r.index t }

/-! ### Views -/

/-- The function and the captured cells behind a value. -/
def function? (h : Heap) : Value → Option (Function × Array (Ref .cell))
  | .function r => some (h.function r, #[])
  | .closure r =>
    let c := h.closure r
    some (h.function c.function, c.cells)
  | _ => none

/-- **The name of the type** of a value, as messages show it. -/
def typeName (h : Heap) : Value → String
  | .nil => "nil"
  | .bool _ => "bool"
  | .int _ => "int"
  | .float _ => "float"
  | .str _ => "string"
  | .error _ => "error"
  | .list _ => "list"
  | .map _ => "map"
  | .set _ => "set"
  | .function _ | .closure _ => "function"
  | .builtin _ => "builtin"
  | .partialCall _ => "partial"
  | .cell _ => "cell"
  | .iter _ => "iterator"
  | .thread _ => "thread"
  | .chan _ => "chan"
  | .custom r => (h.custom r).typeName

end Heap

/-- The entries of a map given in any order, where a later entry replaces an earlier one. -/
def Entries.ofList (entries : List (String × Value)) : Entries :=
  entries.foldl (fun m (k, v) => m.insert k v) ∅

/-- The members of a set given in any order. -/
def Members.ofList (keys : List Key) : Members :=
  keys.foldl (fun m k => m.insert k ()) ∅

end ScriptEngine
