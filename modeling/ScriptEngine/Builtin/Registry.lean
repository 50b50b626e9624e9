import Std.Data.HashMap
import ScriptEngine.Value.Basic

/-!
# Registries of builtins

The builtins that a machine knows, in the order of their indexes. The code refers to a builtin by
its index, so an index never changes its name.

## Main definitions

* `ScriptEngine.Registry`: the registries;
* `ScriptEngine.Registry.insert`: a new builtin, or another value under a known name.
-/

namespace ScriptEngine

/-- **A registry**: the builtins in order, and the index of every name. -/
structure Registry where
  entries : Array (String × Value) := #[]
  index : Std.HashMap String Nat := ∅

namespace Registry

instance : Inhabited Registry := ⟨{}⟩

def indexOf? (r : Registry) (name : String) : Option Nat :=
  r.index[name]?

/-- **Registering** a value under a name, with the index that it gets. A known name keeps its
index. -/
def insert (r : Registry) (name : String) (v : Value) : Nat × Registry :=
  match r.index[name]? with
  | some i => (i, { r with entries := r.entries.setIfInBounds i (name, v) })
  | none =>
    (r.entries.size,
      { entries := r.entries.push (name, v), index := r.index.insert name r.entries.size })

def get? (r : Registry) (i : Nat) : Option Value :=
  r.entries[i]?.map Prod.snd

def names (r : Registry) : List String :=
  r.entries.toList.map Prod.fst

def size (r : Registry) : Nat :=
  r.entries.size

def isEmpty (r : Registry) : Bool :=
  r.entries.isEmpty

end Registry

end ScriptEngine
