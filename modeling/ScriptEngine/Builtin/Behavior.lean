import ScriptEngine.Builtin.Method
import ScriptEngine.Builtin.Registry
import ScriptEngine.Value.Text

/-!
# Behaviour of builtins

What a builtin does when it is called, and the two builtins that start workers and make channels.

## Main definitions

* `ScriptEngine.Builtin.activity`: what a builtin does with its arguments;
* `ScriptEngine.Heap.newNamed`: a new builtin as a value;
* `ScriptEngine.Registry.withConcurrency`: a registry with `spawn` and `chan`.
-/

namespace ScriptEngine

/-- Starts a worker that calls the first argument with the others. -/
def spawnActivity : List Value → Activity
  | [] => .fail (.argumentCount "spawn" (.atLeast 1) 0)
  | callee :: args =>
    if callee.isCallable then .spawn callee args .value
    else .read fun h => .fault (.notSpawnable (h.typeName callee))

/-- Makes a channel with room for as many values as the argument says, and for none without one. The
fault of a wrong argument shows it, as far as `Heap.inspect` has a text for it. -/
def channelActivity (args : List Value) : Activity :=
  let make (capacity : Nat) : Activity := .effect fun h =>
    let (r, h) := h.newChannel capacity
    (.chan r, h)
  match args with
  | [] => make 0
  | [v] =>
    match v with
    | .int n =>
      if 0 ≤ n then make n.toNatClampNeg else .read fun h => .fault (.channelSize (h.inspect v))
    | v => .read fun h => .fault (.channelSize (h.inspect v))
  | args => .fail (.argumentCount "chan" (.between 0 1) args.length)

/-- **What a builtin does.** -/
def Builtin.activity (host : Host) (b : Builtin) (args : List Value) : Activity :=
  match b.body with
  | .method m => m.activity args
  | .spawn => spawnActivity args
  | .channel => channelActivity args
  | .host key captured => host.behave key captured args

/-- A new builtin, as a value. -/
def Heap.newNamed (h : Heap) (name : String) (body : BuiltinBody) : Value × Heap :=
  let (r, h) := h.newBuiltin ⟨name, body⟩
  (.builtin r, h)

/-- The registry with the builtins that start workers and make channels. -/
def Registry.withConcurrency (r : Registry) (h : Heap) : Registry × Heap :=
  let (start, h) := h.newNamed "spawn" .spawn
  let (channel, h) := h.newNamed "chan" .channel
  let (_, r) := r.insert "spawn" start
  let (_, r) := r.insert "chan" channel
  (r, h)

end ScriptEngine
