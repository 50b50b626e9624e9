import ScriptEngine.Builtin.Behavior
import ScriptEngine.Embed.Conversion

/-!
# A toolkit of host functions

The functions and values that a session offers to its scripts: looking at values, calling back with
or without catching failures, failing in every way, asking the limits, and a log.

## Main definitions

* `ScriptEngine.Toolkit.host`: what the functions do;
* `ScriptEngine.Toolkit.value`: the function or value under a name;
* `ScriptEngine.Toolkit.registry`: a registry of them.

## Implementation notes

The log of a session is a list on the heap, which the function `log` captures.
-/

namespace ScriptEngine.Toolkit

/-- The text that a function is about: that of its first argument. -/
def text (h : Heap) (args : List Value) : String :=
  args.head?.elim "" h.render

/-- The amount that a function is about: its first argument, where anything but a positive integer
counts as 0. -/
def amount (args : List Value) : Nat :=
  match args with
  | .int n :: _ => n.toNatClampNeg
  | _ => 0

/-- A function of one argument that shows something about it. -/
def about (name : String) (args : List Value) (look : Heap → Value → Value) : Activity :=
  .takes name 1 args (.read fun h => look h (args.headD .nil))

/-- Calls the first argument with the others, and goes on with the outcome. -/
def callFirst (args : List Value) (next : Outcome → Activity) : Activity :=
  match args with
  | [] => .value .nil
  | callee :: rest => .call callee rest next

/-- A question put to the limits, whose refusal ends the run. -/
def ask (query : LimitQuery) : Activity :=
  .limit query fun
    | .ok () => .value .nil
    | .error e => .fail (.limit e)

/-- Adds the arguments to a log. -/
def log (captured args : List Value) : Activity :=
  match captured with
  | [.list r] => .effect fun h => (args.headD .nil, h.modifyList r (· ++ args.toArray))
  | _ => .value (args.headD .nil)

/-- A new object of the host. -/
def object (o : CustomObject) : Activity :=
  .effect fun h =>
    let (r, h) := h.newCustom o
    (.custom r, h)

/-- The number that follows the first argument, which has to be an integer. -/
def successor (args : List Value) : Activity :=
  match args with
  | [] => .value (.error ⟨"need_int() takes 1 argument", false⟩)
  | v :: _ =>
    .heap (fun h => (
      match HostType.fromValue h .int64 v with
      | .ok n => .int (n + 1)
      | .error e => .error ⟨e.message, true⟩, h)) .value

/-- **What the functions do**, each under its key. -/
def behave (key : String) (captured args : List Value) : Activity :=
  match key with
  | "log" => log captured args
  | "args" => .effect fun h => h.buildList args
  | "type" => about "type" args fun h v => .str (h.typeName v)
  | "len" => about "len" args Heap.length
  | "inspect" => about "inspect" args fun h v => .str (h.inspect v)
  | "apply" => callFirst args .finish
  | "try" => callFirst args fun
    | .ok v => .value v
    | .error e => .value (.error ⟨e.message, false⟩)
  | "rethrow" => callFirst args fun
    | .ok v => .value v
    | .error e => .value (.error e.toError)
  | "fail" => .read fun h => .error ⟨text h args, true⟩
  | "soft" => .read fun h => .error ⟨text h args, false⟩
  | "raise" => .read fun h => .error ⟨text h args, true⟩
  | "request" => ask .request
  | "size" => ask (.size (amount args))
  | "charge" => ask (.charge (amount args))
  | "cancel" => .cancel (.value .nil)
  | "meters" =>
    match args with
    | .int n :: _ => object (.measure n)
    | _ => object (.measure 0)
  | "opaque" => object .unstructured
  | "const" => .value (captured.headD .nil)
  | "need_int" => successor args
  | "script" => .fail (EngineError.script ⟨"native script error", false⟩).toRuntime
  | "undefined" => .fail (EngineError.undefined "thing").toRuntime
  | "runtime" => .fail (EngineError.runtime .stackOverflow).toRuntime
  | "compile" => .fail (EngineError.compile .pipeTooShort).toRuntime
  | _ => .value .nil

/-- **The host** of the toolkit. -/
def host : Host :=
  ⟨behave⟩

/-- The function under a key, with the log of the session. -/
def body (log : Ref .list) (key : String) : BuiltinBody :=
  .host key (if key = "log" then [.list log] else [])

/-- The function or the plain value under a name. -/
def value (log : Ref .list) (name : String) (h : Heap) : Value × Heap :=
  match name with
  | "pi" => (.float (Double.ofFloat 3.5), h)
  | "answer" => (.int 42, h)
  | name => h.newNamed name (body log name)

/-- The name in whose place the builtins for workers and channels are registered. -/
def concurrencyName : String :=
  "+concurrency"

/-- **A registry** of the functions and values under the given names, in order. -/
def registry (log : Ref .list) (names : List String) (h : Heap) : Registry × Heap :=
  names.foldl (fun (r, h) name =>
    if name = concurrencyName then r.withConcurrency h
    else
      let (v, h) := value log name h
      ((r.insert name v).2, h)) ({}, h)

end ScriptEngine.Toolkit
