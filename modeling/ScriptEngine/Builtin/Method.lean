import ScriptEngine.Machine.Activity
import ScriptEngine.Text.Case
import ScriptEngine.Text.Search
import ScriptEngine.Value.Sequence

/-!
# Methods of built-in types

What the methods of lists, maps, strings, errors, workers and channels do. A method looks at its
arguments before it does anything, and an argument of the wrong type yields an error value.

## Main definitions

* `ScriptEngine.Method.activity`: what a method does with its arguments.
-/

namespace ScriptEngine

namespace Heap

/-- The last item of a list, which is removed. -/
def popList (r : Ref .list) (h : Heap) : Value × Heap :=
  match (h.list r).back? with
  | some v => (v, h.modifyList r Array.pop)
  | none => (.fault .popFromEmpty, h)

/-- A value that depends on a string argument, or the fault of any other value. -/
def withString (h : Heap) (method : String) (v : Value) (f : String → Heap → Value × Heap) :
    Value × Heap :=
  match v with
  | .str s => f s h
  | v => (.fault (.stringArgument method (h.typeName v)), h)

/-- The value under a key, or the given one if the map has no such key. -/
def getOr (r : Ref .map) (default : Value) (key : String) (h : Heap) : Value × Heap :=
  ((h.map r).getD key default, h)

end Heap

namespace Method

/-- The activity of the method `get`, whose second argument stands in for a missing entry. -/
def getActivity (r : Ref .map) (args : List Value) : Activity :=
  match args with
  | [key] => .effect fun h => h.withString "get" key (Heap.getOr r .nil)
  | [key, default] => .effect fun h => h.withString "get" key (Heap.getOr r default)
  | args => .fail (.argumentCount "get" (.exactly 2) args.length)

/-- **What a method does.** -/
def activity (m : Method) (args : List Value) : Activity :=
  let first := args.headD .nil
  match m with
  | .append r => .effect fun h => (.list r, h.modifyList r (· ++ args.toArray))
  | .pop r => .takes "pop" 0 args (.effect (Heap.popList r))
  | .listLength r => .takes "len" 0 args (.read (·.length (.list r)))
  | .keys r =>
    .takes "keys" 0 args (.effect fun h => h.buildList ((h.map r).keys.map .str))
  | .values r => .takes "values" 0 args (.effect fun h => h.buildList (h.map r).values)
  | .get r => getActivity r args
  | .delete r =>
    .takes "delete" 1 args (.effect fun h => h.withString "delete" first fun key h =>
      (.nil, h.modifyMap r (·.erase key)))
  | .upper s => .takes "upper" 0 args (.value (.str (Text.upper s)))
  | .lower s => .takes "lower" 0 args (.value (.str (Text.lower s)))
  | .split s =>
    .takes "split" 1 args (.effect fun h => h.withString "split" first fun separator h =>
      h.buildList ((Text.split separator.toList s.toList).map (.str ∘ String.ofList)))
  | .contains s =>
    .takes "contains" 1 args (.effect fun h => h.withString "contains" first fun sub h =>
      (.bool (Text.occursIn sub.toList s.toList), h))
  | .message e => .takes "message" 0 args (.value (.str e.message))
  | .wait r => .takes "wait" 0 args (.await (.joining r))
  | .send r => .takes "send" 1 args (.await (.sending r first))
  | .receive r => .takes "recv" 0 args (.await (.receiving r))
  | .close r =>
    .takes "close" 0 args (.effect fun h => (.nil, h.setChannel r (h.channel r).close))
  | .chanLength r => .takes "len" 0 args (.read (·.length (.chan r)))

end Method

end ScriptEngine
