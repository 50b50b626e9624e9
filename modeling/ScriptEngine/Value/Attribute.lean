import ScriptEngine.Value.Heap

/-!
# Attributes

Looking up an attribute of an object of a built-in type yields a method that is bound to the
object. Each lookup makes a new method.

## Main definitions

* `ScriptEngine.Heap.method?`: the method under a name;
* `ScriptEngine.Heap.getAttr`, `ScriptEngine.Heap.setAttr`: reading and setting attributes.
-/

namespace ScriptEngine.Heap

/-- The method of a value under a name. -/
def method? (object : Value) (name : String) : Option Method :=
  match object, name with
  | .list r, "append" => some (.append r)
  | .list r, "pop" => some (.pop r)
  | .list r, "len" => some (.listLength r)
  | .map r, "keys" => some (.keys r)
  | .map r, "values" => some (.values r)
  | .map r, "get" => some (.get r)
  | .map r, "delete" => some (.delete r)
  | .str s, "upper" => some (.upper s)
  | .str s, "lower" => some (.lower s)
  | .str s, "split" => some (.split s)
  | .str s, "contains" => some (.contains s)
  | .error e, "message" => some (.message e)
  | .thread r, "wait" => some (.wait r)
  | .chan r, "send" => some (.send r)
  | .chan r, "recv" => some (.receive r)
  | .chan r, "close" => some (.close r)
  | .chan r, "len" => some (.chanLength r)
  | _, _ => none

/-- **Reading an attribute.** The only attribute that is not a method is the value of a length. -/
def getAttr (h : Heap) (object : Value) (name : String) : Option Value × Heap :=
  match object with
  | .custom r =>
    match h.custom r with
    | .measure metres => (if name = "value" then some (.int metres) else none, h)
    | .unstructured => (none, h)
  | object =>
    match method? object name with
    | some m =>
      let (r, h) := h.newBuiltin ⟨name, .method m⟩
      (some (.builtin r), h)
    | none => (none, h)

/-- **Setting an attribute.** Only the value of a length can be set, to an integer. -/
def setAttr (h : Heap) (object : Value) (name : String) (v : Value) : Except Fault Unit × Heap :=
  match object with
  | .custom r =>
    match h.custom r, v with
    | .measure _, .int n =>
      if name = "value" then (.ok (), h.setCustom r (.measure n))
      else (.error .measureAttribute, h)
    | .measure _, _ => (.error .measureAttribute, h)
    | .unstructured, _ => (.error (.setAttribute name (h.typeName object)), h)
  | object => (.error (.setAttribute name (h.typeName object)), h)

end ScriptEngine.Heap
