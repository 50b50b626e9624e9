import ScriptEngine.Number.Shortest
import ScriptEngine.Value.Heap

/-!
# The text and the truth of values

Every value has a source-like text. Containers show their content, so the text of a value that
contains itself has no end: writing it down never comes to an answer, and none of the functions here
has a way to notice.

## Main definitions

* `ScriptEngine.Heap.inspect?`: the source-like text of a value, if writing it down ends;
* `ScriptEngine.Heap.render?`: the text of a value inside other text, if writing it down ends;
* `ScriptEngine.Heap.inspect`, `ScriptEngine.Heap.render`: both of values whose text has an end, and
  the empty text otherwise;
* `ScriptEngine.Heap.isTruthy`: the values that count as true;
* `ScriptEngine.Heap.cost`: the size that limits charge for a value.
-/

namespace ScriptEngine

/-- The text of a function: its name and its parameters. -/
def Function.signature (f : Function) : String :=
  "func " ++ f.name.getD "" ++ "(" ++ String.intercalate ", " f.parameters ++ ")"

def CustomObject.inspect : CustomObject → String
  | .measure metres => toString metres.toInt ++ "m"
  | .unstructured => "<opaque>"

/-- The text of a member of a set. -/
def Key.inspect : Key → String
  | .nil => "nil"
  | .bool b => if b then "true" else "false"
  | .int n => toString n.toInt
  | .float bits => Double.inspect ⟨bits⟩
  | .str s => Text.quoted s

namespace Heap

/-- Texts in brackets, with commas between them. -/
def bracketed (left right : String) (texts : List String) : String :=
  left ++ String.intercalate ", " texts ++ right

section Inspect

variable (h : Heap)

/-- **The source-like text** of a value, if writing it down ends. -/
def inspect? (v : Value) : Option String :=
  -- the texts of the parts
  let inspect : Value → Option String := by apply inspect?
  match v with
  | .nil => some (Key.inspect .nil)
  | .bool b => some (Key.inspect (.bool b))
  | .int n => some (Key.inspect (.int n))
  | .float f => some (Key.inspect (.float f.bits))
  | .str s => some (Key.inspect (.str s))
  | .error e => some ("error(" ++ Text.quoted e.message ++ ")")
  | .list r => bracketed "[" "]" <$> (h.list r).toList.mapM inspect
  | .map r =>
    bracketed "\x7b" "\x7d" <$> (h.map r).toList.mapM fun (k, v) =>
      (fun text => Text.quoted k ++ ": " ++ text) <$> inspect v
  | .set r => some (bracketed "\x7b" "\x7d" ((h.set r).keys.map Key.inspect))
  | .function _ | .closure _ => (h.function? v).map fun (f, _) => f.signature
  | .builtin r => some ("builtin(" ++ (h.builtin r).name ++ ")")
  | .partialCall r =>
    (fun text => "partial(" ++ text ++ ")") <$> inspect (h.partialCall r).callee
  | .cell r => (fun text => "cell(" ++ text ++ ")") <$> inspect (h.cell r)
  | .iter _ => some "iterator"
  | .thread _ => some "thread"
  | .chan r => some ("chan(" ++ toString (h.channel r).capacity ++ ")")
  | .custom r => some (h.custom r).inspect
partial_fixpoint

end Inspect

/-- **The text of a value inside other text**, if writing it down ends: strings and the messages of
errors as they are, and every other value as source. -/
def render? (h : Heap) : Value → Option String
  | .str s => some s
  | .error e => some e.message
  | v => h.inspect? v

/-- **The source-like text** of a value whose text has an end. Writing down a value that contains
itself goes on for ever; `inspect` is a total function and yields the empty text there, an answer
that no program ever gets. What holds of texts that may have no end is therefore said about
`inspect?`. -/
def inspect (h : Heap) (v : Value) : String :=
  (h.inspect? v).getD ""

/-- **The text inside other text** of a value whose text has an end, and the empty text, like
`Heap.inspect`, where writing it down goes on for ever. -/
def render (h : Heap) (v : Value) : String :=
  (h.render? v).getD ""

/-- Truth, through at most as many cells as the number says. -/
def isTruthyWithin (h : Heap) : Nat → Value → Bool
  | 0, _ => false
  | depth + 1, v =>
    match v with
    | .nil | .error _ => false
    | .bool b => b
    | .int n => n != 0
    | .float f => !f.isZero
    | .str s => !s.isEmpty
    | .list r => !(h.list r).isEmpty
    | .map r => !(h.map r).isEmpty
    | .set r => !(h.set r).isEmpty
    | .cell r => isTruthyWithin h depth (h.cell r)
    | .custom r =>
      match h.custom r with
      | .measure metres => metres != 0
      | .unstructured => true
    | _ => true

/-- **Truth**: nil, false, zero, errors and everything empty count as false. -/
def isTruthy (h : Heap) (v : Value) : Bool :=
  h.isTruthyWithin (h.cells.size + 1) v

/-- **The cost** of a value that the machine builds: its number of items, or of bytes of text. -/
def cost (h : Heap) : Value → Nat
  | .str s => s.utf8ByteSize
  | .list r => (h.list r).size
  | .map r => (h.map r).size
  | .set r => (h.set r).size
  | .custom r =>
    match h.custom r with
    | .measure metres => metres.toInt.natAbs
    | .unstructured => 0
  | _ => 0

end Heap

end ScriptEngine
