import Std.Data.ExtTreeMap
import ScriptEngine.Embed.Error
import ScriptEngine.Number.Shortest
import ScriptEngine.Value.Sequence

/-!
# Conversions

The types of a host's own values, and the conversions between them and the values of scripts. A
container is converted as it is at the moment: what a script does to it later does not show.

## Main definitions

* `ScriptEngine.HostType`, `ScriptEngine.HostType.Carrier`: the types and their values;
* `ScriptEngine.HostType.toValue`: the value of a script that stands for a value of the host;
* `ScriptEngine.HostType.fromValue`: the value of the host that a value of a script stands for.
-/

namespace ScriptEngine

/-- **The types of a host's values.** -/
inductive HostType where
  | any
  | unit
  | bool
  | int64
  | int32
  /-- Sizes, of 64 bits and without a sign. -/
  | size
  | double
  /-- Numbers of 32 bits. -/
  | single
  | string
  | list (item : HostType)
  | optional (item : HostType)
  | map (entry : HostType)
deriving DecidableEq, Repr, Inhabited

namespace HostType

/-- The values of a type. A number of 32 bits is given as the same number of 64 bits. -/
@[reducible] def Carrier : HostType → Type
  | any => Value
  | unit => Unit
  | bool => Bool
  | int64 => Int64
  | int32 => Int32
  | size => UInt64
  | double => Double
  | single => Double
  | string => String
  | list t => List t.Carrier
  | optional t => Option t.Carrier
  | map t => Std.ExtTreeMap String t.Carrier

/-- The integer for a size. The sizes above all integers become the largest one. -/
def ofSize (n : UInt64) : Int64 :=
  if n < 0x8000000000000000 then n.toInt64 else Int64.maxValue

/-- **To a value of a script.** Every container is new. -/
def toValue : (t : HostType) → t.Carrier → StateM Heap Value
  | any, v => pure v
  | unit, () => pure .nil
  | bool, b => pure (.bool b)
  | int64, n => pure (.int n)
  | int32, n => pure (.int n.toInt64)
  | size, n => pure (.int (ofSize n))
  | double, x => pure (.float x)
  | single, x => pure (.float x)
  | string, s => pure (.str s)
  | list t, xs => do
    let items ← xs.mapM (toValue t)
    modifyGet fun h => h.buildList items
  | optional t, x => x.elim (pure .nil) (toValue t)
  | map t, entries => do
    let entries ← entries.toList.mapM fun (k, x) => return (k, ← toValue t x)
    modifyGet fun h => h.buildMap entries

/-- The error of a value that is not of the expected type. -/
def mismatch {α : Type} (h : Heap) (expected : String) (v : Value) : Except EngineError α :=
  .error (.conversion expected (h.typeName v))

/-- The number that a value stands for. -/
def toNumber (h : Heap) (v : Value) : Except EngineError Double :=
  match v.toDouble? with
  | some x => .ok x
  | none => mismatch h "number" v

/-- An integer in the range of 32 bits. -/
def toInt32 (n : Int64) : Except EngineError Int32 :=
  if n.toInt32.toInt64 = n then .ok n.toInt32
  else .error (.conversion "i32" (toString n.toInt))

/-- An integer without a sign. -/
def toSize (n : Int64) : Except EngineError UInt64 :=
  if 0 ≤ n then .ok n.toUInt64 else .error (.conversion "usize" (toString n.toInt))

/-- The nearest number of 32 bits, unless it is infinite and the number is not. -/
def toSingle (x : Double) : Except EngineError Double :=
  if x.narrow.isInfinite && x.isFinite then .error (.conversion "f32" x.positional)
  else .ok x.narrow

/-- **From a value of a script.** The first part that does not fit decides the error. -/
def fromValue (h : Heap) : (t : HostType) → Value → Except EngineError t.Carrier
  | any, v => .ok v
  | unit, .nil => .ok ()
  | unit, v => mismatch h "nil" v
  | bool, .bool b => .ok b
  | bool, v => mismatch h "bool" v
  | int64, .int n => .ok n
  | int64, v => mismatch h "int" v
  | int32, .int n => toInt32 n
  | int32, v => mismatch h "int" v
  | size, .int n => toSize n
  | size, v => mismatch h "non-negative int" v
  | double, v => toNumber h v
  | single, v => toNumber h v >>= toSingle
  | string, .str s => .ok s
  | string, v => mismatch h "string" v
  | list t, .list r => (h.list r).toList.mapM (fromValue h t)
  | list _, v => mismatch h "list" v
  | optional _, .nil => .ok none
  | optional t, v => some <$> fromValue h t v
  | map t, .map r => do
    let entries ← (h.map r).toList.mapM fun (k, v) => return (k, ← fromValue h t v)
    return .ofList entries
  | map _, v => mismatch h "map" v

end HostType

end ScriptEngine
