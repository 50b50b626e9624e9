/-!
# Limits

What a host allows a script to consume. Costs and requests are counted, and a ceiling that is not
set never stops anything.

## Main definitions

* `ScriptEngine.Ceilings`: the ceilings;
* `ScriptEngine.Limits`: the ceilings and what was counted so far;
* `ScriptEngine.LimitError`: a ceiling that was passed;
* `ScriptEngine.Limits.charge`, `ScriptEngine.Limits.request`, `ScriptEngine.Limits.checkSize`:
  the three questions that are put to limits.
-/

namespace ScriptEngine

/-- A ceiling that was passed. -/
inductive LimitError where
  | cost (max : Nat)
  | requests (max : Nat)
  | size (got max : Nat)
deriving DecidableEq, Repr

def LimitError.message : LimitError → String
  | .cost max => "limit error: reached maximum processing cost (" ++ toString max ++ ")"
  | .requests max => "limit error: reached maximum number of requests (" ++ toString max ++ ")"
  | .size got max =>
    "limit error: data size exceeded limit of " ++ toString max ++ " bytes (got "
      ++ toString got ++ " bytes)"

/-- The kind of ceiling that was passed. -/
def LimitError.kind : LimitError → String
  | .cost _ => "Cost"
  | .requests _ => "Requests"
  | .size .. => "Size"

/-- The ceilings, each of which may be missing. The timeout is in milliseconds. -/
structure Ceilings where
  cost : Option Nat := none
  requests : Option Nat := none
  size : Option Nat := none
  ioTimeout : Option Nat := none
deriving DecidableEq, Repr

/-- The largest value of a counter, at which it stays. -/
def counterMax : Nat := 0xffffffffffffffff

/-- Ceilings and counters. -/
structure Limits where
  ceilings : Ceilings
  cost : Nat := 0
  requests : Nat := 0
deriving DecidableEq, Repr

namespace Limits

/-- Whether a count lies above a ceiling. -/
def exceeds (count : Nat) (ceiling : Option Nat) : Option Nat :=
  ceiling.filter (· < count)

/-- **Charging a cost** adds it to the counter, which stays at its largest value, and then compares
the counter with the ceiling. -/
def charge (l : Limits) (cost : Nat) : Except LimitError Unit × Limits :=
  let l := { l with cost := min (l.cost + cost) counterMax }
  match exceeds l.cost l.ceilings.cost with
  | some max => (.error (.cost max), l)
  | none => (.ok (), l)

/-- **A request** is counted before it is compared with the ceiling. -/
def request (l : Limits) : Except LimitError Unit × Limits :=
  let l := { l with requests := l.requests + 1 }
  match exceeds l.requests l.ceilings.requests with
  | some max => (.error (.requests max), l)
  | none => (.ok (), l)

/-- **A size** is compared with the ceiling and leaves no trace. -/
def checkSize (l : Limits) (size : Nat) : Except LimitError Unit :=
  match exceeds size l.ceilings.size with
  | some max => .error (.size size max)
  | none => .ok ()

@[simp] theorem charge_cost (l : Limits) (n : Nat) :
    (l.charge n).2.cost = min (l.cost + n) counterMax := by
  simp only [charge]; split <;> rfl

@[simp] theorem request_requests (l : Limits) : l.request.2.requests = l.requests + 1 := by
  simp only [request]; split <;> rfl

end Limits

end ScriptEngine
