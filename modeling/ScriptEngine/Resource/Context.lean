import ScriptEngine.Resource.Limit

/-!
# Execution contexts

A context says when a run has to stop: its own cancel flag and those of the contexts it was
derived from, a deadline, and limits. The flags, the limits and the clock are shared, so they live
outside the contexts that refer to them.

## Main definitions

* `ScriptEngine.Controls`: the shared flags, limits and clock;
* `ScriptEngine.Context`: what a run is told to observe;
* `ScriptEngine.Context.withCancel`, `ScriptEngine.Context.withDeadline`,
  `ScriptEngine.Context.withLimits`: derived contexts;
* `ScriptEngine.Context.check`: whether a run may go on.
-/

namespace ScriptEngine

/-- Why a context stopped a run. -/
inductive Interrupt where
  | cancelled
  | deadlineExceeded
deriving DecidableEq, Repr

def Interrupt.message : Interrupt → String
  | .cancelled => "context canceled"
  | .deadlineExceeded => "context deadline exceeded"

/-- The name of the reason. -/
def Interrupt.kind : Interrupt → String
  | .cancelled => "Cancelled"
  | .deadlineExceeded => "DeadlineExceeded"

/-- A reference to a cancel flag. -/
structure FlagRef where
  index : Nat
deriving DecidableEq, Repr

/-- A reference to limits. -/
structure LimitsRef where
  index : Nat
deriving DecidableEq, Repr

/-- What contexts share: the cancel flags, the limits, the time in milliseconds, and the flag that
the host's own request to stop sets. -/
structure Controls where
  flags : Array Bool := #[]
  limits : Array Limits := #[]
  now : Nat := 0
  stop : Option FlagRef := none

namespace Controls

def flag (c : Controls) (f : FlagRef) : Bool :=
  c.flags.getD f.index false

/-- A new flag, which is not set. -/
def newFlag (c : Controls) : FlagRef × Controls :=
  (⟨c.flags.size⟩, { c with flags := c.flags.push false })

/-- The flag is set for good. -/
def cancel (c : Controls) (f : FlagRef) : Controls :=
  { c with flags := c.flags.setIfInBounds f.index true }

/-- New limits under the given ceilings. -/
def newLimits (c : Controls) (ceilings : Ceilings) : LimitsRef × Controls :=
  (⟨c.limits.size⟩, { c with limits := c.limits.push { ceilings } })

def limits? (c : Controls) (l : Option LimitsRef) : Option Limits :=
  l.bind fun l => c.limits[l.index]?

/-- A question put to the limits that a reference names, if it names any. -/
def onLimits (c : Controls) (l : Option LimitsRef)
    (ask : Limits → Except LimitError Unit × Limits) : Except LimitError Unit × Controls :=
  match l with
  | none => (.ok (), c)
  | some l =>
    match c.limits[l.index]? with
    | none => (.ok (), c)
    | some limits =>
      let (answer, limits) := ask limits
      (answer, { c with limits := c.limits.setIfInBounds l.index limits })

/-- A cost charged to limits. -/
def charge (c : Controls) (l : Option LimitsRef) (cost : Nat) :
    Except LimitError Unit × Controls :=
  c.onLimits l (·.charge cost)

/-- A request counted by limits. -/
def request (c : Controls) (l : Option LimitsRef) : Except LimitError Unit × Controls :=
  c.onLimits l Limits.request

/-- A size compared with limits. -/
def checkSize (c : Controls) (l : Option LimitsRef) (size : Nat) : Except LimitError Unit :=
  match c.limits? l with
  | none => .ok ()
  | some limits => limits.checkSize size

end Controls

/-- **A context.** `flags` lists its own flag first and then those of its ancestors, `deadline` is
a time in milliseconds, and a context without limits never exceeds any. -/
structure Context where
  flags : List FlagRef := []
  deadline : Option Nat := none
  limits : Option LimitsRef := none
deriving DecidableEq, Repr

namespace Context

/-- A context that nothing cancels, with no deadline and no limits. -/
def background : Context := {}

/-- A child that its own new flag cancels, and every flag that cancels its parent. -/
def withCancel (ctx : Context) (c : Controls) : Context × FlagRef × Controls :=
  let (f, c) := c.newFlag
  ({ ctx with flags := f :: ctx.flags }, f, c)

/-- The same context with a deadline, unless it already has an earlier one. -/
def withDeadline (ctx : Context) (deadline : Nat) : Context :=
  { ctx with deadline := some (match ctx.deadline with
      | some current => min current deadline
      | none => deadline) }

/-- The same context with a deadline that lies a number of milliseconds ahead. -/
def withTimeout (ctx : Context) (c : Controls) (timeout : Nat) : Context :=
  ctx.withDeadline (c.now + timeout)

/-- The same context under other limits. -/
def withLimits (ctx : Context) (l : LimitsRef) : Context :=
  { ctx with limits := some l }

def isCancelled (ctx : Context) (c : Controls) : Bool :=
  ctx.flags.any c.flag

/-- The part of `check` that looks at the flags. -/
def checkCancelled (ctx : Context) (c : Controls) : Except Interrupt Unit :=
  if ctx.isCancelled c then .error .cancelled else .ok ()

/-- The part of `check` that looks at the clock. -/
def checkDeadline (ctx : Context) (c : Controls) : Except Interrupt Unit :=
  match ctx.deadline with
  | some deadline => if deadline ≤ c.now then .error .deadlineExceeded else .ok ()
  | none => .ok ()

/-- **Whether a run may go on**: the flags are looked at before the clock. -/
def check (ctx : Context) (c : Controls) : Except Interrupt Unit := do
  ctx.checkCancelled c
  ctx.checkDeadline c

/-- The milliseconds that are left before the deadline. -/
def remaining (ctx : Context) (c : Controls) : Option Nat :=
  ctx.deadline.map (· - c.now)

end Context

end ScriptEngine
