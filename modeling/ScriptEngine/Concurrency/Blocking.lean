import ScriptEngine.Value.Fault
import ScriptEngine.Value.Heap

/-!
# Operations that wait

Sending to a channel, receiving from one and waiting for a worker. Each of them goes through phases
that other machines can come between, and starts over when it has waited in vain. Whether it may
go on waiting is asked anew in each round.

## Main definitions

* `ScriptEngine.Channel.put?`, `ScriptEngine.Channel.take?`: what a channel does at once;
* `ScriptEngine.SendPhase`, `ScriptEngine.ReceivePhase`, `ScriptEngine.JoinPhase`: the phases;
* `ScriptEngine.Blocking`: an operation in one of its phases;
* `ScriptEngine.Blocking.step`: one phase, during which nothing comes between;
* `ScriptEngine.Blocking.round`: phases up to the next wait.
-/

namespace ScriptEngine

namespace Channel

/-- The channel with one more value in its buffer, if there is room. -/
def put? (c : Channel) (v : Value) : Option Channel :=
  if c.buffer.length < c.capacity then some { c with buffer := c.buffer ++ [v] } else none

/-- The first value that a receiver can have, from the buffer or from the hand of a sender. -/
def take? (c : Channel) : Option (Value × Channel) :=
  match c.buffer, c.offers with
  | v :: buffer, _ => some (v, { c with buffer })
  | [], (_, v) :: offers => some (v, { c with offers })
  | [], [] => none

/-- The channel with a value held out to receivers, and the number of the offer. -/
def offer (c : Channel) (v : Value) : Nat × Channel :=
  (c.offered, { c with offers := c.offers ++ [(c.offered, v)], offered := c.offered + 1 })

/-- Whether nobody has taken an offer yet. -/
def holds (c : Channel) (ticket : Nat) : Bool :=
  c.offers.any (·.1 == ticket)

/-- The channel without an offer. -/
def withdraw (c : Channel) (ticket : Nat) : Channel :=
  { c with offers := c.offers.filter (·.1 != ticket) }

/-- Closed for senders. What the buffer holds can still be received. -/
def close (c : Channel) : Channel :=
  { c with closed := true }

end Channel

/-- The phases of sending. -/
inductive SendPhase where
  /-- Is the channel closed? -/
  | inspect
  /-- May the sender go on waiting? -/
  | check
  | offer
  /-- A value is held out under a number. -/
  | held (ticket : Nat)
deriving DecidableEq, Repr

/-- The phases of receiving. -/
inductive ReceivePhase where
  /-- Is there a value already? -/
  | attempt
  /-- Is the channel closed? -/
  | inspect
  /-- May the receiver go on waiting? -/
  | check
  | attend
deriving DecidableEq, Repr

/-- The phases of waiting for a worker. -/
inductive JoinPhase where
  /-- May the caller go on waiting? -/
  | check
  | lock
  /-- Has somebody stored the outcome already? -/
  | read
  | receive
  | store (o : Outcome)
  /-- With the outcome, if there is one. -/
  | unlock (answer : Option Outcome)

/-- **An operation that waits**, in one of its phases. -/
inductive Blocking where
  | send (chan : Ref .channel) (v : Value) (phase : SendPhase)
  | receive (chan : Ref .channel) (phase : ReceivePhase)
  | join (thread : Ref .thread) (phase : JoinPhase)

/-- What a phase leads to. -/
inductive Progress where
  | done (o : Outcome)
  | onward (next : Blocking)
  /-- The operation has waited in vain. -/
  | rest (next : Blocking)

namespace Blocking

/-- Sending before anything was done about it. -/
def sending (chan : Ref .channel) (v : Value) : Blocking :=
  .send chan v .inspect

/-- Receiving before anything was done about it. -/
def receiving (chan : Ref .channel) : Blocking :=
  .receive chan .attempt

/-- Waiting for a worker before anything was done about it. -/
def joining (thread : Ref .thread) : Blocking :=
  .join thread .check

/-- The next phase if a context allows to go on. -/
def ifAllowed (check : Except Interrupt Unit) (next : Blocking) : Progress :=
  match check with
  | .ok () => .onward next
  | .error interrupt => .done (.error (.interrupted interrupt))

/-- A phase of sending. -/
def sendStep (check : Except Interrupt Unit) (h : Heap) (chan : Ref .channel) (v : Value) :
    SendPhase → Progress × Heap
  | .inspect =>
    if (h.channel chan).closed then
      (.done (.error (.ofErrorValue Fault.sendOnClosed.toError)), h)
    else (.onward (.send chan v .check), h)
  | .check => (ifAllowed check (.send chan v .offer), h)
  | .offer =>
    let c := h.channel chan
    if c.capacity = 0 then
      let (ticket, c) := c.offer v
      (.rest (.send chan v (.held ticket)), h.setChannel chan c)
    else
      match c.put? v with
      | some c => (.done (.ok .nil), h.setChannel chan c)
      | none => (.rest (.send chan v .inspect), h)
  | .held ticket =>
    let c := h.channel chan
    -- an offer that nobody took is withdrawn before the sender starts over
    if c.holds ticket then
      (.onward (.send chan v .inspect), h.setChannel chan (c.withdraw ticket))
    else (.done (.ok .nil), h)

/-- A phase of receiving. -/
def receiveStep (check : Except Interrupt Unit) (h : Heap) (chan : Ref .channel) :
    ReceivePhase → Progress × Heap
  | .attempt =>
    match (h.channel chan).take? with
    | some (v, c) => (.done (.ok v), h.setChannel chan c)
    | none => (.onward (.receive chan .inspect), h)
  | .inspect =>
    if (h.channel chan).closed then (.done (.ok .nil), h)
    else (.onward (.receive chan .check), h)
  | .check => (ifAllowed check (.receive chan .attend), h)
  | .attend =>
    match (h.channel chan).take? with
    | some (v, c) => (.done (.ok v), h.setChannel chan c)
    | none => (.rest (.receive chan .attempt), h)

/-- A phase of waiting for a worker. Only the holder of the lock reads, receives and stores. -/
def joinStep (check : Except Interrupt Unit) (h : Heap) (thread : Ref .thread) :
    JoinPhase → Progress × Heap
  | .check => (ifAllowed check (.join thread .lock), h)
  | .lock =>
    -- somebody else is about to learn the outcome
    let t := h.thread thread
    if t.locked then (.rest (.join thread .check), h)
    else (.onward (.join thread .read), h.setThread thread { t with locked := true })
  | .read =>
    match (h.thread thread).outcome with
    | some o => (.onward (.join thread (.unlock (some o))), h)
    | none => (.onward (.join thread .receive), h)
  | .receive =>
    let t := h.thread thread
    match t.mailbox with
    | some o => (.onward (.join thread (.store o)), h.setThread thread { t with mailbox := none })
    | none =>
      if t.exited then (.onward (.join thread (.store (.error (.internal .workerLost)))), h)
      else (.onward (.join thread (.unlock none)), h)
  | .store o =>
    (.onward (.join thread (.unlock (some o))),
      h.setThread thread { h.thread thread with outcome := some o })
  | .unlock answer =>
    (match answer with
      | some o => .done o
      | none => .rest (.join thread .check),
      h.setThread thread { h.thread thread with locked := false })

/-- **One phase**, given whether the context allows to go on. -/
def step (check : Except Interrupt Unit) (h : Heap) : Blocking → Progress × Heap
  | .send chan v phase => sendStep check h chan v phase
  | .receive chan phase => receiveStep check h chan phase
  | .join thread phase => joinStep check h thread phase

/-- At most the given number of phases, up to the end of the operation or the next wait. -/
def phases (check : Except Interrupt Unit) : Nat → Heap → Blocking → Progress × Heap
  | 0, h, b => (.rest b, h)
  | n + 1, h, b =>
    match b.step check h with
    | (.onward next, h) => phases check n h next
    | answer => answer

/-- **A round**: the phases up to the next wait, of which no operation has more than six. -/
def round (check : Except Interrupt Unit) (h : Heap) (b : Blocking) : Progress × Heap :=
  phases check 6 h b

end Blocking

end ScriptEngine
