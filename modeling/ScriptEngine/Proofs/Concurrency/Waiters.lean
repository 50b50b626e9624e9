import Mathlib.Control.Monad.Basic
import ScriptEngine.Machine.System

/-!
# Waiting for a worker

Any number of machines can wait for one worker, each in a phase of its own, while the worker goes on
to send what it ended with and to exit. Here everything that concerns the worker is taken apart into
steps that happen in any order. The result is sent once and received once, so whoever is to learn it
later depends on the one that received it.

## Main definitions

* `ScriptEngine.Waiter`: one of those that wait;
* `ScriptEngine.Gathering`, `ScriptEngine.Gathering.Step`: the waiters and the worker, and what
  happens next;
* `ScriptEngine.Gathering.Result`: what the worker ended with, as far as that is known.

## Main results

* `ScriptEngine.Gathering.Sound.step`: what ties the stored outcome, the mailbox and the holder of
  the lock together stays so;
* `ScriptEngine.Gathering.waiters_agree`: all that learn an outcome learn the same one, which is
  what the worker sent;
* `ScriptEngine.Gathering.steps_round`, `ScriptEngine.Gathering.steps_report`: what machines and
  workers do are such steps.

## Implementation notes

There are infinitely many waiters in a gathering. Those that never take a step are not there at all,
and one that takes its first step late is one that began to wait late.
-/

namespace ScriptEngine

variable {r : Ref .thread}

namespace Heap

theorem thread_setThread {h : Heap} (hr : r.index < h.threads.size) (t : Thread) :
    (h.setThread r t).thread r = t := by
  simp [setThread, thread, hr]

theorem size_setThread (h : Heap) (t : Thread) :
    (h.setThread r t).threads.size = h.threads.size := by
  simp [setThread]

theorem setThread_thread (h : Heap) : h.setThread r (h.thread r) = h := by
  have hset : h.threads.setIfInBounds r.index (h.threads.getD r.index default) = h.threads := by
    refine Array.ext_getElem? fun j => ?_
    rw [Array.getElem?_setIfInBounds]
    split
    · rename_i hj
      subst hj
      by_cases hr : r.index < h.threads.size <;> simp [hr]
    · rfl
  unfold setThread thread
  rw [hset]

theorem setThread_setThread (h : Heap) (t t' : Thread) :
    (h.setThread r t).setThread r t' = h.setThread r t' := by
  simp [setThread]

end Heap

namespace Blocking

/-- **What a phase of waiting leads to.** -/
theorem joinStep_cases (check : Except Interrupt Unit) (h : Heap) (phase : JoinPhase) :
    (∃ e, phase = .check ∧ check = .error e ∧
      (joinStep check h r phase).1 = .done (.error (.interrupted e))) ∨
    (∃ o, phase = .unlock (some o) ∧ (joinStep check h r phase).1 = .done o) ∨
    ∃ next, (joinStep check h r phase).1 = .onward (.join r next) ∨
      (joinStep check h r phase).1 = .rest (.join r next) := by
  cases phase with
  | check =>
    cases check with
    | ok => exact .inr (.inr ⟨_, .inl rfl⟩)
    | error e => exact .inl ⟨e, rfl, rfl, rfl⟩
  | lock =>
    unfold joinStep
    dsimp only
    split
    · exact .inr (.inr ⟨_, .inr rfl⟩)
    · exact .inr (.inr ⟨_, .inl rfl⟩)
  | read =>
    unfold joinStep
    dsimp only
    split <;> exact .inr (.inr ⟨_, .inl rfl⟩)
  | receive =>
    unfold joinStep
    dsimp only
    split
    · exact .inr (.inr ⟨_, .inl rfl⟩)
    · split <;> exact .inr (.inr ⟨_, .inl rfl⟩)
  | store o => exact .inr (.inr ⟨_, .inl rfl⟩)
  | unlock answer =>
    cases answer with
    | none => exact .inr (.inr ⟨_, .inr rfl⟩)
    | some o => exact .inr (.inl ⟨o, rfl, rfl⟩)

end Blocking

/-- **One that waits**: the phase that it comes to or ended in, and what it ended with. -/
structure Waiter where
  phase : JoinPhase := .check
  answer : Option Outcome := none

namespace Waiter

/-- The waiter after its phase. -/
def advance (w : Waiter) : Progress → Waiter
  | .done o => { w with answer := some o }
  | .onward (.join _ next) | .rest (.join _ next) => { w with phase := next }
  | .onward _ | .rest _ => w

/-- Whether a waiter is where an operation has come to. -/
def Follows (r : Ref .thread) (w : Waiter) : Progress → Prop
  | .done o => w.answer = some o
  | .onward next | .rest next => next = .join r w.phase ∧ w.answer = none

/-- Whether a waiter holds the lock. -/
def Holds : Waiter → Prop
  | ⟨.read, none⟩ | ⟨.receive, none⟩ | ⟨.store _, none⟩ | ⟨.unlock _, none⟩ => True
  | _ => False

/-- What a waiter knows, given the outcome that is stored and what the worker ended with. -/
def Knows (stored : Option Outcome) (Result : Outcome → Prop) (w : Waiter) : Prop :=
  match w.answer with
  | none =>
    match w.phase with
    | .receive => stored = none
    | .store o => Result o
    | .unlock (some o) => stored = some o
    | _ => True
  | some o =>
    match w.phase with
    | .check => ∃ i, o = .error (.interrupted i)
    | _ => stored = some o

/-- **A waiter that learned an outcome.** Only its own context ends it in the first phase. -/
structure Learned (w : Waiter) (o : Outcome) : Prop where
  answer : w.answer = some o
  phase : w.phase ≠ .check

/-- **A waiter that its own context stopped.** -/
structure Stopped (w : Waiter) (i : Interrupt) : Prop where
  answer : w.answer = some (.error (.interrupted i))
  phase : w.phase = .check

theorem Knows.mono {stored stored' : Option Outcome} {Result Result' : Outcome → Prop} {w : Waiter}
    (h : w.Knows stored Result) (hr : ∀ o, Result o → Result' o)
    (hnone : w = ⟨.receive, none⟩ → stored = none → stored' = none)
    (hsome : ∀ o, stored = some o → stored' = some o) : w.Knows stored' Result' := by
  obtain ⟨phase, answer⟩ := w
  cases answer with
  | none =>
    cases phase with
    | receive => exact hnone rfl h
    | store o => exact hr o h
    | unlock answer =>
      cases answer with
      | none => trivial
      | some o => exact hsome o h
    | _ => trivial
  | some o =>
    cases phase with
    | check => exact h
    | _ => exact hsome o h

theorem follows_advance {w : Waiter} (hw : w.answer = none) (check : Except Interrupt Unit)
    (h : Heap) : (w.advance ((Blocking.join r w.phase).step check h).1).Follows r
      ((Blocking.join r w.phase).step check h).1 := by
  unfold Blocking.step
  rcases Blocking.joinStep_cases (r := r) check h w.phase with
    ⟨e, -, -, hstep⟩ | ⟨o, -, hstep⟩ | ⟨next, hstep | hstep⟩ <;> rw [hstep]
  · rfl
  · rfl
  · exact ⟨rfl, hw⟩
  · exact ⟨rfl, hw⟩

/-- What a waiter learned is stored. -/
theorem Learned.stored {stored : Option Outcome} {Result : Outcome → Prop} {w : Waiter}
    {o : Outcome} (h : w.Learned o) (hk : w.Knows stored Result) : stored = some o := by
  obtain ⟨phase, answer⟩ := w
  obtain ⟨rfl, hp⟩ := h
  cases phase with
  | check => exact absurd rfl hp
  | _ => exact hk

/-- A waiter that ended was stopped or learned an outcome. -/
theorem Knows.ended {stored : Option Outcome} {Result : Outcome → Prop} {w : Waiter} {o : Outcome}
    (hk : w.Knows stored Result) (h : w.answer = some o) : w.Learned o ∨ ∃ e, w.Stopped e := by
  obtain ⟨phase, answer⟩ := w
  obtain rfl : answer = some o := h
  cases phase with
  | check =>
    obtain ⟨e, rfl⟩ := hk
    exact .inr ⟨e, rfl, rfl⟩
  | _ => exact .inl ⟨rfl, by rintro ⟨⟩⟩

end Waiter

/-- **The waiters of a worker**, and what the worker has sent. -/
structure Gathering where
  heap : Heap
  sent : Option Outcome := none
  waiters : Nat → Waiter := fun _ => {}

namespace Gathering

/-- The gathering with another waiter in a place, and another heap. -/
def place (σ : Gathering) (i : Nat) (w : Waiter) (h : Heap) : Gathering :=
  { σ with heap := h, waiters := fun j => if j = i then w else σ.waiters j }

/-- **A gathering at its beginning**: the worker was just started. -/
structure Begins (r : Ref .thread) (σ : Gathering) : Prop where
  thread : σ.heap.threads[r.index]? = some {}
  sent : σ.sent = none
  waiters : ∀ i, σ.waiters i = {}

/-- **What happens next.** An attempt to lock and a reception are given up after a while, which may
be too early. -/
inductive Step (r : Ref .thread) : Gathering → Gathering → Prop where
  | phase (σ : Gathering) (i : Nat) (check : Except Interrupt Unit)
    (hw : (σ.waiters i).answer = none) :
    Step r σ (σ.place i
      ((σ.waiters i).advance ((Blocking.join r (σ.waiters i).phase).step check σ.heap).1)
      ((Blocking.join r (σ.waiters i).phase).step check σ.heap).2)
  | lockTimeout (σ : Gathering) (i : Nat) (hw : σ.waiters i = ⟨.lock, none⟩) :
    Step r σ (σ.place i ⟨.check, none⟩ σ.heap)
  | receiveTimeout (σ : Gathering) (i : Nat) (hw : σ.waiters i = ⟨.receive, none⟩) :
    Step r σ (σ.place i ⟨.unlock none, none⟩ σ.heap)
  /-- The worker sends what it ended with. -/
  | send (σ : Gathering) (o : Outcome) (hs : σ.sent = none)
    (he : (σ.heap.thread r).exited = false) :
    Step r σ { σ with
      heap := σ.heap.setThread r { σ.heap.thread r with mailbox := some o }, sent := some o }
  /-- The worker exits. -/
  | exit (σ : Gathering) :
    Step r σ { σ with heap := σ.heap.setThread r { σ.heap.thread r with exited := true } }
  /-- Something that does not concern the worker. -/
  | other (σ : Gathering) (h : Heap) (ht : h.threads[r.index]? = σ.heap.threads[r.index]?) :
    Step r σ { σ with heap := h }

/-- **Any number of steps.** -/
inductive Steps (r : Ref .thread) : Gathering → Gathering → Prop where
  | refl (σ : Gathering) : Steps r σ σ
  | tail {σ τ υ : Gathering} (h : Steps r σ τ) (hs : Step r τ υ) : Steps r σ υ

/-- **What the worker ended with**: what it sent, or its loss if it exited without. -/
def Result (r : Ref .thread) (σ : Gathering) (o : Outcome) : Prop :=
  σ.sent = some o ∨
    σ.sent = none ∧ (σ.heap.thread r).exited = true ∧ o = .error (.internal .workerLost)

/-- **What ties a gathering together.** -/
structure Sound (r : Ref .thread) (σ : Gathering) (holder : Option Nat) : Prop where
  known : r.index < σ.heap.threads.size
  locked : (σ.heap.thread r).locked = holder.isSome
  holds : ∀ i, (σ.waiters i).Holds ↔ holder = some i
  stored : ∀ o, (σ.heap.thread r).outcome = some o → σ.Result r o
  posted : ∀ o, (σ.heap.thread r).mailbox = some o → σ.sent = some o
  /-- What was sent is in the mailbox, stored or on its way there. -/
  kept : ∀ o, σ.sent = some o → (σ.heap.thread r).mailbox = some o ∨
    (σ.heap.thread r).outcome = some o ∨ ∃ i, σ.waiters i = ⟨.store o, none⟩
  knows : ∀ i, (σ.waiters i).Knows (σ.heap.thread r).outcome (σ.Result r)

variable {σ τ υ : Gathering} {holder : Option Nat} {i : Nat} {w : Waiter}

theorem Result.unique {o o' : Outcome} (h : σ.Result r o) (h' : σ.Result r o') : o = o' := by
  rcases h with h | ⟨h, -, rfl⟩ <;> rcases h' with h' | ⟨h', -, rfl⟩
  · exact Option.some.inj (h.symm.trans h')
  · rw [h] at h'
    cases h'
  · rw [h] at h'
    cases h'
  · rfl

namespace Begins

theorem sound (h : σ.Begins r) : σ.Sound r none := by
  obtain ⟨hr, ht⟩ := Array.getElem?_eq_some_iff.mp h.thread
  have hthread : σ.heap.thread r = {} := by simp [Heap.thread, hr, ht]
  have hw : ∀ i, σ.waiters i = ⟨.check, none⟩ := h.waiters
  constructor
  case known => exact hr
  case locked => rw [hthread]; rfl
  case holds => exact fun i => by simp [hw, Waiter.Holds]
  case stored => exact fun o ho => by rw [hthread] at ho; cases ho
  case posted => exact fun o ho => by rw [hthread] at ho; cases ho
  case kept => exact fun o ho => by rw [h.sent] at ho; cases ho
  case knows => exact fun i => by rw [hw]; trivial

end Begins

namespace Sound

/-! ### Steps of waiters -/

/-- **A waiter goes on**, and does nothing to the worker but to take its outcome, to store it or to
change the lock. -/
theorem placed {holder' : Option Nat} {t : Thread} (h : σ.Sound r holder)
    (hexited : t.exited = (σ.heap.thread r).exited) (hlocked : t.locked = holder'.isSome)
    (hholds : w.Holds ↔ holder' = some i) (hothers : ∀ j ≠ i, holder = some j ↔ holder' = some j)
    (hstored : ∀ o, t.outcome = some o → σ.Result r o)
    (hposted : ∀ o, t.mailbox = some o → σ.sent = some o)
    (hkept : ∀ o, σ.sent = some o → t.mailbox = some o ∨ t.outcome = some o ∨
      w = ⟨.store o, none⟩ ∨ ∃ j ≠ i, σ.waiters j = ⟨.store o, none⟩)
    (hknows : w.Knows t.outcome (σ.Result r))
    (hnone : ∀ j ≠ i, σ.waiters j = ⟨.receive, none⟩ →
      (σ.heap.thread r).outcome = none → t.outcome = none)
    (hsome : ∀ o, (σ.heap.thread r).outcome = some o → t.outcome = some o) :
    (σ.place i w (σ.heap.setThread r t)).Sound r holder' := by
  have ht : (σ.heap.setThread r t).thread r = t := Heap.thread_setThread h.known t
  have hresult : ∀ o, (σ.place i w (σ.heap.setThread r t)).Result r o ↔ σ.Result r o := fun o => by
    simp only [Result, place, ht, hexited]
  constructor
  case known => exact (Heap.size_setThread ..).symm ▸ h.known
  case locked => exact ht.symm ▸ hlocked
  case holds =>
    intro j
    by_cases hj : j = i
    · subst hj
      simpa [place] using hholds
    · simpa [place, hj] using (h.holds j).trans (hothers j hj)
  case stored => exact fun o ho => (hresult o).mpr (hstored o (ht ▸ ho))
  case posted => exact fun o ho => hposted o (ht ▸ ho)
  case kept =>
    intro o ho
    simp only [place, ht]
    rcases hkept o ho with h | h | rfl | ⟨j, hj, hw⟩
    · exact .inl h
    · exact .inr (.inl h)
    · exact .inr (.inr ⟨i, if_pos rfl⟩)
    · exact .inr (.inr ⟨j, (if_neg hj).trans hw⟩)
  case knows =>
    intro j
    simp only [place, ht]
    by_cases hj : j = i
    · rw [if_pos hj]
      exact hknows.mono (fun o => (hresult o).mpr) (fun _ h => h) fun _ h => h
    · rw [if_neg hj]
      exact (h.knows j).mono (fun o => (hresult o).mpr) (hnone j hj) hsome

/-- Where a waiter that does not store is not needed to keep what was sent. -/
theorem kept_elsewhere (h : σ.Sound r holder) (hne : ∀ o, σ.waiters i ≠ ⟨.store o, none⟩)
    {o : Outcome} (ho : σ.sent = some o) :
    (σ.heap.thread r).mailbox = some o ∨ (σ.heap.thread r).outcome = some o ∨
      ∃ j ≠ i, σ.waiters j = ⟨.store o, none⟩ := by
  rcases h.kept o ho with hm | hs | ⟨j, hj⟩
  · exact .inl hm
  · exact .inr (.inl hs)
  · exact .inr (.inr ⟨j, fun hji => hne o (hji ▸ hj), hj⟩)

/-- **A waiter goes on** without touching anything. -/
theorem turned (h : σ.Sound r holder) (hholds : w.Holds ↔ (σ.waiters i).Holds)
    (hne : ∀ o, σ.waiters i ≠ ⟨.store o, none⟩)
    (hknows : w.Knows (σ.heap.thread r).outcome (σ.Result r)) :
    (σ.place i w σ.heap).Sound r holder := by
  rw [← Heap.setThread_thread (r := r) σ.heap]
  refine h.placed rfl h.locked (hholds.trans (h.holds i)) (fun _ _ => .rfl) h.stored h.posted
    (fun o ho => ?_) hknows (fun _ _ _ h => h) fun _ h => h
  exact (h.kept_elsewhere hne ho).imp_right (.imp_right .inr)

/-- Nobody but the holder of the lock is on the way to store an outcome. -/
theorem kept_of_holder (h : σ.Sound r holder) (hi : (σ.waiters i).Holds)
    (hne : ∀ o, σ.waiters i ≠ ⟨.store o, none⟩) {o : Outcome} (ho : σ.sent = some o) :
    (σ.heap.thread r).mailbox = some o ∨ (σ.heap.thread r).outcome = some o := by
  rcases h.kept_elsewhere hne ho with hm | hs | ⟨j, hij, hj⟩
  · exact .inl hm
  · exact .inr hs
  · have hholds : (σ.waiters j).Holds := by rw [hj]; trivial
    exact absurd (Option.some.inj (((h.holds j).mp hholds).symm.trans ((h.holds i).mp hi))) hij

/-- The holder of the lock is the only waiter that receives. -/
theorem not_receive_of_holder (h : σ.Sound r holder) (hi : (σ.waiters i).Holds) {j : Nat}
    (hj : j ≠ i) : σ.waiters j ≠ ⟨.receive, none⟩ := by
  intro hw
  have hholds : (σ.waiters j).Holds := by rw [hw]; trivial
  exact hj (Option.some.inj (((h.holds j).mp hholds).symm.trans ((h.holds i).mp hi)))

/-- **A waiter takes the lock.** -/
theorem locks (h : σ.Sound r holder) (hi : σ.waiters i = ⟨.lock, none⟩)
    (hfree : (σ.heap.thread r).locked = false) :
    (σ.place i ⟨.read, none⟩
      (σ.heap.setThread r { σ.heap.thread r with locked := true })).Sound r (some i) := by
  have hnone : holder = none := by
    have hlocked := h.locked
    rw [hfree] at hlocked
    exact Option.isNone_iff_eq_none.mp (by simpa using hlocked.symm)
  refine h.placed rfl rfl ⟨fun _ => rfl, fun _ => trivial⟩ (fun j hj => ?_) h.stored h.posted
    (fun o ho => ?_) trivial (fun _ _ _ h => h) fun _ h => h
  · rw [hnone]
    exact ⟨fun hn => (by cases hn), fun hs => absurd (Option.some.inj hs).symm hj⟩
  · exact (h.kept_elsewhere (by simp [hi]) ho).imp_right (.imp_right .inr)

/-- **A waiter takes what the worker sent.** -/
theorem receives (h : σ.Sound r holder) (hi : σ.waiters i = ⟨.receive, none⟩) {o : Outcome}
    (ho : (σ.heap.thread r).mailbox = some o) :
    (σ.place i ⟨.store o, none⟩
      (σ.heap.setThread r { σ.heap.thread r with mailbox := none })).Sound r holder := by
  have hholds : (σ.waiters i).Holds := by rw [hi]; trivial
  refine h.placed rfl h.locked ⟨fun _ => (h.holds i).mp hholds, fun _ => trivial⟩ (fun _ _ => .rfl)
    h.stored (fun o ho => by cases ho) (fun o' ho' => ?_) (.inl (h.posted o ho))
      (fun _ _ _ h => h) fun _ h => h
  obtain rfl : o = o' := Option.some.inj ((h.posted o ho).symm.trans ho')
  exact .inr (.inr (.inl rfl))

/-- **A waiter learns that the worker is lost**, which then sent nothing. -/
theorem loses (h : σ.Sound r holder) (hi : σ.waiters i = ⟨.receive, none⟩)
    (hempty : (σ.heap.thread r).mailbox = none) (hexited : (σ.heap.thread r).exited = true) :
    (σ.place i ⟨.store (.error (.internal .workerLost)), none⟩ σ.heap).Sound r holder := by
  have hholds : (σ.waiters i).Holds := by rw [hi]; trivial
  have hne : ∀ o, σ.waiters i ≠ ⟨.store o, none⟩ := fun o ho => by rw [hi] at ho; cases ho
  have hstored : (σ.heap.thread r).outcome = none := by
    have hknows := h.knows i
    rw [hi] at hknows
    exact hknows
  have hsent : σ.sent = none := by
    cases hs : σ.sent with
    | none => rfl
    | some o =>
      rcases h.kept_of_holder hholds hne hs with hm | ho
      · rw [hempty] at hm
        cases hm
      · rw [hstored] at ho
        cases ho
  exact h.turned ⟨fun _ => hholds, fun _ => trivial⟩ hne (.inr ⟨hsent, hexited, rfl⟩)

/-- **A waiter stores the outcome.** -/
theorem stores (h : σ.Sound r holder) {o : Outcome} (hi : σ.waiters i = ⟨.store o, none⟩) :
    (σ.place i ⟨.unlock (some o), none⟩
      (σ.heap.setThread r { σ.heap.thread r with outcome := some o })).Sound r holder := by
  have hholds : (σ.waiters i).Holds := by rw [hi]; trivial
  have ho : σ.Result r o := by
    have hknows := h.knows i
    rw [hi] at hknows
    exact hknows
  refine h.placed rfl h.locked ⟨fun _ => (h.holds i).mp hholds, fun _ => trivial⟩ (fun _ _ => .rfl)
    (fun o' ho' => Option.some.inj ho' ▸ ho) h.posted (fun o' ho' => ?_) rfl
    (fun j hj hw => absurd hw (h.not_receive_of_holder hholds hj))
    fun o' ho' => congrArg some (ho.unique (h.stored o' ho'))
  -- what was sent is what is stored now
  exact .inr (.inl (congrArg some (ho.unique (.inl ho'))))

/-- **A waiter gives the lock back**, and ends or starts over. -/
theorem unlocks (h : σ.Sound r holder) {answer : Option Outcome}
    (hi : σ.waiters i = ⟨.unlock answer, none⟩) (hw : ¬w.Holds)
    (hknows : w.Knows (σ.heap.thread r).outcome (σ.Result r)) :
    (σ.place i w
      (σ.heap.setThread r { σ.heap.thread r with locked := false })).Sound r none := by
  have hholds : (σ.waiters i).Holds := by rw [hi]; trivial
  have hholder := (h.holds i).mp hholds
  refine h.placed rfl rfl ⟨fun h => absurd h hw, fun h => by cases h⟩ (fun j hj => ?_) h.stored
    h.posted (fun o ho => ?_) hknows (fun _ _ _ h => h) fun _ h => h
  · rw [hholder]
    exact ⟨fun hs => absurd (Option.some.inj hs).symm hj, fun hn => by cases hn⟩
  · exact (h.kept_elsewhere (by simp [hi]) ho).imp_right (.imp_right .inr)

/-- **Every phase of a waiter** keeps a gathering sound. -/
theorem phase (h : σ.Sound r holder) (hw : (σ.waiters i).answer = none)
    (check : Except Interrupt Unit) :
    ∃ holder', (σ.place i
      ((σ.waiters i).advance ((Blocking.join r (σ.waiters i).phase).step check σ.heap).1)
      ((Blocking.join r (σ.waiters i).phase).step check σ.heap).2).Sound r holder' := by
  have hknows := h.knows i
  generalize hi : σ.waiters i = w at hw hknows
  obtain ⟨phase, answer⟩ := w
  obtain rfl : answer = none := hw
  -- most phases only read
  have hturned : ∀ {w : Waiter}, (w.Holds ↔ (σ.waiters i).Holds) →
      (∀ o, σ.waiters i ≠ ⟨.store o, none⟩) →
      w.Knows (σ.heap.thread r).outcome (σ.Result r) →
      ∃ holder', (σ.place i w σ.heap).Sound r holder' :=
    fun hholds hne hknows => ⟨holder, h.turned hholds hne hknows⟩
  rw [hi] at hturned
  unfold Blocking.step
  cases phase with
  | check =>
    cases check with
    | ok => exact hturned .rfl (fun o ho => by cases ho) trivial
    | error e => exact hturned .rfl (fun o ho => by cases ho) ⟨e, rfl⟩
  | lock =>
    unfold Blocking.joinStep
    dsimp only
    split
    · exact hturned .rfl (fun o ho => by cases ho) trivial
    · rename_i hfree
      exact ⟨_, h.locks hi (by simpa using hfree)⟩
  | read =>
    unfold Blocking.joinStep
    dsimp only
    split
    · rename_i o ho
      exact hturned .rfl (fun o ho => by cases ho) ho
    · rename_i ho
      exact hturned .rfl (fun o ho => by cases ho) ho
  | receive =>
    unfold Blocking.joinStep
    dsimp only
    split
    · rename_i o ho
      exact ⟨_, h.receives hi ho⟩
    · rename_i hempty
      split
      · rename_i hexited
        exact ⟨_, h.loses hi hempty hexited⟩
      · exact hturned .rfl (fun o ho => by cases ho) trivial
  | store o => exact ⟨_, h.stores hi⟩
  | unlock answer =>
    cases answer with
    | none => exact ⟨_, h.unlocks (w := ⟨.check, none⟩) hi id trivial⟩
    | some o => exact ⟨_, h.unlocks (w := ⟨.unlock (some o), some o⟩) hi id hknows⟩

/-! ### Steps of the worker -/

/-- **The worker goes on**, and neither stores an outcome nor touches the lock. -/
theorem workerStep {t : Thread} {sent : Option Outcome} (h : σ.Sound r holder)
    (hlocked : t.locked = (σ.heap.thread r).locked)
    (hstored : t.outcome = (σ.heap.thread r).outcome)
    (hresult : ∀ o, σ.Result r o →
      Result r { σ with heap := σ.heap.setThread r t, sent } o)
    (hposted : ∀ o, t.mailbox = some o → sent = some o)
    (hkept : ∀ o, sent = some o → t.mailbox = some o ∨
      σ.sent = some o ∧ t.mailbox = (σ.heap.thread r).mailbox) :
    Sound r { σ with heap := σ.heap.setThread r t, sent } holder := by
  have ht : (σ.heap.setThread r t).thread r = t := Heap.thread_setThread h.known t
  constructor
  case known => exact (Heap.size_setThread ..).symm ▸ h.known
  case locked => exact ht.symm ▸ hlocked.trans h.locked
  case holds => exact h.holds
  case stored => exact fun o ho => hresult o (h.stored o (hstored ▸ ht ▸ ho))
  case posted => exact fun o ho => hposted o (ht ▸ ho)
  case kept =>
    intro o ho
    simp only [ht]
    rcases hkept o ho with hm | ⟨hs, hm⟩
    · exact .inl hm
    · rw [hm, hstored]
      exact h.kept o hs
  case knows =>
    intro j
    simp only [ht]
    exact (h.knows j).mono hresult (fun _ hn => hstored.trans hn) fun _ ho => hstored.trans ho

/-- **Whatever happens** keeps a gathering sound. -/
theorem step (h : σ.Sound r holder) (hs : Step r σ τ) : ∃ holder', τ.Sound r holder' := by
  cases hs with
  | phase i check hw => exact h.phase hw check
  | lockTimeout i hi =>
    refine ⟨holder, h.turned ?_ (fun o ho => ?_) trivial⟩
    · rw [hi]
      exact .rfl
    · rw [hi] at ho
      cases ho
  | receiveTimeout i hi =>
    refine ⟨holder, h.turned ?_ (fun o ho => ?_) trivial⟩
    · rw [hi]
      exact .rfl
    · rw [hi] at ho
      cases ho
  | send o hsent he =>
    refine ⟨holder, h.workerStep rfl rfl (fun o' ho' => ?_) (fun o' ho' => ho')
      fun o' ho' => .inl ho'⟩
    -- nothing was known of a worker that had neither sent nor exited
    rcases ho' with ho' | ⟨-, he', -⟩
    · rw [hsent] at ho'
      cases ho'
    · rw [he] at he'
      cases he'
  | exit =>
    refine ⟨holder, h.workerStep rfl rfl (fun o' ho' => ?_) h.posted fun o' ho' => .inr ⟨ho', rfl⟩⟩
    rcases ho' with ho' | ⟨hsent, -, rfl⟩
    · exact .inl ho'
    · exact .inr ⟨hsent, by rw [Heap.thread_setThread h.known], rfl⟩
  | other h' ht =>
    have hthread : h'.thread r = σ.heap.thread r := by
      simp [Heap.thread, Array.getD_eq_getD_getElem?, ht]
    have hknown : r.index < h'.threads.size := by
      refine Nat.lt_of_not_le fun hr => ?_
      rw [Array.getElem?_eq_none hr] at ht
      exact Nat.not_le.mpr h.known (Array.getElem?_eq_none_iff.mp ht.symm)
    have hresult : ∀ o, Result r { σ with heap := h' } o ↔ σ.Result r o := fun o => by
      simp only [Result, hthread]
    refine ⟨holder, hknown, hthread ▸ h.locked, h.holds, fun o ho => ?_, hthread ▸ h.posted,
      hthread ▸ h.kept, fun i => ?_⟩
    · exact (hresult o).mpr (h.stored o (hthread ▸ ho))
    · exact (h.knows i).mono (fun o => (hresult o).mpr) (fun _ hn => hthread ▸ hn)
        fun _ ho => hthread ▸ ho

/-- **Whatever happens** in a gathering. -/
theorem steps (h : σ.Sound r holder) (hs : Steps r σ τ) : ∃ holder', τ.Sound r holder' := by
  induction hs with
  | refl => exact ⟨holder, h⟩
  | tail _ hs ih =>
    obtain ⟨_, hτ⟩ := ih
    exact hτ.step hs

end Sound

/-! ### What stays -/

/-- A waiter that ended takes no step. -/
theorem Step.answer {o : Outcome} (hs : Step r σ τ) (hw : (σ.waiters i).answer = some o) :
    τ.waiters i = σ.waiters i := by
  have hplace : ∀ {j : Nat} (w : Waiter) (h : Heap), (σ.waiters j).answer = none →
      (σ.place j w h).waiters i = σ.waiters i := by
    intro j w h hj
    refine if_neg fun hij => ?_
    rw [← hij, hw] at hj
    cases hj
  cases hs with
  | phase j check hj => exact hplace _ _ hj
  | lockTimeout j hj => exact hplace _ _ (by rw [hj])
  | receiveTimeout j hj => exact hplace _ _ (by rw [hj])
  | send | exit | other => rfl

theorem Steps.answer {o : Outcome} (hs : Steps r σ τ) (hw : (σ.waiters i).answer = some o) :
    τ.waiters i = σ.waiters i := by
  induction hs with
  | refl => rfl
  | tail _ hs ih => exact (hs.answer (ih ▸ hw)).trans ih

theorem Steps.trans (h : Steps r σ τ) (h' : Steps r τ υ) : Steps r σ υ := by
  induction h' with
  | refl => exact h
  | tail _ hs ih => exact ih.tail hs

/-! ### Agreement -/

/-- **Waiting for a worker whose outcome is stored** answers with it at once, if nobody else holds
the lock and the context allows to wait. -/
theorem round_of_stored {h : Heap} {o : Outcome} (hr : r.index < h.threads.size)
    (hfree : (h.thread r).locked = false) (ho : (h.thread r).outcome = some o) :
    (Blocking.joining r).round (.ok ()) h = (.done o, h) := by
  have hset : ∀ t, (h.setThread r t).thread r = t := Heap.thread_setThread hr
  have hback : h.setThread r ⟨(h.thread r).mailbox, (h.thread r).exited, false, some o⟩ = h := by
    rw [← hfree, ← ho]
    exact h.setThread_thread
  simp [Blocking.round, Blocking.phases, Blocking.joining, Blocking.step, Blocking.joinStep,
    Blocking.ifAllowed, hfree, hset, ho, Heap.setThread_setThread, hback]

/-- **Only its own context stops a waiter**, in the phase in which the waiter asks it. -/
theorem eq_of_stopped {h : Heap} {check : Except Interrupt Unit} {e : Interrupt}
    (hw : w.answer = none)
    (hs : (w.advance ((Blocking.join r w.phase).step check h).1).Stopped e) :
    check = .error e := by
  unfold Blocking.step at hs
  rcases Blocking.joinStep_cases (r := r) check h w.phase with
    ⟨e', -, rfl, hstep⟩ | ⟨o, hphase, hstep⟩ | ⟨next, hstep | hstep⟩ <;> rw [hstep] at hs
  · obtain rfl : e' = e := by simpa [Waiter.advance] using hs.answer
    rfl
  · exact absurd (hphase.symm.trans hs.phase) (by rintro ⟨⟩)
  · exact absurd (hw.symm.trans hs.answer) (by rintro ⟨⟩)
  · exact absurd (hw.symm.trans hs.answer) (by rintro ⟨⟩)

/-! ### Machines and workers -/

theorem place_place (σ : Gathering) (i : Nat) (w w' : Waiter) (h h' : Heap) :
    (σ.place i w h).place i w' h' = σ.place i w' h' := by
  unfold place
  congr 1
  funext j
  by_cases hj : j = i <;> simp [hj]

theorem place_self (σ : Gathering) (i : Nat) : σ.place i (σ.waiters i) σ.heap = σ := by
  unfold place
  congr 1
  funext j
  by_cases hj : j = i <;> simp [hj]

theorem steps_phases (check : Except Interrupt Unit) (i : Nat) :
    ∀ (n : Nat) (σ : Gathering), (σ.waiters i).answer = none →
    ∃ w : Waiter, w.Follows r (Blocking.phases check n σ.heap (.join r (σ.waiters i).phase)).1 ∧
      Steps r σ (σ.place i w (Blocking.phases check n σ.heap (.join r (σ.waiters i).phase)).2)
  | 0, σ, hw => ⟨σ.waiters i, ⟨rfl, hw⟩, by
    unfold Blocking.phases
    rw [place_self]
    exact .refl σ⟩
  | n + 1, σ, hw => by
    have hfollows := Waiter.follows_advance (r := r) hw check σ.heap
    have hstep := (Steps.refl σ).tail (.phase (r := r) σ i check hw)
    generalize (σ.waiters i).advance ((Blocking.join r (σ.waiters i).phase).step check σ.heap).1 = w
      at hfollows hstep
    unfold Blocking.phases
    generalize (Blocking.join r (σ.waiters i).phase).step check σ.heap = s at hfollows hstep
    obtain ⟨progress, h⟩ := s
    cases progress with
    | onward next =>
      obtain ⟨rfl, hw'⟩ := hfollows
      have hi : (σ.place i w h).waiters i = w := if_pos rfl
      obtain ⟨w', hfollows', hsteps⟩ := steps_phases check i n (σ.place i w h) (hi.symm ▸ hw')
      rw [hi, place_place] at hsteps
      rw [hi] at hfollows'
      exact ⟨w', hfollows', hstep.trans hsteps⟩
    | done o => exact ⟨w, hfollows, hstep⟩
    | rest next => exact ⟨w, hfollows, hstep⟩

/-- **What a machine does that waits**, up to its end or its next rest, are steps of a waiter. -/
theorem steps_round (check : Except Interrupt Unit) (hi : σ.waiters i = {}) :
    ∃ w : Waiter, w.Follows r ((Blocking.joining r).round check σ.heap).1 ∧
      Steps r σ (σ.place i w ((Blocking.joining r).round check σ.heap).2) := by
  have h := steps_phases (r := r) check i 6 σ (by rw [hi])
  rwa [hi] at h

/-- **What a worker does that ends** are its two steps. -/
theorem steps_report {w : World} {o : Outcome} (hh : σ.heap = w.heap)
    (hr : r.index < σ.heap.threads.size) (hs : σ.sent = none)
    (he : (σ.heap.thread r).exited = false) :
    Steps r σ { σ with heap := (Worker.report r o w).heap, sent := some o } := by
  have hexit := Step.exit (r := r)
    { σ with heap := σ.heap.setThread r { σ.heap.thread r with mailbox := some o }, sent := some o }
  simp only [Heap.thread_setThread hr, Heap.setThread_setThread] at hexit
  have hreport : (Worker.report r o w).heap =
      σ.heap.setThread r ⟨some o, true, (σ.heap.thread r).locked, (σ.heap.thread r).outcome⟩ := by
    rw [hh]
    rfl
  rw [hreport]
  exact ((Steps.refl σ).tail (.send σ o hs he)).tail hexit

/-- **A worker that was just started**, before anybody waits for it. -/
theorem begins_newThread (h : Heap) : Begins h.newThread.1 { heap := h.newThread.2 } where
  thread := by simp [Heap.newThread]
  sent := rfl
  waiters _ := rfl

/-! ### All waiters -/

/-- **All waiters agree.** Whatever the order of steps, a waiter that its own context did not stop
learned what the worker sent, or its loss if the worker exited without sending anything. All others
learn the same then and ever after, and whoever waits again learns it as soon as the lock is
free. -/
theorem waiters_agree {σ₀ : Gathering} (h₀ : σ₀.Begins r) (h : Steps r σ₀ σ) :
    (∀ i o, (σ.waiters i).answer = some o →
      (σ.waiters i).Learned o ∨ ∃ e, (σ.waiters i).Stopped e) ∧
    (∀ i check e, (σ.waiters i).answer = none →
      ((σ.waiters i).advance
        ((Blocking.join r (σ.waiters i).phase).step check σ.heap).1).Stopped e →
      check = .error e) ∧
    ∀ i o, (σ.waiters i).Learned o → ∀ τ, Steps r σ τ →
      (τ.sent = some o ∨ τ.sent = none ∧ (τ.heap.thread r).exited = true ∧
        o = .error (.internal .workerLost)) ∧
      (∀ j o', (τ.waiters j).Learned o' → o' = o) ∧
      ((τ.heap.thread r).locked = false →
        (Blocking.joining r).round (.ok ()) τ.heap = (.done o, τ.heap)) := by
  obtain ⟨_, hσ⟩ := h₀.sound.steps h
  refine ⟨fun i o ho => (hσ.knows i).ended ho, fun i check e hw hs => eq_of_stopped hw hs,
    fun i o hi τ hs => ?_⟩
  obtain ⟨_, hτ⟩ := hσ.steps hs
  have hstored : (τ.heap.thread r).outcome = some o :=
    Waiter.Learned.stored (w := τ.waiters i) (hs.answer hi.answer ▸ hi) (hτ.knows i)
  refine ⟨hτ.stored o hstored, fun j o' hj => ?_, fun hfree => ?_⟩
  · exact Option.some.inj ((hj.stored (hτ.knows j)).symm.trans hstored)
  · exact round_of_stored hτ.known hfree hstored

/-- **The phases of several waiters in the given order**, as far as they have not ended, in contexts
that allow to wait. -/
def schedule (r : Ref .thread) : List Nat → Gathering → Gathering
  | [], σ => σ
  | i :: rest, σ =>
    let (progress, h) := (Blocking.join r (σ.waiters i).phase).step (.ok ()) σ.heap
    schedule r rest
      (if (σ.waiters i).answer.isNone then σ.place i ((σ.waiters i).advance progress) h else σ)

theorem steps_schedule : ∀ (order : List Nat) (σ : Gathering), Steps r σ (schedule r order σ)
  | [], σ => .refl σ
  | i :: rest, σ => by
    refine Steps.trans ?_ (steps_schedule rest _)
    split
    · rename_i hw
      exact (Steps.refl σ).tail (.phase σ i (.ok ()) (Option.isNone_iff_eq_none.mp hw))
    · exact .refl σ

/-- A worker that ends with a number while two machines wait for it in turns. One of them receives
the number, and the other one finds it stored. -/
theorem number_agreed :
    ∃ σ, Steps ⟨0⟩ { heap := (Heap.newThread {}).2 } σ ∧
      (σ.waiters 0).Learned (.ok (.int 7)) ∧ (σ.waiters 1).Learned (.ok (.int 7)) ∧
      (Blocking.joining ⟨0⟩).round (.ok ()) σ.heap = (.done (.ok (.int 7)), σ.heap) := by
  have hbegins : Begins ⟨0⟩ { heap := (Heap.newThread {}).2 } := begins_newThread {}
  -- the first waiter gets the lock, which the second one finds taken
  let before : Gathering := schedule ⟨0⟩ [0, 1, 0, 1, 0] { heap := (Heap.newThread {}).2 }
  let after : Gathering := { before with
    heap := before.heap.setThread ⟨0⟩ { before.heap.thread ⟨0⟩ with mailbox := some (.ok (.int 7)) }
    sent := some (.ok (.int 7)) }
  let σ : Gathering := schedule ⟨0⟩ [1, 0, 0, 1, 0, 1, 1, 1, 1] after
  have hsteps : Steps ⟨0⟩ { heap := (Heap.newThread {}).2 } σ :=
    ((steps_schedule _ _).tail (.send before _ rfl rfl)).trans (steps_schedule _ after)
  obtain ⟨hends, -, hagree⟩ := waiters_agree hbegins hsteps
  have hlearned {i : Nat} (h : (σ.waiters i).answer = some (.ok (.int 7))) :
      (σ.waiters i).Learned (.ok (.int 7)) := by
    rcases hends i _ h with hl | ⟨e, hs⟩
    · exact hl
    · exact absurd (h.symm.trans hs.answer) (by rintro ⟨⟩)
  have hfirst := hlearned (i := 0) (by decide +kernel)
  have hsecond := hlearned (i := 1) (by decide +kernel)
  obtain ⟨-, -, hagain⟩ := hagree 0 _ hfirst σ (.refl σ)
  exact ⟨σ, hsteps, hfirst, hsecond, hagain (by decide +kernel)⟩

end Gathering

end ScriptEngine
