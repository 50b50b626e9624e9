import ScriptEngine.Proofs.Machine.Usage

/-!
# Charges

Lists, maps, sets and strings that instructions build are charged to the limits of the context, and
so is what builtins and the host charge themselves. A value is charged for when it has been made and
before it is pushed, and the counter stays raised when the charge is refused: so what was swallowed
by somebody is remembered by the counter, and once it is above its ceiling nothing is granted any
more.

## Main definitions

* `ScriptEngine.Exec.construct`: how an instruction makes the value that it builds;
* `ScriptEngine.Charge`: what was charged, and what came of it;
* `ScriptEngine.Fiber.charge?`: the charge of a step;
* `ScriptEngine.Ledger`: the phases of a system with all charges to one counter.

## Main results

* `ScriptEngine.Fiber.settles_of_charge?`: what a charge does to the fiber and to the controls;
* `ScriptEngine.Fiber.account_of_charge?_eq_none`: without a charge no counter changes;
* `ScriptEngine.Ledger.balanced`: the counter is the sum of the charges;
* `ScriptEngine.Ledger.cost_limited`: the ceiling of the cost is not exceeded, nor escaped.
-/

namespace ScriptEngine

/-! ### Building -/

namespace Exec

/-- **How an instruction makes the value that it builds**, for which it charges then. -/
def construct (i : Instruction) : Exec Value := do
  let n := i.first.toNat
  match i.op with
  | .buildList =>
    let items ← popN n
    onHeap (·.buildList items)
  | .buildMap =>
    let entries ← entriesOf (← popN (n * 2))
    onHeap (·.buildMap entries)
  | .buildSet =>
    let items ← popN n
    onHeapOrRaise (·.buildSet items)
  | .buildString =>
    let parts ← popN n
    return .str (← readHeap fun h => String.join (parts.map h.render))
  -- the other instructions build nothing
  | _ => return .nil

/-- An instruction that builds a value makes it, charges for it and pushes it. -/
theorem execute_of_builds (ctx : Context) {i : Instruction} (h : i.op.builds = true) :
    execute ctx i = proceed (construct i >>= pushBuilt ctx) := by
  unfold Exec.execute construct
  cases hop : i.op
  all_goals rw [hop] at h
  case buildList | buildMap | buildSet | buildString => simp only [bind_assoc, pure_bind]
  all_goals cases h

/-- **Pushing a value that was built**: it is charged for first, and pushed if the charge is
granted. -/
theorem pushBuilt_eq (ctx : Context) (v : Value) (s : State) :
    pushBuilt ctx v s =
      match s.world.controls.charge ctx.limits (s.world.heap.cost v) with
      | (.error e, controls) => .error (.limit e) ⟨s.machine, { s.world with controls }⟩
      | (.ok (), controls) => push v ⟨s.machine, { s.world with controls }⟩ := by
  obtain ⟨machine, heap, globals, controls⟩ := s
  have hcharge : charge ctx (heap.cost v) ⟨machine, heap, globals, controls⟩ =
      match controls.charge ctx.limits (heap.cost v) with
      | (.error e, controls) => .error (.limit e) ⟨machine, heap, globals, controls⟩
      | (.ok (), controls) => .ok () ⟨machine, heap, globals, controls⟩ := by
    unfold charge
    show EStateM.bind _ _ _ = _
    unfold EStateM.bind
    dsimp only [onWorld, World.onControls]
    rcases controls.charge ctx.limits (heap.cost v) with ⟨_ | _, _⟩ <;> rfl
  show EStateM.bind (charge ctx (heap.cost v)) (fun _ => push v) _ = _
  unfold EStateM.bind
  rw [hcharge]
  dsimp only
  rcases controls.charge ctx.limits (heap.cost v) with ⟨_ | _, _⟩ <;> rfl

/-- The controls survive every turn in which nothing is charged for. -/
theorem robust_controls (c : Controls) : Robust fun s => s.world.controls = c where
  stack _ h := h
  heap _ h := h
  locals _ h := h
  admits _ _ _ _ _ _ h := h
  frames _ h := h
  status h := h
  ticks h := h
  globals h := h

/-- Making a value charges for nothing. -/
theorem stays_construct (c : Controls) (i : Instruction) :
    Stays (fun s => s.world.controls = c) (construct i) := by
  have hR := robust_controls c
  unfold construct
  dsimp only
  split
  · exact (Stays.popN hR.stack _).bind fun _ => Stays.onHeap hR.toBlind fun _ => rfl
  · exact (Stays.popN hR.stack _).bind fun vs => (Stays.entriesOf vs).bind fun _ =>
      Stays.onHeap hR.toBlind fun _ => rfl
  · exact (Stays.popN hR.stack _).bind fun vs =>
      Stays.onHeapOrRaise hR.toBlind fun h => (h.sound_code.buildSet vs).1.code
  · exact (Stays.popN hR.stack _).bind fun _ => (Stays.readHeap _).bind fun _ => Stays.pure _
  · exact Stays.pure _

end Exec

/-! ### Accounts -/

/-- The ceiling of the cost under limits, and what was charged so far. -/
def Controls.account (c : Controls) (l : LimitsRef) : Option (Option Nat × Nat) :=
  c.limits[l.index]?.map fun limits => (limits.ceilings.cost, limits.cost)

namespace Controls

variable {c : Controls} {l l' : LimitsRef}

/-- A question that is put to limits does not concern other limits. -/
theorem account_onLimits_ne (h : l' ≠ l) (ask : Limits → Except LimitError Unit × Limits) :
    (c.onLimits (some l') ask).2.account l = c.account l := by
  have hne : l'.index ≠ l.index := fun he => h (by cases l; cases l'; exact congrArg _ he)
  unfold onLimits account
  dsimp only
  split
  · rfl
  · rw [Array.getElem?_setIfInBounds_ne hne]

/-- A question that leaves the cost alone leaves all accounts alone. -/
theorem account_onLimits (ask : Limits → Except LimitError Unit × Limits)
    (h : ∀ limits, ((ask limits).2.ceilings.cost, (ask limits).2.cost) =
      (limits.ceilings.cost, limits.cost)) (o : Option LimitsRef) :
    (c.onLimits o ask).2.account l = c.account l := by
  cases o with
  | none => rfl
  | some l' =>
    by_cases he : l' = l
    · subst he
      unfold onLimits account
      dsimp only
      cases hi : c.limits[l'.index]? with
      | none => rw [hi]
      | some limits =>
        obtain ⟨hlt, -⟩ := Array.getElem?_eq_some_iff.mp hi
        dsimp only
        rw [Array.getElem?_setIfInBounds_self_of_lt hlt, Option.map_some, Option.map_some, h]
    · exact account_onLimits_ne he ask

theorem account_charge_ne {o : Option LimitsRef} (h : o ≠ some l) (n : Nat) :
    (c.charge o n).2.account l = c.account l := by
  cases o with
  | none => rfl
  | some l' => exact account_onLimits_ne (fun he => h (congrArg some he)) _

/-- **A charge** raises the counter, and is refused if the counter lies above the ceiling then. -/
theorem charge_of_account {ceiling count : Nat} (h : c.account l = some (some ceiling, count))
    (n : Nat) : (c.charge (some l) n).1 =
        (if ceiling < min (count + n) counterMax then .error (.cost ceiling) else .ok ()) ∧
      (c.charge (some l) n).2.account l = some (some ceiling, min (count + n) counterMax) := by
  obtain ⟨⟨⟨cost, requests, size, timeout⟩, count', requests'⟩, hi, heq⟩ :=
    Option.map_eq_some_iff.mp h
  cases heq
  obtain ⟨hlt, -⟩ := Array.getElem?_eq_some_iff.mp hi
  have hcharge : Limits.charge ⟨⟨some ceiling, requests, size, timeout⟩, count', requests'⟩ n =
      ((if ceiling < min (count' + n) counterMax then .error (.cost ceiling) else .ok ()),
        ⟨⟨some ceiling, requests, size, timeout⟩, min (count' + n) counterMax, requests'⟩) := by
    unfold Limits.charge Limits.exceeds
    dsimp only [Option.filter]
    by_cases hc : ceiling < min (count' + n) counterMax
    · rw [if_pos hc, if_pos (decide_eq_true hc)]
    · rw [if_neg hc, if_neg (fun h => hc (of_decide_eq_true h))]
  unfold charge onLimits account
  dsimp only
  rw [hi]
  dsimp only
  rw [hcharge]
  refine ⟨rfl, ?_⟩
  rw [Array.getElem?_setIfInBounds_self_of_lt hlt]
  rfl

end Controls

/-! ### Charges of a fiber -/

/-- **A charge**: its cost, the value for which it is made if an instruction has built one, the
answer of the limits, and whether the value was pushed. -/
structure Charge where
  cost : Nat
  built : Option Value
  answer : Except LimitError Unit
  pushed : Bool

namespace Fiber

/-- The value that the next instruction builds, with the state in which it charges for it. -/
def built? (w : World) (f : Fiber) : Option (Value × State) :=
  (f.execution? none w).bind fun x =>
    if x.instruction.op.builds then
      match Exec.construct x.instruction ⟨f.machine.behind x.instruction, w⟩ with
      | .ok v s => some (v, s)
      | .error .. => none
    else none

/-- Whether the next step is a turn of the dispatch loop. -/
def dispatches (f : Fiber) : Bool :=
  match f.control with
  | .dispatch => true
  | _ => false

/-- **The charge of a step**: for a value that an instruction builds, or one that a builtin
makes. -/
def charge? (host : Host) (w : World) (f : Fiber) : Option Charge :=
  match f.control with
  | .dispatch => (f.built? w).map fun (v, s) =>
    let cost := s.world.heap.cost v
    ⟨cost, some v, (w.controls.charge f.ctx.limits cost).1, (f.step host w).2.1.dispatches⟩
  | .activity (.limit (.charge cost) _) =>
    some ⟨cost, none, (w.controls.charge f.ctx.limits cost).1, false⟩
  | _ => none

end Fiber

/-- **What a charge does** to the controls and to the fiber that makes it: if it is refused, an
instruction fails and a builtin is told, and what was pushed is the value that was built. -/
structure Charge.Settles (c : Charge) (host : Host) (w : World) (f : Fiber) : Prop where
  answer : c.answer = (w.controls.charge f.ctx.limits c.cost).1
  controls : (f.step host w).2.2.controls = (w.controls.charge f.ctx.limits c.cost).2
  refused : ∀ e, c.answer = .error e → c.pushed = false ∧ (c.built.isSome →
    (f.step host w).2.1.control = .deliver (.error (.limit e)))
  told : c.built = none → ∃ next, f.control = .activity (.limit (.charge c.cost) next) ∧
    (f.step host w).2.1.control = .activity (next c.answer)
  pushed : c.pushed = true → ∃ v, c.built = some v ∧
    (f.step host w).2.1.machine.stack.toList.head? = some v

namespace Fiber

variable {host : Host} {w : World} {f : Fiber} {c : Charge}

/-- A turn in which a value was built is the push of this value. -/
theorem turn_of_built? {v : Value} {s : State} (h : f.built? w = some (v, s)) :
    f.control = .dispatch ∧ s.world.controls = w.controls ∧
      Exec.turn f.ctx ⟨f.machine, w⟩ = Exec.proceed (Exec.pushBuilt f.ctx v) s := by
  obtain ⟨x, hx, h⟩ := Option.bind_eq_some_iff.mp h
  obtain ⟨hc, -, -, hturn⟩ := turn_of_execution? hx
  split at h
  · rename_i hb
    cases hk : Exec.construct x.instruction ⟨f.machine.behind x.instruction, w⟩ with
    | error e t =>
      rw [hk] at h
      cases h
    | ok u t =>
      rw [hk] at h
      cases h
      refine ⟨hc, (Exec.stays_construct w.controls x.instruction _ rfl).1 _ _ hk, ?_⟩
      rw [hturn, Exec.execute_of_builds _ hb]
      unfold Exec.proceed
      show EStateM.bind (EStateM.bind _ _) _ _ = EStateM.bind _ _ _
      unfold EStateM.bind
      rw [hk]
  · cases h

/-- **A charge settles** what the fiber that makes it does next. -/
theorem settles_of_charge? (h : f.charge? host w = some c) : c.Settles host w f := by
  obtain ⟨m, ctx, control, pending, goal⟩ := f
  cases control with
  | dispatch =>
    -- an instruction charges for what it has built, before it pushes it
    obtain ⟨⟨v, s⟩, hb, rfl⟩ := Option.map_eq_some_iff.mp h
    obtain ⟨-, hcontrols, hturn⟩ := turn_of_built? hb
    have hpush := Exec.pushBuilt_eq ctx v s
    rw [hcontrols] at hpush
    have hturn : Exec.turn ctx ⟨m, w⟩ = EStateM.bind (Exec.pushBuilt ctx v)
      (fun _ => EStateM.pure .next) s := hturn
    unfold EStateM.bind at hturn
    rw [hpush] at hturn
    -- what the turn ends with tells the step
    rcases hcharge : w.controls.charge ctx.limits (s.world.heap.cost v) with ⟨e | u, controls⟩
    · rw [hcharge] at hturn
      have hstep : Fiber.step host w ⟨m, ctx, .dispatch, pending, goal⟩ =
          (.progress, ⟨s.machine, ctx, .deliver (.error (.limit e)), pending, goal⟩,
            { s.world with controls }) := by
        simp only [Fiber.step, Fiber.dispatch, hturn]
      refine ⟨rfl, ?_, fun e' he => ⟨?_, fun _ => ?_⟩, fun hb => absurd hb (Option.some_ne_none v),
        fun hp => ?_⟩
      · rw [hstep, hcharge]
      · dsimp only
        rw [hstep]
        rfl
      · dsimp only at he
        rw [hcharge] at he
        cases he
        rw [hstep]
      · dsimp only at hp
        rw [hstep] at hp
        cases hp
    · rw [hcharge] at hturn
      dsimp only at hturn
      rw [Exec.push_eq] at hturn
      -- the charge is kept even if there is no room for the value
      cases hp : s.machine.stack.push v with
      | error e =>
        rw [hp] at hturn
        have hstep : Fiber.step host w ⟨m, ctx, .dispatch, pending, goal⟩ =
            (.progress, ⟨s.machine, ctx, .deliver (.error e), pending, goal⟩,
              { s.world with controls }) := by
          simp only [Fiber.step, Fiber.dispatch, hturn]
        refine ⟨rfl, ?_, fun e' he => ?_, fun hb => absurd hb (Option.some_ne_none v),
          fun hp => ?_⟩
        · rw [hstep, hcharge]
        · dsimp only at he
          rw [hcharge] at he
          cases he
        · dsimp only at hp
          rw [hstep] at hp
          cases hp
      | ok stack =>
        rw [hp] at hturn
        dsimp only [EStateM.pure] at hturn
        have hstep : Fiber.step host w ⟨m, ctx, .dispatch, pending, goal⟩ =
            (.progress, ⟨{ s.machine with stack }, ctx, .dispatch, pending, goal⟩,
              { s.world with controls }) := by
          simp only [Fiber.step, Fiber.dispatch, hturn]
        refine ⟨rfl, ?_, fun e' he => ?_, fun hb => absurd hb (Option.some_ne_none v),
          fun _ => ⟨v, rfl, ?_⟩⟩
        · rw [hstep, hcharge]
        · dsimp only at he
          rw [hcharge] at he
          cases he
        · rw [hstep]
          exact congrArg List.head? (OperandStack.toList_push hp)
  | activity a =>
    cases a with
    | limit query next =>
      cases query with
      -- a builtin charges at its own request, and learns the answer
      | charge cost =>
        cases h
        rcases hcharge : w.controls.charge ctx.limits cost with ⟨answer, controls⟩
        have hstep : Fiber.step host w
            ⟨m, ctx, .activity (.limit (.charge cost) next), pending, goal⟩ =
            (.progress, ⟨m, ctx, .activity (next answer), pending, goal⟩, { w with controls }) := by
          obtain ⟨heap, globals, controls'⟩ := w
          simp only [Fiber.step, Fiber.act, World.onControls, LimitQuery.ask]
          rw [hcharge]
        refine ⟨?_, ?_, fun _ _ => ⟨rfl, fun hb => by cases hb⟩, fun _ => ⟨next, rfl, ?_⟩,
          fun hp => absurd hp Bool.false_ne_true⟩
        · exact congrArg Prod.fst hcharge.symm
        · rw [hstep, hcharge]
        · rw [hstep]
      | request => cases h
      | size bytes => cases h
    | _ => cases h
  | _ => cases h

/-- A turn in which nothing is built leaves the controls alone. -/
theorem controls_turn {m : Machine} {ctx : Context}
    (hb : ∀ g i, Exec.next? ctx ⟨m, w⟩ = some (g, i) → i.op.builds = false) :
    Ensures (· = ⟨m, w⟩) (Exec.turn ctx) (fun _ s => s.world.controls = w.controls)
      fun _ s => s.world.controls = w.controls := by
  have hR := Exec.robust_controls w.controls
  refine Exec.ensures_turn hR.toLasting (fun _ => rfl) (fun _ _ _ _ => hR.status)
    fun g i hnext hbuilds => ?_
  rw [hb g i hnext] at hbuilds
  cases hbuilds

/-- **Without a charge** no account changes. -/
theorem account_of_charge?_eq_none (h : f.charge? host w = none) (l : LimitsRef) :
    (f.step host w).2.2.controls.account l = w.controls.account l := by
  obtain ⟨m, ctx, control, pending, goal⟩ := f
  cases control with
  | dispatch =>
    have hnone : built? w ⟨m, ctx, .dispatch, pending, goal⟩ = none := Option.map_eq_none_iff.mp h
    suffices hturn : Ensures (· = ⟨m, w⟩) (Exec.turn ctx) (fun _ s => s.world.controls = w.controls)
        fun _ s => s.world.controls = w.controls by
      obtain ⟨hok, herr⟩ := hturn _ rfl
      simp only [Fiber.step, Fiber.dispatch]
      cases ht : Exec.turn ctx ⟨m, w⟩ with
      | ok flow s =>
        have := hok _ _ ht
        cases flow <;> exact congrArg (·.account l) this
      | error e s => exact congrArg (·.account l) (herr _ _ ht)
    by_cases hx : ∃ x, execution? none w ⟨m, ctx, .dispatch, pending, goal⟩ = some x ∧
        x.instruction.op.builds = true
    · -- the value could not be made, and so there was nothing to charge for
      obtain ⟨x, hx, hb⟩ := hx
      obtain ⟨-, -, -, hturn⟩ := turn_of_execution? hx
      have hfails : ∃ e s, Exec.construct x.instruction ⟨m.behind x.instruction, w⟩ =
          .error e s := by
        unfold built? at hnone
        rw [hx, Option.bind_some, if_pos hb] at hnone
        cases hk : Exec.construct x.instruction ⟨m.behind x.instruction, w⟩ with
        | ok v s =>
          rw [hk] at hnone
          cases hnone
        | error e s => exact ⟨e, s, rfl⟩
      obtain ⟨e, s, hk⟩ := hfails
      have hcontrols := (Exec.stays_construct w.controls x.instruction _ rfl).2 _ _ hk
      have hturn : Exec.turn ctx ⟨m, w⟩ = .error e s := by
        refine Eq.trans hturn ?_
        rw [Exec.execute_of_builds _ hb]
        unfold Exec.proceed
        show EStateM.bind (EStateM.bind _ _) _ _ = _
        unfold EStateM.bind
        rw [hk]
      rintro _ rfl
      refine ⟨fun _ _ h => ?_, fun _ _ h => ?_⟩
      · rw [hturn] at h
        cases h
      · rw [hturn] at h
        cases h
        exact hcontrols
    · refine controls_turn fun g i hnext => ?_
      by_contra hb
      refine hx ⟨⟨none, m, g, i⟩, ?_, Bool.not_eq_false _ ▸ hb⟩
      exact Option.map_eq_some_iff.mpr ⟨(g, i), hnext, rfl⟩
  | activity a =>
    cases a with
    | limit query next =>
      cases query with
      | charge cost => cases h
      | request =>
        refine Controls.account_onLimits (c := w.controls) Limits.request
          (fun limits => ?_) ctx.limits
        unfold Limits.request
        dsimp only
        split <;> rfl
      | size bytes => rfl
    | cancel next =>
      show (w.controls.stop.elim w.controls w.controls.cancel).account l = _
      cases w.controls.stop <;> rfl
    | block operation next =>
      simp only [Fiber.step, Fiber.act]
      split <;> rfl
    | _ => rfl
  | _ => rfl

end Fiber

/-! ### Ledgers -/

/-- The cost of all charges. -/
def totalCost : List Charge → Nat
  | [] => 0
  | c :: log => c.cost + totalCost log

theorem totalCost_cons (c : Charge) (log : List Charge) :
    totalCost (c :: log) = c.cost + totalCost log := rfl

/-- Later charges add to the cost. -/
theorem totalCost_le_append (later earlier : List Charge) :
    totalCost earlier ≤ totalCost (later ++ earlier) := by
  induction later with
  | nil => exact Nat.le_refl _
  | cons c later ih => exact Nat.le_trans ih (Nat.le_add_left ..)

/-- The charge of a step to the limits that are looked at. -/
def Fiber.chargeTo? (host : Host) (l : LimitsRef) (w : World) (f : Fiber) : Option Charge :=
  if f.ctx.limits = some l then f.charge? host w else none

/-- A phase under other controls. -/
def Phase.withControls (controls : Controls) : Phase → Phase
  | rest s => rest { s with world := { s.world with controls } }
  | work m => work { m with world := { m.world with controls } }

theorem Phase.controls_withControls (controls : Controls) (p : Phase) :
    (p.withControls controls).world.controls = controls := by
  cases p <;> rfl

/-- **The phases of a system with all charges to limits** since their counter was 0, the last charge
first. The steps of all fibers are followed, and the host may charge as well; apart from that it
does what it likes but change the counter or the ceiling. -/
inductive Ledger (host : Host) (l : LimitsRef) (ceiling : Nat) : Phase → List Charge → Prop
  | start {p : Phase} (h : p.world.controls.account l = some (some ceiling, 0)) :
    Ledger host l ceiling p []
  | own {m : Moment} {log : List Charge} (h : Ledger host l ceiling (.work m) log) :
    Ledger host l ceiling (.work (m.own host))
      ((m.party.fiber.chargeTo? host l m.world).toList ++ log)
  | other {p q : Party} {others : List Party} {world world' : World} {e : Event} {f : Fiber}
    {log : List Charge} (h : Ledger host l ceiling (.work ⟨p, q :: others, world⟩) log)
    (hq : q.fiber.step host world = (e, f, world')) :
    Ledger host l ceiling (.work ⟨p, ⟨q.thread, f⟩ :: (e.started ++ others), world'⟩)
      ((q.fiber.chargeTo? host l world).toList ++ log)
  | report {p : Party} {thread : Ref .thread} {f : Fiber} {others : List Party} {world : World}
    {o : Outcome} {log : List Charge}
    (h : Ledger host l ceiling (.work ⟨p, ⟨some thread, f⟩ :: others, world⟩) log)
    (ho : f.outcome? = some o) :
    Ledger host l ceiling (.work ⟨p, others, Worker.report thread o world⟩) log
  | order {p : Party} {others others' : List Party} {world : World} {log : List Charge}
    (h : Ledger host l ceiling (.work ⟨p, others, world⟩) log) (ho : others.Perm others') :
    Ledger host l ceiling (.work ⟨p, others', world⟩) log
  /-- The work for the host begins or ends, or the host does something with a system at rest. -/
  | turn {p p' : Phase} {log : List Charge} (h : Ledger host l ceiling p log) (hs : p.Step host p')
    (hr : (∃ s, p = .rest s) ∨ ∃ s, p' = .rest s)
    (ha : p'.world.controls.account l = p.world.controls.account l) : Ledger host l ceiling p' log
  /-- The host cancels, or time goes by. -/
  | controls {p : Phase} {log : List Charge} (h : Ledger host l ceiling p log) {controls : Controls}
    (ha : controls.account l = p.world.controls.account l) :
    Ledger host l ceiling (p.withControls controls) log
  | charge {p : Phase} {log : List Charge} (h : Ledger host l ceiling p log) (cost : Nat) :
    Ledger host l ceiling (p.withControls (p.world.controls.charge (some l) cost).2)
      (⟨cost, none, (p.world.controls.charge (some l) cost).1, false⟩ :: log)

/-- **A charge as the limits rule**: it is refused if it brings the cost of all charges so far above
the ceiling, and nothing is pushed then. -/
structure Charge.Ruled (ceiling : Nat) (c : Charge) (earlier : List Charge) : Prop where
  granted : totalCost (c :: earlier) ≤ ceiling → c.answer = .ok ()
  refused : ceiling < totalCost (c :: earlier) → c.answer = .error (.cost ceiling)
  pushed : ∀ e, c.answer = .error e → c.pushed = false

namespace Ledger

variable {host : Host} {l : LimitsRef} {ceiling : Nat} {p : Phase} {log : List Charge}

/-- Charges as the limits rule. -/
def AllRuled (ceiling : Nat) : List Charge → Prop
  | [] => True
  | c :: earlier => c.Ruled ceiling earlier ∧ AllRuled ceiling earlier

theorem AllRuled.of_append {c : Charge} {later earlier : List Charge}
    (h : AllRuled ceiling (later ++ c :: earlier)) : c.Ruled ceiling earlier := by
  induction later with
  | nil => exact h.1
  | cons d later ih => exact ih h.2

/-- Once the ceiling was passed, everything is refused. -/
theorem AllRuled.refused_later {earlier : List Charge} (hc : ceiling < totalCost earlier) :
    ∀ {later : List Charge}, AllRuled ceiling (later ++ earlier) →
      ∀ d ∈ later, d.answer = .error (.cost ceiling) ∧ d.pushed = false
  | [], _, _, hd => absurd hd List.not_mem_nil
  | d :: later, h, d', hd => by
    rcases List.mem_cons.mp hd with rfl | hd
    · have hle := totalCost_le_append later earlier
      have hlt : ceiling < d'.cost + totalCost (later ++ earlier) := by omega
      have hrefused := h.1.refused hlt
      exact ⟨hrefused, h.1.pushed _ hrefused⟩
    · exact refused_later hc h.2 d' hd

/-- What was pushed did not bring the cost above the ceiling. -/
theorem AllRuled.pushed_le : ∀ {log : List Charge}, AllRuled ceiling log →
    totalCost (log.filter Charge.pushed) ≤ ceiling ∧
      totalCost (log.filter Charge.pushed) ≤ totalCost log
  | [], _ => ⟨Nat.zero_le _, Nat.le_refl _⟩
  | c :: earlier, h => by
    obtain ⟨hle, hle'⟩ := pushed_le h.2
    by_cases hp : c.pushed = true
    · rw [List.filter_cons_of_pos hp, totalCost_cons, totalCost_cons]
      have hle : c.cost + totalCost earlier ≤ ceiling := by
        by_contra hlt
        have := h.1.pushed _ (h.1.refused (Nat.lt_of_not_le hlt))
        rw [hp] at this
        cases this
      omega
    · rw [List.filter_cons_of_neg hp, totalCost_cons]
      omega

/-- A charge that is made where the counter tells the cost of all charges so far. -/
theorem ruled_of_charge (hc : ceiling < counterMax) {controls : Controls}
    (h : controls.account l = some (some ceiling, min (totalCost log) counterMax)) {c : Charge}
    (ha : c.answer = (controls.charge (some l) c.cost).1)
    (hp : ∀ e, c.answer = .error e → c.pushed = false) :
    c.Ruled ceiling log ∧ (controls.charge (some l) c.cost).2.account l =
      some (some ceiling, min (totalCost (c :: log)) counterMax) := by
  obtain ⟨hanswer, haccount⟩ := Controls.charge_of_account h c.cost
  have hmin : min (min (totalCost log) counterMax + c.cost) counterMax =
      min (totalCost (c :: log)) counterMax := by
    rw [totalCost_cons]
    omega
  rw [hmin] at hanswer haccount
  refine ⟨⟨fun hle => ?_, fun hlt => ?_, hp⟩, haccount⟩
  · rw [ha, hanswer, if_neg (by omega)]
  · rw [ha, hanswer, if_pos (by omega)]

/-- **The counter tells the cost of all charges**, up to the largest number that it can hold, and
all charges are as the limits rule. -/
theorem balanced (h : Ledger host l ceiling p log) (hc : ceiling < counterMax) :
    p.world.controls.account l = some (some ceiling, min (totalCost log) counterMax) ∧
      AllRuled ceiling log := by
  -- what a fiber charges is ruled by the limits, and what it does not charge leaves them alone
  have fiber {f : Fiber} {w : World} {log : List Charge}
      (hw : w.controls.account l = some (some ceiling, min (totalCost log) counterMax) ∧
        AllRuled ceiling log) :
      (f.step host w).2.2.controls.account l =
          some (some ceiling, min (totalCost ((f.chargeTo? host l w).toList ++ log)) counterMax) ∧
        AllRuled ceiling ((f.chargeTo? host l w).toList ++ log) := by
    unfold Fiber.chargeTo?
    by_cases hl : f.ctx.limits = some l
    · rw [if_pos hl]
      cases hcharge : f.charge? host w with
      | none => exact ⟨(Fiber.account_of_charge?_eq_none hcharge l).trans hw.1, hw.2⟩
      | some c =>
        have hs := Fiber.settles_of_charge? hcharge
        have hanswer := hs.answer
        rw [hl] at hanswer
        obtain ⟨hruled, haccount⟩ := ruled_of_charge hc hw.1 hanswer fun e he => (hs.refused e he).1
        refine ⟨?_, hruled, hw.2⟩
        rw [hs.controls, hl]
        exact haccount
    · rw [if_neg hl]
      refine ⟨?_, hw.2⟩
      cases hcharge : f.charge? host w with
      | none => exact (Fiber.account_of_charge?_eq_none hcharge l).trans hw.1
      | some c =>
        rw [(Fiber.settles_of_charge? hcharge).controls]
        exact (Controls.account_charge_ne hl c.cost).trans hw.1
  induction h with
  | start h => exact ⟨h, trivial⟩
  | own _ ih => exact fiber ih
  | @other p q others world world' e f log _ hq ih =>
    have := fiber (f := q.fiber) ih
    rw [show (Phase.work ⟨p, q :: others, world⟩).world = world from rfl, hq] at this
    exact this
  | report _ _ ih => exact ih
  | order _ _ ih => exact ih
  | turn _ _ _ ha ih => exact ⟨ha.trans ih.1, ih.2⟩
  | controls _ ha ih =>
    rw [Phase.controls_withControls]
    exact ⟨ha.trans ih.1, ih.2⟩
  | @charge p log _ cost ih =>
    rw [Phase.controls_withControls]
    obtain ⟨hruled, haccount⟩ := ruled_of_charge hc ih.1
      (c := ⟨cost, none, (p.world.controls.charge (some l) cost).1, false⟩) rfl fun _ _ => rfl
    exact ⟨haccount, hruled, ih.2⟩

/-- **The ceiling of the cost is not exceeded, nor escaped.** The counter tells the cost of all
charges; the values that were pushed cost no more than the ceiling; a charge is granted as long as
the cost of all charges stays within the ceiling, and the first one that passes it is refused like
every later one, whoever swallowed the error; and a value whose charge is refused is not pushed, but
its instruction fails. -/
theorem cost_limited (h : Ledger host l ceiling p log) (hc : ceiling < counterMax) :
    p.world.controls.account l = some (some ceiling, min (totalCost log) counterMax) ∧
    totalCost (log.filter Charge.pushed) ≤ ceiling ∧
    (∀ later c earlier, log = later ++ c :: earlier →
      (totalCost (c :: earlier) ≤ ceiling → c.answer = .ok ()) ∧
      (ceiling < totalCost (c :: earlier) →
        ∀ d ∈ later ++ [c], d.answer = .error (.cost ceiling) ∧ d.pushed = false)) ∧
    ∀ f ∈ p.fibers, ∀ c, f.charge? host p.world = some c → c.Settles host p.world f := by
  obtain ⟨haccount, hruled⟩ := h.balanced hc
  refine ⟨haccount, hruled.pushed_le.1, ?_, fun f _ c hcharge => Fiber.settles_of_charge? hcharge⟩
  rintro later c earlier rfl
  refine ⟨hruled.of_append.granted, fun hlt d hd => ?_⟩
  rcases List.mem_append.mp hd with hd | hd
  · exact hruled.refused_later hlt d hd
  · obtain rfl := List.mem_singleton.mp hd
    have hrefused := hruled.of_append.refused hlt
    exact ⟨hrefused, hruled.of_append.pushed _ hrefused⟩

/-- The host charges 2 under a ceiling of 1, which is refused; the empty list that an instruction
builds after that costs nothing, but it is not pushed, and its instruction fails. -/
theorem emptyList_refused :
    ∃ (m : Moment) (c d : Charge), Ledger default ⟨0⟩ 1 (.work m) [d, c] ∧
      c.cost = 2 ∧ c.answer = .error (.cost 1) ∧
      d.built = some (.list ⟨0⟩) ∧ d.answer = .error (.cost 1) ∧ d.pushed = false ∧
      m.world.controls.account ⟨0⟩ = some (some 1, 2) := by
  let code : Code := .ofParts #[Opcode.buildList.word, 0] #[]
  let limits (cost : Nat) : Limits := { ceilings := { cost := some 1 }, cost }
  let m : Moment := System.begin {} (.forProgram {} { limits := some ⟨0⟩ } code)
    { controls := { limits := #[limits 0] } }
  let m' : Moment := { m with world := { controls := { limits := #[limits 2] } } }
  let c : Charge := ⟨2, none, .error (.cost 1), false⟩
  let d : Charge := ⟨0, some (.list ⟨0⟩), .error (.cost 1), false⟩
  have h : Ledger default ⟨0⟩ 1 (.work m') [c] := .charge (.start (p := .work m) rfl) 2
  have hd : m'.party.fiber.chargeTo? default ⟨0⟩ m'.world = some d := rfl
  have h : Ledger default ⟨0⟩ 1 (.work (m'.own default)) [d, c] := by
    have h := h.own
    rw [hd] at h
    exact h
  obtain ⟨haccount, -, hruled, -⟩ := h.cost_limited (by decide)
  have hrefused := (hruled [d] c [] rfl).2 (by decide)
  have hd := hrefused d List.mem_cons_self
  have hc := hrefused c (List.mem_cons_of_mem _ List.mem_cons_self)
  exact ⟨_, c, d, h, rfl, hc.1, rfl, hd.1, hd.2, haccount⟩

end Ledger

end ScriptEngine
