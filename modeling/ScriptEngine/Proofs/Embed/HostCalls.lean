import ScriptEngine.Proofs.Embed.Life

/-!
# Calls of the host are neutral

Whatever a host calls, and however the call ends, the machine is afterwards the one that it was
before, except that it counted instructions and that a machine at rest tells how the call ended. So
a builtin can drop the error of a call back, and its caller never knows.

## Main results

* `ScriptEngine.Life.hostCalls_neutral`: calls to a machine at rest, and calls back from builtins.
-/

namespace ScriptEngine

variable {host : Host}

/-- **Calls of the host are neutral.** A call to a machine at rest leaves its operand stack and its
frames as they were. So does a call back from a builtin at any moment of a run or a call, whichever
fiber it belongs to and whatever others do meanwhile: when the builtin goes on, its machine is
running, and only the number of instructions tells that something was called. -/
theorem Life.hostCalls_neutral (hh : host.Honest) :
    (∀ {c : Compiler} {batches : List Batch} {known : List Value} {s s' : System} {callee : Value}
      {args : List Value} {turns : Nat} {ctx : Context} {o : Outcome},
      Life host c batches known s → callee.IsKnown known → (∀ v ∈ args, v.IsKnown known) →
      s.call host turns ctx callee args = some (o, s') →
      ∃ ticks, s'.machine =
        { s.machine with status := if Fiber.failed o then .errored else .returned, ticks }) ∧
    ∀ {c : Compiler} {batches : List Batch} {m m₁ m₂ : Moment} {machine : Machine} {ctx : Context}
      {callee : Value} {args : List Value} {next : Outcome → Activity} {pending : List Pending}
      {goal : Goal}, Alive host c batches m →
      m.party.fiber = ⟨machine, ctx, .activity (.call callee args next), pending, goal⟩ →
      (m.own host).During host pending.length m₁ → m₁.Step host m₂ →
      m₂.party.fiber.pending.length ≤ pending.length →
      machine.status = .running ∧
        ∃ o ticks, m₂.party.fiber =
          ⟨{ machine with ticks }, ctx, .activity (next o), pending, goal⟩ := by
  constructor
  · intro c batches known s s' callee args turns ctx o h hc ha hr
    obtain ⟨fs, hb, hs⟩ := h.sound hh
    obtain ⟨T, -, hT⟩ := hb.covered
    obtain ⟨w, hs, -⟩ := hs T hT
    obtain ⟨m, hm, he⟩ := System.ends_of_finish? hr
    obtain ⟨ticks, hmachine⟩ := Moment.Sound.call hh (hs.beginCall hc ha ctx) hm he.outcome
    have hrests : (s.machine.status == .running) = false := beq_eq_false_iff_ne.mpr hs.rests
    refine ⟨ticks, ?_⟩
    rw [he.machine, hmachine]
    unfold Checkpoint.status Machine.enterCall
    simp only [hrests, Bool.false_eq_true, if_false]
  · intro c batches m m₁ m₂ machine ctx callee args next pending goal h hm hd hs hn
    obtain ⟨fs, hb, hsound⟩ := h.sound hh
    obtain ⟨T, -, hT⟩ := hb.covered
    obtain ⟨w, F, -, hsound, -⟩ := hsound T hT
    refine ⟨?_, hsound.callBack hh hm hd hs hn⟩
    rcases hsound.fiber with hf | ⟨-, g, o, -, hr, hg⟩
    · have := hf.running
      rwa [hm] at this
    · have := hr.deliver.1
      rw [← hg, hm] at this
      cases this

/-! ### A host that drops failures -/

/-- A host with a single function, which calls its first argument with the others and drops a
failure. -/
def Host.attempt : Host where
  behave _ _
    | [] => .value .nil
    | callee :: args => .call callee args fun o => .value (o.toOption.getD .nil)

theorem Host.honest_attempt : Host.attempt.Honest := by
  intro D w _ _ args _ ha
  cases args with
  | nil => exact D.data rfl
  | cons callee args =>
    obtain ⟨hc, ha⟩ := Discipline.values_cons.mp ha
    refine ⟨hc, ha, fun w' _ o ho => ?_⟩
    cases o with
    | ok v => exact ho
    | error e => exact D.data (v := .nil) rfl

/-- A machine that knows nothing but this function, under the name `attempt`. -/
def System.attempting : System where
  machine := { registry := { entries := #[("attempt", .builtin ⟨0⟩)] } }
  world := { heap := { builtins := #[⟨"attempt", .host "attempt" []⟩] } }

theorem Life.attempting : Life Host.attempt {} [] [] System.attempting := by
  have fresh : Compiler.withBuiltins [] = .ok {} := rfl
  refine .start (.withBuiltins fresh) (Nat.zero_le _) (fun e he => ?_)
    ⟨rfl, rfl, fun D w hs => ⟨hs, ?_, ?_, ?_, ?_, ?_, ?_, ?_, ?_⟩⟩
  · obtain rfl := Array.mem_singleton.mp he
    rfl
  · exact fun x hx => absurd hx (Array.not_mem_empty x)
  · exact fun x hx => absurd hx (Array.not_mem_empty x)
  · intro b hb
    obtain rfl := Array.mem_singleton.mp hb
    rintro key captured ⟨⟩
    exact Discipline.values_nil
  all_goals exact fun x hx => absurd hx (Array.not_mem_empty x)

/-- An attempt to call what cannot be called yields nil, on a machine that stays as it was. -/
theorem Life.attempt_neutral : ∃ s', System.attempting.call Host.attempt 1 .background
    (.builtin ⟨0⟩)
    [.int 1] = some (.ok .nil, s') ∧ ∃ ticks, s'.machine =
      { System.attempting.machine with status := .returned, ticks } := by
  obtain ⟨⟨o, s'⟩, hs⟩ : ∃ r, System.attempting.call Host.attempt 1 .background (.builtin ⟨0⟩)
    [.int 1] = some r := ⟨_, rfl⟩
  obtain rfl : o = .ok .nil := by
    have : (System.attempting.call Host.attempt 1 .background (.builtin ⟨0⟩) [.int 1]).map
        Prod.fst =
      some (.ok .nil) := rfl
    rw [hs] at this
    exact Option.some.inj this
  exact ⟨s', hs, (Life.hostCalls_neutral Host.honest_attempt).1 .attempting (.inl rfl)
    (fun v hv => .inl (List.mem_singleton.mp hv ▸ rfl)) hs⟩

end ScriptEngine
