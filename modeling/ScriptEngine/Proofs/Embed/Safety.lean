import ScriptEngine.Proofs.Embed.Life

/-!
# What compiled code never does

The code of a compiler refers only to what exists, so a machine never finds an operand out of range,
and it never takes an operand that is not there. If no break and no continue lies inside an operand,
it even finds exactly as many operands at each offset, whichever way it got there, and the iterator
of a loop on top where the loop goes on.

## Main definitions

* `ScriptEngine.RuntimeError.IsRangeFault`: the errors of operands that refer to nothing;
* `ScriptEngine.Moment.Disciplined`: the operands are those that the code expects.

## Main results

* `ScriptEngine.Compiler.code_wellFormed`: all code is well-formed, and faults of range do not
  occur;
* `ScriptEngine.Compiler.Built.stack_disciplined`: operands are there, and as many as expected.
-/

namespace ScriptEngine

/-- **The errors of an instruction that refers to nothing**: to no opcode, to no place in its code,
to no entry of a pool or of a table. -/
def RuntimeError.IsRangeFault : RuntimeError → Prop
  | .unknownOpcode _ => True
  | .internal fault =>
    match fault with
    | .noFrame | .ranPastCode _ | .missingOperands .. | .jumpBeforeCode | .jumpOutside _
    | .returnWithoutFrame | .constantOutOfRange _ | .nameOutOfRange _ | .localOutOfRange _
    | .freeOutOfRange _ | .builtinMissing _ | .notAFunction _ | .cellSource _ | .unknownBinary _
    | .unknownComparison _ => True
    | _ => False
  | _ => False

variable {host : Host} {T : Typing} {F : Floor} {w : Stage} {m : Moment}

/-- What sound code may end with is no fault of range. -/
theorem RuntimeError.Allowed.not_isRangeFault {e : RuntimeError} (h : e.Allowed T) :
    ¬ e.IsRangeFault := by
  intro hr
  cases e with
  | unknownOpcode w => exact h
  | internal fault =>
    cases fault with
    | forIterWithoutIterator => exact hr
    | notACell type => exact hr
    | workerLost => exact hr
    | builtinMoved name index slot => exact hr
    | _ => exact absurd (show InternalFault.workerLost = _ from Eq.symm h) InternalFault.noConfusion
  | _ => exact hr

/-- An error that is on its way in a sound fiber is allowed. -/
theorem Fiber.Sound.allowed {f : Fiber} (h : f.Sound T F w) {e : RuntimeError}
    (he : f.control = .deliver (.error e)) : e.Allowed T := by
  rcases h with h | ⟨-, g, o, -, hr, rfl⟩
  · have := h.control
    rw [he] at this
    exact this.1
  · have := hr.deliver.1
    rw [he] at this
    cases this

/-- **All code is well-formed.** Whatever batches were compiled, accepted or refused, the code of
the program and of every function refers only to what exists: to globals, builtins and functions of
the compiler, to its own offsets, pools and slots, and to the cells with which it is instantiated.
So no fault of range ever occurs, in no run and no call, on no fiber. -/
theorem Compiler.code_wellFormed :
    (∀ {c : Compiler} {fs : Array Function} {batches : List Batch}, c.Built fs batches →
      ∃ E : Environment, E.functions = fs ∧ E.globals = c.code.globalCount ∧
        E.builtins = c.table.builtins.size ∧ c.code.WellFormed E none ∧ E.WellFormed) ∧
    ∀ {host : Host} {c : Compiler} {batches : List Batch} {m : Moment} {e : RuntimeError},
      host.Honest → Alive host c batches m → m.party.fiber.control = .deliver (.error e) →
      ¬ e.IsRangeFault := by
  constructor
  · intro c fs batches h
    obtain ⟨E, hE, hs⟩ := h.sound
    exact ⟨E, hE, hs.globals, hs.builtins, hs.code.wellFormed, hs.functions.wellFormed⟩
  · intro host c batches m e hh h he
    obtain ⟨fs, hb, hs⟩ := h.sound hh
    obtain ⟨T, -, hT⟩ := hb.covered
    obtain ⟨w, F, -, hs, -⟩ := hs T hT
    exact (hs.fiber.allowed he).not_isRangeFault

/-! ### Operands -/

/-- The operands that a fiber at work finds at an offset. -/
theorem Fiber.Working.operands {f : Fiber} (h : f.Working T F w) (hT : T.exact = true)
    (hd : f.control = .dispatch) : ∃ g rest, f.machine.frames.items = g :: rest ∧
      g.base ≤ f.machine.stack.size ∧
      (g.ip < g.code.size → f.machine.stack.size = g.base + (T.shape g.code g.ip).length) := by
  have hc := h.control
  rw [hd] at hc
  obtain ⟨g, rest, below, hf, -, -, hs, hb, -⟩ := hc
  have hsize : f.machine.stack.size = f.machine.stack.toList.length :=
    f.machine.stack.contents.size_eq
  refine ⟨g, rest, hf, ?_, fun hlt => ?_⟩
  · rw [hb, hsize]
    rcases hs with hs | ⟨-, hs⟩
    · exact hs.suffix.length_le
    · exact Nat.le_of_eq (congrArg List.length hs.symm)
  · have := (hs.resolve_right fun h => Nat.ne_of_lt hlt h.1).length.2 hT
    rw [hsize, this, hb, Nat.add_comm]
    rfl

/-- **A moment at which the operands are those that the code expects**: the frame that executes owns
as many as the offset says, no loop misses its iterator, and no container holds one. -/
structure Moment.Disciplined (height : Code → Nat → Nat) (m : Moment) : Prop where
  operands : m.party.fiber.control = .dispatch → ∃ g rest,
    m.party.fiber.machine.frames.items = g :: rest ∧
    g.base ≤ m.party.fiber.machine.stack.size ∧
    (g.ip < g.code.size → m.party.fiber.machine.stack.size = g.base + height g.code g.ip)
  iterator : m.party.fiber.control ≠ .deliver (.error (.internal .forIterWithoutIterator))
  lists : ∀ xs ∈ m.world.heap.lists, ∀ v ∈ xs, ∀ r, v ≠ .iter r
  maps : ∀ entries ∈ m.world.heap.maps, ∀ (k : String) (r : Ref .iterator),
    entries[k]? ≠ some (.iter r)

/-- **The discipline of operands.** No instruction of compiled code ever takes an operand that is
not there. And if a compiler accepted a single batch in which no break and no continue lies inside
an operand of an unfinished expression, there is one number of operands for each offset of each
code: whenever an instruction is executed, its frame owns that many. Then no loop misses its
iterator, and no list and no map holds one. -/
theorem Compiler.Built.stack_disciplined {c : Compiler} {fs : Array Function} {batches : List Batch}
    (hb : c.Built fs batches) :
    (∀ {host : Host} {m : Moment}, host.Honest → Alive host c batches m →
      m.party.fiber.control ≠ .deliver (.error .stackUnderflow)) ∧
    ∀ {b : Batch}, batches = [b] → Placed.statements false b.program = true →
      ∃ height : Code → Nat → Nat, ∀ {host : Host} {m : Moment}, host.Honest →
        Alive host c batches m → m.world.heap.functions = fs → m.Disciplined height := by
  constructor
  · intro host m hh h he
    obtain ⟨fs, hb, hs⟩ := h.sound hh
    obtain ⟨T, -, hT⟩ := hb.covered
    obtain ⟨w, F, -, hs, -⟩ := hs T hT
    exact hs.fiber.allowed he
  · rintro b rfl hp
    obtain ⟨T, hexact, hT⟩ := hb.covered_of_placed rfl hp
    refine ⟨fun code p => (T.shape code p).length, fun {host m} hh h hfs => ?_⟩
    obtain ⟨fs', hb', hs⟩ := h.sound hh
    obtain rfl : fs' = fs := by
      obtain ⟨T', -, hT'⟩ := hb'.covered
      obtain ⟨w, F, -, hs, hw⟩ := hs T' hT'
      rw [← hfs, ← hw]
      exact hs.world.heap.code.functions.symm
    obtain ⟨w, F, -, hs, -⟩ := hs T hT
    have noIterator {r : Ref .iterator} (h : Value.Exists T w (.iter r)) : False := by
      rw [show Value.Exists T w (.iter r) = (T.exact = false) from rfl, hexact] at h
      cases h
    refine ⟨fun hd => ?_, fun he => ?_, fun xs hxs v hv r hr => ?_, fun entries he k r hk => ?_⟩
    · rcases hs.fiber with hf | ⟨-, g, o, -, hr, hg⟩
      · exact hf.operands hexact hd
      · have := hr.deliver.1
        rw [← hg, hd] at this
        cases this
    · have : T.exact = false := hs.fiber.allowed he
      rw [hexact] at this
      cases this
    · subst hr
      exact noIterator (r := r) (hs.world.heap.lists xs hxs _ (Array.mem_toList_iff.mpr hv))
    · exact noIterator (r := r) (hs.world.heap.maps entries he k _ hk)

/-- A loop that a switch leaves, whose subject is on the stack at the break. -/
theorem Compiler.Built.disciplined_of_switch :
    ∃ (c : Compiler) (fs : Array Function) (b : Batch),
      b.program = [.endlessLoop [.expr (.switch (.int 1) [.mk [.int 1] (some [.brk])] none)]] ∧
      c.Built fs [b] ∧ ∃ height : Code → Nat → Nat, ∀ {host : Host} {m : Moment}, host.Honest →
        Alive host c [b] m → m.world.heap.functions = fs → m.Disciplined height := by
  have fresh : Compiler.withBuiltins [] = .ok {} := rfl
  have hb := (Compiler.Built.withBuiltins fresh).compile
    [.endlessLoop [.expr (.switch (.int 1) [.mk [.int 1] (some [.brk])] none)]]
  have accepted : (Compiler.compile {} #[]
      [.endlessLoop [.expr (.switch (.int 1) [.mk [.int 1] (some [.brk])] none)]]).1.isOk =
        true := by
    decide +kernel
  generalize ha : (Compiler.compile {} #[] _).1 = answer at hb accepted
  cases answer with
  | error e => cases accepted
  | ok code => exact ⟨_, _, _, rfl, hb, hb.stack_disciplined.2 rfl rfl⟩

end ScriptEngine
