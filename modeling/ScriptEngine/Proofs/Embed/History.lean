import ScriptEngine.Embed.Engine
import ScriptEngine.Proofs.Embed.Life
import ScriptEngine.Proofs.Machine.Executions

/-!
# Histories of engines

All that a host can do with an engine, one thing after the other, and all that scripts do meanwhile:
batches are compiled, accepted or refused; codes that were given out are run, the newest or older
ones; globals are set and called, functions are registered; and between two instructions of one
fiber any other may come, whoever started it and however long ago. What was done is kept in a log,
down to the single instruction.

## Main definitions

* `ScriptEngine.Deed`: what is kept in the log;
* `ScriptEngine.History`: an engine at rest or at work, with the log of all deeds;
* `ScriptEngine.History.Step`: what can happen next;
* `ScriptEngine.History.Past`: the histories of engines.

## Main results

* `ScriptEngine.Engine.set_eq_ok`, `ScriptEngine.Engine.register_eq_ok`: what becomes of an engine
  when its host sets a global or registers a function;
* `ScriptEngine.History.Past.induction`: what every step keeps holds of all histories;
* `ScriptEngine.History.Past.follows`: what comes before a deed is a history itself;
* `ScriptEngine.History.Past.of_run`, `ScriptEngine.History.Past.of_call`,
  `ScriptEngine.History.Past.of_eval`: what an engine does belongs to its history.
-/

namespace ScriptEngine

/-- **What a host or a script did.** -/
inductive Deed where
  /-- A value was registered under a name. -/
  | registered (name : String) (v : Value)
  /-- A batch was given to the compiler, which had compiled these functions before. -/
  | compiled (c : Compiler) (fs : Array Function) (program : Program)
  /-- A value was set under a name by the host. -/
  | assigned (name : String) (v : Value)
  /-- A run of a code began. -/
  | began (code : Code)
  /-- A call of the host began. -/
  | called (callee : Value) (args : List Value)
  /-- A worker was started, by another one or by the machine of the engine. -/
  | started (worker : Ref .thread) (starter : Option (Ref .thread))
  | executed (x : Execution)

/-- **An engine at rest, or at work** for its host or for nobody but its workers. While it is at
work the moment tells how its system is. -/
inductive Scene where
  | rest (e : Engine)
  | work (e : Engine) (m : Moment)

/-- **An engine with the log of all deeds**, the last one first. -/
structure History where
  scene : Scene
  log : List Deed

/-- The code that was given out for a deed. -/
def Deed.code? : Deed → Option Code
  | .compiled c fs program => (c.compile fs program).1.toOption
  | _ => none

/-- A code is given out for a batch that is accepted, and for nothing else. -/
theorem Deed.code?_eq_some {d : Deed} {code : Code} :
    d.code? = some code ↔ ∃ c fs program, d = .compiled c fs program ∧
      (c.compile fs program).1 = .ok code := by
  have accepted (c : Compiler) (fs : Array Function) (program : Program) :
      (c.compile fs program).1.toOption = some code ↔ (c.compile fs program).1 = .ok code := by
    cases (c.compile fs program).1 with
    | ok code' =>
      exact ⟨fun h => congrArg _ (Option.some.inj h), fun h => congrArg _ (Except.ok.inj h)⟩
    | error e => exact ⟨fun h => (by cases h), fun h => (by cases h)⟩
  constructor
  · intro h
    unfold Deed.code? at h
    split at h
    · exact ⟨_, _, _, rfl, (accepted _ _ _).mp h⟩
    · cases h
  · rintro ⟨c, fs, program, rfl, h⟩
    exact (accepted c fs program).mpr h

/-- The codes that were given out, the last one first. -/
def issued (log : List Deed) : List Code :=
  log.filterMap Deed.code?

theorem issued_append (later earlier : List Deed) :
    issued (later ++ earlier) = issued later ++ issued earlier :=
  List.filterMap_append

theorem issued_cons (d : Deed) (log : List Deed) :
    issued (d :: log) = d.code?.toList ++ issued log := by
  unfold issued
  rw [List.filterMap_cons]
  cases d.code? <;> rfl

/-- What was given out before a deed is still given out after it. -/
theorem mem_issued_behind {later earlier : List Deed} {d : Deed} {code : Code}
    (h : code ∈ issued earlier) : code ∈ issued (later ++ d :: earlier) := by
  rw [issued_append, issued_cons]
  exact List.mem_append_right _ (List.mem_append_right _ h)

/-- A batch that was accepted gave out its code. -/
theorem mem_issued_compiled {c : Compiler} {fs : Array Function} {program : Program} {code : Code}
    (hc : (c.compile fs program).1 = .ok code) (later earlier : List Deed) :
    code ∈ issued (later ++ .compiled c fs program :: earlier) := by
  rw [issued_append, issued_cons, Deed.code?_eq_some.mpr ⟨c, fs, program, rfl, hc⟩]
  exact List.mem_append_right _ List.mem_cons_self

/-- An accepted batch gives out its code. -/
theorem mem_issued_of_compile {e : Engine} {program : Program} {code : Code}
    (h : (e.compile program).1 = .ok code) (log : List Deed) :
    code ∈ issued (.compiled e.compiler e.system.world.heap.functions program :: log) := by
  have hm : (e.compiler.compile e.system.world.heap.functions program).1.mapError
      EngineError.compile = .ok code := h
  have hc : (e.compiler.compile e.system.world.heap.functions program).1 = .ok code := by
    cases hc : (e.compiler.compile e.system.world.heap.functions program).1 with
    | error error =>
      rw [hc] at hm
      cases hm
    | ok code' =>
      rw [hc] at hm
      cases hm
      rfl
  exact mem_issued_compiled hc [] log

/-- The registry of values that were registered one after the other. -/
def Registry.ofList (builtins : List (String × Value)) : Registry :=
  builtins.foldl (fun r b => (r.insert b.1 b.2).2) {}

/-! ### What the host does to an engine at rest -/

namespace Engine

variable {e e' : Engine} {name : String} {t : HostType} {x : t.Carrier} {body : BuiltinBody}
  {answer : Except EngineError Unit} {error : EngineError}

/-- **An engine that is built** has a compiler and a machine that know the builtins. -/
theorem withBuiltins_eq_ok {s : System} {builtins : Registry} {ctx : Context}
    (h : withBuiltins s builtins ctx = .ok e) :
    ∃ compiler, Compiler.withBuiltins builtins.names = .ok compiler ∧
      e = { compiler, system := s.withRegistry builtins, builtins, ctx } := by
  unfold withBuiltins at h
  split at h
  · rename_i compiler hc
    cases h
    exact ⟨compiler, hc, rfl⟩
  · cases h

/-- **A global that is set** is declared, and the value is stored into its slot. -/
theorem set_eq_ok (h : e.set name t x = (.ok (), e')) :
    ∃ slot compiler, e.compiler.declareGlobal name = (.ok slot, compiler) ∧
      e' = { e with
        compiler
        system := (e.system.onHeap (t.toValue x)).2.setGlobal slot.toNat
          (e.system.onHeap (t.toValue x)).1 } := by
  unfold set at h
  split at h
  · rename_i slot compiler hd
    cases h
    exact ⟨slot, compiler, hd, rfl⟩
  · cases h

/-- **A global that is refused** has no slot, and nothing is stored. -/
theorem set_eq_error (h : e.set name t x = (.error error, e')) :
    ∃ reason compiler, e.compiler.declareGlobal name = (.error reason, compiler) ∧
      error = .compile reason ∧ e' = { e with compiler } := by
  unfold set at h
  split at h
  · cases h
  · rename_i reason compiler hd
    cases h
    exact ⟨reason, compiler, hd, rfl, rfl⟩

theorem compiler_set (h : e.set name t x = (answer, e')) :
    e'.compiler = (e.compiler.declareGlobal name).2 := by
  cases answer with
  | ok =>
    obtain ⟨slot, compiler, hd, rfl⟩ := set_eq_ok h
    rw [hd]
  | error =>
    obtain ⟨reason, compiler, hd, -, rfl⟩ := set_eq_error h
    rw [hd]

/-- What a host sets is neither of the machine nor of the workers. -/
theorem stays_set (h : e.set name t x = (answer, e')) :
    e'.system.machine = e.system.machine ∧ e'.system.workers = e.system.workers := by
  cases answer with
  | ok =>
    obtain ⟨slot, compiler, -, rfl⟩ := set_eq_ok h
    exact ⟨rfl, rfl⟩
  | error =>
    obtain ⟨reason, compiler, -, -, rfl⟩ := set_eq_error h
    exact ⟨rfl, rfl⟩

/-- **A function that is registered** has the same number in the compiler and in the registry, and
the machine gets the registry. -/
theorem register_eq_ok (h : e.register name body = (.ok (), e')) :
    ∃ slot compiler, e.compiler.addBuiltin name = (.ok slot, compiler) ∧
      slot.toNat = (e.builtins.insert name (e.system.onHeap (·.newNamed name body)).1).1 ∧
      e' = { e with
        compiler
        system := (e.system.onHeap (·.newNamed name body)).2.withRegistry
          (e.builtins.insert name (e.system.onHeap (·.newNamed name body)).1).2
        builtins := (e.builtins.insert name (e.system.onHeap (·.newNamed name body)).1).2 } := by
  unfold register at h
  split at h
  · rename_i slot compiler hd
    dsimp only at h
    split at h
    · rename_i hslot
      cases h
      exact ⟨slot, compiler, hd, hslot, rfl⟩
    · cases h
  · cases h

/-- **A function that is refused**: its numbers differ, or the compiler has none for it. The machine
keeps its registry. -/
theorem register_eq_error (h : e.register name body = (.error error, e')) :
    (∃ slot compiler, e.compiler.addBuiltin name = (.ok slot, compiler) ∧
      slot.toNat ≠ (e.builtins.insert name (e.system.onHeap (·.newNamed name body)).1).1 ∧
      e' = { e with
        compiler
        system := (e.system.onHeap (·.newNamed name body)).2
        builtins := (e.builtins.insert name (e.system.onHeap (·.newNamed name body)).1).2 }) ∨
    ∃ reason compiler, e.compiler.addBuiltin name = (.error reason, compiler) ∧
      error = .compile reason ∧ e' = { e with compiler } := by
  unfold register at h
  split at h
  · rename_i slot compiler hd
    dsimp only at h
    split at h
    · cases h
    · rename_i hslot
      cases h
      exact .inl ⟨slot, compiler, hd, hslot, rfl⟩
  · rename_i reason compiler hd
    cases h
    exact .inr ⟨reason, compiler, hd, rfl, rfl⟩

theorem compiler_register (h : e.register name body = (answer, e')) :
    e'.compiler = (e.compiler.addBuiltin name).2 := by
  cases answer with
  | ok =>
    obtain ⟨slot, compiler, hd, -, rfl⟩ := register_eq_ok h
    rw [hd]
  | error =>
    obtain ⟨slot, compiler, hd, -, rfl⟩ | ⟨reason, compiler, hd, -, rfl⟩ := register_eq_error h
    · rw [hd]
    · rw [hd]

/-- Of the machine, a function that is registered changes only the registry. -/
theorem stays_register (h : e.register name body = (answer, e')) :
    e'.system.machine.frames = e.system.machine.frames ∧
      e'.system.machine.position = e.system.machine.position ∧
      e'.system.workers = e.system.workers := by
  cases answer with
  | ok =>
    obtain ⟨slot, compiler, -, -, rfl⟩ := register_eq_ok h
    exact ⟨rfl, rfl, rfl⟩
  | error =>
    obtain ⟨slot, compiler, -, -, rfl⟩ | ⟨reason, compiler, -, -, rfl⟩ := register_eq_error h
    · exact ⟨rfl, rfl, rfl⟩
    · exact ⟨rfl, rfl, rfl⟩

end Engine

/-! ### What the parties do -/

/-- The instruction that a party executes next. -/
def Party.execution? (p : Party) (w : World) : Option Execution :=
  p.fiber.execution? p.thread w

/-- The start of a worker, for the party that started it. -/
def Event.deeds (starter : Option (Ref .thread)) : Event → List Deed
  | .spawned worker => [.started worker.thread starter]
  | _ => []

/-- **What a party does next**, as far as it is kept in the log. -/
def Party.deeds (host : Host) (w : World) (p : Party) : List Deed :=
  (p.fiber.step host w).1.deeds p.thread ++ ((p.execution? w).map Deed.executed).toList

theorem Party.executed_mem_deeds {host : Host} {w : World} {p : Party} {x : Execution} :
    .executed x ∈ p.deeds host w ↔ p.execution? w = some x := by
  unfold Party.deeds
  rw [List.mem_append, Option.mem_toList, Option.map_eq_some_iff]
  constructor
  · rintro (h | ⟨_, h, heq⟩)
    · unfold Event.deeds at h
      split at h
      · cases List.mem_singleton.mp h
      · cases h
    · cases heq
      exact h
  · exact fun h => .inr ⟨x, h, rfl⟩

theorem Party.eq_of_execution? {w : World} {p : Party} {x : Execution}
    (h : p.execution? w = some x) : x.thread = p.thread ∧ x.machine = p.fiber.machine := by
  unfold Party.execution? Fiber.execution? at h
  split at h
  · obtain ⟨_, -, rfl⟩ := Option.map_eq_some_iff.mp h
    exact ⟨rfl, rfl⟩
  · cases h

/-- **What is in the log**, was there before the last deeds or is one of them. -/
theorem log_eq_append {deeds log later earlier : List Deed} {d : Deed}
    (h : deeds ++ log = later ++ d :: earlier) :
    (∃ more, log = more ++ d :: earlier) ∨
      ∃ newer older, deeds = newer ++ d :: older ∧ earlier = older ++ log := by
  rcases List.append_eq_append_iff.mp h with ⟨more, -, hlog⟩ | ⟨more, hdeeds, hlog⟩
  · exact .inl ⟨more, hlog⟩
  · cases more with
    | nil => exact .inl ⟨[], hlog.symm⟩
    | cons d more =>
      obtain ⟨rfl, hearlier⟩ := List.cons.inj hlog
      exact .inr ⟨later, more, hdeeds, hearlier⟩

/-- Of two different deeds one comes before the other. -/
theorem log_order {later earlier latest earliest : List Deed} {d d' : Deed}
    (h : later ++ d :: earlier = latest ++ d' :: earliest) (hd : d ≠ d') :
    (∃ more, earlier = more ++ d' :: earliest) ∨ ∃ more, earliest = more ++ d :: earlier := by
  rcases List.append_eq_append_iff.mp h with ⟨more, -, h⟩ | ⟨more, -, h⟩
  · rcases List.cons_eq_append_iff.mp h with ⟨-, h⟩ | ⟨more, -, h⟩
    · exact absurd (List.cons.inj h).1.symm hd
    · exact .inl ⟨more, h⟩
  · rcases List.cons_eq_append_iff.mp h with ⟨-, h⟩ | ⟨more, -, h⟩
    · exact absurd (List.cons.inj h).1 hd
    · exact .inr ⟨more, h⟩

/-- Of what a party does next, the instruction comes first. -/
theorem Party.deeds_eq_append {host : Host} {w : World} {p : Party} {d : Deed}
    {newer older : List Deed} (h : p.deeds host w = newer ++ d :: older) :
    (∃ worker, d = .started worker p.thread) ∨
      ∃ x, d = .executed x ∧ p.execution? w = some x ∧ older = [] := by
  unfold Party.deeds at h
  rcases log_eq_append h with ⟨more, h⟩ | ⟨newer, older, h, -⟩
  · cases hx : p.execution? w with
    | none =>
      rw [hx] at h
      cases more <;> cases h
    | some x =>
      rw [hx] at h
      rcases List.append_eq_cons_iff.mp h.symm with ⟨-, heq⟩ | ⟨more, -, heq⟩
      · cases heq
        exact .inr ⟨x, rfl, rfl, rfl⟩
      · cases more <;> cases heq
  · have hmem : d ∈ (p.fiber.step host w).1.deeds p.thread :=
      h ▸ List.mem_append_right _ List.mem_cons_self
    unfold Event.deeds at hmem
    split at hmem
    · exact .inl ⟨_, List.mem_singleton.mp hmem⟩
    · cases hmem

namespace Moment

/-- **What can happen next**, with what is kept of it. -/
inductive Performs (host : Host) : Moment → List Deed → Moment → Prop
  | own (m : Moment) : Performs host m (m.party.deeds host m.world) (m.own host)
  | other {p q : Party} {others : List Party} {world world' : World} {e : Event} {f : Fiber}
    (h : q.fiber.step host world = (e, f, world')) :
    Performs host ⟨p, q :: others, world⟩ (q.deeds host world)
      ⟨p, ⟨q.thread, f⟩ :: (e.started ++ others), world'⟩
  | report {p : Party} {thread : Ref .thread} {f : Fiber} {others : List Party} {world : World}
    {o : Outcome} (h : f.outcome? = some o) :
    Performs host ⟨p, ⟨some thread, f⟩ :: others, world⟩ []
      ⟨p, others, Worker.report thread o world⟩
  | order {p : Party} {others others' : List Party} {world : World} (h : others.Perm others') :
    Performs host ⟨p, others, world⟩ [] ⟨p, others', world⟩
  | controls {p : Party} {others : List Party} {world : World} (controls : Controls) :
    Performs host ⟨p, others, world⟩ [] ⟨p, others, { world with controls }⟩

/-- Everything that can happen next is performed. -/
theorem Step.performs {host : Host} {m m' : Moment} (h : m.Step host m') :
    ∃ deeds, m.Performs host deeds m' := by
  cases h with
  | own => exact ⟨_, .own m⟩
  | other h => exact ⟨_, .other h⟩
  | report h => exact ⟨_, .report h⟩
  | order h => exact ⟨_, .order h⟩
  | controls c => exact ⟨_, .controls c⟩

/-- All parties, the one that is looked at among them. -/
def parties (m : Moment) : List Party :=
  m.party :: m.others

/-- **Who does something**: one of the parties, or nobody. -/
theorem Performs.cases {host : Host} {m m' : Moment} {deeds : List Deed}
    (h : m.Performs host deeds m') :
    (∃ q ∈ m.parties, deeds = q.deeds host m.world ∧ m'.world = (q.fiber.step host m.world).2.2 ∧
      ∀ p ∈ m'.parties, p = ⟨q.thread, (q.fiber.step host m.world).2.1⟩ ∨
        p ∈ (q.fiber.step host m.world).1.started ∨ p ∈ m.parties) ∨
    (deeds = [] ∧ (∀ p ∈ m'.parties, p ∈ m.parties) ∧ m'.world.globals = m.world.globals ∧
      m'.world.heap.functions = m.world.heap.functions) := by
  cases h with
  | own =>
    refine .inl ⟨m.party, List.mem_cons_self, rfl, rfl, fun p hp => ?_⟩
    rcases List.mem_cons.mp hp with rfl | hp
    · exact .inl rfl
    · exact .inr ((List.mem_append.mp hp).imp id (List.mem_cons_of_mem _))
  | @other p q others world world' e f h =>
    refine .inl ⟨q, List.mem_cons_of_mem _ List.mem_cons_self, rfl, ?_, fun p' hp => ?_⟩
    · rw [h]
    · rw [h]
      rcases List.mem_cons.mp hp with rfl | hp
      · exact .inr (.inr List.mem_cons_self)
      rcases List.mem_cons.mp hp with rfl | hp
      · exact .inl rfl
      · exact .inr ((List.mem_append.mp hp).imp id fun hp =>
          List.mem_cons_of_mem _ (List.mem_cons_of_mem _ hp))
  | report h =>
    refine .inr ⟨rfl, fun p hp => ?_, rfl, rfl⟩
    rcases List.mem_cons.mp hp with rfl | hp
    · exact List.mem_cons_self
    · exact List.mem_cons_of_mem _ (List.mem_cons_of_mem _ hp)
  | order h =>
    refine .inr ⟨rfl, fun p hp => ?_, rfl, rfl⟩
    rcases List.mem_cons.mp hp with rfl | hp
    · exact List.mem_cons_self
    · exact List.mem_cons_of_mem _ (h.mem_iff.mpr hp)
  | controls c => exact .inr ⟨rfl, fun p hp => hp, rfl, rfl⟩

/-- The party that is looked at does something, or it stays as it is. -/
theorem Performs.party {host : Host} {m m' : Moment} {deeds : List Deed}
    (h : m.Performs host deeds m') : m' = m.own host ∨ m'.party = m.party := by
  cases h with
  | own => exact .inl rfl
  | _ => exact .inr rfl

end Moment

namespace Scene

/-- The engine, whose system is up to date only if it rests. -/
def engine : Scene → Engine
  | rest e | work e _ => e

def world : Scene → World
  | rest e => e.system.world
  | work _ m => m.world

/-- The machine of the engine. -/
def machine : Scene → Machine
  | rest e => e.system.machine
  | work _ m => m.party.fiber.machine

/-- The workers. -/
def workers : Scene → List Party
  | rest e => e.system.workers.map Worker.party
  | work _ m => m.others

/-- The workers, and the machine of the engine if it is at work. -/
def parties : Scene → List Party
  | rest e => e.system.workers.map Worker.party
  | work _ m => m.parties

end Scene

namespace History

/-- **An engine that was just built**, with the builtins that were registered for it. -/
inductive Fresh : History → Prop
  | build {config : Config} {heap : Heap} {controls : Controls} {builtins : List (String × Value)}
    {ctx : Context} {e : Engine} (hf : heap.functions = #[])
    (h : Engine.withBuiltins { machine := { config }, world := { heap, controls } }
      (.ofList builtins) ctx = .ok e) :
    Fresh ⟨.rest e, (builtins.map fun b => Deed.registered b.1 b.2).reverse⟩

/-- An engine that was just built only knows of builtins that were registered. -/
theorem Fresh.registered {h : History} (hf : h.Fresh) {d : Deed} (hd : d ∈ h.log) :
    ∃ name v, d = .registered name v := by
  cases hf with
  | build =>
    obtain ⟨b, -, rfl⟩ := List.mem_map.mp (List.mem_reverse.mp hd)
    exact ⟨_, _, rfl⟩

/-- **What can happen next.** A run is of a code that was given out, and which codes the host runs
when may be restricted. -/
inductive Step (host : Host) (allowed : Engine → Code → Prop) : History → History → Prop
  | compile (e : Engine) (log : List Deed) (program : Program) :
    Step host allowed ⟨.rest e, log⟩ ⟨.rest (e.compile program).2,
      .compiled e.compiler e.system.world.heap.functions program :: log⟩
  | set {e e' : Engine} {log : List Deed} {name : String} {t : HostType} {x : t.Carrier}
    (h : e.set name t x = (.ok (), e')) :
    Step host allowed ⟨.rest e, log⟩
      ⟨.rest e', .assigned name (t.toValue x e.system.world.heap).1 :: log⟩
  | setRefused {e e' : Engine} {log : List Deed} {name : String} {t : HostType} {x : t.Carrier}
    {error : EngineError} (h : e.set name t x = (.error error, e')) :
    Step host allowed ⟨.rest e, log⟩ ⟨.rest e', log⟩
  | register {e e' : Engine} {log : List Deed} {name : String} {body : BuiltinBody}
    (h : e.register name body = (.ok (), e')) :
    Step host allowed ⟨.rest e, log⟩
      ⟨.rest e', .registered name (e.system.world.heap.newNamed name body).1 :: log⟩
  | registerRefused {e e' : Engine} {log : List Deed} {name : String} {body : BuiltinBody}
    {error : EngineError} (h : e.register name body = (.error error, e')) :
    Step host allowed ⟨.rest e, log⟩ ⟨.rest e', log⟩
  | context (e : Engine) (log : List Deed) (ctx : Context) :
    Step host allowed ⟨.rest e, log⟩ ⟨.rest { e with ctx }, log⟩
  | run {e : Engine} {log : List Deed} {code : Code} (hc : code ∈ issued log)
    (ha : allowed e code) :
    Step host allowed ⟨.rest e, log⟩ ⟨.work e (e.system.begin
      (.forProgram e.system.machine e.ctx code) (e.system.world.ensureGlobals code.globalCount)),
      .began code :: log⟩
  | call {e : Engine} {log : List Deed} {name : String} {callee : Value}
    (h : e.get? name = some callee) (args : List Value) :
    Step host allowed ⟨.rest e, log⟩ ⟨.work e (e.system.begin
      (.forCall e.system.machine e.ctx callee args) e.system.world), .called callee args :: log⟩
  /-- Workers go on while the engine itself does nothing. -/
  | wait (e : Engine) (log : List Deed) :
    Step host allowed ⟨.rest e, log⟩
      ⟨.work e (e.system.begin (.idle e.system.machine e.ctx) e.system.world), log⟩
  | perform {e : Engine} {log deeds : List Deed} {m m' : Moment} (h : m.Performs host deeds m') :
    Step host allowed ⟨.work e m, log⟩ ⟨.work e m', deeds ++ log⟩
  | finish {e : Engine} {log : List Deed} {m : Moment} {o : Outcome} {s : System}
    (h : m.Ends o s) :
    Step host allowed ⟨.work e m, log⟩ ⟨.rest { e with system := s }, log⟩

/-- What can happen, one thing after the other. -/
abbrev Steps (host : Host) (allowed : Engine → Code → Prop) : History → History → Prop :=
  Relation.ReflTransGen (Step host allowed)

/-- **The histories of engines**, from when they were built. -/
def Past (host : Host) (allowed : Engine → Code → Prop) (h : History) : Prop :=
  ∃ h₀ : History, h₀.Fresh ∧ h₀.Steps host allowed h

variable {host : Host} {allowed : Engine → Code → Prop} {h h' : History}

theorem Past.step (hp : h.Past host allowed) (hs : h.Step host allowed h') :
    h'.Past host allowed := by
  obtain ⟨h₀, hf, hr⟩ := hp
  exact ⟨h₀, hf, hr.tail hs⟩

theorem Past.steps (hp : h.Past host allowed) (hs : h.Steps host allowed h') :
    h'.Past host allowed := by
  obtain ⟨h₀, hf, hr⟩ := hp
  exact ⟨h₀, hf, hr.trans hs⟩

/-- **What every step keeps** holds of all histories. -/
theorem Past.induction {P : History → Prop} (hp : h.Past host allowed)
    (fresh : ∀ h, h.Fresh → P h)
    (step : ∀ h h', h.Past host allowed → P h → h.Step host allowed h' → P h') : P h := by
  obtain ⟨h₀, hf, hr⟩ := hp
  induction hr with
  | refl => exact fresh h₀ hf
  | tail hr hs ih => exact step _ _ ⟨h₀, hf, hr⟩ ih hs

/-- The log only grows. -/
theorem Step.log (hs : h.Step host allowed h') : ∃ deeds, h'.log = deeds ++ h.log := by
  cases hs with
  | compile | set | register | run | call => exact ⟨[_], rfl⟩
  | perform => exact ⟨_, rfl⟩
  | _ => exact ⟨[], rfl⟩

theorem Steps.log (hs : h.Steps host allowed h') : ∃ deeds, h'.log = deeds ++ h.log := by
  induction hs with
  | refl => exact ⟨[], rfl⟩
  | tail _ hs ih =>
    obtain ⟨deeds, hd⟩ := ih
    obtain ⟨more, hm⟩ := hs.log
    exact ⟨more ++ deeds, by rw [hm, hd, List.append_assoc]⟩

/-! ### Looking back -/

/-- **What comes before a deed.** A batch is compiled, a global is set and a run begins while the
engine rests; an instruction is executed by one of the parties at work. -/
def Follows (host : Host) (allowed : Engine → Code → Prop) : Deed → List Deed → Prop
  | .compiled c fs _, log => ∃ e : Engine, Past host allowed ⟨.rest e, log⟩ ∧ e.compiler = c ∧
      e.system.world.heap.functions = fs
  | .began code, log => ∃ e : Engine, Past host allowed ⟨.rest e, log⟩ ∧ code ∈ issued log ∧
      allowed e code
  | .executed x, log => ∃ (e : Engine) (m : Moment), Past host allowed ⟨.work e m, log⟩ ∧
      ∃ q ∈ m.parties, q.execution? m.world = some x
  | _, _ => True

/-- **Every deed follows a history.** -/
theorem Past.follows (hp : h.Past host allowed) : ∀ {later earlier : List Deed} {d : Deed},
    h.log = later ++ d :: earlier → Follows host allowed d earlier := by
  refine hp.induction (P := fun h => ∀ {later earlier : List Deed} {d : Deed},
    h.log = later ++ d :: earlier → Follows host allowed d earlier) ?_ ?_
  · intro h hf later earlier d heq
    cases hf with
    | @build _ _ _ builtins =>
      have hm : d ∈ (builtins.map fun b => Deed.registered b.1 b.2).reverse := by
        have heq : (builtins.map fun b => Deed.registered b.1 b.2).reverse = _ := heq
        rw [heq]
        exact List.mem_append_right _ List.mem_cons_self
      obtain ⟨_, -, rfl⟩ := List.mem_map.mp (List.mem_reverse.mp hm)
      trivial
  · intro h h' hp ih hs later earlier d heq
    -- only a deed that is new has to be looked at
    have fresh {d' : Deed} (heq : d' :: h.log = later ++ d :: earlier)
        (hd : Follows host allowed d' h.log) : Follows host allowed d earlier := by
      rcases List.cons_eq_append_iff.mp heq with ⟨-, heq⟩ | ⟨more, -, heq⟩
      · cases heq
        exact hd
      · exact ih heq
    cases hs with
    | compile e log program => exact fresh heq ⟨e, hp, rfl, rfl⟩
    | run hc ha => exact fresh heq ⟨_, hp, hc, ha⟩
    | set | register | call => exact fresh heq trivial
    | setRefused | registerRefused | context | wait | finish => exact ih heq
    | perform hm =>
      rcases log_eq_append heq with ⟨more, hlog⟩ | ⟨newer, older, hdeeds, rfl⟩
      · exact ih hlog
      rcases hm.cases with ⟨q, hq, rfl, -, -⟩ | ⟨rfl, -, -, -⟩
      · rcases Party.deeds_eq_append hdeeds with ⟨worker, rfl⟩ | ⟨x, rfl, hx, rfl⟩
        · trivial
        · exact ⟨_, _, hp, q, hq, hx⟩
      · cases newer <;> cases hdeeds

/-! ### What an engine does -/

/-- The work of a moment, down to its instructions. -/
theorem Steps.of_moments {e : Engine} {log : List Deed} {m m' : Moment} (hm : m.Steps host m') :
    ∃ deeds, (⟨.work e m, log⟩ : History).Steps host allowed ⟨.work e m', deeds ++ log⟩ := by
  induction hm with
  | refl => exact ⟨[], .refl⟩
  | tail _ hs ih =>
    obtain ⟨deeds, hd⟩ := ih
    obtain ⟨more, hm⟩ := hs.performs
    refine ⟨more ++ deeds, ?_⟩
    rw [List.append_assoc]
    exact hd.tail (.perform hm)

/-- **A run of an engine** belongs to its history. -/
theorem Past.of_run {e e' : Engine} {log : List Deed} (hp : Past host allowed ⟨.rest e, log⟩)
    {code : Code} (hc : code ∈ issued log) (ha : allowed e code) {turns : Nat}
    {answer : Except EngineError Value} (hr : e.run host turns code = some (answer, e')) :
    ∃ deeds, Past host allowed ⟨.rest e', deeds ++ .began code :: log⟩ := by
  obtain ⟨⟨o, s⟩, hs, heq⟩ := Option.map_eq_some_iff.mp hr
  obtain ⟨-, rfl⟩ : _ ∧ { e with system := s } = e' := Prod.mk.inj heq
  obtain ⟨m, hm, he⟩ := System.ends_of_finish? hs
  have hbegan := hp.step (.run hc ha)
  obtain ⟨deeds, hd⟩ := Steps.of_moments hm
  exact ⟨deeds, (hbegan.steps hd).step (.finish he)⟩

/-- **A call of an engine** belongs to its history. -/
theorem Past.of_call {e e' : Engine} {log : List Deed} (hp : Past host allowed ⟨.rest e, log⟩)
    {name : String} {args : List Value} {turns : Nat} {answer : Except EngineError Value}
    (hr : e.call host turns name args = some (answer, e')) :
    e' = e ∨ ∃ callee deeds, Past host allowed ⟨.rest e', deeds ++ .called callee args :: log⟩ := by
  unfold Engine.call Engine.get at hr
  cases hg : e.get? name with
  | none =>
    simp only [hg] at hr
    cases hr
    exact .inl rfl
  | some callee =>
    simp only [hg] at hr
    obtain ⟨⟨o, s⟩, hs, heq⟩ := Option.map_eq_some_iff.mp hr
    obtain ⟨-, rfl⟩ : _ ∧ { e with system := s } = e' := Prod.mk.inj heq
    obtain ⟨m, hm, he⟩ := System.ends_of_finish? hs
    have hcalled := hp.step (.call hg args)
    obtain ⟨deeds, hd⟩ := Steps.of_moments hm
    exact .inr ⟨callee, deeds, (hcalled.steps hd).step (.finish he)⟩

/-- **An evaluation** belongs to the history of an engine. A refused batch does not run. -/
theorem Past.of_eval {e e' : Engine} {log : List Deed} (hp : Past host allowed ⟨.rest e, log⟩)
    {program : Program} (ha : ∀ code, (e.compile program).1 = .ok code →
      allowed (e.compile program).2 code) {turns : Nat} {answer : Except EngineError Value}
    (hr : e.eval host turns program = some (answer, e')) :
    ∃ deeds, Past host allowed ⟨.rest e',
      deeds ++ .compiled e.compiler e.system.world.heap.functions program :: log⟩ := by
  have hcompile := hp.step (.compile e log program)
  unfold Engine.eval at hr
  cases hc : e.compile program with
  | mk result e₁ =>
    rw [hc] at hr hcompile ha
    cases result with
    | ok code =>
      have hissued := mem_issued_of_compile (congrArg Prod.fst hc) log
      obtain ⟨deeds, hd⟩ := hcompile.of_run hissued (ha code rfl) hr
      refine ⟨deeds ++ [.began code], ?_⟩
      rwa [List.append_assoc]
    | error error =>
      cases hr
      exact ⟨[], hcompile⟩

end History

end ScriptEngine
