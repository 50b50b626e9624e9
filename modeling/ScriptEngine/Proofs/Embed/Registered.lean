import ScriptEngine.Proofs.Compiler.Builtins
import ScriptEngine.Proofs.Compiler.Scripts
import ScriptEngine.Proofs.Embed.History
import ScriptEngine.Proofs.Scope.Lookup

/-!
# Registered builtins

The compiler, the engine and its machine each know the builtins, and the code refers to them by
number. Whatever is registered, again or for the first time, and whatever is refused in between, the
three know the same names in the same order. So the number that the compiler gave out for a name
finds, at all later times, what was registered last under that name.

A worker is a copy of the machine that started it, and builtins are not shared: it finds what was
registered last when the first of its line was started.

## Main definitions

* `ScriptEngine.registryOf`, `ScriptEngine.lastRegistered`: what a log tells about the builtins;
* `ScriptEngine.Origin`: the log as it was when a machine was copied;
* `ScriptEngine.History.Agreement`: the agreement on builtins.

## Main results

* `ScriptEngine.History.Past.builtins_agree`: the agreement holds in all histories.
-/

namespace ScriptEngine

open ScopeTable

/-! ### What a log tells about the builtins -/

/-- **The registry** to which a log of deeds leads. -/
def registryOf : List Deed → Registry
  | [] => {}
  | .registered name v :: log => ((registryOf log).insert name v).2
  | _ :: log => registryOf log

/-- **The value that was registered last** under a name. -/
def lastRegistered (name : String) : List Deed → Option Value
  | [] => none
  | .registered other v :: log => if name = other then some v else lastRegistered name log
  | _ :: log => lastRegistered name log

theorem indexed_registryOf (log : List Deed) : (registryOf log).Indexed := by
  induction log with
  | nil => exact Registry.indexed_empty
  | cons d log ih =>
    cases d with
    | registered name v => exact ih.insert name v
    | _ => exact ih

/-- A name that has an index has the value that was registered last. -/
theorem get?_registryOf {log : List Deed} {name : String} {i : Nat}
    (hi : (registryOf log).names[i]? = some name) :
    (registryOf log).get? i = lastRegistered name log := by
  induction log with
  | nil => cases hi
  | cons d log ih =>
    cases d with
    | registered other v =>
      have hindexed := indexed_registryOf log
      have step := Registry.get?_insert hindexed hi
      refine step.trans ?_
      unfold lastRegistered
      split
      · rfl
      · rename_i hne
        exact ih (Registry.getElem?_names_of_insert hindexed hne hi)
    | _ => exact ih hi

/-- Names stay where they are. -/
theorem names_registryOf_prefix (later earlier : List Deed) :
    (registryOf earlier).names <+: (registryOf (later ++ earlier)).names := by
  induction later with
  | nil => exact List.prefix_rfl
  | cons d later ih =>
    cases d with
    | registered name v =>
      exact ih.trans (Registry.names_prefix_insert (indexed_registryOf _) name v)
    | _ => exact ih

/-- Under a name that has no index, nothing was registered. -/
theorem lastRegistered_eq_none {log : List Deed} {name : String}
    (h : name ∉ (registryOf log).names) : lastRegistered name log = none := by
  induction log with
  | nil => rfl
  | cons d log ih =>
    cases d with
    | registered other v =>
      have hindexed := indexed_registryOf log
      have hne : name ≠ other := by
        rintro rfl
        exact h (List.mem_of_getElem? (Registry.getElem?_names_insert hindexed name v))
      have hmem : name ∉ (registryOf log).names := fun hm =>
        h ((Registry.names_prefix_insert hindexed other v).subset hm)
      exact (if_neg hne).trans (ih hmem)
    | _ => exact ih h

/-- **At an earlier time** an index finds what was registered last until then, if anything was. -/
theorem get?_registryOf_earlier {later earlier : List Deed} {name : String} {i : Nat}
    (hi : (registryOf (later ++ earlier)).names[i]? = some name) :
    (registryOf earlier).get? i = lastRegistered name earlier := by
  have hprefix := names_registryOf_prefix later earlier
  rcases Nat.lt_or_ge i (registryOf earlier).names.length with hlt | hge
  · refine get?_registryOf ?_
    rw [List.prefix_iff_getElem?.mp hprefix i hlt] at hi
    rw [List.getElem?_eq_getElem hlt]
    exact hi
  · -- the name came later
    have hnone : (registryOf earlier).entries[i]? = none :=
      Array.getElem?_eq_none (Registry.length_names _ ▸ hge)
    have hmem : name ∉ (registryOf earlier).names := by
      intro hm
      obtain ⟨j, hj, hget⟩ := List.getElem_of_mem hm
      have hj' := List.prefix_iff_getElem?.mp hprefix j hj
      rw [hget] at hj'
      have hindexed := indexed_registryOf (later ++ earlier)
      have := ((hindexed _ _).mpr hi).symm.trans ((hindexed _ _).mpr hj')
      exact absurd (Option.some.inj this) (Nat.ne_of_gt (Nat.lt_of_lt_of_le hj hge))
    unfold Registry.get?
    rw [hnone, lastRegistered_eq_none hmem]
    rfl

/-- **The log as it was when a machine was made**: that of the engine knows all that was registered
since, and a worker what the machine that started it knew at its start. -/
inductive Origin : List Deed → Option (Ref .thread) → List Deed → Prop
  | engine (log : List Deed) : Origin log none log
  | worker {later earlier older : List Deed} {thread : Ref .thread} {starter : Option (Ref .thread)}
    (h : Origin earlier starter older) :
    Origin (later ++ .started thread starter :: earlier) (some thread) older

namespace Origin

variable {log older : List Deed} {thread : Option (Ref .thread)}

theorem suffix (h : Origin log thread older) : older <:+ log := by
  induction h with
  | engine log => exact List.suffix_rfl
  | worker h ih => exact ih.trans ((List.suffix_cons ..).trans (List.suffix_append ..))

/-- What happens later does not change the origin of a worker. -/
theorem append_worker {thread : Ref .thread} (h : Origin log (some thread) older)
    (deeds : List Deed) : Origin (deeds ++ log) (some thread) older := by
  cases h with
  | worker h =>
    rw [← List.append_assoc]
    exact .worker h

end Origin

/-! ### Machines -/

/-- **A step of a fiber** leaves the registry of its machine alone. -/
theorem Fiber.registry_step (host : Host) (world : World) (f : Fiber) :
    (f.step host world).2.1.machine.registry = f.machine.registry := by
  by_cases hd : f.pending = [] → ∀ o, f.control = .deliver o → ∃ c, f.goal = .call c
  · exact (f.same_step host world hd).registry
  · obtain ⟨m, ctx, control, pending, goal⟩ := f
    cases control with
    | deliver o =>
      simp only [Fiber.step, Fiber.deliver]
      split
      · split <;> rfl
      · rfl
      · rfl
      · split <;> rfl
    | _ => exact absurd (fun _ _ h => by cases h) hd

/-! ### Logs -/

/-- Nothing is registered by what a party does. -/
theorem registryOf_append {deeds log : List Deed}
    (h : ∀ d ∈ deeds, ∀ name v, d ≠ .registered name v) :
    registryOf (deeds ++ log) = registryOf log := by
  induction deeds with
  | nil => rfl
  | cons d deeds ih =>
    have ih := ih fun d hd => h d (List.mem_cons_of_mem _ hd)
    cases d with
    | registered name v => exact absurd rfl (h _ List.mem_cons_self name v)
    | _ => exact ih

theorem Party.not_registered (host : Host) (w : World) (p : Party) :
    ∀ d ∈ p.deeds host w, ∀ name v, d ≠ .registered name v := by
  rintro d hd name v rfl
  unfold Party.deeds at hd
  rcases List.mem_append.mp hd with hd | hd
  · unfold Event.deeds at hd
    split at hd
    · cases List.mem_singleton.mp hd
    · cases hd
  · obtain ⟨_, -, h⟩ := Option.map_eq_some_iff.mp (Option.mem_toList.mp hd)
    cases h

/-- What was registered before an engine was built. -/
theorem registryOf_build (builtins : List (String × Value)) (log : List Deed) :
    registryOf ((builtins.map fun b => Deed.registered b.1 b.2).reverse ++ log) =
      builtins.foldl (fun r b => (r.insert b.1 b.2).2) (registryOf log) := by
  induction builtins generalizing log with
  | nil => rfl
  | cons b builtins ih =>
    rw [List.map_cons, List.reverse_cons, List.append_assoc, List.singleton_append, ih]
    rfl

/-! ### The agreement -/

/-- **An instruction that loads a value** from the builtins of its machine. Without a value it
fails. -/
def Execution.Loads (x : Execution) (v : Option Value) : Prop :=
  ∀ (ctx : Context) (s : State), s.machine.registry = x.machine.registry →
    Exec.execute ctx x.instruction s = Exec.proceed (do
      Exec.push (← Exec.entry v (.builtinMissing x.instruction.first.toNat))) s

theorem Execution.loads {x : Execution} (hop : x.instruction.op = .loadBuiltin) :
    x.Loads (x.machine.registry.get? x.instruction.first.toNat) := by
  intro ctx s hs
  unfold Exec.execute
  simp only [hop]
  rw [← hs]
  rfl

/-- **A party whose machine knows what it has to know**: what was registered until it was made. -/
def Party.Informed (log : List Deed) (p : Party) : Prop :=
  ∃ older, Origin log p.thread older ∧ p.fiber.machine.registry = registryOf older

theorem Party.Informed.append {log deeds : List Deed} {p : Party} (h : p.Informed log)
    (hd : ∀ d ∈ deeds, ∀ name v, d ≠ .registered name v) : p.Informed (deeds ++ log) := by
  obtain ⟨older, ho, heq⟩ := h
  unfold Party.Informed
  cases ht : p.thread with
  | none =>
    rw [ht] at ho
    cases ho
    exact ⟨_, .engine _, heq.trans (registryOf_append hd).symm⟩
  | some thread =>
    rw [ht] at ho
    exact ⟨older, ho.append_worker deeds, heq⟩

/-- **What a party does** leaves it informed, and whom it starts. -/
theorem Party.Informed.step (host : Host) (w : World) {log : List Deed} {p : Party}
    (h : p.Informed log) :
    Party.Informed (p.deeds host w ++ log) ⟨p.thread, (p.fiber.step host w).2.1⟩ ∧
      ∀ q ∈ (p.fiber.step host w).1.started, q.Informed (p.deeds host w ++ log) := by
  constructor
  · obtain ⟨older, ho, heq⟩ := h.append (Party.not_registered host w p)
    exact ⟨older, ho, (p.fiber.registry_step host w).trans heq⟩
  · intro q hq
    have hregistry := (p.fiber.started_step host w q hq).2
    unfold Party.deeds
    cases hevent : (p.fiber.step host w).1 with
    | spawned worker =>
      rw [hevent] at hq
      obtain rfl := List.mem_singleton.mp hq
      have hexecuted : ∀ d ∈ ((p.execution? w).map Deed.executed).toList,
          ∀ name v, d ≠ .registered name v := fun d hd =>
        Party.not_registered host w p d (List.mem_append_right _ hd)
      obtain ⟨older, ho, heq⟩ := h.append hexecuted
      have hstarted : Origin ([] ++ .started worker.thread p.thread ::
          (((p.execution? w).map Deed.executed).toList ++ log)) (some worker.thread)
            older := .worker ho
      exact ⟨older, hstarted, hregistry.trans heq⟩
    | _ =>
      rw [hevent] at hq
      cases hq

/-! ### Engines -/

/-- **The compiler and the engine agree** on the builtins of a registry. -/
structure Engine.Agrees (e : Engine) (r : Registry) : Prop where
  atTop : e.compiler.AtTop
  wellFormed : e.compiler.table.WellFormed
  numbered : e.compiler.table.Numbered
  names : e.compiler.table.builtins.toList = r.names
  builtins : e.builtins = r

namespace Engine.Agrees

variable {e : Engine} {r : Registry}

/-- Another compiler that knows the same builtins. -/
theorem of_grows (h : e.Agrees r) {e' : Engine} (ht : e'.compiler.AtTop)
    (hw : e'.compiler.table.WellFormed) (g : e.compiler.table.Grows e'.compiler.table)
    (hb : e'.builtins = e.builtins) : e'.Agrees r where
  atTop := ht
  wellFormed := hw
  numbered := by
    refine ⟨?_, g.builtins ▸ h.numbered.size⟩
    rw [g.builtins, g.builtinIndex]
    exact h.numbered.finds
  names := g.builtins ▸ h.names
  builtins := hb.trans h.builtins

theorem compile (h : e.Agrees r) (program : Program) : (e.compile program).2.Agrees r := by
  obtain ⟨ht, hw, g⟩ := h.atTop.compile h.wellFormed e.system.world.heap.functions program
  exact h.of_grows ht hw g rfl

/-- A global that is set is neither of the machine nor of the workers. -/
theorem set (h : e.Agrees r) {e' : Engine} {name : String} {t : HostType} {x : t.Carrier}
    {answer : Except EngineError Unit} (hs : e.set name t x = (answer, e')) :
    e'.Agrees r ∧ e'.system.machine = e.system.machine ∧ e'.system.workers = e.system.workers := by
  obtain ⟨ht, hw, g⟩ := h.atTop.declareGlobal h.wellFormed name
  cases answer with
  | ok =>
    obtain ⟨slot, compiler, hd, rfl⟩ := Engine.set_eq_ok hs
    rw [hd] at ht hw g
    exact ⟨h.of_grows ht hw g rfl, rfl, rfl⟩
  | error =>
    obtain ⟨reason, compiler, hd, -, rfl⟩ := Engine.set_eq_error hs
    rw [hd] at ht hw g
    exact ⟨h.of_grows ht hw g rfl, rfl, rfl⟩

/-- **A name gets the same number** from the compiler and from the registry of the engine. -/
theorem addBuiltin (h : e.Agrees r) (hr : r.Indexed) {name : String} {slot : Word}
    (ha : (e.compiler.addBuiltin name).1 = .ok slot) (v : Value) :
    slot.toNat = (e.builtins.insert name v).1 ∧
      (e.compiler.addBuiltin name).2.table.builtins.toList = (r.insert name v).2.names := by
  obtain ⟨-, -, hn, -, hok⟩ := h.atTop.addBuiltin h.wellFormed h.numbered name
  obtain ⟨hnames, hat⟩ := hok slot ha
  rw [h.names, ← Registry.names_insert hr name v] at hnames
  rw [hnames] at hat
  have hslot := (hr.insert name v name slot.toNat).mpr hat
  have hindex := (hr.insert name v name _).mpr (Registry.getElem?_names_insert hr name v)
  rw [h.builtins]
  exact ⟨Option.some.inj (hslot.symm.trans hindex), hnames⟩

/-- **A registration** that succeeds. -/
theorem register (h : e.Agrees r) (hr : r.Indexed) {e' : Engine} {name : String}
    {body : BuiltinBody} (hs : e.register name body = (.ok (), e')) :
    e'.Agrees (r.insert name (e.system.world.heap.newNamed name body).1).2 ∧
      e'.system.machine.registry =
        (r.insert name (e.system.world.heap.newNamed name body).1).2 ∧
      e'.system.workers = e.system.workers := by
  obtain ⟨ht, hw, hn, -, -⟩ := h.atTop.addBuiltin h.wellFormed h.numbered name
  obtain ⟨slot, compiler, ha, -, rfl⟩ := Engine.register_eq_ok hs
  obtain ⟨-, hnames⟩ := h.addBuiltin hr (congrArg Prod.fst ha)
    (e.system.world.heap.newNamed name body).1
  rw [ha] at ht hw hn hnames
  exact ⟨⟨ht, hw, hn, hnames, congrArg (fun r : Registry => (r.insert name _).2) h.builtins⟩,
    congrArg (fun r : Registry => (r.insert name _).2) h.builtins, rfl⟩

/-- **A registration that fails** was refused by the compiler, which never disagrees with the
registry. -/
theorem registerRefused (h : e.Agrees r) (hr : r.Indexed) {e' : Engine} {name : String}
    {body : BuiltinBody} {error : EngineError} (hs : e.register name body = (.error error, e')) :
    (∃ reason, error = .compile reason) ∧ e'.Agrees r ∧ e'.system = e.system := by
  obtain ⟨ht, hw, hn, herr, -⟩ := h.atTop.addBuiltin h.wellFormed h.numbered name
  obtain ⟨slot, compiler, ha, hslot, -⟩ | ⟨reason, compiler, ha, rfl, rfl⟩ :=
    Engine.register_eq_error hs
  -- in an engine that agrees with its registry the numbers do not differ
  · exact absurd (h.addBuiltin hr (congrArg Prod.fst ha) _).1 hslot
  · have hsame := herr reason (congrArg Prod.fst ha)
    rw [ha] at ht hw hn hsame
    exact ⟨⟨reason, rfl⟩, ⟨ht, hw, hn, (congrArg (·.builtins.toList) hsame).trans h.names,
      h.builtins⟩, rfl⟩

/-- An engine that was just built. -/
theorem withBuiltins {s : System} {ctx : Context} (hr : r.Indexed)
    (h : Engine.withBuiltins s r ctx = .ok e) :
    e.Agrees r ∧ e.system = s.withRegistry r := by
  obtain ⟨compiler, hc, rfl⟩ := Engine.withBuiltins_eq_ok h
  obtain ⟨ht, hw, hn, hnames⟩ := Compiler.atTop_withBuiltins hc
  have hnodup : ([] ++ r.names).Nodup := hr.nodup
  have hall : r.names.foldl namesWith [] = r.names := foldl_namesWith hnodup
  exact ⟨⟨ht, hw, hn, hnames.trans hall, rfl⟩, rfl⟩

end Engine.Agrees

namespace History

variable {host : Host} {allowed : Engine → Code → Prop} {h h' : History}

/-- **The agreement on builtins**, with what holds of all machines and of all that was executed. -/
structure Registers (h : History) : Prop where
  engine : h.scene.engine.Agrees (registryOf h.log)
  machine : h.scene.machine.registry = registryOf h.log
  own : ∀ e m, h.scene = .work e m → m.party.thread = none
  parties : ∀ p ∈ h.scene.parties, p.Informed h.log

namespace Registers

/-- An engine that was just built. -/
theorem fresh (hf : h.Fresh) : h.Registers := by
  cases hf with
  | @build config heap controls builtins ctx e hfs he =>
    have hlog : registryOf (builtins.map fun b => Deed.registered b.1 b.2).reverse =
        .ofList builtins := by
      have := registryOf_build builtins []
      rwa [List.append_nil] at this
    obtain ⟨hagrees, hsystem⟩ := Engine.Agrees.withBuiltins (hlog ▸ indexed_registryOf _) he
    refine ⟨hlog ▸ hagrees, ?_, fun _ _ h => (by cases h), ?_⟩
    · show e.system.machine.registry = _
      rw [hsystem, hlog]
      rfl
    · intro p hp
      have hp : p ∈ e.system.workers.map Worker.party := hp
      rw [hsystem] at hp
      cases hp

/-- **The host did something** with an engine at rest. Its workers do not notice. -/
theorem rest {e e' : Engine} {log : List Deed} (hr : Registers ⟨.rest e, log⟩) {d : Deed}
    (he : e'.Agrees (registryOf (d :: log)))
    (hm : e'.system.machine.registry = registryOf (d :: log))
    (hw : e'.system.workers = e.system.workers) : Registers ⟨.rest e', d :: log⟩ where
  engine := he
  machine := hm
  own _ _ h := by cases h
  parties := by
    intro p hp
    have hp : p ∈ e'.system.workers.map Worker.party := hp
    rw [hw] at hp
    obtain ⟨older, ho, heq⟩ := hr.parties p hp
    obtain ⟨worker, -, rfl⟩ := List.mem_map.mp hp
    exact ⟨older, ho.append_worker [d], heq⟩

/-- An engine that refused something, or that got another context. -/
theorem refused {e e' : Engine} {log : List Deed} (hr : Registers ⟨.rest e, log⟩)
    (he : e'.Agrees (registryOf log)) (hm : e'.system.machine = e.system.machine)
    (hw : e'.system.workers = e.system.workers) : Registers ⟨.rest e', log⟩ where
  engine := he
  machine := (congrArg Machine.registry hm).trans hr.machine
  own _ _ h := by cases h
  parties p hp := hr.parties p (by
    have hp : p ∈ e'.system.workers.map Worker.party := hp
    rwa [hw] at hp)

/-- **A run or a call begins.** -/
theorem begin {e : Engine} {log deeds : List Deed} (hr : Registers ⟨.rest e, log⟩)
    (hd : ∀ d ∈ deeds, ∀ name v, d ≠ .registered name v) {f : Fiber}
    (hf : f.machine.registry = e.system.machine.registry) (world : World) :
    Registers ⟨.work e (e.system.begin f world), deeds ++ log⟩ := by
  have hlog : registryOf (deeds ++ log) = registryOf log := registryOf_append hd
  refine ⟨hlog ▸ hr.engine, hf.trans (hr.machine.trans hlog.symm), ?_, ?_⟩
  · rintro _ _ ⟨⟩
    rfl
  · intro p hp
    rcases List.mem_cons.mp hp with rfl | hp
    · exact ⟨_, .engine _, hf.trans (hr.machine.trans hlog.symm)⟩
    · exact (hr.parties p hp).append hd

/-- **A party does something.** -/
theorem perform {e : Engine} {log deeds : List Deed} {m m' : Moment}
    (hr : Registers ⟨.work e m, log⟩) (hm : m.Performs host deeds m') :
    Registers ⟨.work e m', deeds ++ log⟩ := by
  have hnone : m.party.thread = none := hr.own e m rfl
  have hparty : m'.party.thread = none ∧
      m'.party.fiber.machine.registry = m.party.fiber.machine.registry := by
    rcases hm.party with rfl | heq
    · exact ⟨hnone, m.party.fiber.registry_step host m.world⟩
    · rw [heq]
      exact ⟨hnone, rfl⟩
  have hmachine : m.party.fiber.machine.registry = registryOf log := hr.machine
  rcases hm.cases with ⟨q, hq, rfl, -, hparties⟩ | ⟨rfl, hparties, -, -⟩
  · have hlog : registryOf (q.deeds host m.world ++ log) = registryOf log :=
      registryOf_append (q.not_registered host m.world)
    have hstep := Party.Informed.step host m.world (hr.parties q hq)
    refine ⟨hlog ▸ hr.engine, hparty.2.trans (hmachine.trans hlog.symm), ?_, ?_⟩
    · rintro _ _ ⟨⟩
      exact hparty.1
    · intro p hp
      rcases hparties p hp with rfl | hp | hp
      · exact hstep.1
      · exact hstep.2 p hp
      · exact (hr.parties p hp).append (q.not_registered host m.world)
  · refine ⟨hr.engine, hparty.2.trans hmachine, ?_, ?_⟩
    · rintro _ _ ⟨⟩
      exact hparty.1
    · exact fun p hp => hr.parties p (hparties p hp)

/-- **The work ends**, and the machine is the one that was at work. -/
theorem finish {e : Engine} {log : List Deed} {m : Moment} {o : Outcome} {s : System}
    (hr : Registers ⟨.work e m, log⟩) (he : m.Ends o s) :
    Registers ⟨.rest { e with system := s }, log⟩ where
  engine := ⟨hr.engine.atTop, hr.engine.wellFormed, hr.engine.numbered, hr.engine.names,
    hr.engine.builtins⟩
  machine := (congrArg Machine.registry he.machine).trans hr.machine
  own _ _ h := by cases h
  parties := by
    intro p hp
    have hp : p ∈ s.workers.map Worker.party := hp
    rw [he.workers] at hp
    exact hr.parties p (List.mem_cons_of_mem _ hp)

end Registers

/-- **In all histories** the compiler, the engine and the machines agree on the builtins. -/
theorem Past.registers (hp : h.Past host allowed) : h.Registers := by
  refine hp.induction (fun h hf => .fresh hf) fun h h' _ hr hs => ?_
  cases hs with
  | compile e log program =>
    exact hr.rest (hr.engine.compile program) hr.machine rfl
  | set he =>
    obtain ⟨hagrees, hmachine, hworkers⟩ := hr.engine.set he
    exact hr.rest hagrees ((congrArg Machine.registry hmachine).trans hr.machine) hworkers
  | setRefused he =>
    obtain ⟨hagrees, hmachine, hworkers⟩ := hr.engine.set he
    exact hr.refused hagrees hmachine hworkers
  | @register e e' log name body he =>
    obtain ⟨hagrees, hmachine, hworkers⟩ := hr.engine.register (indexed_registryOf log) he
    exact hr.rest hagrees hmachine hworkers
  | @registerRefused e e' log name body error he =>
    obtain ⟨-, hagrees, hsystem⟩ := hr.engine.registerRefused (indexed_registryOf log) he
    exact hr.refused hagrees (congrArg System.machine hsystem) (congrArg System.workers hsystem)
  | context e log ctx =>
    exact hr.refused (hr.engine.of_grows hr.engine.atTop hr.engine.wellFormed (.refl _) rfl) rfl rfl
  | @run e log code hc ha =>
    have quiet : ∀ d ∈ [Deed.began code], ∀ name v, d ≠ .registered name v := by simp
    exact hr.begin quiet rfl _
  | @call e log name callee hc args =>
    have quiet : ∀ d ∈ [Deed.called callee args], ∀ name v, d ≠ .registered name v := by simp
    exact hr.begin quiet rfl _
  | wait e log =>
    have quiet : ∀ d ∈ ([] : List Deed), ∀ name v, d ≠ .registered name v := by simp
    exact hr.begin quiet rfl _
  | perform hm => exact hr.perform hm
  | finish he => exact hr.finish he

/-- **The agreement on builtins.** The compiler, the engine and its machine know the same names in
the same order, so that no registration ever finds a name at another place than the compiler. What
an instruction loads that was compiled for a name, now or later, is what was registered last under
that name, when the instruction is executed by the engine itself, and in a worker what was
registered last until the first of its line was started. -/
structure Agreement (host : Host) (allowed : Engine → Code → Prop) (h : History) : Prop where
  compiler : h.scene.engine.compiler.table.builtins.toList = h.scene.engine.builtins.names
  machine : h.scene.machine.registry = h.scene.engine.builtins
  registers : ∀ {e e' : Engine} {name : String} {body : BuiltinBody} {error : EngineError},
    h.scene = .rest e → e.register name body = (.error error, e') →
      ∃ reason, error = .compile reason
  loads : ∀ {t t' : ScopeTable} {s : ScopeId} {name : String} {r : Resolution},
    h.scene.engine.compiler.table.Grows t → t.WellFormed →
    ScopeTable.resolve s name t = .ok (some r) t' → r.storage = .builtin →
    ∀ {h' : History} {later earlier : List Deed} {x : Execution}, h.Steps host allowed h' →
      h'.log = later ++ .executed x :: earlier →
      x.instruction.op = .loadBuiltin → x.instruction.first = r.symbol.index →
      ∃ older, Origin earlier x.thread older ∧ x.Loads (lastRegistered name older)

/-- **The agreement on builtins is never broken**, whatever a host does and in whatever order, and
whatever of it fails. -/
theorem Past.builtins_agree (hp : h.Past host allowed) : h.Agreement host allowed := by
  have hr := hp.registers
  refine ⟨?_, hr.machine.trans hr.engine.builtins.symm, ?_, ?_⟩
  · rw [hr.engine.builtins]
    exact hr.engine.names
  · intro e e' name body error hscene he
    have hagrees := hr.engine
    rw [hscene] at hagrees
    exact (hagrees.registerRefused (indexed_registryOf _) he).1
  · intro t t' s name r g hw hres hs h' later earlier x hsteps hlog hop hfirst
    -- the number of the name, which it had already before the batch
    have hindex := (resolve_outside hw hres (.inr hs)).builtinIndex hs
    rw [g.builtinIndex] at hindex
    have hname := (hr.engine.numbered.finds name _).mp (congrArg (Option.map UInt16.toNat) hindex)
    rw [hr.engine.names, ← hfirst] at hname
    -- the instruction was executed by a party that knew what its origin says
    obtain ⟨e, m, hp', q, hq, hx⟩ := (hp.steps hsteps).follows hlog
    obtain ⟨hthread, hmachine⟩ := Party.eq_of_execution? hx
    obtain ⟨older, ho, hregistry⟩ := hp'.registers.parties q hq
    rw [← hthread] at ho
    rw [← hmachine] at hregistry
    refine ⟨older, ho, ?_⟩
    -- names stay where they are
    obtain ⟨deeds, hdeeds⟩ := hsteps.log
    obtain ⟨between, rfl⟩ := ho.suffix
    have hlate : (registryOf ((later ++ .executed x :: between) ++ older)).names[
        x.instruction.first.toNat]? = some name := by
      rw [List.append_assoc, List.cons_append, ← hlog, hdeeds]
      have hlt := (List.getElem?_eq_some_iff.mp hname).1
      have hprefix := names_registryOf_prefix deeds h.log
      rw [List.prefix_iff_getElem?.mp hprefix _ hlt, ← List.getElem?_eq_getElem hlt]
      exact hname
    have hloads := x.loads hop
    rwa [hregistry, get?_registryOf_earlier hlate] at hloads

end History

/-! ### A worker that started before

A script starts a worker with a builtin and ends. The name of the builtin is registered again, and
only then the worker begins: it loads what the name stood for when it was started. -/

namespace Stale

/-- The script: `spawn(func() { return spawn })`. -/
def program : Program :=
  [.expr (.call (.ident "spawn") [.func (.mk none [] [.ret (some (.ident "spawn"))])])]

def host : Host := ⟨fun _ _ _ => .value .nil⟩

def heap : Heap := { builtins := #[⟨"spawn", .spawn⟩] }

def registry : Registry where
  entries := #[("spawn", .builtin ⟨0⟩)]
  index := (∅ : Std.HashMap String Nat).insert "spawn" 0

/-! #### The scopes of the script -/

def outermost : ScopeData := { parent := none, kind := .function }

def inner : ScopeData := { parent := some ⟨0⟩, kind := .function }

def block : ScopeData := { parent := some ⟨1⟩, kind := .block }

def table (scopes : Array ScopeData) : ScopeTable where
  scopes
  builtins := #["spawn"]
  builtinIndex := (∅ : Std.HashMap String Word).insert "spawn" 0

/-- All scopes of the script. -/
def scopes : ScopeTable := table #[outermost, inner, block]

/-- A scope that declares nothing, inside of an earlier one. -/
def Bare (t : ScopeTable) (s : ScopeId) : Prop :=
  t.scope s = outermost ∨ t.scope s = inner ∧ s.index = 1 ∨ t.scope s = block ∧ s.index = 2

theorem bare_outermost : ∀ s : ScopeId, Bare (table #[outermost]) s
  | ⟨0⟩ => .inl rfl
  | ⟨_ + 1⟩ => .inl rfl

theorem bare_scopes : ∀ s : ScopeId, Bare scopes s
  | ⟨0⟩ => .inl rfl
  | ⟨1⟩ => .inr (.inl ⟨rfl, rfl⟩)
  | ⟨2⟩ => .inr (.inr ⟨rfl, rfl⟩)
  | ⟨_ + 3⟩ => .inl rfl

/-- Nobody declares the name, so it is that of the builtin. -/
theorem resolve_eq {t : ScopeTable} (hb : t.builtinIndex["spawn"]? = some 0)
    (hs : ∀ s : ScopeId, Bare t s) (s : ScopeId) :
    ScopeTable.resolve s "spawn" t = .ok (some ⟨⟨"spawn", 0, true⟩, .builtin, 0, 0⟩) t := by
  have ht : ∀ s p : ScopeId, (t.scope s).parent = some p → p.index < s.index := by
    intro s p hp
    rcases hs s with h | ⟨h, hi⟩ | ⟨h, hi⟩
    all_goals
      rw [h] at hp
      cases hp
    · exact hi ▸ Nat.zero_lt_one
    · exact hi ▸ Nat.one_lt_two
  have hu : ∀ s, t.known? s "spawn" = none := by
    intro s
    unfold known? get?
    rcases hs s with h | ⟨h, -⟩ | ⟨h, -⟩ <;> rw [h] <;> simp [outermost, inner, block]
  exact resolveWithin_undeclared ht hu hb _ s (Nat.lt_succ_self _)

/-! #### The code of the script -/

/-- The function of the worker. -/
def function : Function where
  name := none
  parameters := []
  defaults := []
  code := (({} : Code).emit .loadBuiltin [0]).emit .returnValue [1]

/-- The code before the function is put in. -/
def opening : Code := ({} : Code).emit .loadBuiltin [0]

/-- The code after it. -/
def filled : Code := { opening.emit .loadConst [0] with constants := #[.function ⟨0⟩] }

def code : Code := filled.emit .call [1]

/-- An engine that knows the builtin. -/
def start : Engine where
  compiler := { table := table #[outermost] }
  system := { machine := { registry }, world := { heap } }
  builtins := registry

theorem build_eq : Engine.withBuiltins { world := { heap } }
    (.ofList [("spawn", .builtin ⟨0⟩)]) .background = .ok start := by
  have hadd : ScopeTable.addBuiltin "spawn" .empty = .ok 0 (table #[outermost]) := by
    rw [addBuiltin_new (by simp [ScopeTable.empty])]
    rfl
  have htable : ScopeTable.withBuiltins ["spawn"] = .ok (table #[outermost]) := by
    have hrun : (["spawn"].forM fun name => do let _ ← ScopeTable.addBuiltin name).run
        ScopeTable.empty = .ok () (table #[outermost]) :=
      bind_eq_ok.mpr ⟨_, _, bind_eq_ok.mpr ⟨_, _, hadd, rfl⟩, rfl⟩
    unfold ScopeTable.withBuiltins
    rw [hrun]
  have hregistry : Registry.ofList [("spawn", .builtin ⟨0⟩)] = registry := by
    simp [Registry.ofList, Registry.insert, registry]
  have hnames : registry.names = ["spawn"] := rfl
  unfold Engine.withBuiltins Compiler.withBuiltins
  rw [hregistry, hnames, htable]
  rfl

/-- The function in the script. -/
def literal : Func :=
  .mk none [] [.ret (some (.ident "spawn"))]

/-- The state of the compiler inside the function. -/
def inside (c : Code) : Emission where
  table := scopes
  body := { code := c, scope := ⟨2⟩ }
  enclosing := [{ code := opening, scope := root }]
  functions := #[]

/-- The state of the compiler in the script, when some functions have been compiled. -/
def outside (t : ScopeTable) (c : Code) (functions : Array Function) : Emission :=
  ⟨t, { code := c, scope := root }, [], none, functions⟩

theorem body_eq : Generate.statements literal.body (inside {}) =
    .ok () (inside function.code) := by
  have hload : Generate.exprAs .call (.ident "spawn") (inside {}) =
      .ok () (inside (Code.emit {} .loadBuiltin [0])) :=
    Generate.exprAs_ident (s := inside {})
      (resolve_eq Std.HashMap.getElem?_insert_self bare_scopes ⟨2⟩)
  exact bind_eq_ok.mpr ⟨(), _, bind_eq_ok.mpr ⟨_, _, rfl, bind_eq_ok.mpr ⟨(), _, hload, rfl⟩⟩, rfl⟩

theorem func_eq : Generate.func literal (outside (table #[outermost]) opening #[]) =
    .ok () (outside scopes filled #[function]) := by
  let opened : Emission := { inside {} with table := table #[outermost, inner], body.scope := ⟨1⟩ }
  have hblock : Emit.inBlock (Generate.statements literal.body) opened =
      .ok () { inside function.code with body.scope := ⟨1⟩ } :=
    Emit.inBlock_of_ok (s := opened) body_eq
  have hadd : opening.addConstant? (.function ⟨0⟩) =
      some (0, { opening with constants := #[.function ⟨0⟩] }) :=
    Code.addConstant?_of_new (fun _ hw => absurd hw (Array.not_mem_empty _)) (by decide)
  exact (Generate.function_of_ok (f := literal) (s := outside (table #[outermost]) opening #[])
    (t := table #[outermost, inner]) (Nat.zero_le _) rfl rfl rfl hblock rfl rfl).trans
    (Generate.instantiate_of_ok (s := outside scopes opening #[function]) hadd)

/-- **The script is accepted.** -/
theorem compile_eq : start.compiler.compile #[] program =
    (.ok code, { start.compiler with table := scopes, main := { code, scope := root } },
      #[function]) := by
  have hload : Generate.exprAs .call (.ident "spawn") (outside (table #[outermost]) {} #[]) =
      .ok () (outside (table #[outermost]) opening #[]) :=
    Generate.exprAs_ident (s := outside (table #[outermost]) {} #[])
      (resolve_eq Std.HashMap.getElem?_insert_self bare_outermost root)
  have hemit : Generate.statements program (start.compiler.emission #[]) =
      .ok () (outside scopes code #[function]) := by
    refine bind_eq_ok.mpr ⟨(), _, ?_, rfl⟩
    refine bind_eq_ok.mpr ⟨(), _, hload, ?_⟩
    exact bind_eq_ok.mpr ⟨(), _, bind_eq_ok.mpr ⟨(), _, func_eq, rfl⟩, rfl⟩
  exact Compiler.compile_of_ok hemit

/-! #### The worker -/

/-- The engine that compiled the script. -/
def compiled : Engine where
  compiler := { start.compiler with table := scopes, main := { code, scope := root } }
  system := { start.system with world.heap.functions := #[function] }
  builtins := registry

theorem engine_compile_eq : start.compile program = (.ok code, compiled) :=
  Engine.compile_of_ok (e := start) compile_eq

def worker : Worker where
  thread := ⟨0⟩
  fiber := .forCall { registry := registry } .background (.function ⟨0⟩) []

/-- The system after the script. The worker has not begun. -/
def waiting : System where
  machine := {
    registry
    stack := { contents := .ofList [.thread ⟨0⟩], limit := Config.standard.stackLimit }
    position := code.size
    status := .returned
    ticks := 4 }
  world := { heap := { heap with functions := #[function], threads := #[{}] } }
  workers := [worker]

theorem run_eq : compiled.run host 1 code =
    some (.ok (.thread ⟨0⟩), { compiled with system := waiting }) := rfl

/-- The engine after another builtin was registered under the name. -/
def renewed : Engine where
  compiler := compiled.compiler
  system := (waiting.onHeap (·.newNamed "spawn" .channel)).2.withRegistry
    { registry with entries := #[("spawn", .builtin ⟨1⟩)] }
  builtins := { registry with entries := #[("spawn", .builtin ⟨1⟩)] }

theorem register_eq : ({ compiled with system := waiting } : Engine).register "spawn" .channel =
    (.ok (), renewed) := by
  have hknown : compiled.compiler.addBuiltin "spawn" = (.ok 0, compiled.compiler) := by
    unfold Compiler.addBuiltin Compiler.onTable
    have hindex : compiled.compiler.table.builtinIndex["spawn"]? = some 0 :=
      Std.HashMap.getElem?_insert_self
    rw [addBuiltin_known hindex]
  have hinsert : registry.insert "spawn" (.builtin ⟨1⟩) =
      (0, { registry with entries := #[("spawn", .builtin ⟨1⟩)] }) := by
    have hindex : registry.index["spawn"]? = some 0 := Std.HashMap.getElem?_insert_self
    unfold Registry.insert
    rw [hindex]
    rfl
  have hnew : (waiting.onHeap (·.newNamed "spawn" .channel)).1 = .builtin ⟨1⟩ := rfl
  have hbuiltins : compiled.builtins = registry := rfl
  unfold Engine.register
  dsimp only
  rw [hknown, hbuiltins]
  dsimp only
  rw [hnew, hinsert]
  rfl

/-- The worker, which has entered its function. -/
def entered : Party := ⟨some ⟨0⟩, (worker.fiber.step host renewed.system.world).2.1⟩

/-- Its first instruction. -/
def execution : Execution where
  thread := some ⟨0⟩
  machine := entered.fiber.machine
  frame := { function := some function, code := function.code }
  instruction := ⟨0, .loadBuiltin, [0]⟩

/-- **The worker executes it** after the name was registered again. -/
theorem past : ∃ (m : Moment) (log : List Deed), History.Past host (fun _ _ => True)
    ⟨.work renewed m, .executed execution :: .registered "spawn" (.builtin ⟨1⟩) :: log⟩ := by
  have hfresh : History.Fresh ⟨.rest start, [.registered "spawn" (.builtin ⟨0⟩)]⟩ :=
    @History.Fresh.build .standard heap {} [("spawn", .builtin ⟨0⟩)] .background _ rfl build_eq
  have hstart : History.Past host (fun _ _ => True) _ := ⟨_, hfresh, .refl⟩
  have hcompiled := hstart.step (.compile start _ program)
  have hissued := mem_issued_of_compile (congrArg Prod.fst engine_compile_eq)
    [.registered "spawn" (.builtin ⟨0⟩)]
  rw [congrArg Prod.snd engine_compile_eq] at hcompiled
  obtain ⟨deeds, hrun⟩ := hcompiled.of_run hissued trivial run_eq
  have hregistered := hrun.step (.register register_eq)
  have hwaiting := hregistered.step (.wait renewed _)
  have hentered := hwaiting.step (.perform (.other (q := worker.party) rfl))
  exact ⟨_, _, hentered.step (.perform (.other (q := entered) rfl))⟩

end Stale

namespace History

/-- The agreement in the history of that worker. -/
theorem stale_builtins_agree : ∃ (m : Moment) (log : List Deed),
    Agreement Stale.host (fun _ _ => True) ⟨.work Stale.renewed m,
      .executed Stale.execution :: .registered "spawn" (.builtin ⟨1⟩) :: log⟩ := by
  obtain ⟨m, log, hp⟩ := Stale.past
  exact ⟨m, log, Past.builtins_agree hp⟩

/-- **A worker does not always load what was registered last** under the name of its builtin. -/
theorem not_loads_lastRegistered : ¬ ∀ (host : Host) (allowed : Engine → Code → Prop) (h : History),
    h.Past host allowed → ∀ (later earlier : List Deed) (x : Execution) (name : String),
      h.log = later ++ .executed x :: earlier → x.instruction.op = .loadBuiltin →
      h.scene.engine.builtins.names[x.instruction.first.toNat]? = some name →
      x.Loads (lastRegistered name earlier) := by
  intro hall
  obtain ⟨m, log, hp⟩ := Stale.past
  have hlast := hall _ _ _ hp [] _ Stale.execution "spawn" rfl rfl rfl
  have hfirst := Stale.execution.loads rfl
  let s : State := ⟨Stale.execution.machine, default⟩
  have heq := (hfirst .background s rfl).symm.trans (hlast .background s rfl)
  -- one of the two builtins would lie on top of the stack in both cases
  have htop := congrArg (fun r : EStateM.Result RuntimeError State Flow => match r with
    | .ok _ s => s.machine.stack.toList
    | .error _ _ => []) heq
  have hne : ([.builtin ⟨0⟩] : List Value) ≠ [.builtin ⟨1⟩] := by decide
  exact hne htop

end History

end ScriptEngine
