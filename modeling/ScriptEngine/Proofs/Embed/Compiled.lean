import ScriptEngine.Proofs.Compiler.Seams
import ScriptEngine.Proofs.Embed.History

/-!
# What was compiled

Compilers keep the functions that they compiled in the heap, which hosts and scripts work on. None
of them ever changes a function there, so the compiler of an engine finds what it left, and the
codes in a log are those that it gave out: each goes on where an earlier one ends.

## Main definitions

* `ScriptEngine.History.Compiles`: the compiler and the functions are those that the log tells of.

## Main results

* `ScriptEngine.History.Past.compiles`: they are, in all histories;
* `ScriptEngine.History.Past.joined`: the codes that were given out are joined at seams.
-/

namespace ScriptEngine

/-! ### Values of the host -/

/-- Steps for one item after the other leave the functions alone. -/
theorem functions_mapM {α β : Type} (f : α → StateM Heap β) :
    ∀ {xs : List α}, (∀ x ∈ xs, ∀ h, (f x h).2.functions = h.functions) →
      ∀ h : Heap, ((xs.mapM f) h).2.functions = h.functions
  | [], _, _ => rfl
  | x :: xs, hf, h => by
    rw [List.mapM_cons]
    have head := hf x List.mem_cons_self h
    have tail := functions_mapM f (fun y hy => hf y (List.mem_cons_of_mem x hy)) (f x h).2
    exact tail.trans head

/-- **A value of the host** is made without functions. -/
theorem HostType.functions_toValue : ∀ (t : HostType) (x : t.Carrier) (h : Heap),
    ((t.toValue x) h).2.functions = h.functions
  | .any, _, _ | .unit, _, _ | .bool, _, _ | .int64, _, _ | .int32, _, _ | .size, _, _
  | .double, _, _ | .single, _, _ | .string, _, _ => rfl
  | .list t, _, h => functions_mapM t.toValue (fun x _ => functions_toValue t x) h
  | .optional _, none, _ => rfl
  | .optional t, some x, h => functions_toValue t x h
  | .map t, _, h =>
    functions_mapM (fun (e : String × t.Carrier) => do
      let v ← t.toValue e.2
      return (e.1, v)) (fun e _ h => functions_toValue t e.2 h) h

namespace Engine

variable {e e' : Engine} {name : String} {answer : Except EngineError Unit}

/-- Neither a global nor a function of the host brings functions of scripts. -/
theorem functions_set {t : HostType} {x : t.Carrier} (h : e.set name t x = (answer, e')) :
    e'.system.world.heap.functions = e.system.world.heap.functions := by
  cases answer with
  | ok =>
    obtain ⟨slot, compiler, -, rfl⟩ := set_eq_ok h
    exact t.functions_toValue x e.system.world.heap
  | error =>
    obtain ⟨reason, compiler, -, -, rfl⟩ := set_eq_error h
    rfl

theorem functions_register {body : BuiltinBody} (h : e.register name body = (answer, e')) :
    e'.system.world.heap.functions = e.system.world.heap.functions := by
  cases answer with
  | ok =>
    obtain ⟨slot, compiler, -, -, rfl⟩ := register_eq_ok h
    rfl
  | error =>
    obtain ⟨slot, compiler, -, -, rfl⟩ | ⟨reason, compiler, -, -, rfl⟩ := register_eq_error h
    · rfl
    · rfl

end Engine

/-- Nothing is given out by what a party does. -/
theorem Moment.Performs.issued {host : Host} {m m' : Moment} {deeds : List Deed}
    (hm : m.Performs host deeds m') (log : List Deed) :
    ScriptEngine.issued (deeds ++ log) = ScriptEngine.issued log := by
  rcases hm.cases with ⟨q, -, rfl, -, -⟩ | ⟨rfl, -, -, -⟩
  · have hnone : ScriptEngine.issued (q.deeds host m.world) = [] := by
      refine List.filterMap_eq_nil_iff.mpr fun d hd => ?_
      obtain ⟨newer, older, heq⟩ := List.append_of_mem hd
      rcases Party.deeds_eq_append heq with ⟨_, rfl⟩ | ⟨_, rfl, -, -⟩ <;> rfl
    rw [issued_append, hnone, List.nil_append]
  · rfl

namespace History

variable {host : Host} {allowed : Engine → Code → Prop} {h h' : History}

/-! ### Codes and functions -/

/-- **What was compiled so far**: the compiler has accepted the batches whose codes are in the log,
its functions are those of the heap, and nobody is about to change them. -/
structure Compiles (h : History) : Prop where
  built : ∃ batches, h.scene.engine.compiler.Built h.scene.world.heap.functions batches ∧
    batches.map Batch.code = issued h.log
  parties : ∀ p ∈ h.scene.parties, p.fiber.Obeys

namespace Compiles

/-- An engine that was just built. -/
theorem fresh (hf : h.Fresh) : h.Compiles := by
  cases hf with
  | @build config heap controls builtins ctx e hfs he =>
    obtain ⟨c, hc, rfl⟩ := Engine.withBuiltins_eq_ok he
    refine ⟨⟨[], ?_, ?_⟩, fun p hp => absurd hp List.not_mem_nil⟩
    · show c.Built heap.functions []
      rw [hfs]
      exact .withBuiltins hc
    · refine (List.filterMap_eq_nil_iff.mpr fun d hd => ?_).symm
      obtain ⟨_, -, rfl⟩ := List.mem_map.mp (List.mem_reverse.mp hd)
      rfl

/-- **The host did something** with an engine at rest that gave out no code. -/
theorem rest {e : Engine} {log : List Deed} (hc : Compiles ⟨.rest e, log⟩) {e' : Engine}
    (hb : ∀ {batches}, e.compiler.Built e.system.world.heap.functions batches →
      e'.compiler.Built e'.system.world.heap.functions batches)
    (hw : e'.system.workers = e.system.workers) {log' : List Deed} (hl : issued log' = issued log) :
    Compiles ⟨.rest e', log'⟩ where
  built := by
    obtain ⟨batches, hbuilt, heq⟩ := hc.built
    exact ⟨batches, hb hbuilt, heq.trans hl.symm⟩
  parties p hp := hc.parties p (by
    have hp : p ∈ e'.system.workers.map Worker.party := hp
    rwa [hw] at hp)

/-- A batch is compiled. -/
theorem compile {e : Engine} {log : List Deed} (hc : Compiles ⟨.rest e, log⟩) (program : Program) :
    Compiles ⟨.rest (e.compile program).2,
      .compiled e.compiler e.system.world.heap.functions program :: log⟩ where
  built := by
    obtain ⟨batches, hbuilt, heq⟩ := hc.built
    refine ⟨_, hbuilt.compile program, ?_⟩
    rw [List.map_append, Batch.codes_ofAnswer, heq, issued_cons]
    rfl
  parties := hc.parties

/-- A run or a call begins. -/
theorem begin {e : Engine} {log log' : List Deed} (hc : Compiles ⟨.rest e, log⟩) {f : Fiber}
    (hf : f.Obeys) {world : World} (hw : world.heap = e.system.world.heap)
    (hl : issued log' = issued log) : Compiles ⟨.work e (e.system.begin f world), log'⟩ where
  built := by
    obtain ⟨batches, hbuilt, heq⟩ := hc.built
    refine ⟨batches, ?_, heq.trans hl.symm⟩
    show e.compiler.Built world.heap.functions batches
    rw [hw]
    exact hbuilt
  parties p hp := by
    rcases List.mem_cons.mp hp with rfl | hp
    · exact hf
    · exact hc.parties p hp

/-- **A party does something.** -/
theorem perform (hh : host.Honest) {e : Engine} {log deeds : List Deed} {m m' : Moment}
    (hc : Compiles ⟨.work e m, log⟩) (hm : m.Performs host deeds m') :
    Compiles ⟨.work e m', deeds ++ log⟩ := by
  obtain ⟨batches, hbuilt, heq⟩ := hc.built
  rcases hm.cases with ⟨q, hq, rfl, hworld, hparties⟩ | ⟨rfl, hparties, -, hfunctions⟩
  · obtain ⟨hfunctions, hself, hstarted⟩ := (hc.parties q hq).step hh m.world
    refine ⟨⟨batches, ?_, heq.trans (hm.issued log).symm⟩, ?_⟩
    · show e.compiler.Built m'.world.heap.functions batches
      rw [hworld, hfunctions]
      exact hbuilt
    · intro p hp
      rcases hparties p hp with rfl | hp | hp
      · exact hself
      · exact hstarted p hp
      · exact hc.parties p hp
  · refine ⟨⟨batches, ?_, heq⟩, fun p hp => hc.parties p (hparties p hp)⟩
    show e.compiler.Built m'.world.heap.functions batches
    rw [hfunctions]
    exact hbuilt

/-- The work ends. -/
theorem finish {e : Engine} {log : List Deed} {m : Moment} {o : Outcome} {s : System}
    (hc : Compiles ⟨.work e m, log⟩) (he : m.Ends o s) :
    Compiles ⟨.rest { e with system := s }, log⟩ where
  built := by
    obtain ⟨batches, hbuilt, heq⟩ := hc.built
    refine ⟨batches, ?_, heq⟩
    show e.compiler.Built s.world.heap.functions batches
    rw [he.world]
    exact hbuilt
  parties p hp := by
    have hp : p ∈ s.workers.map Worker.party := hp
    rw [he.workers] at hp
    exact hc.parties p (List.mem_cons_of_mem _ hp)

end Compiles

/-- **In all histories** the compiler and the functions are those that the log tells of. -/
theorem Past.compiles (hh : host.Honest) (hp : h.Past host allowed) : h.Compiles := by
  refine hp.induction (fun h hf => .fresh hf) fun h h' _ hc hs => ?_
  cases hs with
  | compile e log program => exact hc.compile program
  | @set e e' log name t x he =>
    refine hc.rest (fun hb => ?_) (Engine.stays_set he).2 rfl
    rw [Engine.compiler_set he, Engine.functions_set he]
    exact hb.declareGlobal name
  | @setRefused e e' log name t x error he =>
    refine hc.rest (fun hb => ?_) (Engine.stays_set he).2 rfl
    rw [Engine.compiler_set he, Engine.functions_set he]
    exact hb.declareGlobal name
  | @register e e' log name body he =>
    refine hc.rest (fun hb => ?_) (Engine.stays_register he).2.2 rfl
    rw [Engine.compiler_register he, Engine.functions_register he]
    exact hb.addBuiltin name
  | @registerRefused e e' log name body error he =>
    refine hc.rest (fun hb => ?_) (Engine.stays_register he).2.2 rfl
    rw [Engine.compiler_register he, Engine.functions_register he]
    exact hb.addBuiltin name
  | context e log ctx =>
    refine hc.rest (fun hb => ?_) (by rfl) rfl
    exact hb
  | @run e log code hcode ha =>
    exact hc.begin (.forProgram ..) rfl rfl
  | @call e log name callee hg args =>
    exact hc.begin (.forCall ..) rfl rfl
  | wait e log => exact hc.begin (.idle ..) rfl rfl
  | perform hm => exact hc.perform hh hm
  | finish he => exact hc.finish he

/-- **The codes that were given out** are joined at seams. -/
theorem Past.joined (hh : host.Honest) (hp : h.Past host allowed) :
    ∃ E, E.functions = h.scene.world.heap.functions ∧
      h.scene.engine.compiler.Joined E (issued h.log) := by
  obtain ⟨batches, hb, heq⟩ := (hp.compiles hh).built
  rw [← heq]
  exact hb.joined

end History

end ScriptEngine
