import ScriptEngine.Proofs.Compiler.Declared
import ScriptEngine.Proofs.Embed.Placed

/-!
# What the texts of batches tell about stores

Every store that is executed, by whichever machine and in whichever function, was written in a batch
that the compiler accepted. The outline of that batch tells which variable it is for, and the slot
into which it stores is for that variable, then and ever after.

## Main definitions

* `ScriptEngine.Execution.IsFor`: what an executed store is for, as the text of its batch tells;
* `ScriptEngine.History.Told`: the batches in a log tell of all functions and of their stores.

## Main results

* `ScriptEngine.History.Past.told`: they do, in all histories;
* `ScriptEngine.History.Past.exists_isFor`: every store that is executed is for something;
* `ScriptEngine.History.Told.isFor`: the slot of a store is for what the text tells.
-/

namespace ScriptEngine

open ScopeTable

/-- **A batch in a log** that was accepted. -/
structure Accepted (log : List Deed) (c : Compiler) (fs : Array Function) (program : Program)
    (code : Code) : Prop where
  compiled : .compiled c fs program ∈ log
  accepted : (c.compile fs program).1 = .ok code

theorem Accepted.append {log : List Deed} {c : Compiler} {fs : Array Function} {program : Program}
    {code : Code} (h : Accepted log c fs program code) (deeds : List Deed) :
    Accepted (deeds ++ log) c fs program code :=
  ⟨List.mem_append_right _ h.compiled, h.accepted⟩

/-- **What an executed store is for**, as the text tells: it is one of the stores of a batch, or of
a function that was compiled with a batch, and the outline of the batch lists what it is for. -/
inductive Execution.IsFor (log : List Deed) (x : Execution) (d : Destination) : Prop
  | program {c : Compiler} {fs : Array Function} {program : Program} {code : Code} {k : Nat}
    (batch : Accepted log c fs program code) (hp : x.InProgram)
    (hi : (code.stores c.code.size)[k]? = some x.instruction)
    (hd : program.outline.stores[k]? = some d)
  | function {c : Compiler} {fs : Array Function} {program : Program} {code : Code} {f : Function}
    {k j : Nat} {ds : List Destination} (batch : Accepted log c fs program code)
    (hx : x.frame.function = some f) (hf : (c.compile fs program).2.2[fs.size + k]? = some f)
    (hds : program.outline.functions[k]? = some ds)
    (hi : (f.code.stores 0)[j]? = some x.instruction)
    (hd : ds[j]? = some d)

/-- The scopes of the compiler in a history. -/
abbrev History.table (h : History) : ScopeTable :=
  h.scene.engine.compiler.table

/-! ### Engines -/

namespace Engine

variable {e e' : Engine} {E : Environment}

/-- **What becomes of the slots** when a host sets a global, successfully or not. -/
theorem retains_set (h : e.compiler.Sound E) {name : String} {t : HostType} {x : t.Carrier}
    {answer : Except EngineError Unit} (he : e.set name t x = (answer, e')) :
    e.compiler.table.Retains e'.compiler.table := by
  rw [compiler_set he]
  exact h.retains_declareGlobal name

theorem retains_register (h : e.compiler.Sound E) {name : String} {body : BuiltinBody}
    {answer : Except EngineError Unit} (he : e.register name body = (answer, e')) :
    e.compiler.table.Retains e'.compiler.table ∧
      e'.compiler.globalIndex? = e.compiler.globalIndex? := by
  rw [compiler_register he]
  exact h.retains_addBuiltin name

end Engine

namespace History

variable {host : Host} {allowed : Engine → Code → Prop} {h h' : History}

/-- **Slots are never taken away.** -/
theorem Past.retains (hh : host.Honest) (hp : h.Past host allowed) (hs : h.Step host allowed h') :
    h.table.Retains h'.table := by
  obtain ⟨E, hE, hj⟩ := hp.joined hh
  have hsound := hj.sound
  cases hs with
  | compile e log program =>
    have hE : E.functions = e.system.world.heap.functions := hE
    have hr := hsound.retains_compile program
    rw [hE] at hr
    exact hr
  | set he => exact Engine.retains_set hsound he
  | setRefused he => exact Engine.retains_set hsound he
  | register he => exact (Engine.retains_register hsound he).1
  | registerRefused he => exact (Engine.retains_register hsound he).1
  | context | run | call | wait | perform | finish => exact .refl _

/-! ### The stores of batches -/

/-- **The batches in a log tell of all functions and of their stores.** -/
structure Told (h : History) : Prop where
  tells : ∀ {c : Compiler} {fs : Array Function} {program : Program} {code : Code},
    Accepted h.log c fs program code →
      Code.Tells h.table code c.code.size (c.compile fs program).2.2 fs.size program.outline
  functions : ∀ f ∈ h.scene.world.heap.functions, ∃ c fs program code k,
    Accepted h.log c fs program code ∧ (c.compile fs program).2.2[fs.size + k]? = some f

namespace Told

/-- An engine that was just built. -/
theorem fresh (hf : h.Fresh) : h.Told := by
  refine ⟨fun hb => ?_, fun f hmem => ?_⟩
  · obtain ⟨_, _, heq⟩ := hf.registered hb.compiled
    cases heq
  · cases hf with
    | @build config heap controls builtins ctx e hfs he =>
      obtain ⟨c, -, rfl⟩ := Engine.withBuiltins_eq_ok he
      have hmem : f ∈ heap.functions := hmem
      rw [hfs] at hmem
      exact absurd hmem (Array.not_mem_empty f)

/-- **Something happened**, and no batch was accepted. -/
theorem later (ht : h.Told) (deeds : List Deed) (hl : h'.log = deeds ++ h.log)
    (hd : ∀ c fs program, .compiled c fs program ∉ deeds) (hr : h.table.Retains h'.table)
    (hf : h'.scene.world.heap.functions = h.scene.world.heap.functions) : h'.Told where
  tells hb := by
    refine (ht.tells ⟨?_, hb.accepted⟩).retains hr
    have hm := hb.compiled
    rw [hl] at hm
    exact (List.mem_append.mp hm).resolve_left (hd _ _ _)
  functions f hm := by
    rw [hf] at hm
    obtain ⟨c, fs, program, code, k, hb, hk⟩ := ht.functions f hm
    rw [hl]
    exact ⟨c, fs, program, code, k, hb.append deeds, hk⟩

/-- **A batch is compiled.** -/
theorem compile {e : Engine} {log : List Deed} (ht : Told ⟨.rest e, log⟩)
    (hc : Compiles ⟨.rest e, log⟩) (program : Program) :
    Told ⟨.rest (e.compile program).2,
      .compiled e.compiler e.system.world.heap.functions program :: log⟩ := by
  obtain ⟨batches, hb, -⟩ := hc.built
  change e.compiler.Built e.system.world.heap.functions batches at hb
  obtain ⟨E, hE, hs⟩ := hb.sound
  have hr := hs.retains_compile program
  obtain ⟨E', hE', -, hleads⟩ := hs.compile program
  rw [hE] at hr hE' hleads
  refine ⟨fun {c fs program' code} hacc => ?_, fun f hf => ?_⟩
  · rcases List.mem_cons.mp hacc.compiled with heq | hold
    · cases heq
      have htells := hs.tells hb.lexical (hE ▸ hacc.accepted)
      rwa [hE] at htells
    · exact (ht.tells ⟨hold, hacc.accepted⟩).retains hr
  · -- a function is an old one, or it was compiled with this batch
    have old (hf : f ∈ e.system.world.heap.functions) := ht.functions f hf
    have hf : f ∈ (e.compiler.compile e.system.world.heap.functions program).2.2 := hf
    have append : (∃ c fs program code k, Accepted log c fs program code ∧
        (c.compile fs program).2.2[fs.size + k]? = some f) → ∃ c fs program' code k,
        Accepted (.compiled e.compiler e.system.world.heap.functions program :: log) c fs program'
          code ∧ (c.compile fs program').2.2[fs.size + k]? = some f := by
      rintro ⟨c, fs, program', code, k, hb, hk⟩
      exact ⟨c, fs, program', code, k, hb.append [_], hk⟩
    cases hr : (e.compiler.compile e.system.world.heap.functions program).1 with
    | error error =>
      have hsame := (hs.compile_refused (hE ▸ hr)).2
      rw [hE] at hsame
      exact append (old (hsame ▸ hf))
    | ok code =>
      obtain ⟨k, hk⟩ := Array.getElem?_of_mem hf
      by_cases hlt : k < e.system.world.heap.functions.size
      · refine append (old ?_)
        have hsame := hleads.le.getElem? (k := k) (hE ▸ hlt)
        rw [hE', hE, hk] at hsame
        exact Array.mem_of_getElem? hsame.symm
      · refine ⟨_, _, program, code, k - e.system.world.heap.functions.size,
          ⟨List.mem_cons_self, hr⟩, ?_⟩
        rwa [Nat.add_sub_cancel' (Nat.le_of_not_lt hlt)]

/-- **The slot of a store** is for what the text tells. -/
theorem isFor (ht : h.Told) {x : Execution} {d : Destination} (hx : x.IsFor h.log d) :
    x.instruction.IsFor h.table d := by
  cases hx with
  | program batch hp hi hd => exact (ht.tells batch).stores.isFor hi hd
  | function batch hx hf hds hi hd =>
    obtain ⟨f', hf', hs⟩ := (ht.tells batch).functions _ _ hds
    rw [hf] at hf'
    cases hf'
    exact hs.isFor hi hd

end Told

/-- Nothing is compiled by what a party does. -/
theorem not_compiled_of_performs {m m' : Moment} {deeds : List Deed} (hm : m.Performs host deeds m')
    (c : Compiler) (fs : Array Function) (program : Program) : .compiled c fs program ∉ deeds := by
  intro hd
  rcases hm.cases with ⟨q, -, rfl, -, -⟩ | ⟨rfl, -⟩
  · obtain ⟨newer, older, heq⟩ := List.append_of_mem hd
    rcases Party.deeds_eq_append heq with ⟨_, h⟩ | ⟨_, h, -, -⟩ <;> cases h
  · cases hd

/-- **In all histories** the batches tell of all functions and of their stores. -/
theorem Past.told (hh : host.Honest) (hp : h.Past host allowed) : h.Told := by
  refine hp.induction (fun h hf => .fresh hf) fun h h' hpast ht hs => ?_
  have hr := hpast.retains hh hs
  have hc := hpast.compiles hh
  cases hs with
  | compile e log program => exact ht.compile hc program
  | set he => exact ht.later [_] rfl (by simp) hr (Engine.functions_set he)
  | setRefused he => exact ht.later [] rfl (by simp) hr (Engine.functions_set he)
  | register he => exact ht.later [_] rfl (by simp) hr (Engine.functions_register he)
  | registerRefused he => exact ht.later [] rfl (by simp) hr (Engine.functions_register he)
  | context e log ctx => exact ht.later [] rfl (by simp) hr rfl
  | @run e log code hcode ha => exact ht.later [_] rfl (by simp) hr rfl
  | @call e log name callee hg args => exact ht.later [_] rfl (by simp) hr rfl
  | wait e log => exact ht.later [] rfl (by simp) hr rfl
  | @perform e log deeds m m' hm =>
    refine ht.later deeds rfl (not_compiled_of_performs hm) hr ?_
    rcases hm.cases with ⟨q, hq, rfl, hworld, -⟩ | ⟨rfl, -, -, hfunctions⟩
    · show m'.world.heap.functions = _
      rw [hworld]
      exact ((hc.parties q hq).step hh m.world).1
    · exact hfunctions
  | @finish e log m o s he =>
    refine ht.later [] rfl (by simp) hr ?_
    show s.world.heap.functions = _
    rw [he.world]
    rfl

/-! ### Stores that are executed -/

/-- **The batch of an instruction** that lies in a code that was given out. -/
theorem Past.exists_batch (hh : host.Honest) : ∀ (n : Nat) {h : History}, h.Past host allowed →
    h.log.length ≤ n → ∀ {code : Code}, code ∈ issued h.log → ∀ {i : Instruction}, code.Has i →
      code.Boundary i.offset → ∃ c fs program code', Accepted h.log c fs program code' ∧
        code'.Has i ∧ code'.Walks (fun _ => True) c.code.size code'.size ∧
        code'.Walks (fun _ => True) c.code.size i.offset
  | 0, h, _, hn, code, hc, _, _, _ => by
    rw [List.eq_nil_of_length_eq_zero (Nat.le_zero.mp hn)] at hc
    cases hc
  | n + 1, h, hp, hn, code, hc, i, hi, hb => by
    obtain ⟨d, hd, hcode⟩ := List.mem_filterMap.mp hc
    obtain ⟨c, fs, program, rfl, hr⟩ := Deed.code?_eq_some.mp hcode
    obtain ⟨later, earlier, hl⟩ := List.append_of_mem hd
    obtain ⟨e, hp', rfl, rfl⟩ := hp.follows hl
    obtain ⟨E, hE, hj⟩ := hp'.joined hh
    change E.functions = e.system.world.heap.functions at hE
    change e.compiler.Joined E (issued earlier) at hj
    obtain ⟨E', -, hj'⟩ := hj.compile program
    rw [hE, hr] at hj'
    have hnew : code.Sound E' none := hj'.issued code List.mem_cons_self
    have hwords : ∀ (k : Nat) (w : Word), e.compiler.code.words[k]? = some w →
        code.words[k]? = some w := by
      obtain ⟨_, -, -, hleads⟩ := hj.sound.compile program
      rw [hE] at hleads
      have hcode : code = (e.compiler.compile e.system.world.heap.functions program).2.1.code :=
        Compiler.code_of_compile (Prod.ext hr rfl)
      rw [hcode]
      exact hleads.words
    have hboundary : code.Boundary e.compiler.code.size := hj.sound.code.walk.forget.of_words hwords
    by_cases hle : e.compiler.code.size ≤ i.offset
    · have hsize := Nat.le_trans hle (Nat.le_of_lt hi.offset_lt)
      exact ⟨_, _, program, code, ⟨hd, hr⟩, hi, hboundary.split hnew.walk.forget hsize,
        hboundary.split hb hle⟩
    · -- the instruction belongs to an earlier batch
      rcases hj.ends with hzero | ⟨old, hold, hsize⟩
      · omega
      · have hbegins := hj.begins old hold
        have hlt : i.offset < old.size := by omega
        obtain ⟨hi', hb'⟩ := (hj.issued old hold).walk.forget.of_longer
          (fun k w hw => hwords k w (hbegins.words k w hw)) hi hb hlt
        have hlength : earlier.length ≤ n := by
          have := congrArg List.length hl
          rw [List.length_append, List.length_cons] at this
          omega
        obtain ⟨c, fs, program', code', hacc, hrest⟩ := exists_batch hh n hp' hlength hold hi' hb'
        refine ⟨c, fs, program', code', ⟨?_, hacc.accepted⟩, hrest⟩
        rw [hl]
        exact List.mem_append_right _ (List.mem_cons_of_mem _ hacc.compiled)

/-- **Every store that is executed** is for something. -/
theorem Past.exists_isFor (hh : host.Honest) {e : Engine} {m : Moment} {log : List Deed}
    (hp : Past host allowed ⟨.work e m, log⟩) {q : Party} (hq : q ∈ m.parties) {x : Execution}
    (hx : q.execution? m.world = some x) (hs : x.instruction.isStore = true) :
    ∃ d, x.IsFor log d := by
  obtain ⟨E, hE, hj⟩ := hp.joined hh
  obtain ⟨hplaced, hoffset, hlt, hhas⟩ :=
    q.fiber.placed_execution hE hj ((hp.places hh).parties q hq) hx
  have hboundary : x.frame.code.Boundary x.instruction.offset := hoffset ▸ hplaced.boundary
  have ht := hp.told hh
  cases hf : x.frame.function with
  | none =>
    obtain ⟨c, fs, program, code, hacc, hi, hwalk, hw⟩ :=
      hp.exists_batch hh log.length (Nat.le_refl _) (hplaced.program hf) hhas hboundary
    obtain ⟨k, d, hk, hd⟩ :=
      (ht.tells hacc).stores.exists_destination (Code.mem_stores hwalk hi hw hs)
    exact ⟨d, .program hacc hf hk hd⟩
  | some f =>
    obtain ⟨hcode, hmem | rfl⟩ := hplaced.function f hf
    · obtain ⟨c, fs, program, code, k, hacc, hk⟩ := ht.functions f hmem
      have htells := ht.tells hacc
      obtain ⟨n, hn⟩ := Array.getElem?_of_mem (hE.symm ▸ hmem : f ∈ E.functions)
      have hwalk := (hj.sound.functions n f hn).code.walk
      have hlen : k < program.outline.functions.length := by
        have := (Array.getElem?_eq_some_iff.mp hk).1
        rw [htells.count] at this
        omega
      obtain ⟨f', hf', hstores⟩ := htells.functions k _ (List.getElem?_eq_getElem hlen)
      rw [hk] at hf'
      cases hf'
      rw [hcode] at hhas hboundary
      obtain ⟨j, d, hj, hd⟩ :=
        hstores.exists_destination (Code.mem_stores hwalk hhas hboundary hs)
      exact ⟨d, .function hacc hf hk (List.getElem?_eq_getElem hlen) hj hd⟩
    · rw [hcode] at hlt
      exact absurd hlt (Nat.not_lt_zero _)

end History

end ScriptEngine
