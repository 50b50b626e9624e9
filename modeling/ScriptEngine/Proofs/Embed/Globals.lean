import ScriptEngine.Proofs.Embed.Once
import ScriptEngine.Proofs.Embed.Texts

/-!
# Globals are a store keyed by names

To its host an engine is a store keyed by names. The names are those that were declared at the top
level, by the host or by a batch, accepted or not. The value of a name is the one last written to
it: by the host, or by a declaration or an assignment in a script that means the global of that
name. Variables of blocks at the top level live in slots of the same table, and functions assign to
globals from within, but neither makes a difference.

## Main definitions

* `ScriptEngine.Declared`: a name was declared at the top level;
* `ScriptEngine.Deed.Writes`: a deed writes a value to the global of a name;
* `ScriptEngine.LastWritten`: the value last written to the global of a name;
* `ScriptEngine.NamedStore`: the globals of an engine are a store keyed by names.

## Main results

* `ScriptEngine.History.Past.named`: the content of every slot of a name is what was last written;
* `ScriptEngine.History.globals_named`: the globals of every engine are a store keyed by names.
-/

namespace ScriptEngine

open ScopeTable

/-! ### What a log tells about a name -/

/-- A deed declares a name at the top level: the host sets it, or the compiler reaches a declaration
of it. -/
def Deed.Declares (name : String) : Deed → Prop
  | .assigned other _ => other = name
  | .compiled c fs program => c.Reaches fs program name
  | _ => False

/-- **A name was declared at the top level.** -/
def Declared (name : String) (log : List Deed) : Prop :=
  ∃ d ∈ log, d.Declares name

/-- **A deed writes a value to the global of a name**: the host sets it, or a script executes a
store of which the text tells that it is for that global. -/
inductive Deed.Writes (log : List Deed) (name : String) : Deed → Value → Prop
  | assigned (v : Value) : Writes log name (.assigned name v) v
  | executed {x : Execution} {v : Value} (hx : x.IsFor log (.global name))
    (hv : x.machine.stack.toList.head? = some v) : Writes log name (.executed x) v

/-- **The value last written to the global of a name**, which is nil before the first write. -/
inductive LastWritten (name : String) : List Deed → Value → Prop
  | never : LastWritten name [] .nil
  | write {log : List Deed} {d : Deed} {v : Value} (h : d.Writes log name v) :
    LastWritten name (d :: log) v
  | other {log : List Deed} {d : Deed} {v : Value} (h : ∀ v', ¬ d.Writes log name v')
    (rest : LastWritten name log v) : LastWritten name (d :: log) v

/-- No deed among the last ones writes to the global of a name. -/
def Unwritten (name : String) (deeds log : List Deed) : Prop :=
  ∀ {later earlier : List Deed} {d : Deed}, deeds = later ++ d :: earlier →
    ∀ v, ¬ d.Writes (earlier ++ log) name v

section

variable {name : String} {log deeds : List Deed} {d : Deed} {v v' : Value}

theorem declared_cons : Declared name (d :: log) ↔ d.Declares name ∨ Declared name log := by
  unfold Declared
  rw [List.exists_mem_cons_iff]

theorem declared_append (h : ∀ d ∈ deeds, ¬ d.Declares name) :
    Declared name (deeds ++ log) ↔ Declared name log := by
  unfold Declared
  constructor
  · rintro ⟨d, hd, hn⟩
    exact ⟨d, (List.mem_append.mp hd).resolve_left fun hd => h d hd hn, hn⟩
  · rintro ⟨d, hd, hn⟩
    exact ⟨d, List.mem_append_right _ hd, hn⟩

theorem Unwritten.tail (h : Unwritten name (d :: deeds) log) : Unwritten name deeds log :=
  fun heq => h (List.cons_append.symm ▸ congrArg (d :: ·) heq)

theorem Deed.Writes.unique (h : d.Writes log name v) (h' : d.Writes log name v') : v = v' := by
  cases h with
  | assigned =>
    cases h'
    rfl
  | executed hx hv =>
    cases h' with
    | executed hx' hv' => exact Option.some.inj (hv.symm.trans hv')

/-- **There is one value last written.** -/
theorem LastWritten.unique (h : LastWritten name log v)
    (h' : LastWritten name log v') : v = v' := by
  induction h with
  | never =>
    cases h'
    rfl
  | write hw =>
    cases h' with
    | write hw' => exact hw.unique hw'
    | other hn => exact absurd hw (hn _)
  | other hn _ ih =>
    cases h' with
    | write hw => exact absurd hw (hn _)
    | other _ hrest => exact ih hrest

/-- What is not written to stays. -/
theorem LastWritten.append (h : LastWritten name log v) :
    ∀ {deeds : List Deed}, Unwritten name deeds log → LastWritten name (deeds ++ log) v
  | [], _ => h
  | _ :: _, hu => .other (fun v' => hu (List.nil_append _).symm v') (h.append hu.tail)

theorem unwritten_nil : Unwritten name [] log := by
  intro later earlier d heq
  exact absurd heq.symm (List.append_ne_nil_of_right_ne_nil later (List.cons_ne_nil d earlier))

/-- Neither a store nor an assignment of the host is the only deed. -/
theorem unwritten_single (h : ∀ v, ¬ d.Writes log name v) : Unwritten name [d] log := by
  intro later earlier d' heq v hw
  rcases List.append_eq_cons_iff.mp heq.symm with ⟨-, heq⟩ | ⟨rest, -, heq⟩
  · cases heq
    exact h v hw
  · cases rest <;> cases heq

end

/-! ### Slots -/

/-- The content of a slot, which is nil while it does not exist. -/
def World.content (w : World) (slot : Nat) : Value :=
  (w.global? slot).getD .nil

/-- New slots hold nil. -/
theorem World.getD_growGlobals (globals : Array Value) (count slot : Nat) :
    ((growGlobals globals count)[slot]?).getD .nil = (globals[slot]?).getD .nil := by
  unfold growGlobals
  rw [Array.getElem?_append]
  split
  · rfl
  · rename_i hge
    rw [Array.getElem?_replicate, Array.getElem?_eq_none (Nat.le_of_not_lt hge)]
    split <;> rfl

theorem World.content_ensureGlobals (w : World) (count slot : Nat) :
    (w.ensureGlobals count).content slot = w.content slot :=
  World.getD_growGlobals w.globals count slot

/-- **A slot that is set**, and the others. -/
theorem World.content_setGlobal (w : World) (slot : Nat) (v : Value) (other : Nat) :
    (w.setGlobal slot v).content other = if other = slot then v else w.content other := by
  show (((growGlobals w.globals (slot + 1)).setIfInBounds slot v)[other]?).getD .nil = _
  rw [Array.getElem?_setIfInBounds]
  by_cases h : slot = other
  · have hlt : slot < (growGlobals w.globals (slot + 1)).size := by
      unfold growGlobals
      rw [Array.size_append, Array.size_replicate]
      omega
    rw [if_pos h, if_pos hlt, if_pos h.symm]
    rfl
  · rw [if_neg h, if_neg (Ne.symm h)]
    exact World.getD_growGlobals w.globals (slot + 1) other

theorem World.content_congr {w w' : World} (h : w'.globals = w.globals) :
    w'.content = w.content := by
  funext slot
  unfold content global?
  rw [h]

namespace History

variable {host : Host} {allowed : Engine → Code → Prop} {h h' : History}

/-- What the slots hold. -/
abbrev content (h : History) : Nat → Value :=
  h.scene.world.content

/-- The slot of a name. -/
abbrev slot? (h : History) : String → Option Word :=
  h.scene.engine.compiler.globalIndex?

/-- **What the slots hold**: a slot of a name holds what was last written to that name, nothing was
written to names without a slot, and slots that are for nothing hold nil. -/
structure Named (h : History) : Prop where
  declared : ∀ name, (h.slot? name).isSome ↔ Declared name h.log
  value : ∀ name slot, h.slot? name = some slot → LastWritten name h.log (h.content slot.toNat)
  unwritten : ∀ name, h.slot? name = none → LastWritten name h.log .nil
  fresh : ∀ slot : Word, (∀ d, ¬ h.table.IsSlot slot d) → h.content slot.toNat = .nil

/-- **What a deed does to the slots**: nothing, or it sets one, which is for the global to which the
deed writes, if it writes to any. -/
inductive Sets (d : Deed) (h h' : History) : Prop
  | nothing (hw : ∀ name v, ¬ d.Writes h.log name v) (hc : h'.content = h.content)
  | one (slot : Word) (dest : Destination) (v : Value) (hs : h'.table.IsSlot slot dest)
    (hw : ∀ name v', d.Writes h.log name v' ↔ dest = .global name ∧ v' = v)
    (hc : ∀ k, h'.content k = if k = slot.toNat then v else h.content k)

namespace Named

/-- An engine that was just built. -/
theorem of_fresh (hf : h.Fresh) : h.Named := by
  have registered {d : Deed} := hf.registered (d := d)
  cases hf with
  | @build config heap controls builtins ctx e hfs he =>
    obtain ⟨c, hc, rfl⟩ := Engine.withBuiltins_eq_ok he
    obtain ⟨t, rfl, -, hs⟩ := Compiler.withBuiltins_spec hc
    have hnone : ∀ name, ({ table := t } : Compiler).globalIndex? name = none := fun name => by
      show (t.get? root name).map Symbol.index = none
      unfold get? scope
      rw [hs]
      simp [empty, root]
    have never (name : String) : LastWritten name
        (builtins.map fun b => Deed.registered b.1 b.2).reverse .nil := by
      have hu : Unwritten name (builtins.map fun b => Deed.registered b.1 b.2).reverse [] := by
        intro later earlier d heq v hw
        obtain ⟨_, _, rfl⟩ := registered (heq ▸ List.mem_append_right _ List.mem_cons_self)
        cases hw
      have := LastWritten.never.append hu
      rwa [List.append_nil] at this
    refine ⟨fun name => ?_, fun name slot hslot => ?_, fun name _ => never name, fun _ _ => rfl⟩
    · refine iff_of_false ?_ ?_
      · show ¬ (({ table := t } : Compiler).globalIndex? name).isSome
        simp [hnone name]
      · rintro ⟨d, hd, hn⟩
        obtain ⟨_, _, rfl⟩ := registered hd
        exact hn
    · have hslot : ({ table := t } : Compiler).globalIndex? name = some slot := hslot
      rw [hnone name] at hslot
      cases hslot

/-- Nothing that was done matters to the slots. -/
theorem later (hn : h.Named) (deeds : List Deed) (hl : h'.log = deeds ++ h.log)
    (hd : ∀ name, ∀ d ∈ deeds, ¬ d.Declares name) (hu : ∀ name, Unwritten name deeds h.log)
    (hi : h'.slot? = h.slot?) (hr : h.table.Retains h'.table) (hc : h'.content = h.content) :
    h'.Named where
  declared name := by
    rw [hi, hl, declared_append (hd name)]
    exact hn.declared name
  value name slot hslot := by
    rw [hi] at hslot
    rw [hl, hc]
    exact (hn.value name slot hslot).append (hu name)
  unwritten name hnone := by
    rw [hi] at hnone
    rw [hl]
    exact (hn.unwritten name hnone).append (hu name)
  fresh slot hs := by
    rw [hc]
    exact hn.fresh slot fun d hd => hs d (hr.slots hd)

/-- Nothing was done. -/
theorem same (hn : h.Named) (hl : h'.log = h.log) (hi : h'.slot? = h.slot?)
    (hr : h.table.Retains h'.table) (hc : h'.content = h.content) : h'.Named :=
  hn.later [] hl (fun _ _ hd => absurd hd List.not_mem_nil) (fun _ => unwritten_nil) hi hr hc

/-- **A deed** that declares names, and that may set a slot. -/
theorem deed (hn : h.Named) {d : Deed} (hl : h'.log = d :: h.log)
    (hd : ∀ name, (h'.slot? name).isSome ↔ (h.slot? name).isSome ∨ d.Declares name)
    (hr : h.table.Retains h'.table) (hx : h'.table.Lexical) (hw : h'.table.WellFormed)
    (hs : Sets d h h') : h'.Named := by
  have keeps {name : String} {slot : Word} (hslot : h.slot? name = some slot) :
      h'.slot? name = some slot :=
    isSlot_global.mp (hr.slots (isSlot_global.mpr hslot))
  have apart {name : String} {slot slot' : Word} {dest : Destination}
      (hslot : h'.slot? name = some slot) (hdest : h'.table.IsSlot slot' dest) :
      dest = .global name ↔ slot' = slot := by
    obtain ⟨symbol, hsymbol, rfl⟩ := Option.map_eq_some_iff.mp hslot
    exact hdest.eq_global_iff hx hw hsymbol
  -- before the deed, a name that was not declared had no slot, and its slot was for nothing
  have before {name : String} {slot : Word} (hslot : h'.slot? name = some slot) :
      LastWritten name h.log (h.content slot.toNat) := by
    cases hold : h.slot? name with
    | some slot' =>
      obtain rfl := Option.some.inj ((keeps hold).symm.trans hslot)
      exact hn.value name slot' hold
    | none =>
      rw [hn.fresh slot fun dest hdest => ?_]
      · exact hn.unwritten name hold
      · obtain rfl := (apart hslot (hr.slots hdest)).mpr rfl
        have := isSlot_global.mp hdest
        rw [show (h.table.get? root name).map Symbol.index = none from hold] at this
        cases this
  have undeclared {name : String} (hnone : h'.slot? name = none) : LastWritten name h.log .nil := by
    refine hn.unwritten name ?_
    cases hold : h.slot? name with
    | none => rfl
    | some slot =>
      rw [keeps hold] at hnone
      cases hnone
  refine ⟨fun name => ?_, fun name slot hslot => ?_, fun name hnone => ?_, fun slot hfree => ?_⟩
  · rw [hd, hl, declared_cons, hn.declared, or_comm]
  · rw [hl]
    cases hs with
    | nothing hw hc =>
      rw [hc]
      exact .other (hw name) (before hslot)
    | one slot' dest v hdest hw hc =>
      rw [hc]
      by_cases heq : dest = .global name
      · rw [if_pos (congrArg _ ((apart hslot hdest).mp heq).symm)]
        exact .write ((hw name v).mpr ⟨heq, rfl⟩)
      · have hne : slot.toNat ≠ slot'.toNat := fun h =>
          heq ((apart hslot hdest).mpr (UInt16.toNat_inj.mp h).symm)
        rw [if_neg hne]
        exact .other (fun v' h => heq ((hw name v').mp h).1) (before hslot)
  · rw [hl]
    refine .other (fun v hv => ?_) (undeclared hnone)
    cases hs with
    | nothing hw hc => exact hw name v hv
    | one _ _ _ hdest hw hc =>
      obtain ⟨rfl, -⟩ := (hw name v).mp hv
      have := isSlot_global.mp hdest
      rw [show (h'.table.get? root name).map Symbol.index = none from hnone] at this
      cases this
  · have hold := hn.fresh slot fun dest hdest => hfree dest (hr.slots hdest)
    cases hs with
    | nothing hw hc => rwa [hc]
    | one slot' dest v hdest hw hc =>
      have hne : slot.toNat ≠ slot'.toNat := fun h =>
        hfree dest (UInt16.toNat_inj.mp h ▸ hdest)
      rwa [hc, if_neg hne]

end Named

/-! ### Steps -/

/-- The scopes of every engine are well-formed, and names are lexical in them. -/
theorem Past.scopes (hh : host.Honest) (hp : h.Past host allowed) :
    h.table.Lexical ∧ h.table.WellFormed := by
  obtain ⟨batches, hb, -⟩ := (hp.compiles hh).built
  obtain ⟨E, -, hs⟩ := hb.sound
  exact ⟨hb.lexical, hs.table⟩

/-- A store of the program is an instruction that stores into the slot of what it is for. -/
theorem Told.isSlot (ht : h.Told) {x : Execution} {d : Destination} (hx : x.IsFor h.log d)
    (hop : x.instruction.op = .storeGlobal) : h.table.IsSlot x.instruction.first d := by
  have hi := ht.isFor hx
  unfold Instruction.IsFor at hi
  rwa [if_pos hop] at hi

theorem Told.op_of_global (ht : h.Told) {x : Execution} {name : String}
    (hx : x.IsFor h.log (.global name)) : x.instruction.op = .storeGlobal := by
  by_contra hop
  have hi := ht.isFor hx
  unfold Instruction.IsFor at hi
  rw [if_neg hop] at hi
  cases hi

/-- **An instruction that is executed** sets the slot for what the text tells, or none. -/
theorem Past.sets_executed (hh : host.Honest) {e : Engine} {m m' : Moment} {log : List Deed}
    (hp : Past host allowed ⟨.work e m, log⟩) {q : Party} (hq : q ∈ m.parties) {x : Execution}
    (hx : q.execution? m.world = some x) (hg : m'.world.globals = m.world.globalsAfter (some x)) :
    Sets (.executed x) ⟨.work e m, log⟩ ⟨.work e m', .executed x :: log⟩ := by
  have ht := hp.told hh
  obtain ⟨hlex, hw⟩ := hp.scopes hh
  have stored {name : String} {v : Value} (h : Deed.Writes log name (.executed x) v) :
      x.instruction.op = .storeGlobal ∧ x.machine.stack.toList.head? = some v ∧
        x.IsFor log (.global name) := by
    cases h with
    | executed hfor hv => exact ⟨ht.op_of_global hfor, hv, hfor⟩
  unfold World.globalsAfter at hg
  by_cases hop : x.instruction.op = .storeGlobal
  · obtain ⟨dest, hdest⟩ := hp.exists_isFor hh hq hx (by simp [Instruction.isStore, hop])
    cases hv : x.machine.stack.toList.head? with
    | none =>
      have hstore : x.store? = none := by
        unfold Execution.store?
        rw [if_pos hop, hv]
        rfl
      rw [Option.bind_some, hstore] at hg
      refine .nothing (fun name v h => ?_) (World.content_congr hg)
      have := (stored h).2.1
      rw [hv] at this
      cases this
    | some v =>
      have hstore : x.store? = some (x.instruction.first, v) := by
        unfold Execution.store?
        rw [if_pos hop, hv]
        rfl
      rw [Option.bind_some, hstore] at hg
      refine .one x.instruction.first dest v (ht.isSlot hdest hop)
        (fun name v' => ⟨fun h => ?_, ?_⟩) fun k => ?_
      · obtain ⟨-, hv', hfor⟩ := stored h
        rw [hv] at hv'
        obtain ⟨symbol, hsymbol, heq⟩ := ht.isSlot hfor hop
        exact ⟨((ht.isSlot hdest hop).eq_global_iff hlex hw hsymbol).mpr heq,
          (Option.some.inj hv').symm⟩
      · rintro ⟨rfl, rfl⟩
        exact .executed hdest hv
      · show m'.world.content k = _
        rw [World.content_congr hg]
        exact World.content_setGlobal ..
  · have hstore : x.store? = none := if_neg hop
    rw [Option.bind_some, hstore] at hg
    exact .nothing (fun name v h => hop (stored h).1) (World.content_congr hg)

/-- **A party does something.** -/
theorem Named.perform (hh : host.Honest) {e : Engine} {m m' : Moment} {log deeds : List Deed}
    (hp : Past host allowed ⟨.work e m, log⟩) (hn : Named ⟨.work e m, log⟩)
    (hm : m.Performs host deeds m') : Named ⟨.work e m', deeds ++ log⟩ := by
  rcases hm.cases with ⟨q, hq, rfl, hworld, -⟩ | ⟨rfl, -, hglobals, -⟩
  · have hg : m'.world.globals = m.world.globalsAfter (q.execution? m.world) := by
      rw [hworld]
      exact q.fiber.globals_step host q.thread m.world
    have hexec : Named ⟨.work e m', ((q.execution? m.world).map Deed.executed).toList ++ log⟩ := by
      cases hx : q.execution? m.world with
      | none =>
        rw [hx] at hg
        exact hn.same rfl rfl (.refl _) (World.content_congr hg)
      | some x =>
        obtain ⟨hlex, hw⟩ := hp.scopes hh
        rw [hx] at hg
        exact hn.deed (d := .executed x) rfl (fun name => (or_iff_left id).symm) (.refl _) hlex hw
          (hp.sets_executed hh hq hx hg)
    unfold Party.deeds
    rw [List.append_assoc]
    refine hexec.later ((q.fiber.step host m.world).1.deeds q.thread) rfl ?_ ?_ rfl (.refl _) rfl
    · intro name d hd
      unfold Event.deeds at hd
      split at hd
      · obtain rfl := List.mem_singleton.mp hd
        exact id
      · cases hd
    · intro name
      unfold Event.deeds
      split
      · exact unwritten_single fun v hw => by cases hw
      · exact unwritten_nil
  · exact hn.same rfl rfl (.refl _) (World.content_congr hglobals)

/-- **The host sets a global.** -/
theorem Named.set (hh : host.Honest) {e e' : Engine} {log : List Deed} {name : String}
    {t : HostType}
    {x : t.Carrier} (hp : Past host allowed ⟨.rest e, log⟩) (hn : Named ⟨.rest e, log⟩)
    (he : e.set name t x = (.ok (), e')) :
    Named ⟨.rest e', .assigned name (t.toValue x e.system.world.heap).1 :: log⟩ := by
  obtain ⟨E, -, hj⟩ := hp.joined hh
  have hstep : Step host allowed ⟨.rest e, log⟩
      ⟨.rest e', .assigned name (t.toValue x e.system.world.heap).1 :: log⟩ := .set he
  have hr := hp.retains hh hstep
  obtain ⟨hlex, hw⟩ := (hp.step hstep).scopes hh
  obtain ⟨slot, compiler, hd, rfl⟩ := Engine.set_eq_ok he
  obtain ⟨hslot, hdeclared⟩ := hj.sound.declared_declareGlobal hd
  refine hn.deed (d := .assigned name _) rfl hdeclared hr hlex hw
    (.one slot (.global name) (t.toValue x e.system.world.heap).1
      (isSlot_global.mpr hslot) (fun other v => ?_) fun k => ?_)
  · constructor
    · rintro ⟨⟩
      exact ⟨rfl, rfl⟩
    · rintro ⟨⟨⟩, rfl⟩
      exact .assigned _
  · exact World.content_setGlobal ..

/-- **In all histories** a slot of a name holds what was last written to that name. -/
theorem Past.named (hh : host.Honest) (hp : h.Past host allowed) : h.Named := by
  refine hp.induction (fun h hf => .of_fresh hf) fun h h' hpast hn hs => ?_
  have hr := hpast.retains hh hs
  obtain ⟨E, hE, hj⟩ := hpast.joined hh
  obtain ⟨hlex, hw⟩ := (hpast.step hs).scopes hh
  cases hs with
  | compile e log program =>
    have hE : E.functions = e.system.world.heap.functions := hE
    refine hn.deed (d := .compiled ..) rfl (fun name => ?_) hr hlex hw
      (.nothing (fun _ _ h => by cases h) rfl)
    have := hj.sound.declared_compile program name
    rwa [hE] at this
  | set he => exact hn.set hh hpast he
  | @setRefused e e' log name t x error he =>
    obtain ⟨reason, compiler, hd, -, rfl⟩ := Engine.set_eq_error he
    obtain rfl := Compiler.declareGlobal_error hd
    exact hn.same rfl rfl hr rfl
  | @register e e' log name body he =>
    refine hn.later [_] rfl (fun _ d hd => ?_) (fun _ => unwritten_single fun _ h => by cases h)
      (Engine.retains_register hj.sound he).2 hr ?_
    · obtain rfl := List.mem_singleton.mp hd
      exact id
    · obtain ⟨slot, compiler, -, -, rfl⟩ := Engine.register_eq_ok he
      rfl
  | @registerRefused e e' log name body error he =>
    refine hn.same rfl (Engine.retains_register hj.sound he).2 hr ?_
    obtain ⟨slot, compiler, -, -, rfl⟩ | ⟨reason, compiler, -, -, rfl⟩ :=
      Engine.register_eq_error he
    · rfl
    · rfl
  | context | wait => exact hn.same rfl rfl hr rfl
  | @run e log code hcode ha =>
    refine hn.later [_] rfl (fun _ d hd => ?_) (fun _ => unwritten_single fun _ h => by cases h)
      rfl hr (funext (World.content_ensureGlobals e.system.world code.globalCount))
    obtain rfl := List.mem_singleton.mp hd
    exact id
  | call =>
    refine hn.later [_] rfl (fun _ d hd => ?_) (fun _ => unwritten_single fun _ h => by cases h)
      rfl hr rfl
    obtain rfl := List.mem_singleton.mp hd
    exact id
  | perform hm => exact hn.perform hh hpast hm
  | @finish e log m o s he => exact hn.same rfl rfl hr (congrArg World.content he.world)

end History

/-! ### Engines at rest -/

/-- **The globals of an engine are a store keyed by names**: names do not share slots and keep them,
a name has a value if and only if it was declared at the top level, that value is the one last
written to the name, and it stays while nothing is written to that name. -/
structure NamedStore (host : Host) (allowed : Engine → Code → Prop) (e : Engine) (log : List Deed) :
    Prop where
  distinct : ∀ {name name' : String} {slot : Word}, e.compiler.globalIndex? name = some slot →
    e.compiler.globalIndex? name' = some slot → name = name'
  stable : ∀ {h : History}, History.Steps host allowed ⟨.rest e, log⟩ h → ∀ {name : String}
    {slot : Word}, e.compiler.globalIndex? name = some slot →
      h.scene.engine.compiler.globalIndex? name = some slot
  get_none : ∀ name, e.get? name = none ↔ ¬ Declared name log
  get_some : ∀ name v, e.get? name = some v ↔ Declared name log ∧ LastWritten name log v
  kept : ∀ {e' : Engine} {deeds : List Deed}, History.Steps host allowed ⟨.rest e, log⟩
    ⟨.rest e', deeds ++ log⟩ → ∀ name, Declared name log → Unwritten name deeds log →
      e'.get? name = e.get? name

namespace History

variable {host : Host} {allowed : Engine → Code → Prop}

/-- The slots of names stay the same. -/
theorem Past.slot?_steps (hh : host.Honest) {h h' : History} (hp : h.Past host allowed)
    (hs : h.Steps host allowed h') {name : String} {slot : Word}
    (hslot : h.slot? name = some slot) :
    h'.slot? name = some slot := by
  induction hs with
  | refl => exact hslot
  | tail hsteps hstep ih =>
    have hr := (hp.steps hsteps).retains hh hstep
    exact isSlot_global.mp (hr.slots (isSlot_global.mpr ih))

/-- **The value of a name** is the one last written to it. -/
theorem Past.get?_eq_some (hh : host.Honest) {e : Engine} {log : List Deed}
    (hp : Past host allowed ⟨.rest e, log⟩) (name : String) (v : Value) :
    e.get? name = some v ↔ Declared name log ∧ LastWritten name log v := by
  have hn := hp.named hh
  have hd := hn.declared name
  unfold Engine.get?
  cases hslot : e.compiler.globalIndex? name with
  | none =>
    have hslot : (⟨.rest e, log⟩ : History).slot? name = none := hslot
    rw [hslot] at hd
    refine iff_of_false (by simp) fun h => ?_
    have := hd.mpr h.1
    cases this
  | some slot =>
    have hvalue := hn.value name slot hslot
    have hslot : (⟨.rest e, log⟩ : History).slot? name = some slot := hslot
    rw [hslot] at hd
    rw [Option.map_some, Option.some.injEq]
    constructor
    · rintro rfl
      exact ⟨hd.mp rfl, hvalue⟩
    · exact fun h => hvalue.unique h.2

/-- **The globals of every engine are a store keyed by names**, whatever its host and its scripts
did before: batches that were refused, runs that failed and codes that were not run yet make no
difference, nor do variables of blocks and functions. -/
theorem globals_named (hh : host.Honest) {e : Engine} {log : List Deed}
    (hp : Past host allowed ⟨.rest e, log⟩) : NamedStore host allowed e log where
  distinct {name name' slot} hslot hslot' := by
    obtain ⟨hlex, hw⟩ := hp.scopes hh
    obtain ⟨symbol, hsymbol, rfl⟩ := Option.map_eq_some_iff.mp hslot
    obtain ⟨symbol', hsymbol', heq⟩ := Option.map_eq_some_iff.mp hslot'
    exact (hlex.slot_inj hw hsymbol (isGlobal_root hw.toIsTree) hsymbol' heq.symm).2
  stable hs _ _ hslot := hp.slot?_steps hh hs hslot
  get_none name := by
    have hd := (hp.named hh).declared name
    rw [← hd]
    unfold Engine.get?
    rw [Option.map_eq_none_iff, ← Option.not_isSome_iff_eq_none]
    rfl
  get_some := hp.get?_eq_some hh
  kept {e' deeds} hs name hd hu := by
    obtain ⟨v, hv⟩ : ∃ v, e.get? name = some v := by
      have := (hp.named hh).declared name
      obtain ⟨slot, hslot⟩ := Option.isSome_iff_exists.mp (this.mpr hd)
      exact ⟨_, congrArg (Option.map _) hslot⟩
    obtain ⟨-, hlast⟩ := (hp.get?_eq_some hh name v).mp hv
    rw [hv, (hp.steps hs).get?_eq_some hh]
    obtain ⟨d, hmem, hname⟩ := hd
    exact ⟨⟨d, List.mem_append_right _ hmem, hname⟩, hlast.append hu⟩

/-! #### A batch that is refused

The host sets a global. Then a batch is refused, because it returns outside of a function. -/

/-- The global keeps the value that the host gave it. -/
theorem globals_named_refused : ∃ (e : Engine) (log : List Deed), Past Twice.host (fun _ _ => True)
      ⟨.rest (e.compile [.ret none]).2, log⟩ ∧
    (e.compile [.ret none]).1 = .error (.compile .returnOutsideFunction) ∧
    NamedStore Twice.host (fun _ _ => True) (e.compile [.ret none]).2 log ∧
    (e.compile [.ret none]).2.get? "x" = some (.int 5) := by
  have fresh : Past Twice.host (fun _ _ => True) ⟨.rest {}, []⟩ :=
    ⟨_, @Fresh.build .standard {} {} [] .background {} rfl rfl, .refl⟩
  have hdeclare : ∃ slot c, ({} : Compiler).declareGlobal "x" = (.ok slot, c) := by
    have hnone : ({} : Compiler).globalIndex? "x" = none := by
      simp [Compiler.globalIndex?, get?, scope, empty, root]
    have hnew : (empty.scope root).names.contains "x" = false := by
      simp [scope, empty, root]
    have hroom : ¬ slotLimit ≤ empty.slotCount root := by decide
    unfold Compiler.declareGlobal Compiler.onTable
    rw [hnone, declare_eq, hnew, if_neg Bool.false_ne_true, if_neg hroom]
    exact ⟨_, _, rfl⟩
  obtain ⟨slot, c, hdeclare⟩ := hdeclare
  obtain ⟨e, he⟩ : ∃ e, ({} : Engine).set "x" .int64 5 = (.ok (), e) := by
    unfold Engine.set
    rw [show ({} : Engine).compiler.declareGlobal "x" = (.ok slot, c) from hdeclare]
    exact ⟨_, rfl⟩
  have hset := fresh.step (.set he)
  have hp := hset.step (.compile e _ [.ret none])
  have hnamed := globals_named Twice.honest hp
  refine ⟨e, _, hp, ?_, hnamed, (hnamed.get_some "x" (.int 5)).mpr ⟨?_, ?_⟩⟩
  · obtain ⟨E, hE, hj⟩ := hset.joined Twice.honest
    have hrefused := hj.sound.compile_of_error (e := .returnOutsideFunction)
      (show Generate.statements [.ret none] (e.compiler.starting E.functions) =
        .error _ (e.compiler.starting E.functions) from rfl)
    have hE : E.functions = e.system.world.heap.functions := hE
    rw [hE] at hrefused
    exact congrArg (fun answer => answer.1.mapError EngineError.compile) hrefused
  · exact ⟨_, List.mem_cons_of_mem _ List.mem_cons_self, rfl⟩
  · exact .other (fun _ h => by cases h) (.write (.assigned _))

end History

end ScriptEngine
