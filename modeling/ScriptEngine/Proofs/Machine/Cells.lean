import ScriptEngine.Proofs.Machine.Homes

/-!
# Turns and the cells that they make

A turn of the dispatch loop keeps cells where they belong: in the slots of their own variables, in
closures of functions that have recorded these variables, and on top of the operand stack only while
they are on their way to such a closure.

## Main definitions

* `ScriptEngine.Residence.After`: what a turn leaves behind;
* `ScriptEngine.Residence.Goes`: how the fiber goes on.

## Main results

* `ScriptEngine.Residence.turn`: every turn of compiled code keeps cells where they belong.
-/

namespace ScriptEngine

open ScopeTable

namespace Residence

/-- **What a turn leaves behind**, if it executes the given instruction. -/
structure After (R : Residence) (w' : Holdings) (x : Option Execution) (frames : List Frame)
    (cells : Array Value) (s : State) : Prop where
  governs : R.Governs w' s.world
  resides : ∀ g ∈ s.machine.frames.items, g.Resides R w'
  registry : ∀ e ∈ s.machine.registry.entries, ∀ r, e.2 ≠ .cell r
  alters : Alters x frames cells s.machine.frames.items s.world.heap.cells

/-- **How the fiber goes on** behind a turn. -/
def Goes (R : Residence) (w' : Holdings) (bases : List Nat) (s : State) : Flow → Prop
  | .next => R.Loaded w' bases s.machine.frames.items s.machine.stack.toList
  | .leave v => R.discipline.value w' v ∧ R.discipline.values w' s.machine.stack.toList
  | .invoke callee args => R.discipline.value w' callee ∧ R.discipline.values w' args ∧
      R.discipline.values w' s.machine.stack.toList

variable {R : Residence} {w w' : Holdings} {bases : List Nat} {frames fs : List Frame}
  {items : List Value} {g : Frame} {i : Instruction} {cells : Array Value}
  {x : Execution} {s : State}
  {cs : List (Ref .cell)}

/-! ### Operands -/

theorem Topped.of_values (h : R.discipline.values w items) : R.Topped w bases [] items :=
  ⟨items, rfl, h, fun h => absurd rfl h⟩

theorem Loaded.of_values (h : R.discipline.values w items) : R.Loaded w bases frames items :=
  ⟨[], .of_values h, fun h => absurd rfl h⟩

theorem Topped.mono (h : R.Topped w bases cs items) : R.Topped w' bases cs items :=
  ⟨h.rest⟩

/-- Below the cells lie plain values. -/
theorem Topped.drop (h : R.Topped w bases cs items) {n : Nat} (hn : cs.length ≤ n)
    {below : List Value}
    (hb : below = items.drop n) : R.discipline.values w below := by
  obtain ⟨rest, rfl, hrest, -⟩ := h
  rw [List.drop_append, List.drop_of_length_le (by rwa [List.length_map]), List.nil_append] at hb
  exact fun v hv => hrest v (List.mem_of_mem_drop (hb ▸ hv))

/-- **Operands that are all cells** are those on top. -/
theorem Topped.cells_of_take (h : R.Topped w bases cs items) {n : Nat} (hn : cs.length ≤ n)
    (hle : n ≤ items.length) {rs : List (Ref .cell)} (hrs : (items.take n).reverse = rs.map .cell) :
    n = cs.length ∧ rs = cs.reverse := by
  obtain ⟨rest, rfl, hrest, -⟩ := h
  have htake : (cs.map Value.cell ++ rest).take n = cs.map .cell ++ rest.take (n - cs.length) := by
    rw [List.take_append, List.length_map, List.take_of_length_le (by rwa [List.length_map])]
  rw [htake, List.reverse_eq_iff, ← List.map_reverse] at hrs
  have hnone : rest.take (n - cs.length) = [] := by
    cases htop : rest.take (n - cs.length) with
    | nil => rfl
    | cons v vs =>
      have hv : v ∈ rest.take (n - cs.length) := htop ▸ List.mem_cons_self
      have hmem : v ∈ rs.reverse.map Value.cell := hrs ▸ List.mem_append_right _ hv
      obtain ⟨r, -, rfl⟩ := List.mem_map.mp hmem
      exact absurd rfl (hrest _ (List.mem_of_mem_take hv) r)
  rw [hnone, List.append_nil] at hrs
  refine ⟨?_, ?_⟩
  · rw [List.length_append, List.length_map] at hle
    rcases List.take_eq_nil_iff.mp hnone with hz | hz
    · omega
    · rw [hz, List.length_nil] at hle
      omega
  · rw [List.map_injective_iff.mpr (fun _ _ h => Value.cell.inj h) hrs, List.reverse_reverse]

theorem Loaded.spoiled (h : R.Loaded w bases frames items) : R.Spoiled w bases items :=
  let ⟨cs, hcs, _⟩ := h
  ⟨cs, hcs⟩

/-- Where cells are on their way, there is more code. -/
theorem Carries.lt_size (h : R.Carries w g cs) : g.ip < g.code.size := by
  obtain ⟨s, f, inner, n, -, -, -, hands, -⟩ := h
  generalize g.ip = p at hands
  cases hands with
  | bind has | pass has => exact has.offset_lt

/-- The cells that are on their way are those that the instruction hands out or binds. -/
theorem Carries.op (h : R.Carries w g cs) (hi : g.code.Has i) (ho : i.offset = g.ip) :
    i.op = .makeCell ∨ i.op = .loadClosure := by
  obtain ⟨s, f, inner, n, -, -, -, hands, -⟩ := h
  generalize hp : g.ip = p at hands
  cases hands with
  | bind has => exact .inr (has.unique hi (hp.symm.trans ho.symm) ▸ rfl)
  | pass has op => exact .inl (has.unique hi (hp.symm.trans ho.symm) ▸ op)

/-- **Every other instruction** finds plain values. -/
theorem Loaded.values (h : R.Loaded w bases (g :: fs) items) (hi : g.code.Has i)
    (ho : i.offset = g.ip)
    (hm : i.op ≠ .makeCell) (hl : i.op ≠ .loadClosure) : R.discipline.values w items := by
  obtain ⟨cs, ⟨rest, rfl, hrest, -⟩, hcarries⟩ := h
  cases cs with
  | nil => exact hrest
  | cons r cs =>
    obtain ⟨g', hg', hc⟩ := hcarries (List.cons_ne_nil r cs)
    cases hg'
    exact absurd (hc.op hi ho) (by simp [hm, hl])

/-- **An instruction that works on cells on their way** finds those that were pushed so far. -/
theorem Loaded.carries (hR : R.Sound) (h : R.Loaded w bases (g :: fs) items) (hg : g.Resides R w)
    (hb : g.code.Boundary g.ip) (hi : g.code.Has i) (ho : i.offset = g.ip)
    (hop : i.op = .makeCell ∨ i.op = .loadClosure) :
    ∃ cs, R.Topped w bases cs items ∧ R.Carries w g cs := by
  obtain ⟨cs, htop, hcarries⟩ := h
  cases cs with
  | cons r cs =>
    obtain ⟨g', hg', hc⟩ := hcarries (List.cons_ne_nil r cs)
    cases hg'
    exact ⟨_, htop, hc⟩
  | nil =>
    obtain ⟨s, hs, hcaptures⟩ := hg.home
    obtain ⟨f, inner, n, hf, -, -, hands⟩ := (hs.atHome hR hb hi ho).hands hop
    exact ⟨[], htop, s, f, inner, n, hs, hcaptures, hf, ho ▸ hands, Nat.zero_le _, nofun⟩

/-! ### Instructions that do not touch cells -/

theorem Governs.of_under {P : List Frame → Prop} (hs : Exec.Under R.discipline w cells P s)
    (hsize : w.origins.length = cells.size) : R.Governs w s.world :=
  ⟨hs.heap, by rw [hsize, hs.cells], fun v hv => hs.globals v (Array.mem_toList_iff.mp hv)⟩

/-- Frames are at home if the innermost one still is. -/
theorem resides_cons (hf : g.Resides R w) (hfs : ∀ f ∈ fs, f.Resides R w) :
    ∀ f ∈ g :: fs, f.Resides R w :=
  List.forall_mem_cons.mpr ⟨hf, hfs⟩

/-- The innermost frame has moved, or is gone. -/
theorem After.of_under (hs : Exec.Under R.discipline w cells (Exec.Leaving g fs) s)
    (hsize : w.origins.length = cells.size) (hfs : ∀ f ∈ g :: fs, f.Resides R w)
    (hx : x.frame = g) :
    R.After w (some x) (g :: fs) cells s := by
  have governs := Governs.of_under hs hsize
  have rest {n : Nat} (hgs : s.machine.frames.items = (g :: fs).drop n) :
      R.After w (some x) (g :: fs) cells s := by
    refine ⟨governs, fun f hf => hfs f (List.mem_of_mem_drop (hgs ▸ hf)), hs.registry, ?_⟩
    rw [hgs, hs.cells]
    exact .leave n
  obtain ⟨hg, hfs'⟩ := List.forall_mem_cons.mp hfs
  rcases hs.frames with ⟨ip, hgs⟩ | hgs | hgs
  · refine ⟨governs, hgs ▸ resides_cons (hg.moved ip) hfs', hs.registry, ?_⟩
    rw [hgs, hs.cells, ← hx]
    exact .move rfl ip
  · exact rest (n := 1) hgs
  · exact rest (n := (g :: fs).length) (hgs.trans List.drop_length.symm)

theorem Goes.of_under {P : List Frame → Prop}
    (hs : Exec.Under R.discipline w cells P s) {flow : Flow}
    (hf : Flow.Sound R.discipline w flow) : R.Goes w bases s flow := by
  cases flow with
  | next => exact .of_values hs.stack
  | leave v => exact ⟨hf, hs.stack⟩
  | invoke callee args => exact ⟨hf.1, hf.2, hs.stack⟩

end Residence

namespace Exec

variable {D : Discipline} {w : D.Stage} {cells : Array Value} {f : Frame} {fs : List Frame}

/-! ### Stores -/

/-- **What a store leads to**: the content of a slot or of a cell is replaced, unless the store
fails. -/
def Stored (D : Discipline) (w : D.Stage) (cells : Array Value) (f : Frame) (fs : List Frame)
    (i : Instruction) (s : State) : Prop :=
  Under D w cells (OnTop f fs) s ∨
  (∃ u v, i.op = .storeFast ∧ f.locals[i.first.toNat]? = some u ∧ (∀ r, u ≠ .cell r) ∧ D.value w v ∧
    Under D w cells (OnTop { f with locals := f.locals.setIfInBounds i.first.toNat v } fs) s) ∨
  ∃ r v, (i.op = .storeFast ∧ f.locals[i.first.toNat]? = some (.cell r) ∨
      i.op = .storeFree ∧ f.cells[i.first.toNat]? = some r) ∧
    Under D w (cells.setIfInBounds r.index v) (OnTop f fs) s

namespace Gives

theorem slot_eq (index : Word) : Gives D w cells (OnTop f fs) (Exec.slot index)
    fun v => f.locals[index.toNat]? = some v :=
  frame.bind fun g hg => entry _ fun v hv => by
    obtain ⟨ip, rfl⟩ := hg
    exact hv

theorem captured_eq (index : Word) : Gives D w cells (OnTop f fs) (Exec.captured index)
    fun r => f.cells[index.toNat]? = some r :=
  frame.bind fun g hg => entry _ fun v hv => by
    obtain ⟨ip, rfl⟩ := hg
    exact hv

end Gives

/-- A cell with another content. -/
theorem Under.setCell {P : List Frame → Prop} {Q : State → Prop} (r : Ref .cell) {v : Value}
    (hv : D.value w v) (hQ : ∀ s, Under D w (cells.setIfInBounds r.index v) P s → Q s) :
    Ensures (Under D w cells P) (onHeap fun h => ((), h.setCell r v)) (fun _ => Q) fun _ => Q := by
  rintro ⟨machine, heap, globals, controls⟩ hs
  refine ⟨fun a s' heq => ?_, fun e s' heq => by cases heq⟩
  cases heq
  exact hQ _ ⟨hs.frames, hs.stack, hs.heap.setCell r hv,
    congrArg (Array.setIfInBounds · r.index v) hs.cells, hs.globals, hs.registry⟩

/-- A slot with another content. -/
theorem Under.setSlot {Q : State → Prop} (index : Word) (v : Value)
    (hQ : ∀ s, Under D w cells
      (OnTop { f with locals := f.locals.setIfInBounds index.toNat v } fs) s → Q s) :
    Ensures (Under D w cells (OnTop f fs)) (Exec.setSlot index v) (fun _ => Q) fun _ => Q := by
  rintro ⟨⟨config, stack, frames, registry, position, status, ticks⟩, world⟩ hs
  refine ⟨fun a s' heq => ?_, fun e s' heq => by cases heq⟩
  cases heq
  obtain ⟨ip, hip⟩ := hs.frames
  exact hQ _ ⟨⟨ip, Stack.items_mapTop _ frames hip⟩, hs.stack, hs.heap, hs.cells,
    hs.globals, hs.registry⟩

/-- A step that leads nowhere if it fails. -/
theorem Gives.follow {α : Type} {A : α → Prop} {P : List Frame → Prop}
    {Q : State → Prop} {x : Exec α}
    {g : α → Exec Unit} (hx : Gives D w cells P x A) (hQ : ∀ s, Under D w cells P s → Q s)
    (hg : ∀ a, A a → Ensures (Under D w cells P) (g a) (fun _ => Q) fun _ => Q) :
    Ensures (Under D w cells P) (x >>= g) (fun _ => Q) fun _ => Q :=
  Ensures.bind (Ensures.mono hx (fun _ h => h) (fun _ _ h => h) fun _ _ h => hQ _ h)
    fun a s hs => hg a hs.1 s hs.2

/-- **A store** into a variable of the function, or of one around it. -/
theorem stored_execute (ctx : Context) {i : Instruction}
    (hop : i.op = .storeFast ∨ i.op = .storeFree) :
    Ensures (Under D w cells (OnTop f fs)) (Exec.execute ctx i)
      (fun flow s => flow = .next ∧ Stored D w cells f fs i s) fun _ =>
        Stored D w cells f fs i := by
  have done {x : Exec Unit} (hx : Ensures (Under D w cells (OnTop f fs)) x
      (fun _ => Stored D w cells f fs i) fun _ => Stored D w cells f fs i) :
      Ensures (Under D w cells (OnTop f fs)) (Exec.proceed x)
        (fun flow s => flow = .next ∧ Stored D w cells f fs i s) fun _ => Stored D w cells f fs i :=
    hx.bind fun _ => .pure fun _ hs => ⟨rfl, hs⟩
  have same : ∀ s, Under D w cells (OnTop f fs) s → Stored D w cells f fs i s := fun _ => .inl
  unfold Exec.execute
  rcases hop with hop | hop
  all_goals simp only [hop]
  · refine done (Gives.pop.follow same fun v hv => (Gives.slot_eq _).follow same fun u hu => ?_)
    split
    · exact Under.setCell _ hv fun s hs => .inr (.inr ⟨_, v, .inl ⟨hop, hu⟩, hs⟩)
    · rename_i hn
      exact Under.setSlot _ _ fun s hs => .inr (.inl ⟨u, v, hop, hu, hn, hv, hs⟩)
  · exact done (Gives.pop.follow same fun v hv => (Gives.captured_eq _).follow same fun r hr =>
      Under.setCell r hv fun s hs => .inr (.inr ⟨r, v, .inr ⟨hop, hr⟩, hs⟩))

end Exec

namespace Residence

variable {R : Residence} {w w' : Holdings} {bases : List Nat} {frames fs : List Frame}
  {items : List Value} {g : Frame} {i : Instruction} {cells : Array Value}
  {x : Execution} {s : State}
  {cs : List (Ref .cell)}

/-- **A store** leaves everything where it belongs. -/
theorem After.of_stored (hs : Exec.Stored R.discipline w cells g fs x.instruction s)
    (hsize : w.origins.length = cells.size) (hfs : ∀ f ∈ g :: fs, f.Resides R w)
    (hx : x.frame = g) :
    R.After w (some x) (g :: fs) cells s ∧ R.discipline.values w s.machine.stack.toList := by
  subst hx
  obtain ⟨hg, hfs'⟩ := List.forall_mem_cons.mp hfs
  rcases hs with hs | ⟨u, v, hop, hu, hn, hv, hs⟩ | ⟨r, v, hr, hs⟩
  · obtain ⟨ip, hgs⟩ := hs.frames
    refine ⟨⟨.of_under hs hsize, hgs ▸ resides_cons (hg.moved ip) hfs', hs.registry, ?_⟩, hs.stack⟩
    rw [hgs, hs.cells]
    exact .move rfl ip
  · obtain ⟨ip, hgs⟩ := hs.frames
    have hresides := hg.replaced ip x.instruction.first (v := v) fun r hr => absurd hr (hv r)
    refine ⟨⟨.of_under hs hsize, hgs ▸ resides_cons hresides hfs', hs.registry, ?_⟩, hs.stack⟩
    rw [hgs, hs.cells]
    exact .assign rfl ip hop hu hn hv
  · obtain ⟨ip, hgs⟩ := hs.frames
    refine ⟨⟨.of_under hs (hsize.trans (Array.size_setIfInBounds ..).symm),
      hgs ▸ resides_cons (hg.moved ip) hfs', hs.registry, ?_⟩, hs.stack⟩
    rw [hgs, hs.cells]
    exact .write rfl ip hr

end Residence

namespace Exec

/-- **A step that only looks** at the state. -/
def Looks {α : Type} (t : State) (x : Exec α) (A : α → Prop) : Prop :=
  Ensures (· = t) x (fun a s => s = t ∧ A a) fun _ s => s = t

namespace Looks

variable {α β : Type} {t : State} {A : α → Prop} {B : β → Prop} {f : Frame}

/-- A look, and what follows from the same state. -/
theorem follow {x : Exec α} {k : α → Exec β} {Q : β → State → Prop}
    {E : RuntimeError → State → Prop}
    (hx : Looks t x A) (hk : ∀ a, A a → Ensures (· = t) (k a) Q E) (hE : ∀ e, E e t) :
    Ensures (· = t) (x >>= k) Q E :=
  Ensures.bind (Ensures.mono hx (fun _ h => h) (fun _ _ h => h) fun e _ h => h ▸ hE e)
    fun a s hs => hk a hs.2 s hs.1

theorem bind {x : Exec α} {k : α → Exec β} (hx : Looks t x A) (hk : ∀ a, A a → Looks t (k a) B) :
    Looks t (x >>= k) B :=
  hx.follow hk fun _ => rfl

theorem pure {a : α} (h : A a) : Looks t (pure a) A :=
  Ensures.pure fun _ hs => ⟨hs, h⟩

theorem throw (e : RuntimeError) : Looks t (throw e : Exec α) A :=
  Ensures.throw fun _ hs => hs

theorem entry {o : Option α} (missing : InternalFault) (h : ∀ a, o = some a → A a) :
    Looks t (Exec.entry o missing) A := by
  unfold Exec.entry
  split
  · exact pure (h _ rfl)
  · exact throw _

theorem frame (h : t.machine.frames.items.head? = some f) : Looks t Exec.frame (· = f) := by
  refine Ensures.get ?_
  rintro t rfl
  rw [show t.machine.frames.top? = some f from h]
  exact pure rfl

theorem slot (h : t.machine.frames.items.head? = some f) (index : Word) :
    Looks t (Exec.slot index) fun v => f.locals[index.toNat]? = some v :=
  (frame h).bind fun _ hg => entry _ fun _ hv => hg ▸ hv

theorem captured (h : t.machine.frames.items.head? = some f) (index : Word) :
    Looks t (Exec.captured index) fun r => f.cells[index.toNat]? = some r :=
  (frame h).bind fun _ hg => entry _ fun _ hr => hg ▸ hr

theorem constant (h : t.machine.frames.items.head? = some f) (index : Word) :
    Looks t (Exec.constant index) fun v => f.code.constants[index.toNat]? = some v :=
  (frame h).bind fun _ hg => entry _ fun _ hv => hg ▸ hv

/-- Operands that are taken for cells. -/
theorem asCell (v : Value) : Looks t (Exec.asCell v) fun r => v = .cell r := by
  cases v with
  | cell r => exact pure rfl
  | _ =>
    refine Looks.bind (A := fun _ => True) ?_ fun _ _ => throw _
    rintro t rfl
    exact ⟨fun _ _ h => by cases h; exact ⟨rfl, trivial⟩, fun _ _ h => by cases h⟩

theorem asCells : ∀ vs : List Value, Looks t (vs.mapM Exec.asCell) fun rs => vs = rs.map .cell
  | [] => by
    rw [List.mapM_nil]
    exact pure rfl
  | v :: vs => by
    rw [List.mapM_cons]
    exact (asCell v).bind fun r hr => (asCells vs).bind fun rs hrs => pure (by rw [hr, hrs]; rfl)

end Looks

variable {t t' : State} {f : Frame}

/-- What follows a step that succeeds. -/
theorem follow_ok {α β : Type} {x : Exec α} {k : α → Exec β} {Q : β → State → Prop}
    {E : RuntimeError → State → Prop} {a : α} (h : x t = .ok a t')
    (hk : Ensures (· = t') (k a) Q E) :
    Ensures (· = t) (x >>= k) Q E := by
  rintro t rfl
  unfold Ensures at hk
  rw [bind_of_ok h]
  exact hk t' rfl

theorem follow_error {α β : Type} {x : Exec α} {k : α → Exec β} {Q : β → State → Prop}
    {E : RuntimeError → State → Prop} {e : RuntimeError} (h : x t = .error e t') (hE : E e t') :
    Ensures (· = t) (x >>= k) Q E := by
  rintro t rfl
  rw [bind_of_error h]
  exact ⟨fun _ _ heq => (by cases heq), fun _ _ heq => by cases heq; exact hE⟩

/-- **Operands are taken** from the stack if there are enough of them. -/
theorem popN_cases (n : Nat) (t : State) :
    Exec.popN n t = .error .stackUnderflow t ∨ ∃ stack : OperandStack,
      n ≤ t.machine.stack.toList.length ∧ stack.toList = t.machine.stack.toList.drop n ∧
        Exec.popN n t = .ok (t.machine.stack.toList.take n).reverse
          ⟨{ t.machine with stack }, t.world⟩ := by
  obtain ⟨⟨config, ⟨contents, limit⟩, frames, registry, position, status, ticks⟩, world⟩ := t
  unfold Exec.popN onStack OperandStack.popN
  dsimp only
  by_cases hle : n ≤ contents.size
  · refine .inr ⟨⟨contents.truncate (contents.size - n), limit⟩, contents.size_eq ▸ hle, ?_, ?_⟩
    · show (contents.truncate (contents.size - n)).items = contents.items.drop n
      rw [Stack.items_truncate, Nat.sub_sub_self hle]
    · rw [if_pos hle]
      rfl
  · rw [if_neg hle]
    exact .inl rfl

theorem newClosure_eq (c : Closure) (t : State) :
    (do return Value.closure (← Exec.onHeap (·.newClosure c)) : Exec Value) t =
      .ok (.closure ⟨t.world.heap.closures.size⟩)
        ⟨t.machine, { t.world with heap := (t.world.heap.newClosure c).2 }⟩ := rfl

/-- The content of a slot is moved into a new cell. -/
theorem box_eq (h : t.machine.frames.items.head? = some f) (index : Word) (v : Value) :
    ∃ t', (do
        let r ← Exec.onHeap (·.newCell v)
        Exec.setSlot index (.cell r)
        return r : Exec (Ref .cell)) t = .ok ⟨t.world.heap.cells.size⟩ t' ∧
      t'.machine.frames.items = { f with
        locals := f.locals.setIfInBounds index.toNat (.cell ⟨t.world.heap.cells.size⟩) } ::
          t.machine.frames.items.tail ∧
      t'.machine.stack = t.machine.stack ∧ t'.machine.registry = t.machine.registry ∧
      t'.world = { t.world with heap := (t.world.heap.newCell v).2 } := by
  obtain ⟨⟨config, stack, frames, registry, position, status, ticks⟩, heap, globals, controls⟩ := t
  refine ⟨_, rfl, ?_, rfl, rfl, rfl⟩
  obtain ⟨fs, hfs⟩ := List.head?_eq_some_iff.mp h
  have hfs : frames.items = f :: fs := hfs
  refine (Stack.items_mapTop _ frames hfs).trans ?_
  show _ = _ :: frames.items.tail
  rw [hfs]
  rfl

end Exec

namespace Residence

variable {R : Residence} {w w' : Holdings} {bases : List Nat} {frames fs : List Frame}
  {items : List Value} {g : Frame} {i : Instruction} {cells : Array Value}
  {x : Execution} {s t : State}
  {cs : List (Ref .cell)} {r : Ref .cell}

/-! ### Cells on their way -/

/-- **A cell is pushed** for a function inside: the one of the variable that this function has
recorded next. -/
theorem Carries.pass (hR : R.Sound) (h : R.Carries w g cs)
    (hi : g.code.Has i) (ho : i.offset = g.ip) (hop : i.op = .makeCell)
    (hb : g.code.Boundary g.ip) :
    ∃ s v, R.Houses g s ∧ R.Captures w.closures g s ∧ (∀ s', R.Houses g s' → s' = s) ∧
      R.table.passed? s i = some v ∧
      ∀ {g' : Frame} {w' : Holdings} {r : Ref .cell}, g'.function = g.function → g'.code = g.code →
        g'.cells = g.cells → g'.ip = i.stop → w.Le w' → w'.origins[r.index]? = some v →
        R.Carries w' g' (r :: cs) := by
  obtain ⟨s, f, inner, n, hs, hcaptures, hf, hands, hlen, hfree⟩ := h
  generalize hp : g.ip = p at hands
  cases hands with
  | bind has =>
    have := has.unique hi (hp.symm.trans ho.symm)
    rw [← this] at hop
    cases hop
  | @pass _ j v has op passed free rest =>
    obtain rfl := has.unique hi (hp.symm.trans ho.symm)
    refine ⟨s, v, hs, hcaptures, fun s' hs' => ?_, passed, ?_⟩
    · exact Houses.unique_of_hands (hs'.atHome hR hb hi ho) (hs.atHome hR hb hi ho) hop
    · intro g' w' r hfun hcode hcells hip hw hr
      refine ⟨s, f, inner, n + 1,
        hs.congr hfun hcode, (hcaptures.mono fun _ => hw.closure).congr hcells,
        hf, ?_, Nat.succ_le_succ hlen, fun m r' hm => ?_⟩
      · rw [hcode, hip]
        exact rest
      · cases m with
        | zero =>
          cases hm
          exact ⟨v, hr, by simpa using free⟩
        | succ m =>
          have := (hfree m r' hm).mono hw
          rwa [show n + 1 - 1 - (m + 1) = n - 1 - m by omega]

/-- What a turn that succeeds leads to. -/
def Leads (R : Residence) (w : Holdings) (bases : List Nat) (x : Option Execution)
    (frames : List Frame)
    (cells : Array Value) (flow : Flow) (s : State) : Prop :=
  ∃ w', w.Le w' ∧ R.After w' x frames cells s ∧ R.Goes w' bases s flow

/-- What a turn that fails leads to. -/
def Fails (R : Residence) (w : Holdings) (bases : List Nat) (x : Option Execution)
    (frames : List Frame)
    (cells : Array Value) (s : State) : Prop :=
  ∃ w', w.Le w' ∧ R.After w' x frames cells s ∧ R.Spoiled w' bases s.machine.stack.toList

theorem After.stack {y : Option Execution} (h : R.After w y frames cells s) (stack : OperandStack) :
    R.After w y frames cells ⟨{ s.machine with stack }, s.world⟩ :=
  ⟨h.governs, h.resides, h.registry, h.alters⟩

/-- A cell is pushed onto those that are on their way. -/
theorem After.pushCell {y : Option Execution} (hw : w.Le w') (h : R.After w' y frames cells t)
    (htop : R.Topped w' bases cs t.machine.stack.toList)
    (hbases : ∀ b ∈ bases, b ≤ t.machine.stack.toList.length)
    (hc : ∃ f ∈ t.machine.frames.items.head?, R.Carries w' f (r :: cs)) :
    Ensures (· = t) (Exec.proceed (Exec.push (.cell r))) (R.Leads w bases y frames cells)
      fun _ => R.Fails w bases y frames cells := by
  refine Ensures.bind (Q := fun _ => R.Leads w bases y frames cells .next) ?_
    fun _ => .pure fun _ hs => hs
  rintro t rfl
  rw [Exec.push_eq]
  cases hp : t.machine.stack.push (.cell r) with
  | error e =>
    refine ⟨fun _ _ heq => (by cases heq), fun e s' heq => ?_⟩
    cases heq
    exact ⟨w', hw, h, cs, htop⟩
  | ok stack =>
    refine ⟨fun _ s' heq => ?_, fun _ _ heq => (by cases heq)⟩
    cases heq
    refine ⟨w', hw, h.stack stack, r :: cs, ?_, fun _ => hc⟩
    obtain ⟨rest, hrest, hvalues, hle⟩ := htop
    refine ⟨rest, ?_, hvalues, fun _ b hb => ?_⟩
    · show stack.toList = _
      rw [OperandStack.toList_push hp, hrest]
      rfl
    · cases cs with
      | nil =>
        have := hbases b hb
        rwa [hrest] at this
      | cons r' cs => exact hle (List.cons_ne_nil r' cs) b hb

/-- A cell is made for a variable. -/
theorem Governs.newCell {world : World} (h : R.Governs w world) {v : Value}
    (hv : R.discipline.value w v)
    (u : Variable) :
    R.Governs ⟨w.origins ++ [u], w.closures⟩
      { world with heap := (world.heap.newCell v).2 } := by
  have hw : w.Le ⟨w.origins ++ [u], w.closures⟩ := ⟨List.prefix_append .., List.prefix_rfl⟩
  have hcode := h.heap.code
  refine ⟨Heap.Sound.mono (h.heap.newCell hv) hw ⟨hcode.functions, hcode.closures, fun c hc =>
    (hcode.binds c hc).mono hw⟩, ?_, h.globals⟩
  show (w.origins ++ [u]).length = (world.heap.cells.push v).size
  rw [List.length_append, h.size, Array.size_push]
  rfl

/-- A closure is made with the right cells. -/
theorem Governs.newClosure {world : World} (h : R.Governs w world) {c : Closure}
    (hc : R.Binds w c) :
    R.Governs ⟨w.origins, w.closures.push c⟩
      { world with heap := (world.heap.newClosure c).2 } := by
  have hw : w.Le ⟨w.origins, w.closures.push c⟩ :=
    ⟨List.prefix_rfl, by rw [Array.toList_push]; exact List.prefix_append ..⟩
  have hcode := h.heap.code
  refine ⟨Heap.Sound.mono h.heap hw ⟨hcode.functions, ?_, fun c' hc' => ?_⟩, h.size, h.globals⟩
  · show world.heap.closures.push c = w.closures.push c
    rw [hcode.closures]
  · rcases Array.mem_push.mp hc' with hc' | rfl
    · exact (hcode.binds c' hc').mono hw
    · exact hc.mono hw

/-- **The content of a slot moves into a cell.** -/
theorem After.box (hfs : ∀ f ∈ x.frame :: fs, f.Resides R w) (hgov : R.Governs w t.world)
    (hreg : ∀ e ∈ t.machine.registry.entries, ∀ r, e.2 ≠ .cell r) {ip : Nat} {v : Value}
    (hv : x.frame.locals[x.instruction.first.toNat]? = some v) (hn : ∀ r, v ≠ .cell r) {s : ScopeId}
    (hs : ∀ s', R.Houses x.frame s' → s' = s) {f : Frame}
    (hf : f = { x.frame with
      ip
      locals := x.frame.locals.setIfInBounds x.instruction.first.toNat
        (.cell ⟨t.world.heap.cells.size⟩) })
    {t' : State} (hm : t'.machine.frames.items = f :: fs)
    (hr : t'.machine.registry = t.machine.registry)
    (hw : t'.world = { t.world with heap := (t.world.heap.newCell v).2 }) :
    R.After ⟨w.origins ++ [⟨s, x.instruction.first⟩], w.closures⟩ (some x) (x.frame :: fs)
      t.world.heap.cells t' := by
  have hle : w.Le ⟨w.origins ++ [⟨s, x.instruction.first⟩], w.closures⟩ :=
    ⟨List.prefix_append .., List.prefix_rfl⟩
  obtain ⟨hg, hfs⟩ := List.forall_mem_cons.mp fun f hf => (hfs f hf).mono hle
  refine ⟨hw ▸ hgov.newCell hn _,
    hm ▸ resides_cons (hf ▸ hg.replaced ip _ fun r hr s' hs' => ?_) hfs, hr ▸ hreg, ?_⟩
  · cases hr
    rw [hs s' hs', ← hgov.size]
    exact List.getElem?_concat_length
  · rw [hm, hw, hf]
    exact .box rfl ip hv hn

/-- A value is pushed onto values. -/
theorem After.pushValue {y : Option Execution} (hw : w.Le w') (h : R.After w' y frames cells t)
    (hs : R.discipline.values w t.machine.stack.toList) {v : Value} (hv : ∀ r, v ≠ .cell r) :
    Ensures (· = t) (Exec.proceed (Exec.push v)) (R.Leads w bases y frames cells)
      fun _ => R.Fails w bases y frames cells := by
  refine Ensures.bind (Q := fun _ => R.Leads w bases y frames cells .next) ?_
    fun _ => .pure fun _ hs => hs
  rintro t rfl
  rw [Exec.push_eq]
  cases hp : t.machine.stack.push v with
  | error e =>
    refine ⟨fun _ _ heq => (by cases heq), fun e s' heq => ?_⟩
    cases heq
    exact ⟨w', hw, h, [], .of_values hs⟩
  | ok stack =>
    refine ⟨fun _ s' heq => ?_, fun _ _ heq => (by cases heq)⟩
    cases heq
    refine ⟨w', hw, h.stack stack, .of_values ?_⟩
    show R.discipline.values w' stack.toList
    rw [OperandStack.toList_push hp]
    exact Discipline.values_cons.mpr ⟨hv, hs⟩

/-- **A cell is made or found**, and pushed for a function inside. -/
theorem makeCell (hR : R.Sound) (ctx : Context) (hx : x.frame = g)
    (hop : x.instruction.op = .makeCell)
    (hi : g.code.Has x.instruction) (ho : x.instruction.offset = g.ip) (hb : g.code.Boundary g.ip)
    (hfs : ∀ f ∈ g :: fs, f.Resides R w) (hgov : R.Governs w t.world)
    (hreg : ∀ e ∈ t.machine.registry.entries, ∀ r, e.2 ≠ .cell r)
    (ht : t.machine.frames.items = { g with ip := x.instruction.stop } :: fs)
    (htop : R.Topped w bases cs t.machine.stack.toList) (hc : R.Carries w g cs)
    (hbases : ∀ b ∈ bases, b ≤ t.machine.stack.toList.length) :
    Ensures (· = t) (Exec.execute ctx x.instruction)
      (R.Leads w bases (some x) (g :: fs) t.world.heap.cells)
      fun _ => R.Fails w bases (some x) (g :: fs) t.world.heap.cells := by
  obtain ⟨s, v, hs, hcaptures, hunique, hpassed, hcarries⟩ := hc.pass hR hi ho hop hb
  subst hx
  obtain ⟨hg, hfs'⟩ := List.forall_mem_cons.mp hfs
  have hhead : t.machine.frames.items.head? = some { x.frame with ip := x.instruction.stop } := by
    rw [ht]
    rfl
  have after : R.After w (some x) (x.frame :: fs) t.world.heap.cells t := by
    refine ⟨hgov, ht ▸ resides_cons (hg.moved _) hfs', hreg, ?_⟩
    rw [ht]
    exact .move rfl _
  have fails : R.Fails w bases (some x) (x.frame :: fs) t.world.heap.cells t :=
    ⟨w, .refl w, after, cs, htop⟩
  have found {r : Ref .cell} (hr : w.origins[r.index]? = some v) :
      Ensures (· = t) (Exec.proceed (Exec.push (.cell r)))
        (R.Leads w bases (some x) (x.frame :: fs) t.world.heap.cells)
        fun _ => R.Fails w bases (some x) (x.frame :: fs) t.world.heap.cells :=
    after.pushCell (.refl w) htop hbases ⟨_, hhead, hcarries rfl rfl rfl rfl (.refl w) hr⟩
  have made {u : Value} (hu : x.frame.locals[x.instruction.first.toNat]? = some u)
      (hn : ∀ r, u ≠ .cell r) (hv : v = ⟨s, x.instruction.first⟩) :
      Ensures (· = t) ((do
          let r ← Exec.onHeap (·.newCell u)
          Exec.setSlot x.instruction.first (.cell r)
          return r) >>= fun r => Exec.proceed (Exec.push (.cell r)))
        (R.Leads w bases (some x) (x.frame :: fs) t.world.heap.cells)
        fun _ => R.Fails w bases (some x) (x.frame :: fs) t.world.heap.cells := by
    obtain ⟨t', hok, hframes, hstack, hreg', hworld⟩ := Exec.box_eq hhead x.instruction.first u
    have hbox := After.box hfs hgov hreg hu hn hunique rfl
      (hframes.trans (by rw [ht]; rfl)) hreg' hworld
    have hle : w.Le ⟨w.origins ++ [⟨s, x.instruction.first⟩], w.closures⟩ :=
      ⟨List.prefix_append .., List.prefix_rfl⟩
    rw [← hstack] at htop hbases
    refine Exec.follow_ok hok (hbox.pushCell hle htop.mono hbases
      ⟨_, (congrArg List.head? hframes).trans rfl, hcarries rfl rfl rfl rfl hle ?_⟩)
    rw [hv]
    show (w.origins ++ _)[t.world.heap.cells.size]? = _
    rw [← hgov.size]
    exact List.getElem?_concat_length
  unfold Exec.execute
  simp only [hop]
  unfold passed? at hpassed
  split
  · rename_i hsecond
    simp only [hsecond, Option.some.injEq] at hpassed
    subst hpassed
    unfold Exec.proceed Exec.cellOf
    rw [bind_assoc, bind_assoc]
    refine (Exec.Looks.slot hhead _).follow (fun u hu => ?_) fun _ => fails
    cases u with
    | cell r =>
      -- the variable has moved into a cell before, for another closure
      obtain ⟨index, hindex, hall⟩ := hg.slots _ r hu
      obtain rfl : index = x.instruction.first := UInt16.toNat_inj.mp hindex
      exact found (hall s hs)
    | _ => exact made hu (fun r => Value.noConfusion) rfl
  · rename_i hsecond
    simp only [hsecond] at hpassed
    unfold Exec.proceed
    rw [bind_assoc]
    refine (Exec.Looks.captured hhead _).follow (fun r hr => ?_) fun _ => fails
    obtain ⟨v', hv', hfree⟩ := hcaptures.free (fun c hc => hgov.heap.code.binds c
      (hgov.heap.code.closures ▸ hc)) hr
    obtain rfl := Option.some.inj (hfree.symm.trans hpassed)
    exact found hv'
  · exact Ensures.bind (Q := fun _ _ => False) (.throw fun _ hs => hs ▸ fails) fun _ _ hs => hs.elim

/-- **Cells are bound to a function**: those of the variables that it has recorded, in order. -/
theorem loadClosure (ctx : Context) (hx : x.frame = g) (hop : x.instruction.op = .loadClosure)
    (hi : g.code.Has x.instruction) (ho : x.instruction.offset = g.ip)
    (hfs : ∀ f ∈ g :: fs, f.Resides R w) (hgov : R.Governs w t.world)
    (hreg : ∀ e ∈ t.machine.registry.entries, ∀ r, e.2 ≠ .cell r)
    (ht : t.machine.frames.items = { g with ip := x.instruction.stop } :: fs)
    (htop : R.Topped w bases cs t.machine.stack.toList) (hc : R.Carries w g cs) :
    Ensures (· = t) (Exec.execute ctx x.instruction)
      (R.Leads w bases (some x) (g :: fs) t.world.heap.cells)
      fun _ => R.Fails w bases (some x) (g :: fs) t.world.heap.cells := by
  obtain ⟨s, f, inner, n, hs, hcaptures, hf, hands, hlen, hfree⟩ := hc
  generalize hp : g.ip = p at hands
  cases hands with
  | pass has op =>
    have := has.unique hi (hp.symm.trans ho.symm)
    rw [this, hop] at op
    cases op
  | @bind _ _ index count has constant number =>
    subst hx
    obtain ⟨hg, hfs'⟩ := List.forall_mem_cons.mp hfs
    have hinstr := has.unique hi (hp.symm.trans ho.symm)
    have hfirst : x.instruction.first = index := by rw [← hinstr]; rfl
    have hsecond : x.instruction.second = count := by rw [← hinstr]; rfl
    have hhead : t.machine.frames.items.head? = some { x.frame with ip := x.instruction.stop } := by
      rw [ht]
      rfl
    have after : R.After w (some x) (x.frame :: fs) t.world.heap.cells t := by
      refine ⟨hgov, ht ▸ resides_cons (hg.moved _) hfs', hreg, ?_⟩
      rw [ht]
      exact .move rfl _
    have fails : R.Fails w bases (some x) (x.frame :: fs) t.world.heap.cells t :=
      ⟨w, .refl w, after, cs, htop⟩
    unfold Exec.execute
    simp only [hop]
    unfold Exec.proceed Exec.bindClosure
    rw [bind_assoc, bind_assoc]
    refine (Exec.Looks.constant hhead _).follow (fun v hv => ?_) fun _ => fails
    rw [hfirst] at hv
    obtain rfl := Option.some.inj (constant.symm.trans hv)
    dsimp only
    rw [pure_bind, hsecond, number, bind_assoc]
    rcases Exec.popN_cases n t with herr | ⟨stack, hle, hstack, hok⟩
    · exact Exec.follow_error herr fails
    have hplain : R.discipline.values w stack.toList := htop.drop hlen hstack
    have after := after.stack stack
    refine Exec.follow_ok hok ?_
    rw [bind_assoc]
    refine (Exec.Looks.asCells _).follow (fun rs hrs => ?_) fun _ =>
      ⟨w, .refl w, after, [], .of_values hplain⟩
    obtain ⟨hn, rfl⟩ := htop.cells_of_take hlen hle hrs
    have hbinds : R.Binds w ⟨⟨f⟩, cs.reverse.toArray⟩ := by
      refine ⟨inner, hf, fun j r hr => ?_⟩
      rw [List.getElem?_toArray] at hr
      have hlt := (List.getElem?_eq_some_iff.mp hr).1
      rw [List.getElem?_reverse (by simpa using hlt)] at hr
      have := hfree _ r hr
      rw [List.length_reverse] at hlt
      rwa [show n - 1 - (cs.length - 1 - j) = j by omega] at this
    refine Exec.follow_ok (Exec.newClosure_eq ⟨⟨f⟩, cs.reverse.toArray⟩ _) ?_
    have hle : w.Le ⟨w.origins, w.closures.push ⟨⟨f⟩, cs.reverse.toArray⟩⟩ :=
      ⟨List.prefix_rfl, by rw [Array.toList_push]; exact List.prefix_append ..⟩
    have after' : R.After ⟨w.origins, w.closures.push ⟨⟨f⟩, cs.reverse.toArray⟩⟩ (some x)
        (x.frame :: fs) t.world.heap.cells ⟨{ t.machine with stack },
          { t.world with heap := (t.world.heap.newClosure ⟨⟨f⟩, cs.reverse.toArray⟩).2 }⟩ :=
      ⟨hgov.newClosure hbinds, fun g hg => (after.resides g hg).mono hle,
        after.registry, after.alters⟩
    exact after'.pushValue hle hplain (fun r => Value.noConfusion)

/-! ### Turns -/

/-- **What an instruction leads to.** -/
theorem execute (hR : R.Sound) (ctx : Context) (hx : x.frame = g) (hi : g.code.Has x.instruction)
    (ho : x.instruction.offset = g.ip) (hb : g.code.Boundary g.ip)
    (hk : ∀ v ∈ g.code.constants, ∀ r, v ≠ .cell r) (hfs : ∀ f ∈ g :: fs, f.Resides R w)
    (hgov : R.Governs w t.world) (hreg : ∀ e ∈ t.machine.registry.entries, ∀ r, e.2 ≠ .cell r)
    (ht : t.machine.frames.items = { g with ip := x.instruction.stop } :: fs)
    (hl : R.Loaded w bases (g :: fs) t.machine.stack.toList)
    (hbases : ∀ b ∈ bases, b ≤ t.machine.stack.toList.length) :
    Ensures (· = t) (Exec.execute ctx x.instruction)
      (R.Leads w bases (some x) (g :: fs) t.world.heap.cells)
      fun _ => R.Fails w bases (some x) (g :: fs) t.world.heap.cells := by
  by_cases hm : x.instruction.op = .makeCell
  · obtain ⟨cs, htop, hc⟩ := hl.carries hR (hfs g List.mem_cons_self) hb hi ho (.inl hm)
    exact makeCell hR ctx hx hm hi ho hb hfs hgov hreg ht htop hc hbases
  by_cases hc : x.instruction.op = .loadClosure
  · obtain ⟨cs, htop, hcarries⟩ := hl.carries hR (hfs g List.mem_cons_self) hb hi ho (.inr hc)
    exact loadClosure ctx hx hc hi ho hfs hgov hreg ht htop hcarries
  have under : Exec.Under R.discipline w t.world.heap.cells (Exec.OnTop g fs) t :=
    ⟨⟨_, ht⟩, hl.values hi ho hm hc, hgov.heap, rfl,
      fun v hv => hgov.globals v (Array.mem_toList_iff.mpr hv), hreg⟩
  have start : ∀ t', t' = t → Exec.Under R.discipline w t.world.heap.cells
      (Exec.OnTop g fs) t' := by
    rintro _ rfl
    exact under
  by_cases hs : x.instruction.op = .storeFast ∨ x.instruction.op = .storeFree
  · refine (Exec.stored_execute ctx hs).mono start (fun flow s h => ?_) fun _ s h => ?_
    · obtain ⟨rfl, h⟩ := h
      obtain ⟨hafter, hvalues⟩ := After.of_stored h hgov.size hfs hx
      exact ⟨w, .refl w, hafter, .of_values hvalues⟩
    · obtain ⟨hafter, hvalues⟩ := After.of_stored h hgov.size hfs hx
      exact ⟨w, .refl w, hafter, [], .of_values hvalues⟩
  · obtain ⟨hfast, hfree⟩ := not_or.mp hs
    have hcell : x.instruction.op.isCellular = false := by
      unfold Opcode.isCellular
      split
      all_goals first | rfl | contradiction
    have hslots : ∀ v ∈ g.locals, R.discipline.slot w v := fun v _ => by
      cases v with
      | cell r => exact .inr ⟨r, rfl⟩
      | _ => exact .inl fun r => Value.noConfusion
    refine (Exec.Turns.execute ctx (fun r r' => Value.noConfusion) hslots hk hcell).mono start
      (fun flow s h => ?_) fun _ s h => ?_
    · exact ⟨w, .refl w, .of_under h.2 hgov.size hfs hx, .of_under h.2 h.1⟩
    · exact ⟨w, .refl w, .of_under h hgov.size hfs hx, [], .of_values h.stack⟩

/-- **What a turn of the dispatch loop leads to.** -/
theorem turn (hR : R.Sound) (ctx : Context) (thread : Option (Ref .thread)) {E : Environment}
    {own : Option Nat} (hcode : g.code.Sound E own) (hb : g.code.Boundary g.ip)
    (hs : s.machine.frames.items = g :: fs) (hfs : ∀ f ∈ g :: fs, f.Resides R w)
    (hgov : R.Governs w s.world) (hreg : ∀ e ∈ s.machine.registry.entries, ∀ r, e.2 ≠ .cell r)
    (hl : R.Loaded w bases (g :: fs) s.machine.stack.toList)
    (hbases : ∀ b ∈ bases, b ≤ s.machine.stack.toList.length) :
    Ensures (· = s) (Exec.turn ctx)
      (R.Leads w bases (Exec.execution? thread ctx s) (g :: fs) s.world.heap.cells)
      fun _ => R.Fails w bases (Exec.execution? thread ctx s) (g :: fs) s.world.heap.cells := by
  have htop : s.machine.frames.top? = some g := by
    unfold Stack.top?
    rw [hs]
    rfl
  have hk : ∀ v ∈ g.code.constants, ∀ r, v ≠ .cell r := fun v hv r hr => by
    have := hcode.constants v hv
    rw [hr] at this
    exact Bool.noConfusion this
  -- either an instruction is executed, or the turn fails before one, or the program ends
  cases hnext : Exec.next? ctx s with
  | some e =>
    obtain ⟨g', i⟩ := e
    obtain ⟨-, htop', hlt, hfetch⟩ := Exec.of_next? hnext
    obtain rfl := Option.some.inj (htop.symm.trans htop')
    obtain ⟨i', hfetch', ho, hi, -, -⟩ := hcode.instruction hb hlt
    obtain rfl := Except.ok.inj (hfetch.symm.trans hfetch')
    have hx : Exec.execution? thread ctx s = some ⟨thread, s.machine, g, i⟩ := by
      unfold Exec.execution?
      rw [hnext]
      rfl
    rw [hx]
    rintro s rfl
    rw [Exec.turn_of_next? hnext]
    exact execute hR ctx (x := ⟨thread, s.machine, g, i⟩)
      (t := ⟨s.machine.behind i, s.world⟩) rfl hi ho
      hb hk hfs hgov hreg (Exec.Stack.items_mapTop _ _ hs) hl hbases _ rfl
  | none =>
    have hx : Exec.execution? thread ctx s = none := by
      unfold Exec.execution?
      rw [hnext]
      rfl
    rw [hx]
    have fails (t : State) (ht : ∃ ticks, t = { s with machine := { s.machine with ticks } }) :
        R.Fails w bases none (g :: fs) s.world.heap.cells t := by
      obtain ⟨ticks, rfl⟩ := ht
      refine ⟨w, .refl w, ⟨hgov, fun f hf => hfs f (hs ▸ hf), hreg, ?_⟩, hl.spoiled⟩
      show Alters none (g :: fs) _ s.machine.frames.items s.world.heap.cells
      rw [hs]
      exact .leave 0
    have rest {u : Unit} {t : State} (ht : Exec.precheck ctx s = .ok u t) :
        Ensures (· = t) (Exec.fetchAndExecute ctx)
          (R.Leads w bases none (g :: fs) s.world.heap.cells)
          fun _ => R.Fails w bases none (g :: fs) s.world.heap.cells := by
      -- sound code has an instruction at every boundary, so the frame stands at the end
      have hnot : ¬g.ip < g.code.size := fun hlt => by
        obtain ⟨i, hfetch, -⟩ := hcode.instruction hb hlt
        rw [Exec.next?_of_fetch ht htop hlt hfetch] at hnext
        cases hnext
      obtain ⟨-, -, rfl⟩ := Exec.precheck_eq_ok.mp ht
      refine .get fun t ht => ?_
      subst ht
      rw [show (Exec.ticked s).machine.frames.top? = some g from htop]
      dsimp only
      rw [if_neg hnot]
      split
      · exact Ensures.throw fun t ht => fails t ⟨_, ht⟩
      · have hvalues : R.discipline.values w s.machine.stack.toList := by
          -- cells on the stack are on their way to a closure, whose instruction is still to come
          obtain ⟨cs, ⟨rest, hrest, hplain, -⟩, hcarries⟩ := hl
          cases cs with
          | nil => exact hrest ▸ hplain
          | cons r cs =>
            obtain ⟨g', hg', hc⟩ := hcarries (List.cons_ne_nil r cs)
            cases hg'
            exact absurd hc.lt_size hnot
        have start : ∀ t, t = Exec.ticked s →
            Exec.Under R.discipline w s.world.heap.cells (Exec.OnTop g fs) t := by
          rintro _ rfl
          exact ⟨⟨g.ip, hs⟩, hvalues, hgov.heap, rfl,
            fun v hv => hgov.globals v (Array.mem_toList_iff.mpr hv), hreg⟩
        have after {t : State} (h : Exec.Under R.discipline w s.world.heap.cells (· = fs) t) :
            R.After w none (g :: fs) s.world.heap.cells t := by
          refine ⟨.of_under h hgov.size, fun f hf => hfs f (List.mem_cons_of_mem _ (h.frames ▸ hf)),
            h.registry, ?_⟩
          rw [h.frames, h.cells]
          exact .leave 1
        exact (Exec.Turns.endProgram g).mono start
          (fun _ _ h => ⟨w, .refl w, after h.2, .of_under h.2 h.1⟩)
          fun _ _ h => ⟨w, .refl w, after h, [], .of_values h.stack⟩
    rw [Exec.turn_eq]
    rintro s rfl
    obtain ⟨-, herr⟩ := Exec.ticked_precheck ctx s s rfl
    refine ⟨fun flow s' h => ?_, fun e s' h => ?_⟩
    · obtain ⟨u, t, ht, h⟩ := bind_eq_ok.mp h
      exact (rest ht t rfl).1 flow s' h
    · rcases bind_eq_error.mp h with h | ⟨u, t, ht, h⟩
      · exact fails s' (herr e s' h)
      · exact (rest ht t rfl).2 e s' h

end Residence

end ScriptEngine
