import ScriptEngine.Proofs.Machine.Typing
import ScriptEngine.Proofs.Step

/-!
# Primitive steps of typed machines

What each primitive step does to a machine in the middle of an instruction. The frame of the
instruction stays the innermost one, with nothing changed but its slots and its offset, the frames
below it stay as they are, and so do the operands below its segment of the stack. A step that fails
leaves all this in place, too.

## Main definitions

* `ScriptEngine.Holds`: the machine in the middle of an instruction;
* `ScriptEngine.Fails`: a failure in the middle of an instruction;
* `ScriptEngine.Takes`: a step from one shape of the stack to another.

## Main results

* `ScriptEngine.Takes.push`, `ScriptEngine.Takes.pop`, `ScriptEngine.Takes.popN`: steps on the
  operand stack;
* `ScriptEngine.Takes.frame`, `ScriptEngine.Takes.setSlot`: steps on the innermost frame;
* `ScriptEngine.Takes.onHeap`: a step on the heap.
-/

namespace ScriptEngine

open Exec

section

variable (T : Typing) (w₀ : Stage) (f : Frame) (fs : List Frame) (below : List Value)

/-- **The machine in the middle of an instruction**, whose frame `f` lies above the frames `fs` and
owns the operands above `below`. The frame goes on at `p`, and its segment has the shape `σ`. -/
structure Holds (w : Stage) (p : Nat) (σ : Shape) (s : State) : Prop where
  grows : w₀.Grows w
  world : s.world.Sound T w
  registry : s.machine.registry.Sound T w
  running : s.machine.status = .running
  frames : ∃ locals, s.machine.frames.items = { f with ip := p, locals } :: fs ∧
    f.code.localCount ≤ locals.size ∧ ∀ v ∈ locals, v.IsSlot T w
  segment : Segment T w σ below s.machine.stack.toList

/-- **A failure in the middle of an instruction.** -/
def Fails (e : RuntimeError) (s : State) : Prop :=
  e.Allowed T ∧ ∃ w p σ, Holds T w₀ f fs below w p σ s

/-- **A step from one shape of the stack to another**, with a result of which something is known. -/
def Takes (w : Stage) (p : Nat) {α : Type} (x : Exec α) (σ : Shape) (A : α → Prop) (τ : Shape) :
    Prop :=
  Ensures (Holds T w₀ f fs below w p σ) x (fun a s => A a ∧ Holds T w₀ f fs below w p τ s)
    (Fails T w₀ f fs below)

end

namespace Segment

variable {T : Typing} {w : Stage} {σ τ : Shape} {below items : List Value}

/-- The entries on top, and what lies below them. -/
theorem split (h : Segment T w (τ ++ σ) below items) :
    Segment T w σ below (items.drop τ.length) ∧
      List.Forall₂ (Kind.Admits T w) τ (items.take τ.length) := by
  induction τ generalizing items with
  | nil => exact ⟨h, by simp⟩
  | cons k τ ih =>
    obtain ⟨v, rest, rfl, hv, h⟩ := Segment.uncons h
    obtain ⟨hd, ht⟩ := ih h
    exact ⟨hd, .cons hv ht⟩

/-- Two entries of the same kind change places. -/
theorem exchange {k : Kind} {m : Nat} {t v : Value}
    (h : Segment T w (List.replicate (m + 1 + 1) k ++ σ) below (t :: items))
    (hv : items[m]? = some v) :
    Segment T w (List.replicate (m + 1 + 1) k ++ σ) below (v :: items.set m t) := by
  obtain ⟨_ | ⟨t', top⟩, extra, hi, h, hx, he⟩ := h
  · cases h
  rw [List.cons_append] at hi
  obtain ⟨rfl, rfl⟩ := List.cons.inj hi
  have hlen := h.length_eq
  simp only [List.length_append, List.length_replicate, List.length_cons] at hlen
  have hm : m < top.length := by omega
  refine ⟨v :: top.set m t, extra, by rw [List.set_append_left _ _ hm]; rfl, ?_, hx, he⟩
  rw [List.getElem?_append_left hm] at hv
  obtain ⟨-, rfl⟩ := List.getElem?_eq_some_iff.mp hv
  rw [List.forall₂_iff_get] at h ⊢
  obtain ⟨hl, h⟩ := h
  refine ⟨by simpa using hl, fun i h₁ h₂ => ?_⟩
  have hsize : (List.replicate (m + 1 + 1) k ++ σ).length = m + 1 + 1 + σ.length := by
    rw [List.length_append, List.length_replicate]
  have hk : ∀ j (hj : j < (List.replicate (m + 1 + 1) k ++ σ).length), j ≤ m + 1 →
      (List.replicate (m + 1 + 1) k ++ σ).get ⟨j, hj⟩ = k := by
    intro j hj hle
    have hj' : j < (List.replicate (m + 1 + 1) k).length := by
      rw [List.length_replicate]
      omega
    rw [List.get_eq_getElem, List.getElem_append_left hj', List.getElem_replicate]
  cases i with
  | zero =>
    rw [hk 0 h₁ (Nat.zero_le _), ← hk (m + 1) (by omega) (Nat.le_refl _)]
    exact h (m + 1) (by omega) (Nat.succ_lt_succ hm)
  | succ i =>
    have hget : (top[m] :: top.set m t).get ⟨i + 1, h₂⟩ =
        if m = i then t else top.get ⟨i, by simpa using h₂⟩ := by
      rw [List.get_eq_getElem, List.getElem_cons_succ, List.getElem_set, List.get_eq_getElem]
    rw [hget]
    split
    · subst i
      rw [hk (m + 1) h₁ (Nat.le_refl _), ← hk 0 (by omega) (Nat.zero_le _)]
      exact h 0 (by omega) (Nat.zero_lt_succ _)
    · exact h (i + 1) h₁ (by simpa using h₂)

end Segment

/-- Entries of one kind. -/
theorem Kind.admits_of_replicate {T : Typing} {w : Stage} {k : Kind} {n : Nat}
    {vs : List Value} (h : List.Forall₂ (Kind.Admits T w) (List.replicate n k) vs) :
    ∀ v ∈ vs, k.Admits T w v := by
  intro v hv
  obtain ⟨i, hi, rfl⟩ := List.getElem_of_mem hv
  have := h.get (by rw [h.length_eq]; exact hi) hi
  simpa using this

variable {T : Typing} {w₀ w : Stage} {f : Frame} {fs : List Frame} {below : List Value}
  {p : Nat} {σ σ' : Shape} {α β : Type}

/-- An entry below entries of the same kind. -/
theorem Segment.getElem? {k : Kind} {n : Nat} {items : List Value}
    (h : Segment T w (List.replicate (n + 1) k ++ σ) below items) :
    ∃ v, items[n]? = some v ∧ k.Admits T w v := by
  have hlen : n < items.length := by
    have := h.length.1
    rw [List.length_append, List.length_replicate] at this
    omega
  obtain ⟨-, htop⟩ := h.split
  rw [List.length_replicate] at htop
  refine ⟨_, List.getElem?_eq_getElem hlen, Kind.admits_of_replicate htop _ ?_⟩
  refine List.mem_of_getElem? (i := n) ?_
  rw [List.getElem?_take_of_lt (Nat.lt_succ_self n), List.getElem?_eq_getElem hlen]

namespace Ensures

variable {ε σ : Type} {P : σ → Prop} {Q : α → σ → Prop} {E : ε → σ → Prop} {x : EStateM ε σ α}

/-- A fact about the state that does not depend on it. -/
theorem of_and {A : Prop} (h : A → Ensures P x Q E) : Ensures (fun s => A ∧ P s) x Q E :=
  fun s hs => h hs.1 s hs.2

/-- A fact about the state, for something that is known to exist. -/
theorem of_exists {γ : Type*} {R : γ → σ → Prop} (h : ∀ c, Ensures (R c) x Q E) :
    Ensures (fun s => ∃ c, R c s) x Q E :=
  fun s ⟨c, hc⟩ => h c s hc

end Ensures

/-- The machine goes on with another world, in which more may exist. -/
theorem Holds.later {s : State} (h : Holds T w₀ f fs below w p σ s) {w' : Stage} (hw : w.Grows w')
    {world : World} (hworld : world.Sound T w') :
    Holds T w₀ f fs below w' p σ ⟨s.machine, world⟩ where
  grows := h.grows.trans hw
  world := hworld
  registry := h.registry.mono hw.le
  running := h.running
  frames := by
    obtain ⟨locals, hi, hr, hs⟩ := h.frames
    exact ⟨locals, hi, hr, fun v hv => (hs v hv).mono hw.le⟩
  segment := h.segment.mono hw.le

namespace Takes

variable {A : α → Prop} {B : β → Prop}

/-- A step, and then whatever its result leads to. -/
theorem andThen {x : Exec α} {g : α → Exec β} {Q : β → State → Prop}
    (hx : Takes T w₀ f fs below w p x σ A σ')
    (hg : ∀ a, A a → Ensures (Holds T w₀ f fs below w p σ') (g a) Q (Fails T w₀ f fs below)) :
    Ensures (Holds T w₀ f fs below w p σ) (x >>= g) Q (Fails T w₀ f fs below) :=
  Ensures.bind hx fun a => .of_and (hg a)

theorem bind {x : Exec α} {g : α → Exec β} {σ'' : Shape}
    (hx : Takes T w₀ f fs below w p x σ A σ')
    (hg : ∀ a, A a → Takes T w₀ f fs below w p (g a) σ' B σ'') :
    Takes T w₀ f fs below w p (x >>= g) σ B σ'' :=
  hx.andThen hg

theorem pure {a : α} (ha : A a) : Takes T w₀ f fs below w p (pure a) σ A σ :=
  Ensures.pure fun _ hs => ⟨ha, hs⟩

theorem throw {e : RuntimeError} (he : e.Allowed T) :
    Takes T w₀ f fs below w p (throw e : Exec α) σ A σ' :=
  Ensures.throw fun _ hs => ⟨he, _, _, _, hs⟩

theorem mono {x : Exec α} {A' : α → Prop} (hx : Takes T w₀ f fs below w p x σ A σ')
    (hA : ∀ a, A a → A' a) : Takes T w₀ f fs below w p x σ A' σ' :=
  Ensures.mono hx (fun _ h => h) (fun _ _ h => ⟨hA _ h.1, h.2⟩) fun _ _ h => h

/-- A look at the machine. -/
theorem get {g : State → Exec β} (hg : ∀ s, Holds T w₀ f fs below w p σ s →
    Takes T w₀ f fs below w p (g s) σ B σ') :
    Takes T w₀ f fs below w p (get >>= g) σ B σ' :=
  Ensures.get fun s hs => Ensures.mono (hg s hs) (fun _ ht => ht ▸ hs) (fun _ _ h => h)
    fun _ _ h => h

/-- The same step for each item of a list. -/
theorem mapM {γ : Type} {g : γ → Exec α} : ∀ {l : List γ},
    (∀ c ∈ l, Takes T w₀ f fs below w p (g c) σ A σ) →
    Takes T w₀ f fs below w p (l.mapM g) σ (fun as => as.length = l.length ∧ ∀ a ∈ as, A a) σ
  | [], _ => by
    rw [List.mapM_nil]
    exact pure ⟨rfl, fun _ h => by cases h⟩
  | c :: l, h => by
    rw [List.mapM_cons]
    refine bind (h c (List.mem_cons_self ..)) fun a ha => ?_
    refine bind (mapM fun d hd => h d (List.mem_cons_of_mem c hd)) fun as has => ?_
    refine pure ⟨congrArg (· + 1) has.1, fun b hb => ?_⟩
    rcases List.mem_cons.mp hb with rfl | hb
    · exact ha
    · exact has.2 b hb

/-! ### Operands -/

/-- A step on the operand stack. -/
theorem onStack {g : OperandStack → Except RuntimeError (α × OperandStack)}
    (h : ∀ st : OperandStack, Segment T w σ below st.toList →
      (∀ a st', g st = .ok (a, st') → A a ∧ Segment T w σ' below st'.toList) ∧
        ∀ e, g st = .error e → e.Allowed T) :
    Takes T w₀ f fs below w p (onStack g) σ A σ' := by
  rintro ⟨⟨config, stack, frames, registry, position, status, ticks⟩, world⟩ hs
  obtain ⟨hok, herr⟩ := h stack hs.segment
  unfold Exec.onStack
  dsimp only
  cases hg : g stack with
  | ok r =>
    obtain ⟨a, st'⟩ := r
    obtain ⟨ha, hseg⟩ := hok a st' hg
    refine ⟨fun b s' hb => ?_, fun e s' hb => by cases hb⟩
    cases hb
    exact ⟨ha, hs.grows, hs.world, hs.registry, hs.running, hs.frames, hseg⟩
  | error e =>
    refine ⟨fun b s' hb => (by cases hb), fun e' s' hb => ?_⟩
    cases hb
    exact ⟨herr e hg, w, p, σ, hs⟩

/-- **Pushing** an entry of a kind. -/
theorem push {k : Kind} {v : Value} (hv : k.Admits T w v) :
    Takes T w₀ f fs below w p (push v) σ (fun _ => True) (k :: σ) := by
  refine onStack fun st hseg => ?_
  obtain ⟨contents, limit⟩ := st
  unfold OperandStack.push
  dsimp only
  split
  · refine ⟨fun a st' h => ?_, fun e h => by cases h⟩
    cases h
    exact ⟨trivial, hseg.cons hv⟩
  · refine ⟨fun a st' h => (by cases h), fun e h => ?_⟩
    cases h
    trivial

/-- Pushing a value. -/
theorem pushValue {v : Value} (hv : v.Exists T w) :
    Takes T w₀ f fs below w p (Exec.push v) σ (fun _ => True) (.value :: σ) :=
  push (k := .value) hv

/-- **Popping** an entry of a kind. -/
theorem pop {k : Kind} : Takes T w₀ f fs below w p pop (k :: σ) (k.Admits T w) σ := by
  refine onStack fun st hseg => ?_
  obtain ⟨⟨items, size, hsize⟩, limit⟩ := st
  obtain ⟨v, items', hi, hv, hrest⟩ := Segment.uncons hseg
  obtain rfl : items = v :: items' := hi
  refine ⟨fun a st' h => ?_, fun e h => by cases h⟩
  cases h
  exact ⟨hv, hrest⟩

/-- **Popping entries of a kind.** -/
theorem popN {k : Kind} {n : Nat} :
    Takes T w₀ f fs below w p (popN n) (List.replicate n k ++ σ)
      (fun vs => vs.length = n ∧ ∀ v ∈ vs, k.Admits T w v) σ := by
  refine onStack fun st hseg => ?_
  obtain ⟨contents, limit⟩ := st
  have hseg : Segment T w (List.replicate n k ++ σ) below contents.items := hseg
  have hlen : n ≤ contents.items.length := by
    have := hseg.length.1
    rw [List.length_append, List.length_replicate] at this
    omega
  obtain ⟨hdrop, htop⟩ := hseg.split
  rw [List.length_replicate] at hdrop htop
  unfold OperandStack.popN
  dsimp only
  rw [if_pos (contents.size_eq ▸ hlen)]
  refine ⟨fun vs st' h => ?_, fun e h => by cases h⟩
  cases h
  refine ⟨⟨by simp [hlen], fun v hv => ?_⟩, ?_⟩
  · exact Kind.admits_of_replicate htop v (List.mem_reverse.mp hv)
  · show Segment T w σ below (contents.truncate (contents.size - n)).items
    have := contents.size_eq
    rwa [Stack.items_truncate, show contents.size - (contents.size - n) = n by omega]

/-- **Looking at an entry** below entries of the same kind. -/
theorem peek {k : Kind} {n : Nat} :
    Takes T w₀ f fs below w p (peek n) (List.replicate (n + 1) k ++ σ) (k.Admits T w)
      (List.replicate (n + 1) k ++ σ) := by
  refine onStack fun st hseg => ?_
  obtain ⟨v, hv, hk⟩ := hseg.getElem?
  have hv : st.contents.items[n]? = some v := hv
  unfold OperandStack.peek
  rw [hv]
  refine ⟨fun a st' h => ?_, fun e h => by cases h⟩
  cases h
  exact ⟨hk, hseg⟩

/-- **Exchanging** the top entry and another one of the same kind, with such between them. -/
theorem swap {k : Kind} {n : Nat} :
    Takes T w₀ f fs below w p (swap n) (List.replicate (n + 1) k ++ σ) (fun _ => True)
      (List.replicate (n + 1) k ++ σ) := by
  refine onStack fun st hseg => ?_
  obtain ⟨⟨items, size, hsize⟩, limit⟩ := st
  obtain ⟨t, rest, hi, -⟩ := Segment.uncons hseg
  obtain rfl : items = t :: rest := hi
  unfold OperandStack.swap
  dsimp only
  split
  · refine ⟨fun a st' h => ?_, fun e h => by cases h⟩
    cases h
    exact ⟨trivial, hseg⟩
  · rename_i hn
    obtain ⟨m, rfl⟩ := Nat.exists_eq_succ_of_ne_zero hn
    obtain ⟨v, hv, -⟩ := hseg.getElem?
    have hv : rest[m]? = some v := hv
    simp only [Nat.succ_eq_add_one, Nat.add_sub_cancel, hv]
    refine ⟨fun a st' h => ?_, fun e h => by cases h⟩
    cases h
    exact ⟨trivial, hseg.exchange hv⟩

/-! ### Frames -/

/-- A change of the innermost frame, which stays the frame of the instruction. -/
theorem modifyFrame {g : Frame → Frame} {q : Nat}
    (h : ∀ locals : Array Value, f.code.localCount ≤ locals.size → (∀ v ∈ locals, v.IsSlot T w) →
      ∃ locals', g { f with ip := p, locals } = { f with ip := q, locals := locals' } ∧
        f.code.localCount ≤ locals'.size ∧ ∀ v ∈ locals', v.IsSlot T w) :
    Ensures (Holds T w₀ f fs below w p σ) (modifyFrame g)
      (fun _ => Holds T w₀ f fs below w q σ) (Fails T w₀ f fs below) := by
  rintro ⟨⟨config, stack, ⟨items, size, hsize⟩, registry, position, status, ticks⟩, world⟩ hs
  obtain ⟨locals, hitems, hroom, hslots⟩ := hs.frames
  have hitems : items = { f with ip := p, locals } :: fs := hitems
  subst hitems
  refine ⟨fun b s' hb => ?_, fun e s' hb => by cases hb⟩
  cases hb
  obtain ⟨locals', hg, hroom', hslots'⟩ := h locals hroom hslots
  exact ⟨hs.grows, hs.world, hs.registry, hs.running,
    ⟨locals', congrArg (· :: fs) hg, hroom', hslots'⟩, hs.segment⟩

/-- **The innermost frame** is that of the instruction. -/
theorem frame :
    Takes T w₀ f fs below w p frame σ (fun g => ∃ locals, g = { f with ip := p, locals } ∧
      f.code.localCount ≤ locals.size ∧ ∀ v ∈ locals, v.IsSlot T w) σ := by
  unfold Exec.frame
  refine get fun s hs => ?_
  obtain ⟨locals, hitems, hroom, hslots⟩ := hs.frames
  unfold Stack.top?
  rw [hitems]
  exact pure ⟨locals, rfl, hroom, hslots⟩

/-- An entry that exists. -/
theorem entry {x : Option α} {a : α} (h : x = some a) (missing : InternalFault) :
    Takes T w₀ f fs below w p (entry x missing) σ (fun b => b = a) σ := by
  subst h
  exact pure rfl

theorem constant {index : Word} {v : Value} (h : f.code.constants[index.toNat]? = some v) :
    Takes T w₀ f fs below w p (constant index) σ (fun u => u = v) σ := by
  refine bind frame ?_
  rintro _ ⟨locals, rfl, -⟩
  exact entry h _

theorem name {index : Word} (h : index.toNat < f.code.names.size) :
    Takes T w₀ f fs below w p (name index) σ (fun _ => True) σ := by
  refine bind frame ?_
  rintro _ ⟨locals, rfl, -⟩
  exact (entry (Array.getElem?_eq_getElem h) _).mono fun _ _ => trivial

theorem captured {index : Word} (h : index.toNat < f.cells.size) :
    Takes T w₀ f fs below w p (captured index) σ (fun _ => True) σ := by
  refine bind frame ?_
  rintro _ ⟨locals, rfl, -⟩
  exact (entry (Array.getElem?_eq_getElem h) _).mono fun _ _ => trivial

/-- **The content of a slot.** -/
theorem slot {index : Word} (h : index.toNat < f.code.localCount) :
    Takes T w₀ f fs below w p (slot index) σ (Value.IsSlot T w) σ := by
  refine bind frame ?_
  rintro _ ⟨locals, rfl, hroom, hslots⟩
  have hlt : index.toNat < locals.size := Nat.lt_of_lt_of_le h hroom
  refine (entry (Array.getElem?_eq_getElem hlt) _).mono ?_
  rintro _ rfl
  exact hslots _ (Array.getElem_mem hlt)

/-- **Another content of a slot.** -/
theorem setSlot (index : Word) {v : Value} (hv : v.IsSlot T w) :
    Takes T w₀ f fs below w p (setSlot index v) σ (fun _ => True) σ := by
  refine Ensures.mono (modifyFrame (q := p) fun locals hroom hslots => ?_) (fun _ h => h)
    (fun _ _ h => ⟨trivial, h⟩) fun _ _ h => h
  refine ⟨locals.setIfInBounds index.toNat v, rfl, ?_, ?_⟩
  · rwa [Array.size_setIfInBounds]
  · exact forall_mem_setIfInBounds hslots hv _

/-- **A jump** inside the code. -/
theorem jump {target : Nat} (h : target ≤ f.code.size) :
    Ensures (Holds T w₀ f fs below w p σ) (jump target)
      (fun _ => Holds T w₀ f fs below w target σ) (Fails T w₀ f fs below) := by
  refine andThen frame ?_
  rintro _ ⟨locals, rfl, -⟩
  rw [if_pos h]
  exact modifyFrame fun locals hroom hslots => ⟨locals, rfl, hroom, hslots⟩

/-! ### Worlds -/

/-- A step on the world. -/
theorem onWorld {g : World → α × World}
    (h : ∀ world : World, world.Sound T w → A (g world).1 ∧ (g world).2.Sound T w) :
    Takes T w₀ f fs below w p (onWorld g) σ A σ := by
  rintro ⟨machine, world⟩ hs
  refine ⟨fun b s' hb => ?_, fun e s' hb => by cases hb⟩
  cases hb
  obtain ⟨ha, hw⟩ := h world hs.world
  exact ⟨ha, hs.grows, hw, hs.registry, hs.running, hs.frames, hs.segment⟩

/-- **A step on the heap.** -/
theorem onHeap {g : Heap → α × Heap}
    (h : ∀ heap : Heap, heap.Sound (Typing.discipline T) w →
      A (g heap).1 ∧ (g heap).2.Sound (Typing.discipline T) w) :
    Takes T w₀ f fs below w p (onHeap g) σ A σ :=
  onWorld fun world hw => ⟨(h world.heap hw.heap).1, (h world.heap hw.heap).2, hw.globals⟩

/-- A look at the heap. -/
theorem readHeap {g : Heap → α} (h : ∀ heap : Heap, heap.Sound (Typing.discipline T) w →
    A (g heap)) : Takes T w₀ f fs below w p (readHeap g) σ A σ :=
  onHeap fun heap hh => ⟨h heap hh, hh⟩

theorem typeName (v : Value) :
    Takes T w₀ f fs below w p (typeName v) σ (fun _ => True) σ :=
  readHeap fun _ _ => trivial

/-- A step on the heap whose fault ends the run. -/
theorem onHeapOrRaise {g : Heap → Except Fault α × Heap}
    (h : ∀ heap : Heap, heap.Sound (Typing.discipline T) w →
      (∀ a, (g heap).1 = .ok a → A a) ∧ (g heap).2.Sound (Typing.discipline T) w) :
    Takes T w₀ f fs below w p (onHeapOrRaise g) σ A σ := by
  refine bind (onHeap (A := fun r => ∀ a, r = .ok a → A a) h) fun r hr => ?_
  cases r with
  | ok a => exact pure (hr a rfl)
  | error fault => exact throw trivial

/-- **A new closure** of a function, with as many cells as it is instantiated with. -/
theorem newClosure {c : Closure} (hf : c.function.index < w.environment.functions.size)
    (hc : c.cells.size = w.environment.cells c.function.index) :
    Ensures (Holds T w₀ f fs below w p σ) (Exec.onHeap (·.newClosure c))
      (fun r s => ∃ w', Value.Exists T w' (.closure r) ∧ Holds T w₀ f fs below w' p σ s)
      (Fails T w₀ f fs below) := by
  rintro ⟨machine, ⟨heap, globals, controls⟩⟩ hs
  refine ⟨fun b s' hb => ?_, fun e s' hb => by cases hb⟩
  cases hb
  have hh := hs.world.heap
  have hsize := hh.code.size
  have hw : w.Grows ⟨w.environment, w.closures + 1⟩ := ⟨rfl, Nat.le_succ _⟩
  have stores : Stage.Stores T ⟨w.environment, w.closures + 1⟩ heap.functions
      (heap.closures.push c) := by
    refine ⟨hh.code.functions, ?_, forall_mem_push hh.code.closures ⟨hf, hc⟩, hh.code.sound,
      hh.code.typed⟩
    rw [Array.size_push, hsize]
  refine ⟨⟨w.environment, w.closures + 1⟩, ?_, hs.later hw ⟨?_, fun v hv => ?_⟩⟩
  · show heap.closures.size < w.closures + 1
    rw [hsize]
    exact Nat.lt_succ_self _
  · exact hh.mono (D := Typing.discipline T) hw.le stores
  · exact (Typing.discipline T).mono hw.le (hs.world.globals v hv)

theorem charge (ctx : Context) (cost : Nat) :
    Takes T w₀ f fs below w p (charge ctx cost) σ (fun _ => True) σ := by
  refine bind (onWorld (A := fun _ => True) fun world hw => ⟨trivial, hw.heap, hw.globals⟩)
    fun r _ => ?_
  cases r with
  | ok u => exact pure trivial
  | error e => exact throw trivial

/-- **Pushing a value** that was just built. -/
theorem pushBuilt (ctx : Context) {v : Value} (hv : v.Exists T w) :
    Takes T w₀ f fs below w p (pushBuilt ctx v) σ (fun _ => True) (.value :: σ) := by
  refine bind (readHeap (A := fun _ => True) fun _ _ => trivial) fun cost _ => ?_
  exact bind (charge ctx cost) fun _ _ => push (k := .value) hv

end Takes

end ScriptEngine
