import Mathlib.Data.List.Forall2
import ScriptEngine.Machine.Fiber
import ScriptEngine.Proofs.Code.Typed
import ScriptEngine.Proofs.Machine.Activities

/-!
# Typed machines

What holds of a machine that executes sound and typed code, at each moment between two steps of its
fiber. The operand stack is known entry by entry if the typing is exact, and otherwise by the least
number of entries: each frame owns a segment of it, whose shape is the one at the offset of the
frame.

A fiber is more than one machine state, because builtins call back into the machine that called
them. The frames, the segments of the operand stack and those that wait for a result are one
structure: a frame that is left hands its value over to the frame below it, or to the builtin that
called back, and a failure cuts both stacks down to what they were when the builtin called. This
structure stands on a floor, of which nothing is known and which nothing in it touches.

## Main definitions

* `ScriptEngine.Stage`: what exists at a stage of an execution;
* `ScriptEngine.Typing.discipline`: the values and the errors that may occur;
* `ScriptEngine.Kind.Admits`: an entry of the operand stack is of a kind;
* `ScriptEngine.Frame.Sound`: the frame of an activation of sound code;
* `ScriptEngine.Floor`: what lies below;
* `ScriptEngine.Awaits`: who waits for a value or a result, and on which frames and operands;
* `ScriptEngine.Active`: the innermost frame can go on;
* `ScriptEngine.Unwinds`: whoever waits for a failure finds what it expects below.

## Main results

* `ScriptEngine.Awaits.unwinds`: a failure finds its way wherever it occurs.
-/

namespace ScriptEngine

/-! ### Stages -/

/-- **What exists at a stage** of an execution: an environment, and the number of closures. -/
structure Stage where
  environment : Environment
  closures : Nat

namespace Stage

/-- At a later stage, more exists. Machines at work know the builtins that they knew at their
start. -/
structure Le (w w' : Stage) : Prop where
  environment : w.environment.Le w'.environment
  closures : w.closures ≤ w'.closures
  builtins : w'.environment.builtins = w.environment.builtins

theorem Le.refl (w : Stage) : w.Le w :=
  ⟨.refl _, Nat.le_refl _, rfl⟩

theorem Le.trans {w₁ w₂ w₃ : Stage} (h : w₁.Le w₂) (h' : w₂.Le w₃) : w₁.Le w₃ :=
  ⟨h.environment.trans h'.environment, Nat.le_trans h.closures h'.closures,
    h'.builtins.trans h.builtins⟩

/-- While machines are at work, no more comes into being than closures. -/
structure Grows (w w' : Stage) : Prop where
  environment : w'.environment = w.environment
  closures : w.closures ≤ w'.closures

theorem Grows.refl (w : Stage) : w.Grows w :=
  ⟨rfl, Nat.le_refl _⟩

theorem Grows.trans {w₁ w₂ w₃ : Stage} (h : w₁.Grows w₂) (h' : w₂.Grows w₃) : w₁.Grows w₃ :=
  ⟨h'.environment.trans h.environment, Nat.le_trans h.closures h'.closures⟩

theorem Grows.le {w w' : Stage} (h : w.Grows w') : w.Le w' where
  environment := h.environment ▸ .refl _
  closures := h.closures
  builtins := congrArg Environment.builtins h.environment

end Stage

/-- **The errors with which sound code can end.** It never takes what is not there and, if its
typing is exact, nothing for an iterator or a cell that is none. -/
def RuntimeError.Allowed (T : Typing) : RuntimeError → Prop
  | .unknownOpcode _ | .stackUnderflow => False
  | .internal .forIterWithoutIterator | .internal (.notACell _) => T.exact = false
  | .internal fault => fault = .workerLost
  | _ => True

theorem RuntimeError.IsOrdinary.allowed {T : Typing} {e : RuntimeError} (h : e.IsOrdinary) :
    e.Allowed T := by
  cases e with
  | unknownOpcode w => exact h.elim
  | stackUnderflow => exact h.elim
  | internal fault =>
    obtain rfl : fault = .workerLost := h
    rfl
  | _ => trivial

/-- **The values that exist at a stage.** A function that is a value of its own needs no cells. If
the typing is exact, neither a cell nor an iterator is a value. -/
def Value.Exists (T : Typing) (w : Stage) : Value → Prop
  | .function r => r.index < w.environment.functions.size ∧ w.environment.cells r.index = 0
  | .closure r => r.index < w.closures
  | .cell _ | .iter _ => T.exact = false
  | _ => True

/-- The functions and the closures of a heap are those of a stage, sound and typed. -/
structure Stage.Stores (T : Typing) (w : Stage) (fs : Array Function)
    (closures : Array Closure) : Prop where
  functions : fs = w.environment.functions
  size : closures.size = w.closures
  closures : ∀ c ∈ closures, c.function.index < w.environment.functions.size ∧
    c.cells.size = w.environment.cells c.function.index
  sound : w.environment.Sound
  typed : ∀ (k : Nat) (f : Function), w.environment.functions[k]? = some f →
    f.code.HeldTo T (some (w.environment.cells k))

/-- **The discipline** of machines that execute sound and typed code. -/
abbrev Typing.discipline (T : Typing) : Discipline where
  Stage := Stage
  le := Stage.Le
  refl := .refl
  trans := .trans
  value := Value.Exists T
  mono {w w' v} hw h := by
    cases v with
    | function r =>
      obtain ⟨hlt, hc⟩ := h
      exact ⟨Nat.lt_of_lt_of_le hlt hw.environment.functions_le,
        (hw.environment.cells _ hlt).trans hc⟩
    | closure r => exact Nat.lt_of_lt_of_le h hw.closures
    | _ => exact h
  data {w v} h := by
    cases v with
    | function r => cases h
    | closure r => cases h
    | cell r => cases h
    | iter r => cases h
    | _ => trivial
  error := RuntimeError.Allowed T
  ordinary := RuntimeError.IsOrdinary.allowed
  stores := Stage.Stores T

variable {T : Typing} {w w' : Stage}

/-! ### Entries of the operand stack -/

/-- **An entry of a kind.** If the typing is not exact, there is no telling an iterator or a cell
from any other value. -/
def Kind.Admits (T : Typing) (w : Stage) : Kind → Value → Prop
  | .value, v => v.Exists T w
  | .iterator, v => (∃ r, v = .iter r) ∨ T.exact = false ∧ v.Exists T w
  | .cell, v => (∃ r, v = .cell r) ∨ T.exact = false ∧ v.Exists T w

namespace Kind

theorem Admits.mono {k : Kind} {v : Value} (h : k.Admits T w v) (hw : w.Le w') :
    k.Admits T w' v := by
  cases k with
  | value => exact (Typing.discipline T).mono hw h
  | iterator => exact h.imp id fun h => ⟨h.1, (Typing.discipline T).mono hw h.2⟩
  | cell => exact h.imp id fun h => ⟨h.1, (Typing.discipline T).mono hw h.2⟩

/-- If the typing is not exact, every entry is a value. -/
theorem Admits.exists {k : Kind} {v : Value} (h : k.Admits T w v) (hT : T.exact = false) :
    v.Exists T w := by
  cases k with
  | value => exact h
  | iterator =>
    rcases h with ⟨r, rfl⟩ | ⟨-, h⟩
    · exact hT
    · exact h
  | cell =>
    rcases h with ⟨r, rfl⟩ | ⟨-, h⟩
    · exact hT
    · exact h

/-- If the typing is not exact, every value is an entry of each kind. -/
theorem admits_of_exists (k : Kind) {v : Value} (h : v.Exists T w) (hT : T.exact = false) :
    k.Admits T w v := by
  cases k with
  | value => exact h
  | iterator => exact .inr ⟨hT, h⟩
  | cell => exact .inr ⟨hT, h⟩

end Kind

/-- **The top of the operand stack has a shape** and lies above the given operands. If the typing is
not exact, more may lie between them. -/
def Segment (T : Typing) (w : Stage) (σ : Shape) (below items : List Value) : Prop :=
  ∃ top extra, items = top ++ (extra ++ below) ∧ List.Forall₂ (Kind.Admits T w) σ top ∧
    (T.exact = true → extra = []) ∧ ∀ v ∈ extra, v.Exists T w

namespace Segment

variable {σ τ : Shape} {below items : List Value}

theorem mono (h : Segment T w σ below items) (hw : w.Le w') : Segment T w' σ below items := by
  obtain ⟨top, extra, hi, ht, hx, he⟩ := h
  exact ⟨top, extra, hi, ht.imp fun _ _ hk => hk.mono hw, hx,
    fun v hv => (Typing.discipline T).mono hw (he v hv)⟩

theorem empty (below : List Value) : Segment T w [] below below :=
  ⟨[], [], rfl, .nil, fun _ => rfl, fun _ h => by cases h⟩

theorem cons {k : Kind} {v : Value} (h : Segment T w σ below items) (hv : k.Admits T w v) :
    Segment T w (k :: σ) below (v :: items) := by
  obtain ⟨top, extra, rfl, ht, hx, he⟩ := h
  exact ⟨v :: top, extra, rfl, .cons hv ht, hx, he⟩

/-- The entry on top, and what lies below it. -/
theorem uncons {k : Kind} (h : Segment T w (k :: σ) below items) :
    ∃ v items', items = v :: items' ∧ k.Admits T w v ∧ Segment T w σ below items' := by
  obtain ⟨_, extra, rfl, ht, hx, he⟩ := h
  cases ht with
  | cons hv ht => exact ⟨_, _, rfl, hv, _, extra, rfl, ht, hx, he⟩

/-- Where one value is expected at most, what lies on top is a value, if anything does. -/
theorem top (h : Segment T w σ below items) (hσ : σ = [.value] ∨ σ = []) :
    items = below ∨ ∃ v rest, items = v :: rest ∧ v.Exists T w ∧ below <:+ rest := by
  rcases hσ with rfl | rfl
  · obtain ⟨v, rest, rfl, hv, -, extra, rfl, -⟩ := h.uncons
    exact .inr ⟨v, _, rfl, hv, (List.suffix_append _ _).trans (List.suffix_append _ _)⟩
  · obtain ⟨_, extra, rfl, ht, -, he⟩ := h
    cases ht
    cases extra with
    | nil => exact .inl rfl
    | cons v extra =>
      exact .inr ⟨v, extra ++ below, rfl, he v (List.mem_cons_self ..), List.suffix_append _ _⟩

theorem suffix (h : Segment T w σ below items) : below <:+ items := by
  obtain ⟨top, extra, rfl, -⟩ := h
  exact (List.suffix_append _ _).trans (List.suffix_append _ _)

/-- **How many entries there are**: as many as the shape tells, or more if the typing is not
exact. -/
theorem length (h : Segment T w σ below items) : σ.length + below.length ≤ items.length ∧
    (T.exact = true → items.length = σ.length + below.length) := by
  obtain ⟨top, extra, rfl, ht, hx, -⟩ := h
  rw [List.length_append, List.length_append, ht.length_eq]
  refine ⟨by omega, fun hT => ?_⟩
  rw [hx hT, List.length_nil]
  omega

/-- The top has another shape for which the first one will do. -/
theorem fills (h : Segment T w σ below items) (hσ : σ.Fills T.exact τ) :
    Segment T w τ below items := by
  cases hT : T.exact with
  | true => exact hσ.2 hT ▸ h
  | false =>
    obtain ⟨top, extra, rfl, ht, -, he⟩ := h
    have all : ∀ v ∈ top, v.Exists T w := fun v hv => by
      obtain ⟨i, hi, rfl⟩ := List.getElem_of_mem hv
      exact (ht.get (by rw [ht.length_eq]; exact hi) hi).exists hT
    have hlen : τ.length = (top.take τ.length).length := by
      have := hσ.1
      rw [List.length_take, ← ht.length_eq]
      omega
    refine ⟨top.take τ.length, top.drop τ.length ++ extra, ?_, ?_, fun h => ?_, fun v hv => ?_⟩
    · rw [List.append_assoc, ← List.append_assoc (top.take _), List.take_append_drop]
    · refine List.forall₂_iff_get.mpr ⟨hlen, fun i hi hi' => Kind.admits_of_exists _ ?_ hT⟩
      exact all _ (List.mem_of_mem_take (List.get_mem ..))
    · exact absurd h (by simp [hT])
    · rcases List.mem_append.mp hv with hv | hv
      · exact all v (List.mem_of_mem_drop hv)
      · exact he v hv

end Segment

/-! ### Frames -/

/-- The content of a slot: a value, or the cell of a variable that was captured. -/
def Value.IsSlot (T : Typing) (w : Stage) (v : Value) : Prop :=
  v.Exists T w ∨ ∃ r, v = .cell r

theorem Value.IsSlot.mono {v : Value} (h : v.IsSlot T w) (hw : w.Le w') : v.IsSlot T w' :=
  h.imp (fun h => (Typing.discipline T).mono hw h) id

/-- The number of cells of a frame, if it is one of a function. -/
def Frame.own (f : Frame) : Option Nat :=
  if f.function.isSome then some f.cells.size else none

/-- **The frame of an activation of sound code.** -/
structure Frame.Sound (T : Typing) (w : Stage) (f : Frame) : Prop where
  code : f.code.Sound w.environment f.own
  typed : f.code.HeldTo T f.own
  room : f.code.localCount ≤ f.locals.size
  slots : ∀ v ∈ f.locals, v.IsSlot T w
  program : f.function = none → f.entry = true

/-- **The frame can go on**: at an instruction or, if it is the frame of a program, at the end. -/
structure Frame.Ready (f : Frame) : Prop where
  boundary : f.code.Boundary f.ip
  inside : f.ip < f.code.size ∨ f.own = none ∧ f.ip = f.code.size

theorem Frame.Sound.mono {f : Frame} (h : f.Sound T w) (hw : w.Le w') : f.Sound T w' where
  code := h.code.mono hw.environment
  typed := h.typed
  room := h.room
  slots v hv := (h.slots v hv).mono hw
  program := h.program

/-- The shape at the offset of a frame. -/
def Frame.shape (T : Typing) (f : Frame) : Shape :=
  T.shape f.code f.ip

/-! ### Who waits -/

/-- **A floor**: those that wait, the frames and the operands below what is known. -/
structure Floor where
  pending : List Pending := []
  frames : List Frame := []
  items : List Value := []

/-- **Who waits, and on which frames and operands.** If `forValue`, a value is about to be pushed
for the innermost frame, and otherwise those that are listed wait for a result. A builtin that
called back was called by a running machine. -/
inductive Awaits (T : Typing) (F : Floor) (w : Stage) :
    (forValue : Bool) → List Pending → List Frame → List Value → Prop
  | floor : Awaits T F w false F.pending F.frames F.items
  | operand {pending : List Pending} {frames : List Frame} {items : List Value}
    (rest : Awaits T F w true pending frames items) :
    Awaits T F w false (.operand :: pending) frames items
  | callback {c : Checkpoint} {next : Outcome → Activity} {pending : List Pending}
    {frames : List Frame} {items : List Value}
    (checkpoint : c = ⟨true, frames.length, items.length⟩)
    (next_sound : ∀ w', w.Le w' → ∀ o, (Typing.discipline T).outcome w' o →
      (next o).Sound (Typing.discipline T) w')
    (rest : Awaits T F w false pending frames items) :
    Awaits T F w false (.callback c next :: pending) frames items
  | frame {f : Frame} {pending : List Pending} {frames : List Frame} {items below : List Value}
    {σ : Shape} (sound : f.Sound T w) (ready : f.Ready)
    (shape : Shape.Fills T.exact (.value :: σ) (f.shape T)) (segment : Segment T w σ below items)
    (base : f.base = below.length) (rest : Awaits T F w (!f.entry) pending frames below) :
    Awaits T F w true pending (f :: frames) items

/-- **The innermost frame can go on**: the top of the operand stack has the shape that its offset
asks for. A program that is run again at its end finds nothing there. -/
def Active (T : Typing) (F : Floor) (w : Stage) (pending : List Pending) (frames : List Frame)
    (items : List Value) : Prop :=
  ∃ f rest below, frames = f :: rest ∧ f.Sound T w ∧ f.Ready ∧
    (Segment T w (f.shape T) below items ∨ f.ip = f.code.size ∧ items = below) ∧
    f.base = below.length ∧ Awaits T F w (!f.entry) pending rest below

/-- **A failure finds its way**: it passes the instructions that wait, and whoever does not let it
pass finds what it expects further down on both stacks. -/
inductive Unwinds (T : Typing) (F : Floor) (w : Stage) :
    List Pending → List Frame → List Value → Prop
  | floor {frames : List Frame} {items : List Value} (hf : F.frames <:+ frames)
    (hi : F.items <:+ items) : Unwinds T F w F.pending frames items
  | operand {pending : List Pending} {frames : List Frame} {items : List Value}
    (rest : Unwinds T F w pending frames items) : Unwinds T F w (.operand :: pending) frames items
  | callback {c : Checkpoint} {next : Outcome → Activity} {pending : List Pending}
    {frames frames' : List Frame} {items items' : List Value} (hf : frames' <:+ frames)
    (hi : items' <:+ items)
    (awaits : Awaits T F w false (.callback c next :: pending) frames' items') :
    Unwinds T F w (.callback c next :: pending) frames items

variable {F : Floor} {pending : List Pending} {frames frames' : List Frame}
  {items items' : List Value}

theorem Awaits.mono {b : Bool} (h : Awaits T F w b pending frames items) (hw : w.Le w') :
    Awaits T F w' b pending frames items := by
  induction h with
  | floor => exact .floor
  | operand _ ih => exact .operand ih
  | callback checkpoint next _ ih =>
    exact .callback checkpoint (fun w'' hw'' => next w'' (hw.trans hw'')) ih
  | frame sound ready shape segment base _ ih =>
    exact .frame (sound.mono hw) ready shape (segment.mono hw) base ih

/-- What a failure finds, it finds below more frames and operands, too. -/
theorem Unwinds.above (h : Unwinds T F w pending frames items) (hf : frames <:+ frames')
    (hi : items <:+ items') : Unwinds T F w pending frames' items' := by
  induction h with
  | floor hf' hi' => exact .floor (hf'.trans hf) (hi'.trans hi)
  | operand _ ih => exact .operand (ih hf hi)
  | callback hf' hi' awaits => exact .callback (hf'.trans hf) (hi'.trans hi) awaits

/-- **Wherever a failure occurs, it finds its way.** -/
theorem Awaits.unwinds {b : Bool} (h : Awaits T F w b pending frames items) :
    Unwinds T F w pending frames items := by
  induction h with
  | floor => exact .floor List.suffix_rfl List.suffix_rfl
  | operand _ ih => exact .operand ih
  | callback checkpoint next rest _ =>
    exact .callback List.suffix_rfl List.suffix_rfl (.callback checkpoint next rest)
  | frame _ _ _ segment _ _ ih => exact ih.above (List.suffix_cons ..) segment.suffix

theorem Active.unwinds (h : Active T F w pending frames items) :
    Unwinds T F w pending frames items := by
  obtain ⟨f, rest, below, rfl, -, -, hs, -, h⟩ := h
  refine h.unwinds.above (List.suffix_cons ..) ?_
  rcases hs with hs | ⟨-, rfl⟩
  · exact hs.suffix
  · exact List.suffix_rfl

/-- A frame that waits for a value goes on when it is pushed. -/
theorem Awaits.active (h : Awaits T F w true pending frames items) {v : Value}
    (hv : v.Exists T w) : Active T F w pending frames (v :: items) := by
  cases h with
  | frame sound ready shape segment base rest =>
    exact ⟨_, _, _, rfl, sound, ready,
      .inl ((segment.cons (k := .value) hv).fills shape), base, rest⟩

theorem Active.mono (h : Active T F w pending frames items) (hw : w.Le w') :
    Active T F w' pending frames items := by
  obtain ⟨f, rest, below, rfl, hf, hr, hs, hb, h⟩ := h
  exact ⟨f, rest, below, rfl, hf.mono hw, hr, hs.imp (·.mono hw) id, hb, h.mono hw⟩

theorem Unwinds.mono (h : Unwinds T F w pending frames items) (hw : w.Le w') :
    Unwinds T F w' pending frames items := by
  induction h with
  | floor hf hi => exact .floor hf hi
  | operand _ ih => exact .operand ih
  | callback hf hi awaits => exact .callback hf hi (awaits.mono hw)

/-- Those that wait below are never forgotten. -/
theorem Awaits.suffix {b : Bool} (h : Awaits T F w b pending frames items) :
    F.pending <:+ pending := by
  induction h with
  | floor => exact List.suffix_rfl
  | operand _ ih => exact ih.trans (List.suffix_cons ..)
  | callback _ _ _ ih => exact ih.trans (List.suffix_cons ..)
  | frame _ _ _ _ _ _ ih => exact ih

/-- Who waits for a result above the floor: an instruction, or a builtin that called back. -/
theorem Awaits.above_floor (h : Awaits T F w false pending frames items)
    (hp : pending ≠ F.pending) :
    (∃ rest, pending = .operand :: rest ∧ Awaits T F w true rest frames items) ∨
      ∃ next rest, pending = .callback ⟨true, frames.length, items.length⟩ next :: rest ∧
        (∀ w', w.Le w' → ∀ o, (Typing.discipline T).outcome w' o →
          (next o).Sound (Typing.discipline T) w') ∧ Awaits T F w false rest frames items := by
  cases h with
  | floor => exact absurd rfl hp
  | operand rest => exact .inl ⟨_, rfl, rest⟩
  | callback checkpoint next_sound rest =>
    subst checkpoint
    exact .inr ⟨_, _, rfl, next_sound, rest⟩

/-- **When nobody above the floor waits**, both stacks are those of the floor. -/
theorem Awaits.eq_floor (h : Awaits T F w false pending frames items) (hp : pending = F.pending) :
    frames = F.frames ∧ items = F.items := by
  have longer {p : Pending} {rest : List Pending} (hs : F.pending <:+ rest)
      (he : p :: rest = F.pending) : False := by
    have := hs.length_le
    rw [← he, List.length_cons] at this
    omega
  cases h with
  | floor => exact ⟨rfl, rfl⟩
  | operand rest => exact (longer rest.suffix hp).elim
  | callback _ _ rest => exact (longer rest.suffix hp).elim

theorem Unwinds.suffix (h : Unwinds T F w pending frames items) : F.pending <:+ pending := by
  induction h with
  | floor => exact List.suffix_rfl
  | operand _ ih => exact ih.trans (List.suffix_cons ..)
  | callback _ _ awaits => exact awaits.suffix

/-- What a failure finds above the floor: an instruction, which it passes, or a builtin that called
back. -/
theorem Unwinds.above_floor (h : Unwinds T F w pending frames items) (hp : pending ≠ F.pending) :
    (∃ rest, pending = .operand :: rest ∧ Unwinds T F w rest frames items) ∨
      ∃ next rest frames' items', pending = .callback ⟨true, frames'.length, items'.length⟩
        next :: rest ∧
        frames' <:+ frames ∧ items' <:+ items ∧
        (∀ w', w.Le w' → ∀ o, (Typing.discipline T).outcome w' o →
          (next o).Sound (Typing.discipline T) w') ∧ Awaits T F w false rest frames' items' := by
  cases h with
  | floor => exact absurd rfl hp
  | operand rest => exact .inl ⟨_, rfl, rest⟩
  | callback hf hi awaits =>
    obtain ⟨rest, he, -⟩ | ⟨next, rest, he, hn, ha⟩ := awaits.above_floor hp
    · cases he
    · obtain ⟨⟨rfl, rfl⟩, rfl⟩ : (_ ∧ _) ∧ _ := by simpa using he
      exact .inr ⟨_, _, _, _, rfl, hf, hi, hn, ha⟩

/-- A failure finds what lies on the floor. -/
theorem Unwinds.floor_suffix (h : Unwinds T F w pending frames items) (hp : pending = F.pending) :
    F.frames <:+ frames ∧ F.items <:+ items := by
  cases h with
  | floor hf hi => exact ⟨hf, hi⟩
  | operand rest =>
    have := rest.suffix.length_le
    rw [← hp, List.length_cons] at this
    omega
  | callback hf hi awaits =>
    obtain ⟨rfl, rfl⟩ := awaits.eq_floor hp
    exact ⟨hf, hi⟩

/-! ### Machines and worlds -/

/-- A registry of at least the builtins that code refers to. -/
structure Registry.Sound (T : Typing) (w : Stage) (r : Registry) : Prop where
  room : w.environment.builtins ≤ r.entries.size
  values : ∀ e ∈ r.entries, e.2.Exists T w

theorem Registry.Sound.mono {r : Registry} (h : r.Sound T w) (hw : w.Le w') : r.Sound T w' where
  room := hw.builtins ▸ h.room
  values e he := (Typing.discipline T).mono hw (h.values e he)

/-- **Sound worlds.** -/
structure World.Sound (T : Typing) (w : Stage) (world : World) : Prop where
  heap : world.heap.Sound (Typing.discipline T) w
  globals : ∀ v ∈ world.globals, v.Exists T w

end ScriptEngine
