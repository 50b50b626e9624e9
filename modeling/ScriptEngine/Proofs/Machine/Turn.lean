import ScriptEngine.Proofs.Machine.Instructions

/-!
# Turns of typed machines

One turn of the dispatch loop, from a machine whose innermost frame can go on. It leads to such a
machine again, or to one whose innermost frame waits for the value of a call, or out of an entry
frame with a value for whoever made it; and if it fails, the failure finds its way.

## Main definitions

* `ScriptEngine.State.Sound`: a machine at work in a sound world;
* `ScriptEngine.Turned`: what a turn leads to.

## Main results

* `ScriptEngine.Active.turn`: every turn of a machine that can go on.
-/

namespace ScriptEngine

open Exec

/-- **A machine at work in a sound world.** -/
structure State.Sound (T : Typing) (w : Stage) (s : State) : Prop where
  world : s.world.Sound T w
  registry : s.machine.registry.Sound T w
  running : s.machine.status = .running

section

variable (T : Typing) (F : Floor) (w₀ : Stage) (pending : List Pending)

/-- The machine is at work, and something holds of its stacks. -/
def State.With (P : Stage → List Frame → List Value → Prop) (s : State) : Prop :=
  ∃ w, w₀.Grows w ∧ s.Sound T w ∧ P w s.machine.frames.items s.machine.stack.toList

/-- **What a turn leads to.** -/
def Turned : Flow → State → Prop
  | .next => State.With T w₀ fun w => Active T F w pending
  | .leave v => State.With T w₀ fun w frames items =>
      v.Exists T w ∧ Awaits T F w false pending frames items
  | .invoke callee args => State.With T w₀ fun w frames items =>
      callee.Exists T w ∧ (Typing.discipline T).values w args ∧
        Awaits T F w true pending frames items

/-- What a turn that fails leads to. -/
def Broken (e : RuntimeError) (s : State) : Prop :=
  e.Allowed T ∧ State.With T w₀ (fun w => Unwinds T F w pending) s

end

variable {T : Typing} {F : Floor} {w₀ w : Stage} {pending : List Pending} {f : Frame}
  {fs : List Frame} {below : List Value} {p : Nat} {σ : Shape} {s : State}

/-! ### Out of the middle of an instruction -/

namespace Holds

theorem sound (h : Holds T w₀ f fs below w p σ s) : s.Sound T w :=
  ⟨h.world, h.registry, h.running⟩

/-- The frame of the instruction is still that of an activation of sound code. -/
theorem frame (h : Holds T w₀ f fs below w p σ s) (hf : f.Sound T w₀) :
    ∃ locals, s.machine.frames.items = { f with ip := p, locals } :: fs ∧
      Frame.Sound T w { f with ip := p, locals } := by
  obtain ⟨locals, hi, hroom, hslots⟩ := h.frames
  exact ⟨locals, hi, (hf.mono h.grows.le).code, hf.typed, hroom, hslots, hf.program⟩

theorem ready (ht : f.code.Target f.own p) (locals : Array Value) :
    Frame.Ready { f with ip := p, locals } :=
  ⟨ht.1, ht.2⟩

/-- **The frame goes on** at a target that expects no more than what lies on the stack. -/
theorem active (h : Holds T w₀ f fs below w p σ s) (hf : f.Sound T w₀)
    (hb : f.base = below.length) (ha : Awaits T F w₀ (!f.entry) pending fs below)
    (ht : f.code.Target f.own p) (hσ : σ.Fills T.exact (T.shape f.code p)) :
    Active T F w pending s.machine.frames.items s.machine.stack.toList := by
  obtain ⟨locals, hi, hs⟩ := h.frame hf
  exact ⟨_, fs, below, hi, hs, ready ht locals, .inl (h.segment.fills hσ), hb, ha.mono h.grows.le⟩

/-- **The frame waits** for the value of a call. -/
theorem awaits (h : Holds T w₀ f fs below w p σ s) (hf : f.Sound T w₀)
    (hb : f.base = below.length) (ha : Awaits T F w₀ (!f.entry) pending fs below)
    (ht : f.code.Target f.own p) (hσ : Shape.Fills T.exact (.value :: σ) (T.shape f.code p)) :
    Awaits T F w true pending s.machine.frames.items s.machine.stack.toList := by
  obtain ⟨locals, hi, hs⟩ := h.frame hf
  rw [hi]
  exact .frame hs (ready ht locals) hσ h.segment hb (ha.mono h.grows.le)

theorem unwinds (h : Holds T w₀ f fs below w p σ s)
    (ha : Awaits T F w₀ (!f.entry) pending fs below) :
    Unwinds T F w pending s.machine.frames.items s.machine.stack.toList := by
  obtain ⟨locals, hi, -⟩ := h.frames
  rw [hi]
  exact (ha.mono h.grows.le).unwinds.above (List.suffix_cons ..) h.segment.suffix

end Holds

/-- Where an instruction leads to, the turn does. -/
theorem After.turned {i : Instruction} {flow : Flow} (h : After T w₀ f fs below i flow s)
    (hf : f.Sound T w₀) (hb : f.base = below.length)
    (ha : Awaits T F w₀ (!f.entry) pending fs below) (ht : f.code.Target f.own i.stop) :
    Turned T F w₀ pending flow s := by
  cases flow with
  | next =>
    obtain ⟨w, p, σ, ht, hσ, hs⟩ := h
    exact ⟨w, hs.grows, hs.sound, hs.active hf hb ha ht hσ⟩
  | leave v => exact h.elim
  | invoke callee args =>
    obtain ⟨w, σ, hσ, hs, hc, hargs⟩ := h
    exact ⟨w, hs.grows, hs.sound, hc, hargs, hs.awaits hf hb ha ht hσ⟩

theorem Fails.broken {e : RuntimeError} (h : Fails T w₀ f fs below e s)
    (ha : Awaits T F w₀ (!f.entry) pending fs below) : Broken T F w₀ pending e s := by
  obtain ⟨he, w, p, σ, hs⟩ := h
  exact ⟨he, w, hs.grows, hs.sound, hs.unwinds ha⟩

/-! ### Leaving a frame -/

/-- A stack that is cut down to what lies at its bottom. -/
theorem Stack.truncate_of_suffix {α : Type} {s : Stack α} {xs : List α} (h : xs <:+ s.items) :
    (s.truncate xs.length).items = xs := by
  obtain ⟨top, hi⟩ := h
  rw [items_truncate, s.size_eq, ← hi, List.length_append, Nat.add_sub_cancel, List.drop_left]

/-- **A machine at work** on known stacks. -/
structure Rests (T : Typing) (w : Stage) (frames : List Frame) (items : List Value) (s : State) :
    Prop where
  sound : s.Sound T w
  frames : s.machine.frames.items = frames
  items : s.machine.stack.toList = items

namespace Rests

variable {frames : List Frame} {items : List Value} {E : RuntimeError → State → Prop}

theorem toWith {P : Stage → List Frame → List Value → Prop} (h : Rests T w frames items s)
    (hw : w₀.Grows w) (hP : P w frames items) : State.With T w₀ P s :=
  ⟨w, hw, h.sound, by rwa [h.frames, h.items]⟩

/-- A step on the operand stack. -/
theorem onStack {α : Type} {g : OperandStack → Except RuntimeError (α × OperandStack)}
    {A : α → List Value → Prop}
    (h : ∀ st : OperandStack, st.toList = items →
      (∀ a st', g st = .ok (a, st') → A a st'.toList) ∧
        ∀ e s, g st = .error e → Rests T w frames items s → E e s) :
    Ensures (Rests T w frames items) (onStack g)
      (fun a s => ∃ items', A a items' ∧ Rests T w frames items' s) E := by
  rintro ⟨⟨config, stack, frames, registry, position, status, ticks⟩, world⟩ hs
  obtain ⟨hok, herr⟩ := h stack hs.items
  unfold Exec.onStack
  dsimp only
  cases hg : g stack with
  | ok r =>
    obtain ⟨a, st'⟩ := r
    refine ⟨fun b s' hb => ?_, fun e s' hb => by cases hb⟩
    cases hb
    exact ⟨_, hok a st' hg, ⟨hs.sound.world, hs.sound.registry, hs.sound.running⟩, hs.frames, rfl⟩
  | error e =>
    refine ⟨fun b s' hb => (by cases hb), fun e' s' hb => ?_⟩
    cases hb
    exact herr e _ hg hs

/-- Operands are dropped down to the given ones. -/
theorem truncate (h : below <:+ items) :
    Ensures (Rests T w frames items) (truncate below.length)
      (fun _ => Rests T w frames below) E := by
  refine Ensures.mono (onStack (A := fun _ items' => items' = below) fun st hst => ⟨?_, ?_⟩)
    (fun _ h => h) (fun _ s => ?_) fun _ _ h => h
  · rintro _ _ ⟨⟩
    subst hst
    exact Stack.truncate_of_suffix (s := st.contents) h
  · rintro _ _ ⟨⟩
  · rintro ⟨_, rfl, hs⟩
    exact hs

/-- The top operand is taken. -/
theorem pop {v : Value} :
    Ensures (Rests T w frames (v :: items)) pop
      (fun u s => u = v ∧ Rests T w frames items s) E := by
  refine Ensures.mono (onStack (A := fun u items' => u = v ∧ items' = items) fun st hst => ?_)
    (fun _ h => h) (fun _ s => ?_) fun _ _ h => h
  · obtain ⟨⟨items', size, hsize⟩, limit⟩ := st
    obtain rfl : items' = v :: items := hst
    refine ⟨?_, ?_⟩
    · rintro _ _ ⟨⟩
      exact ⟨rfl, rfl⟩
    · rintro _ _ ⟨⟩
  · rintro ⟨_, ⟨rfl, rfl⟩, hs⟩
    exact ⟨rfl, hs⟩

/-- One more operand, unless there are too many. -/
theorem push (v : Value)
    (hE : ∀ s, Rests T w frames items s → E .stackOverflow s) :
    Ensures (Rests T w frames items) (push v) (fun _ => Rests T w frames (v :: items)) E := by
  refine Ensures.mono (onStack (A := fun _ items' => items' = v :: items) fun st hst => ?_)
    (fun _ h => h) (fun _ s => ?_) fun _ _ h => h
  · obtain ⟨contents, limit⟩ := st
    unfold OperandStack.push
    dsimp only
    split
    · refine ⟨?_, ?_⟩
      · rintro _ _ ⟨⟩
        exact congrArg (v :: ·) hst
      · rintro _ _ ⟨⟩
    · refine ⟨?_, ?_⟩
      · rintro _ _ ⟨⟩
      · rintro _ s ⟨⟩ hs
        exact hE s hs
  · rintro ⟨_, rfl, hs⟩
    exact hs

/-- The innermost frame is dropped. -/
theorem dropFrame {g : Frame} {α : Type} {r : Stack Frame → α} {a : α}
    (hr : ∀ st : Stack Frame, st.items = g :: fs → r st = a) :
    Ensures (Rests T w (g :: fs) items)
      (onFrames fun frames => (r frames, frames.truncate (frames.size - 1)))
      (fun b s => b = a ∧ Rests T w fs items s) E := by
  rintro ⟨⟨config, stack, frames, registry, position, status, ticks⟩, world⟩ hs
  have hi : frames.items = g :: fs := hs.frames
  refine ⟨fun b s' hb => ?_, fun e s' hb => by cases hb⟩
  cases hb
  refine ⟨hr _ hi, ⟨hs.sound.world, hs.sound.registry, hs.sound.running⟩, ?_, hs.items⟩
  have hsize : frames.size - 1 = fs.length := by
    rw [frames.size_eq, hi, List.length_cons, Nat.add_sub_cancel]
  show (frames.truncate (frames.size - 1)).items = fs
  rw [hsize]
  exact Stack.truncate_of_suffix (hi ▸ List.suffix_cons g fs)

end Rests

/-- **A function is left** with a value, which is pushed for the frame below, or handed to the
host. -/
theorem Rests.leaveFrame {g : Frame} {items : List Value} {v : Value} (hw : w₀.Grows w)
    (hb : g.base = below.length) (hi : below <:+ items)
    (ha : Awaits T F w (!g.entry) pending fs below) (hv : v.Exists T w) :
    Ensures (Rests T w (g :: fs) items) (leaveFrame v) (Turned T F w₀ pending)
      (Broken T F w₀ pending) := by
  refine Ensures.bind (Rests.dropFrame (r := Stack.top?) (a := some g) fun st hst => ?_)
    fun top => Ensures.of_and fun ht => ?_
  · unfold Stack.top?
    rw [hst]
    rfl
  subst ht
  dsimp only
  rw [hb]
  refine Ensures.bind (Rests.truncate hi) fun _ => ?_
  cases he : g.entry with
  | true =>
    rw [he] at ha
    exact .pure fun s hs => hs.toWith (P := fun w frames items => v.Exists T w ∧
      Awaits T F w false pending frames items) hw ⟨hv, ha⟩
  | false =>
    rw [he] at ha
    refine Ensures.bind (Rests.push v fun s hs => ?_) fun _ => .pure fun s hs => ?_
    · exact ⟨trivial, hs.toWith hw ha.unwinds⟩
    · exact hs.toWith hw (ha.active hv)

/-- **A return**, with the top value or with nil. -/
theorem Executes.returnValue {i : Instruction} {ctx : Context} (h : Executes T w f i)
    (hop : i.op = .returnValue) (hb : f.base = below.length)
    (ha : Awaits T F w (!f.entry) pending fs below) :
    Ensures (Holds T w f fs below w i.stop (T.shape f.code i.offset)) (Exec.execute ctx i)
      (Turned T F w pending) (Broken T F w pending) := by
  have hf := h.fits
  simp only [Instruction.Fits, hop] at hf
  have hx : Exec.execute ctx i =
      (if i.first = 0 then pure .nil else pop) >>= Exec.leaveFrame := by
    simp only [Exec.execute, hop]
    split <;> rfl
  have value : Ensures (Holds T w f fs below w i.stop (T.shape f.code i.offset))
      (if i.first = 0 then pure .nil else pop)
      (fun v s => v.Exists T w ∧ ∃ σ, Holds T w f fs below w i.stop σ s)
      (Broken T F w pending) := by
    split
    · exact .pure fun s hs => ⟨trivial, _, hs⟩
    · rename_i hne
      obtain ⟨σ, ho⟩ := hf hne
      rw [ho]
      exact Ensures.mono (Takes.pop (k := .value)) (fun _ h => h)
        (fun v s hs => ⟨hs.1, σ, hs.2⟩) fun e s he => he.broken ha
  rw [hx]
  refine value.bind fun v => Ensures.of_and fun hv => ?_
  rintro s ⟨σ, hs⟩
  obtain ⟨locals, hi, -⟩ := hs.frames
  exact Rests.leaveFrame (g := { f with ip := i.stop, locals })
    (.refl w) hb hs.segment.suffix ha hv s
    ⟨hs.sound, hi, rfl⟩

/-- **The end of a program.** What it left on the operand stack is its value. -/
theorem Rests.endProgram {g : Frame} {items : List Value} (hb : g.base = below.length)
    (hi : items = below ∨ ∃ v rest, items = v :: rest ∧ v.Exists T w ∧ below <:+ rest)
    (ha : Awaits T F w false pending fs below) :
    Ensures (Rests T w (g :: fs) items) (endProgram g) (Turned T F w pending)
      (Broken T F w pending) := by
  refine Ensures.bind (Rests.dropFrame (r := fun _ => ()) (a := ()) fun _ _ => rfl) fun _ =>
    Ensures.of_and fun _ => ?_
  have size {s : State} (hs : Rests T w fs items s) : s.machine.stack.size = items.length := by
    rw [← hs.items]
    exact s.machine.stack.contents.size_eq
  have leave {v : Value} {items : List Value} (hv : v.Exists T w) (hi : below <:+ items) :
      Ensures (Rests T w fs items) (do
          Exec.truncate below.length
          return .leave v)
        (Turned T F w pending) (Broken T F w pending) :=
    Ensures.bind (Rests.truncate hi) fun _ => .pure fun t ht => ht.toWith
      (P := fun w frames items => v.Exists T w ∧ Awaits T F w false pending frames items)
      (.refl w) ⟨hv, ha⟩
  refine Ensures.get fun s hs => ?_
  dsimp only
  rw [size hs, hb]
  rcases hi with rfl | ⟨v, rest, rfl, hv, hi⟩
  · rw [if_neg (Nat.lt_irrefl _)]
    exact Ensures.mono (leave trivial List.suffix_rfl) (fun t ht => ht ▸ hs) (fun _ _ h => h)
      fun _ _ h => h
  · have := hi.length_le
    rw [List.length_cons, if_pos (by omega)]
    refine Ensures.mono (Ensures.bind Rests.pop fun u => Ensures.of_and fun hu => ?_)
      (fun t ht => ht ▸ hs) (fun _ _ h => h) fun _ _ h => h
    exact leave (hu ▸ hv) hi

/-! ### Turns -/

theorem Rests.observe {frames : List Frame} {items : List Value}
    {ask : Controls → Except Interrupt Unit} {E : RuntimeError → State → Prop}
    (hE : ∀ e s, Rests T w frames items s → E (.interrupted e) s) :
    Ensures (Rests T w frames items) (observe ask) (fun _ => Rests T w frames items) E := by
  refine Ensures.get fun s hs => ?_
  split
  · exact .pure fun t ht => ht ▸ hs
  · exact .throw fun t ht => hE _ t (ht ▸ hs)

theorem Rests.tick {frames : List Frame} {items : List Value} {E : RuntimeError → State → Prop} :
    Ensures (Rests T w frames items) tick (fun _ => Rests T w frames items) E := by
  rintro ⟨⟨config, stack, frames, registry, position, status, ticks⟩, world⟩ hs
  refine ⟨fun b s' hb => ?_, fun e s' hb => by cases hb⟩
  cases hb
  exact ⟨⟨hs.sound.world, hs.sound.registry, hs.sound.running⟩, hs.frames, hs.items⟩

/-- The instruction at the offset of a frame that can go on. -/
theorem Frame.Sound.executes {f : Frame} (h : f.Sound T w) (hr : f.Ready)
    (hlt : f.ip < f.code.size) :
    ∃ i, f.code.fetch f.ip = .ok i ∧ i.offset = f.ip ∧ Executes T w f i := by
  obtain ⟨i, hfetch, ho, hi, hl, hstop⟩ := h.code.instruction hr.boundary hlt
  obtain ⟨j, hj, hasj, hfits, -⟩ := h.typed.walk.instruction hr.boundary hlt
  obtain rfl := hasj.unique hi (hj.trans ho.symm)
  refine ⟨j, hfetch, ho, h, hl, hfits, fun hop => ⟨hstop, ?_⟩⟩
  by_cases hown : f.own.isSome
  · exact .inl (h.code.stop_lt hown hi (ho ▸ hr.boundary) hop)
  · have hown : f.own = none := Option.not_isSome_iff_eq_none.mp hown
    rcases Nat.lt_or_eq_of_le hi.stop_le with hlt | he
    · exact .inl hlt
    · exact .inr ⟨hown, he⟩

/-- **Every turn of a machine that can go on.** -/
theorem Active.turn {frames : List Frame} {items : List Value}
    (h : Active T F w pending frames items) (ctx : Context) :
    Ensures (Rests T w frames items) (turn ctx) (Turned T F w pending) (Broken T F w pending) := by
  have broken : ∀ e s, Rests T w frames items s → Broken T F w pending (.interrupted e) s :=
    fun e s hs => ⟨trivial, hs.toWith (.refl w) h.unwinds⟩
  refine Ensures.bind (Rests.observe broken) fun _ => ?_
  refine Ensures.bind Rests.tick fun look => ?_
  obtain ⟨f, rest, below, rfl, hf, hr, hseg, hb, ha⟩ := h
  have body : Ensures (Rests T w (f :: rest) items) (fetchAndExecute ctx) (Turned T F w pending)
      (Broken T F w pending) := by
    refine Ensures.get fun s hs => ?_
    have htop : s.machine.frames.top? = some f := by
      unfold Stack.top?
      rw [hs.frames]
      rfl
    rw [htop]
    dsimp only
    split
    · rename_i hlt
      obtain ⟨i, hfetch, ho, he⟩ := hf.executes hr hlt
      rw [hfetch]
      dsimp only
      have holds : Holds T w f rest below w f.ip (T.shape f.code i.offset) s :=
        ⟨.refl w, hs.sound.world, hs.sound.registry, hs.sound.running,
          ⟨f.locals, hs.frames, hf.room, hf.slots⟩, by
            rw [ho, hs.items]
            exact hseg.resolve_right fun h => Nat.ne_of_lt hlt h.1⟩
      have enter : Ensures (Holds T w f rest below w f.ip (T.shape f.code i.offset))
          (modifyFrame ({ · with ip := i.stop }))
          (fun _ => Holds T w f rest below w i.stop (T.shape f.code i.offset))
          (Broken T F w pending) :=
        Ensures.mono (Takes.modifyFrame fun locals hroom hslots => ⟨locals, rfl, hroom, hslots⟩)
          (fun _ h => h) (fun _ _ h => h) fun _ _ h => h.broken ha
      refine Ensures.mono (enter.bind fun _ => ?_) (fun t ht => ht ▸ holds) (fun _ _ h => h)
        fun _ _ h => h
      by_cases hop : i.op = .returnValue
      · exact he.returnValue hop hb ha
      · exact Ensures.mono (he.execute hop ctx) (fun _ h => h)
          (fun _ _ h => h.turned hf hb ha (he.stop hop)) fun _ _ h => h.broken ha
    · rename_i hge
      obtain ⟨hown, hip⟩ := hr.inside.resolve_left hge
      have hfun : f.function = none := by
        unfold Frame.own at hown
        split at hown
        · cases hown
        · rename_i hno
          exact Option.not_isSome_iff_eq_none.mp hno
      rw [hfun]
      dsimp only
      have hend : f.shape T = [.value] ∨ f.shape T = [] := by
        unfold Frame.shape
        rw [hip]
        exact hf.typed.stop hown
      rw [hf.program hfun] at ha
      have htop := hseg.elim (·.top hend) fun h => .inl h.2
      exact Ensures.mono (Rests.endProgram hb htop ha) (fun t ht => ht ▸ hs)
        (fun _ _ h => h) fun _ _ h => h
  split
  · exact Ensures.bind (Rests.observe broken) fun _ => body
  · exact body

end ScriptEngine
