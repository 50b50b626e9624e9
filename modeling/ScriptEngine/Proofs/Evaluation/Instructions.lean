import ScriptEngine.Proofs.Evaluation.Runs
import ScriptEngine.Proofs.Machine.Activations
import ScriptEngine.Proofs.Machine.Charges

/-!
# Instructions that follow an evaluation

What the instructions do that touch no variable, as steps of an evaluation. Each takes its operands,
does on the heap what the operation on values does, and leaves the result.

## Main definitions

* `ScriptEngine.Ground.Atop`: the operands of a result lie above others;
* `ScriptEngine.Ground.Answers`: an instruction ends as an evaluation does.

## Main results

* `ScriptEngine.Ground.Follows.exec`: an instruction follows an evaluation;
* `ScriptEngine.Ground.Follows.after`: an instruction that goes elsewhere comes first.
-/

namespace ScriptEngine

/-- No value is an iterator. -/
abbrev Plain (vs : List Value) : Prop :=
  Discipline.plain.values () vs

/-- A charge interrupts nothing. -/
theorem Context.Allows.charge {ctx : Context} {c : Controls} (h : ctx.Allows c)
    (l : Option LimitsRef) (cost : Nat) : ctx.Allows (c.charge l cost).2 := by
  unfold Controls.charge Controls.onLimits
  split
  · exact h
  · split
    · exact h
    · exact h

/-- Pushes whether an item was found, or the opposite. A fault is neither. -/
def Exec.pushMembership (negated : Bool) : Value → Exec Unit
  | .bool found => push (.bool (found != negated))
  | v => push v

namespace Ground

variable {G : Ground} {α β : Type} {J : Option Escape} {N : Nat} {ν ν' : Names}
  {p q : Nat} {i : Instruction} {v u t : Value} {vs us K : List Value} {k : UInt32}
  {w w' w₀ : World}
  {x : Eval α} {Q : α → Nat → List Value → Prop}

/-- **The operands of a result lie above others**, and none of them is an iterator. -/
def Atop (K : List Value) (q : Nat) (out : α → List Value) (v : α) (q' : Nat) (us : List Value) :
    Prop :=
  q' = q ∧ us = out v ++ K ∧ Plain (out v)

/-! ### Operands -/

theorem push_machineAt : Exec.push v ⟨G.machineAt p K k, w⟩ =
    if K.length < G.machine.stack.limit then .ok () ⟨G.machineAt p (v :: K) k, w⟩
    else .error .stackOverflow ⟨G.machineAt p K k, w⟩ := by
  by_cases h : K.length < G.machine.stack.limit
  · have hpush : (G.machineAt p K k).stack.push v =
        .ok ⟨.ofList (v :: K), G.machine.stack.limit⟩ := if_pos h
    rw [if_pos h, Exec.push_eq, hpush]
    rfl
  · have hpush : (G.machineAt p K k).stack.push v = .error .stackOverflow := if_neg h
    rw [if_neg h, Exec.push_eq, hpush]

theorem popN_machineAt : Exec.popN vs.length ⟨G.machineAt p (vs.reverse ++ K) k, w⟩ =
    .ok vs ⟨G.machineAt p K k, w⟩ := by
  have hstack : (G.machineAt p (vs.reverse ++ K) k).stack.toList = vs.reverse ++ K := rfl
  obtain ⟨⟨⟨items, size, rfl⟩, limit⟩, hpop, hitems, hlimit, -⟩ := Fiber.popN_of_toList hstack
  obtain rfl : items = K := hitems
  obtain rfl : limit = G.machine.stack.limit := hlimit
  exact Fiber.onStack_of_ok hpop

/-! ### Instructions -/

/-- **An instruction ends as an evaluation does**: it goes on where something is known of the
result, or it fails for the same reason, or finds no room for an operand. -/
inductive Answers (G : Ground) (w₀ : World) (ν : Names) (Q : α → Nat → List Value → Prop)
    (k : UInt32) : EStateM.Result RuntimeError State Flow → EStateM.Result Stop Store α → Prop
  | next {q : Nat} {us : List Value} {w : World} {v : α} (hQ : Q v q us)
    (hw : G.Later ν.slots w₀ w) :
    Answers G w₀ ν Q k (.ok .next ⟨G.machineAt q us k, w⟩) (.ok v (w.store ν.symbols))
  | fail {m : Machine} {w : World} {e : RuntimeError} (hw : G.Later ν.slots w₀ w) :
    Answers G w₀ ν Q k (.error e ⟨m, w⟩) (.error (.failure e) (w.store ν.symbols))
  | full {s : State} {r : EStateM.Result Stop Store α} :
    Answers G w₀ ν Q k (.error .stackOverflow s) r

/-- **An instruction follows an evaluation.** -/
theorem Follows.exec (hc : G.code.Has i)
    (h : ∀ k w, G.Fits w → G.Answers w ν Q k
      (Exec.execute G.setting.ctx i ⟨G.machineAt i.stop vs k, w⟩) (x (w.store ν.symbols))) :
    G.Follows J N ν i.offset vs x ν Q := by
  intro k w hw
  have hstep := step_fiber vs k hc hw.allows
  have hanswer := h (k + 1) w hw
  generalize Exec.execute G.setting.ctx i ⟨G.machineAt i.stop vs (k + 1), w⟩ = r at hstep hanswer
  generalize x (w.store ν.symbols) = r' at hanswer
  cases hanswer with
  | next hQ hw' =>
    exact Comes.of_step hstep (.refl ⟨_, _, _, rfl, hQ, rfl, hw'⟩)
  | fail hw' =>
    exact Comes.of_step hstep (.refl ⟨[], [], ⟨_, rfl⟩, rfl, rfl,
      fun s hs => absurd hs List.not_mem_nil, hw'⟩)
  | full =>
    exact .of_comes (Comes.of_step hstep (.overflow ⟨_, rfl⟩))

/-- **An instruction that goes elsewhere**, with other operands, comes first. It counts as a
step. -/
theorem Follows.after {Q : α → Nat → List Value → Prop} (hc : G.code.Has i)
    (h : ∀ k w, Exec.execute G.setting.ctx i ⟨G.machineAt i.stop vs k, w⟩ =
      .ok .next ⟨G.machineAt q us k, w⟩) (hx : G.Follows J N ν q us x ν' Q) :
    G.Follows J (N + 1) ν i.offset vs x ν' Q := by
  intro k w hw
  have hstep := step_fiber vs k hc hw.allows
  rw [h] at hstep
  have hends := hx (k + 1) w hw
  match x (w.store ν.symbols), hends with
  | .ok _ _, hends | .error (.leave _) _, hends | .error (.failure _) _, hends =>
    exact Comes.of_step hstep hends
  | .error .unfinished _, hends => exact Comes.step hstep hends

/-- The same in one world. -/
theorem Ends.after {symbols : List Symbol} {r : EStateM.Result Stop Store α} (hc : G.code.Has i)
    (hw : G.Fits w) (hi : Exec.execute G.setting.ctx i ⟨G.machineAt i.stop vs (k + 1), w⟩ =
      .ok .next ⟨G.machineAt q us (k + 1), w'⟩)
    (hx : G.Ends J N w₀ symbols ν' Q (G.fiber q us (k + 1)) w' r) :
    G.Ends J N w₀ symbols ν' Q (G.fiber i.offset vs k) w r := by
  have hstep := step_fiber vs k hc hw.allows
  rw [hi] at hstep
  exact .of_comes (Comes.of_step hstep (.refl hx))

/-- An instruction that finds no room for an operand. -/
theorem Ends.overflow {symbols : List Symbol} {r : EStateM.Result Stop Store α} {s : State}
    (hc : G.code.Has i) (hw : G.Fits w)
    (hi : Exec.execute G.setting.ctx i ⟨G.machineAt i.stop vs (k + 1), w⟩ =
      .error .stackOverflow s) :
    G.Ends J N w₀ symbols ν' Q (G.fiber i.offset vs k) w r := by
  have hstep := step_fiber vs k hc hw.allows
  rw [hi] at hstep
  exact .of_comes (Comes.of_step hstep (.overflow ⟨_, rfl⟩))

/-- An instruction that fails where an evaluation does. -/
theorem Ends.fails {e : RuntimeError} {m : Machine} (hc : G.code.Has i) (hw : G.Fits w)
    (hi : Exec.execute G.setting.ctx i ⟨G.machineAt i.stop vs (k + 1), w⟩ = .error e ⟨m, w⟩) :
    G.Ends J N w ν.symbols ν Q (G.fiber i.offset vs k) w
      (.error (.failure e) (w.store ν.symbols)) := by
  have hstep := step_fiber vs k hc hw.allows
  rw [hi] at hstep
  exact Comes.of_step hstep (.refl ⟨[], [], ⟨_, rfl⟩, rfl, rfl,
    fun s hs => absurd hs List.not_mem_nil, .refl hw⟩)

theorem proceed_eq (step : Exec Unit) (s : State) :
    Exec.proceed step s =
      match step s with
      | .ok () s => .ok .next s
      | .error e s => .error e s := by
  unfold Exec.proceed
  show EStateM.bind step _ s = _
  unfold EStateM.bind
  cases step s <;> rfl

/-- The result is pushed. -/
theorem Answers.push {v : α} (hQ : Q v q (u :: us)) (hw : G.Later ν.slots w₀ w) :
    G.Answers w₀ ν Q k (Exec.proceed (Exec.push u) ⟨G.machineAt q us k, w⟩)
      (.ok v (w.store ν.symbols)) := by
  show G.Answers w₀ ν Q k (EStateM.bind (Exec.push u) _ _) _
  unfold EStateM.bind
  rw [push_machineAt]
  split
  · rename_i heq
    split at heq
    · cases heq
      exact .next hQ hw
    · cases heq
  · rename_i heq
    split at heq
    · cases heq
    · cases heq
      exact .full

/-! ### Results of heap operations -/

/-- A step that knows of no iterator, in an evaluation. -/
theorem onHeap_store {f : Heap → α × Heap} (hf : Heap.Blind f) (w : World) (symbols : List Symbol) :
    Eval.onHeap f (w.store symbols) =
      .ok (f w.heap).1 ({ w with heap := (f w.heap).2 }.store symbols) := by
  show EStateM.Result.ok (f w.heap.bare).1 { w.store symbols with heap := (f w.heap.bare).2 } = _
  rw [(hf w.heap).1]
  rfl

/-- A step that may end an evaluation, and one that may end a run. -/
theorem onHeapOrRaise_store {f : Heap → Except Fault α × Heap} (hf : Heap.Blind f) (w : World)
    (symbols : List Symbol) :
    Eval.onHeapOrRaise f (w.store symbols) =
      match (f w.heap).1 with
      | .ok a => .ok a ({ w with heap := (f w.heap).2 }.store symbols)
      | .error fault => .error (.failure (.ofErrorValue fault.toError))
          ({ w with heap := (f w.heap).2 }.store symbols) := by
  unfold Eval.onHeapOrRaise
  show EStateM.bind (Eval.onHeap f) _ _ = _
  unfold EStateM.bind
  rw [onHeap_store hf]
  cases (f w.heap).1 <;> rfl

theorem onHeapOrRaise_machine (f : Heap → Except Fault α × Heap) (m : Machine) (w : World) :
    Exec.onHeapOrRaise f ⟨m, w⟩ =
      match (f w.heap).1 with
      | .ok a => .ok a ⟨m, { w with heap := (f w.heap).2 }⟩
      | .error fault =>
        .error (.ofErrorValue fault.toError) ⟨m, { w with heap := (f w.heap).2 }⟩ := by
  unfold Exec.onHeapOrRaise
  show EStateM.bind (Exec.onHeap f) _ _ = _
  unfold EStateM.bind
  show (match (f w.heap).1 with
    | .ok a => pure a
    | .error fault => throw (.ofErrorValue fault.toError) : Exec α) _ = _
  cases (f w.heap).1 <;> rfl

/-- The world after a step that knows of no iterator. -/
theorem Later.onHeap {f : Heap → α × Heap} (hf : Heap.Blind f) (hw : G.Fits w)
    (hs : (f w.heap).2.Sound Discipline.plain ()) (slots : Nat) :
    G.Later slots w { w with heap := (f w.heap).2 } :=
  ⟨⟨hw.allows, hs, hw.globals⟩, (hf w.heap).2 ▸ List.prefix_rfl, fun _ _ => rfl⟩

/-- **What an instruction pushes** is the result of an operation on the heap. -/
theorem Follows.pushes {f : Heap → Value × Heap} (us : List Value) (hc : G.code.Has i)
    (hf : Heap.Blind f)
    (hs : ∀ h : Heap, h.Sound Discipline.plain () → Discipline.plain.Yields () (f h))
    (h : ∀ k w, Exec.execute G.setting.ctx i ⟨G.machineAt i.stop (us ++ K) k, w⟩ =
      Exec.proceed (Exec.push (f w.heap).1)
        ⟨G.machineAt i.stop K k, { w with heap := (f w.heap).2 }⟩) :
    G.Follows J N ν i.offset (us ++ K) (Eval.onHeap f) ν (Atop K i.stop ([·])) := by
  refine .exec hc fun k w hw => ?_
  obtain ⟨hv, hh⟩ := hs w.heap hw.heap
  rw [h, onHeap_store hf]
  exact .push ⟨rfl, rfl, Discipline.values_cons.mpr ⟨hv, Discipline.values_nil⟩⟩
    (.onHeap hf hw hh _)

/-- What an instruction pushes that only looks at the heap. -/
theorem Follows.looks {f : Heap → Value} (us : List Value) (hc : G.code.Has i)
    (hf : ∀ h : Heap, f h.bare = f h)
    (hs : ∀ h : Heap, h.Sound Discipline.plain () → Discipline.plain.value () (f h))
    (h : ∀ k w, Exec.execute G.setting.ctx i ⟨G.machineAt i.stop (us ++ K) k, w⟩ =
      Exec.proceed (Exec.push (f w.heap)) ⟨G.machineAt i.stop K k, w⟩) :
    G.Follows J N ν i.offset (us ++ K) (Eval.look f) ν (Atop K i.stop ([·])) :=
  .pushes (f := fun h => (f h, h)) us hc (fun h => ⟨congrArg (·, h.bare) (hf h), rfl⟩)
    (fun h hh => ⟨hs h hh, hh⟩) h

/-! ### Operators -/

theorem blind_apply (op : InfixOp) (v u : Value) : Heap.Blind (op.apply · v u) := by
  unfold InfixOp.apply
  cases op.meaning with
  | inl op => exact Heap.blind_binary op v u
  | inr c => exact fun h => ⟨by simp only [Heap.compareBy_bare], rfl⟩

theorem yields_apply {h : Heap} (hs : h.Sound Discipline.plain ()) (op : InfixOp)
    (hv : Discipline.plain.value () v) (hu : Discipline.plain.value () u) :
    Discipline.plain.Yields () (op.apply h v u) := by
  unfold InfixOp.apply
  cases op.meaning with
  | inl op => exact hs.binary op hv hu
  | inr c => exact hs.yields (h.isData_compareBy c v u)

/-- **An operator** between two operands. -/
theorem Follows.binary {op : InfixOp}
    (hc : G.code.Has ⟨p, (Generate.operator op).1, [(Generate.operator op).2]⟩)
    (hp : Plain [u, v]) : G.Follows J N ν p (u :: v :: K) (Eval.onHeap (op.apply · v u)) ν
      (Atop K (p + 2) ([·])) := by
  refine .pushes [u, v] hc (blind_apply op v u) (fun h hs => ?_) fun k w => ?_
  · exact yields_apply hs op (hp v (by simp)) (hp u (by simp))
  · cases op <;> rfl

theorem plain_of_isData (hv : v.isData = true) : Discipline.plain.value () v :=
  Discipline.plain.data hv

/-- **An operator** before its operand. -/
theorem Follows.unary {op : PrefixOp}
    (hc : G.code.Has ⟨p, (Operation.unary op).encode.1, (Operation.unary op).encode.2⟩) :
    G.Follows J N ν p (v :: K) (Eval.look (op.apply · v)) ν (Atop K (p + 1) ([·])) := by
  cases op with
  | neg =>
    exact .looks [v] hc (fun h => congrFun h.negate_bare v)
      (fun h _ => plain_of_isData (h.isData_negate v)) fun _ _ => rfl
  | not =>
    exact .looks [v] hc
      (fun h => by simp only [PrefixOp.apply, Heap.isTruthy_bare])
      (fun _ _ => plain_of_isData rfl) fun _ _ => rfl

/-! ### Containers -/

/-- The item under an index. -/
theorem Follows.getItem (hc : G.code.Has ⟨p, .binarySubscr, []⟩) :
    G.Follows J N ν p (u :: v :: K) (Eval.look (·.getItem v u)) ν (Atop K (p + 1) ([·])) :=
  .looks [u, v] hc (fun h => congrFun (congrFun h.getItem_bare v) u)
    (fun _ hs => hs.getItem v u) fun _ _ => rfl

/-- The number of items. -/
theorem Follows.length (hc : G.code.Has ⟨p, .length, []⟩) :
    G.Follows J N ν p (v :: K) (Eval.look (·.length v)) ν (Atop K (p + 1) ([·])) :=
  .looks [v] hc (fun h => congrFun h.length_bare v)
    (fun h _ => plain_of_isData (h.isData_length v)) fun _ _ => rfl

/-- The items between two bounds. -/
theorem Follows.slice (hc : G.code.Has ⟨p, .slice, []⟩) :
    G.Follows J N ν p (t :: u :: v :: K) (Eval.onHeap (·.slice v t u)) ν
      (Atop K (p + 1) ([·])) :=
  .pushes [t, u, v] hc (Heap.blind_slice v t u) (fun _ hs => hs.slice v t u)
    fun _ _ => rfl

/-- Membership. -/
theorem Follows.contains {negated : Bool}
    (hc : G.code.Has ⟨p, .containsOp, [if negated then 1 else 0]⟩) :
    G.Follows J N ν p (u :: v :: K) (Eval.look (·.membership v u negated)) ν
      (Atop K (p + 2) ([·])) := by
  refine .looks [u, v] hc (fun h => ?_) (fun h _ => ?_) fun k w => ?_
  · unfold Heap.membership
    rw [h.contains_bare]
  · refine plain_of_isData ?_
    unfold Heap.membership
    have hdata := h.isData_contains v u
    split
    · rfl
    · exact hdata
  · have hword : ((if negated then 1 else 0 : Word) != 0) = negated := by cases negated <;> rfl
    show Exec.proceed (do
      Exec.pushMembership ((if negated then 1 else 0 : Word) != 0)
        (← Exec.readHeap (·.contains v u))) ⟨G.machineAt (p + 2) K k, w⟩ = _
    rw [hword]
    show Exec.proceed (Exec.pushMembership negated (w.heap.contains v u))
      ⟨G.machineAt (p + 2) K k, w⟩ = _
    unfold Heap.membership
    cases w.heap.contains v u <;> rfl

/-! ### Building -/

/-- **A value that was just built** is charged before it is pushed. -/
theorem Answers.built {Q : Value → Nat → List Value → Prop} (hQ : Q v q (v :: us))
    (hw : G.Later ν.slots w₀ w) :
    G.Answers w₀ ν Q k (Exec.proceed (Exec.pushBuilt G.setting.ctx v) ⟨G.machineAt q us k, w⟩)
      (Eval.built G.setting v (w.store ν.symbols)) := by
  have hallows := hw.fits.allows.charge G.setting.ctx.limits (w.heap.cost v)
  show G.Answers w₀ ν Q k (EStateM.bind (Exec.pushBuilt G.setting.ctx v) _ _) _
  have hcost : (w.store ν.symbols).heap.cost v = w.heap.cost v :=
    congrFun w.heap.cost_bare v
  have hcontrols : (w.store ν.symbols).controls = w.controls := rfl
  unfold EStateM.bind Eval.built
  rw [Exec.pushBuilt_eq, hcost, hcontrols]
  generalize w.controls.charge G.setting.ctx.limits (w.heap.cost v) = answer at hallows
  obtain ⟨answer, controls⟩ := answer
  have hlater : G.Later ν.slots w₀ { w with controls } :=
    ⟨⟨hallows, hw.fits.heap, hw.fits.globals⟩, hw.iterators, hw.spares⟩
  cases answer with
  | ok => exact .push hQ hlater
  | error e => exact .fail hlater

/-- **A value is made** as in an evaluation, or both fail for the same reason. -/
inductive Makes (G : Ground) (w₀ : World) (slots : Nat) (symbols : List Symbol) (m : Machine) :
    EStateM.Result RuntimeError State Value → EStateM.Result Stop Store Value → Prop
  | ok {v : Value} {w : World} (hv : Discipline.plain.value () v) (hw : G.Later slots w₀ w) :
    Makes G w₀ slots symbols m (.ok v ⟨m, w⟩) (.ok v (w.store symbols))
  | error {e : RuntimeError} {m' : Machine} {w : World} (hw : G.Later slots w₀ w) :
    Makes G w₀ slots symbols m (.error e ⟨m', w⟩) (.error (.failure e) (w.store symbols))

/-- **An instruction that builds a value.** -/
theorem Follows.builds {x : Eval Value} (hc : G.code.Has i) (hb : i.op.builds = true)
    (h : ∀ k w, G.Fits w → G.Makes w ν.slots ν.symbols (G.machineAt i.stop K k)
      (Exec.construct i ⟨G.machineAt i.stop vs k, w⟩) (x (w.store ν.symbols))) :
    G.Follows J N ν i.offset vs (x >>= Eval.built G.setting) ν (Atop K i.stop ([·])) := by
  refine .exec hc fun k w hw => ?_
  have hmakes := h k w hw
  rw [Exec.execute_of_builds _ hb]
  have hrun : Exec.proceed (Exec.construct i >>= Exec.pushBuilt G.setting.ctx)
      ⟨G.machineAt i.stop vs k, w⟩ =
      (Exec.construct i >>= fun v => Exec.proceed (Exec.pushBuilt G.setting.ctx v))
        ⟨G.machineAt i.stop vs k, w⟩ := by
    unfold Exec.proceed
    rw [bind_assoc]
  rw [hrun]
  show G.Answers w ν _ k (EStateM.bind _ _ _) (EStateM.bind _ _ _)
  unfold EStateM.bind
  generalize Exec.construct i ⟨G.machineAt i.stop vs k, w⟩ = r at hmakes
  generalize x (w.store ν.symbols) = r' at hmakes
  cases hmakes with
  | ok hv hw' =>
    exact .built ⟨rfl, rfl, Discipline.values_cons.mpr ⟨hv, Discipline.values_nil⟩⟩ hw'
  | error hw' => exact .fail hw'

section Counted

variable {n : Word}

theorem popN_bind (hn : n.toNat = vs.length) (f : List Value → Exec Value) :
    (Exec.popN n.toNat >>= f) ⟨G.machineAt q (vs.reverse ++ K) k, w⟩ =
      f vs ⟨G.machineAt q K k, w⟩ := by
  show EStateM.bind _ _ _ = _
  unfold EStateM.bind
  rw [hn, popN_machineAt]

/-- A list. -/
theorem Follows.buildList (hn : n.toNat = vs.length) (hc : G.code.Has ⟨p, .buildList, [n]⟩)
    (hp : Plain vs) :
    G.Follows J N ν p (vs.reverse ++ K)
      (do Eval.built G.setting (← Eval.onHeap (·.buildList vs))) ν (Atop K (p + 2) ([·])) := by
  refine .builds hc rfl fun k w hw => ?_
  have hf := Heap.blind_buildList vs
  obtain ⟨hv, hh⟩ := hw.heap.buildList hp
  show G.Makes w _ _ _ ((Exec.popN n.toNat >>= fun items => Exec.onHeap (·.buildList items)) _) _
  rw [onHeap_store hf, popN_bind hn]
  exact .ok hv (.onHeap hf hw hh _)

/-- A text of several parts. -/
theorem Follows.buildString (hn : n.toNat = vs.length)
    (hc : G.code.Has ⟨p, .buildString, [n]⟩) :
    G.Follows J N ν p (vs.reverse ++ K)
      (do Eval.built G.setting (← Eval.look fun h => .str (String.join (vs.map h.render)))) ν
      (Atop K (p + 2) ([·])) := by
  refine .builds hc rfl fun k w hw => ?_
  show G.Makes w _ _ _ ((Exec.popN n.toNat >>= fun parts => do
      return .str (← Exec.readHeap fun h => String.join (parts.map h.render))) _)
    (.ok (.str (String.join (vs.map w.heap.bare.render))) (w.store ν.symbols))
  rw [popN_bind hn, Heap.render_bare]
  exact .ok (plain_of_isData rfl) (.refl hw)

/-- A set, if the values can be its members. -/
theorem Follows.buildSet (hn : n.toNat = vs.length) (hc : G.code.Has ⟨p, .buildSet, [n]⟩) :
    G.Follows J N ν p (vs.reverse ++ K)
      (do Eval.built G.setting (← Eval.onHeapOrRaise (·.buildSet vs))) ν
      (Atop K (p + 2) ([·])) := by
  refine .builds hc rfl fun k w hw => ?_
  have hf := Heap.blind_buildSet vs
  obtain ⟨hh, hv⟩ := hw.heap.buildSet vs
  show G.Makes w _ _ _
    ((Exec.popN n.toNat >>= fun items => Exec.onHeapOrRaise (·.buildSet items)) _) _
  rw [popN_bind hn, onHeapOrRaise_machine, onHeapOrRaise_store hf]
  cases hr : (w.heap.buildSet vs).1 with
  | ok v => exact .ok (hv v hr) (.onHeap hf hw hh _)
  | error fault => exact .error (.onHeap hf hw hh _)

/-- Keys and values in turn. -/
def flat (es : List (Value × Value)) : List Value :=
  es.flatMap fun e => [e.1, e.2]

theorem length_flat (es : List (Value × Value)) : (flat es).length = es.length * 2 := by
  induction es with
  | nil => rfl
  | cons e es ih =>
    show (flat es).length + 2 = (es.length + 1) * 2
    omega

theorem pairs_flat (es : List (Value × Value)) : pairs (flat es) = es := by
  induction es with
  | nil => rfl
  | cons e es ih => exact congrArg (e :: ·) ih

theorem plain_flat {es : List (Value × Value)} (h : Plain (flat es)) : ∀ e ∈ es, Plain [e.1, e.2] :=
  fun e he v hv => h v (List.mem_flatMap.mpr ⟨e, he, hv⟩)

/-- The entries of a map are found, or the first key that is no text is refused. -/
theorem mapM_key (symbols : List Symbol) (m : Machine) (w : World) : ∀ es : List (Value × Value),
    (∃ found : List (String × Value), (∀ f ∈ found, ∃ e ∈ es, f.2 = e.2) ∧
      Exec.entriesOf (flat es) ⟨m, w⟩ = .ok found ⟨m, w⟩ ∧
      es.mapM Eval.key (w.store symbols) = .ok found (w.store symbols)) ∨
    ∃ e, Exec.entriesOf (flat es) ⟨m, w⟩ = .error e ⟨m, w⟩ ∧
      es.mapM Eval.key (w.store symbols) = .error (.failure e) (w.store symbols)
  | [] => .inl ⟨[], by simp, rfl, rfl⟩
  | (key, v) :: es => by
    have ih := mapM_key symbols m w es
    unfold Exec.entriesOf at ih ⊢
    rw [pairs_flat] at ih ⊢
    rw [List.mapM_cons, List.mapM_cons]
    cases key with
    | str s =>
      obtain ⟨found, hfrom, hrun, heval⟩ | ⟨e, hrun, heval⟩ := ih
      · refine .inl ⟨(s, v) :: found, fun f hf => ?_,
          bind_eq_ok.mpr ⟨(s, v), _, rfl, bind_eq_ok.mpr ⟨found, _, hrun, rfl⟩⟩,
          bind_eq_ok.mpr ⟨(s, v), _, rfl, bind_eq_ok.mpr ⟨found, _, heval, rfl⟩⟩⟩
        rcases List.mem_cons.mp hf with rfl | hf
        · exact ⟨_, List.mem_cons_self, rfl⟩
        · obtain ⟨e, he, hfe⟩ := hfrom f hf
          exact ⟨e, List.mem_cons_of_mem _ he, hfe⟩
      · exact .inr ⟨e, bind_eq_error.mpr (.inr ⟨(s, v), _, rfl, bind_eq_error.mpr (.inl hrun)⟩),
          bind_eq_error.mpr (.inr ⟨(s, v), _, rfl, bind_eq_error.mpr (.inl heval)⟩)⟩
    | _ => exact .inr ⟨_, bind_eq_error.mpr (.inl rfl), bind_eq_error.mpr (.inl rfl)⟩

/-- **A map**, if its keys are texts. -/
theorem Follows.buildMap {es : List (Value × Value)} (hn : n.toNat = es.length)
    (hc : G.code.Has ⟨p, .buildMap, [n]⟩) (hp : Plain (flat es)) :
    G.Follows J N ν p ((flat es).reverse ++ K)
      (do
        let found ← es.mapM Eval.key
        Eval.built G.setting (← Eval.onHeap (·.buildMap found))) ν (Atop K (p + 2) ([·])) := by
  have hassoc : (do
      let found ← es.mapM Eval.key
      Eval.built G.setting (← Eval.onHeap (·.buildMap found)) : Eval Value) =
      (es.mapM Eval.key >>= fun found => Eval.onHeap (·.buildMap found)) >>=
        Eval.built G.setting := by
    rw [bind_assoc]
  rw [hassoc]
  refine .builds hc rfl fun k w hw => ?_
  have hcount : n.toNat * 2 = (flat es).length := by rw [length_flat, hn]
  have hrun : Exec.construct ⟨p, .buildMap, [n]⟩
      ⟨G.machineAt (p + 2) ((flat es).reverse ++ K) k, w⟩ =
      (Exec.entriesOf (flat es) >>= fun found => Exec.onHeap (·.buildMap found))
        ⟨G.machineAt (p + 2) K k, w⟩ := by
    show (Exec.popN (n.toNat * 2) >>= fun items => Exec.entriesOf items >>= fun found =>
      Exec.onHeap (·.buildMap found)) _ = _
    rw [hcount]
    show EStateM.bind (Exec.popN _) _ _ = _
    unfold EStateM.bind
    rw [popN_machineAt]
  show G.Makes w _ _ _ (Exec.construct ⟨p, .buildMap, [n]⟩
    ⟨G.machineAt (p + 2) ((flat es).reverse ++ K) k, w⟩) _
  rw [hrun]
  show G.Makes w _ _ _ (EStateM.bind _ _ _) (EStateM.bind _ _ _)
  unfold EStateM.bind
  obtain ⟨found, hfrom, hfound, heval⟩ | ⟨e, hfound, heval⟩ :=
    mapM_key ν.symbols (G.machineAt (p + 2) K k) w es
  · rw [hfound, heval]
    dsimp only
    have hf := Heap.blind_buildMap found
    have hplain : ∀ f ∈ found, Discipline.plain.value () f.2 := by
      intro f hmem
      obtain ⟨e, he, hfe⟩ := hfrom f hmem
      rw [hfe]
      exact plain_flat hp e he e.2 (by simp)
    obtain ⟨hv, hh⟩ := hw.heap.buildMap hplain
    rw [onHeap_store hf]
    exact .ok hv (.onHeap hf hw hh _)
  · rw [hfound, heval]
    exact .error (.refl hw)

end Counted

/-! ### Storing and unpacking -/

/-- **An item is stored**, or the run fails. -/
theorem Follows.setItem (hc : G.code.Has ⟨p, .storeSubscr, []⟩) (hp : Plain [t, u, v]) :
    G.Follows J N ν p (t :: u :: v :: K) (Eval.onHeapOrRaise (·.setItem u t v)) ν
      (Atop K (p + 1) fun _ => []) := by
  refine .exec hc fun k w hw => ?_
  have hf := Heap.blind_setItem u t v
  have hh := hw.heap.setItem u t (hp v (by simp))
  have hrun : Exec.execute G.setting.ctx ⟨p, .storeSubscr, []⟩
      ⟨G.machineAt (p + 1) (t :: u :: v :: K) k, w⟩ =
      Exec.proceed (Exec.onHeapOrRaise (·.setItem u t v)) ⟨G.machineAt (p + 1) K k, w⟩ := rfl
  have hraise := onHeapOrRaise_machine (·.setItem u t v) (G.machineAt (p + 1) K k) w
  show G.Answers w ν _ k (Exec.execute G.setting.ctx ⟨p, .storeSubscr, []⟩
    ⟨G.machineAt (p + 1) (t :: u :: v :: K) k, w⟩) _
  rw [hrun, onHeapOrRaise_store hf]
  unfold Exec.proceed
  show G.Answers w ν _ k (EStateM.bind (Exec.onHeapOrRaise (·.setItem u t v)) _ _) _
  unfold EStateM.bind
  rw [hraise]
  cases (w.heap.setItem u t v).1 with
  | ok a => exact .next ⟨rfl, rfl, Discipline.values_nil⟩ (.onHeap hf hw hh _)
  | error fault => exact .fail (.onHeap hf hw hh _)

/-- Several values are pushed, in order. -/
theorem forM_push (items : List Value) : ∀ K : List Value,
    items.forM Exec.push ⟨G.machineAt q K k, w⟩ = .ok () ⟨G.machineAt q (items.reverse ++ K) k, w⟩ ∨
      ∃ s, items.forM Exec.push ⟨G.machineAt q K k, w⟩ = .error .stackOverflow s := by
  induction items with
  | nil => exact fun K => .inl rfl
  | cons v items ih =>
    intro K
    show EStateM.bind (Exec.push v) _ _ = _ ∨ ∃ s, EStateM.bind (Exec.push v) _ _ = _
    unfold EStateM.bind
    rw [push_machineAt]
    split
    · rename_i heq
      split at heq
      · cases heq
        rw [List.reverse_cons, List.append_assoc]
        exact ih (v :: K)
      · cases heq
    · rename_i heq
      split at heq
      · cases heq
      · cases heq
        exact .inr ⟨_, rfl⟩

/-- A look at the heap, in an evaluation. -/
theorem look_store {f : Heap → α} (hf : ∀ h : Heap, f h.bare = f h) (w : World)
    (symbols : List Symbol) : Eval.look f (w.store symbols) = .ok (f w.heap) (w.store symbols) := by
  show EStateM.Result.ok (f w.heap.bare) _ = _
  rw [hf]

/-- **The items of a list**, if there are as many as expected. -/
theorem Follows.unpack {n : Word} {count : Nat} (hn : n.toNat = count)
    (hc : G.code.Has ⟨p, .unpack, [n]⟩) :
    G.Follows J N ν p (v :: K) (Eval.unpack count v) ν
      (fun items q us => Atop K (p + 2) List.reverse items q us ∧ items.length = count) := by
  subst hn
  refine .exec hc fun k w hw => ?_
  have hrun : Exec.execute G.setting.ctx ⟨p, .unpack, [n]⟩ ⟨G.machineAt (p + 2) (v :: K) k, w⟩ =
      Exec.proceed (Exec.unpack n.toNat v) ⟨G.machineAt (p + 2) K k, w⟩ := rfl
  have hlook := look_store (f := (·.items? v)) (fun h => congrFun h.items?_bare v) w ν.symbols
  have hname := look_store (f := (·.typeName v)) (fun h => congrFun h.typeName_bare v) w ν.symbols
  show G.Answers w ν _ k (Exec.execute G.setting.ctx ⟨p, .unpack, [n]⟩
    ⟨G.machineAt (p + 2) (v :: K) k, w⟩) _
  rw [hrun, proceed_eq]
  have hread : Exec.readHeap (·.items? v) ⟨G.machineAt (p + 2) K k, w⟩ =
      .ok (w.heap.items? v) ⟨G.machineAt (p + 2) K k, w⟩ := rfl
  cases hi : w.heap.items? v with
  | none =>
    rw [hi] at hread hlook
    have hfail : Exec.unpack n.toNat v ⟨G.machineAt (p + 2) K k, w⟩ =
        .error (.typeError (.notUnpackable (w.heap.typeName v))) ⟨G.machineAt (p + 2) K k, w⟩ :=
      bind_eq_error.mpr (.inr ⟨none, _, hread, bind_eq_error.mpr (.inr ⟨_, _, rfl, rfl⟩)⟩)
    have hstop : Eval.unpack n.toNat v (w.store ν.symbols) =
        .error (.failure (.typeError (.notUnpackable (w.heap.typeName v)))) (w.store ν.symbols) :=
      bind_eq_error.mpr (.inr ⟨none, _, hlook, bind_eq_error.mpr (.inr ⟨_, _, hname, rfl⟩)⟩)
    rw [hfail, hstop]
    exact .fail (.refl hw)
  | some items =>
    rw [hi] at hread hlook
    by_cases hlen : items.length = n.toNat
    · have hpushed : Exec.unpack n.toNat v ⟨G.machineAt (p + 2) K k, w⟩ =
          items.forM Exec.push ⟨G.machineAt (p + 2) K k, w⟩ := by
        unfold Exec.unpack
        show EStateM.bind (Exec.readHeap _) _ _ = _
        unfold EStateM.bind
        rw [hread]
        exact congrFun (if_neg fun hne => hne hlen) _
      have hvalue : Eval.unpack n.toNat v (w.store ν.symbols) = .ok items (w.store ν.symbols) :=
        bind_eq_ok.mpr ⟨some items, _, hlook, congrFun (if_neg fun hne => hne hlen) _⟩
      rw [hpushed, hvalue]
      obtain hall | ⟨s, hfull⟩ := forM_push (G := G) (q := p + 2) (k := k) (w := w) items K
      · rw [hall]
        exact .next ⟨⟨rfl, rfl, (hw.heap.items? hi).reverse⟩, hlen⟩ (.refl hw)
      · rw [hfull]
        exact .full
    · have hfail : Exec.unpack n.toNat v ⟨G.machineAt (p + 2) K k, w⟩ =
          .error (.typeError (.unpackCount n.toNat items.length)) ⟨G.machineAt (p + 2) K k, w⟩ :=
        bind_eq_error.mpr (.inr ⟨some items, _, hread,
          (congrFun (if_pos hlen) _).trans rfl⟩)
      have hstop : Eval.unpack n.toNat v (w.store ν.symbols) =
          .error (.failure (.typeError (.unpackCount n.toNat items.length))) (w.store ν.symbols) :=
        bind_eq_error.mpr (.inr ⟨some items, _, hlook,
          (congrFun (if_pos hlen) _).trans rfl⟩)
      rw [hfail, hstop]
      exact .fail (.refl hw)

/-! ### Operands -/

/-- A value that is known beforehand is pushed. -/
theorem Follows.constant (us : List Value) (hc : G.code.Has i) (hv : Discipline.plain.value () v)
    (h : ∀ k w, Exec.execute G.setting.ctx i ⟨G.machineAt i.stop (us ++ K) k, w⟩ =
      Exec.proceed (Exec.push v) ⟨G.machineAt i.stop K k, w⟩) :
    G.Follows J N ν i.offset (us ++ K) (Pure.pure v) ν (Atop K i.stop ([·])) :=
  .looks (f := fun _ => v) us hc (fun _ => rfl) (fun _ _ => hv) h

/-- **The top operand is copied.** -/
theorem Follows.duplicate (hc : G.code.Has ⟨p, .copy, [0]⟩) (hv : Discipline.plain.value () v)
    (hx : G.Follows J N ν (p + 2) (v :: v :: K) x ν' Q) (hg : ν.Grows ν') :
    G.Follows J N ν p (v :: K) x ν' Q := by
  have hcopy : G.Follows J N ν p (v :: K) (Pure.pure v) ν (Atop (v :: K) (p + 2) ([·])) :=
    .constant [] hc hv fun _ _ => rfl
  have hfollows : G.Follows J N ν p (v :: K) (Pure.pure v >>= fun _ => x) ν' Q := by
    refine hcopy.yielding.bind (fun u q us hQ => ?_) (.refl ν) hg
    obtain ⟨⟨rfl, rfl, -⟩, σ, τ, hu⟩ := hQ
    obtain ⟨rfl, -⟩ := pure_eq_ok.mp hu
    exact hx
  rwa [pure_bind] at hfollows

/-- **The top operand is dropped.** -/
theorem Follows.popTop (hc : G.code.Has ⟨p, .popTop, []⟩)
    (hx : G.Follows J N ν (p + 1) K x ν' Q) : G.Follows J (N + 1) ν p (v :: K) x ν' Q :=
  .after hc (fun _ _ => rfl) hx

/-- Nothing is done. -/
theorem Follows.nop (hc : G.code.Has ⟨p, .nop, []⟩) (hx : G.Follows J N ν (p + 1) K x ν' Q) :
    G.Follows J (N + 1) ν p K x ν' Q :=
  .after hc (fun _ _ => rfl) hx

/-- The operand below the top one is dropped. -/
theorem Follows.swapPop (hc : G.code.Has ⟨p, .swap, [1]⟩) (hd : G.code.Has ⟨p + 2, .popTop, []⟩)
    (hx : G.Follows J N ν (p + 3) (v :: K) x ν' Q) :
    G.Follows J (N + 1 + 1) ν p (v :: u :: K) x ν' Q :=
  .after hc (fun _ _ => rfl) (.popTop (v := u) hd hx)

/-! ### Jumps -/

theorem jump_machineAt (hq : q ≤ G.code.size) :
    Exec.jump q ⟨G.machineAt p K k, w⟩ = .ok () ⟨G.machineAt q K k, w⟩ := by
  show (if q ≤ G.code.size then Exec.modifyFrame ({ · with ip := q })
    else throw (.internal (.jumpOutside q)) : Exec Unit) _ = _
  rw [if_pos hq]
  rfl

variable {d : Word}

/-- **A jump ahead.** -/
theorem Follows.jumpForward (hc : G.code.Has ⟨p, .jumpForward, [d]⟩) (hd : p + d.toNat = q)
    (hq : q ≤ G.code.size) (hx : G.Follows J N ν q K x ν' Q) :
    G.Follows J (N + 1) ν p K x ν' Q := by
  refine .after hc (fun k w => ?_) hx
  show Exec.proceed (Exec.jump (p + d.toNat)) _ = _
  rw [proceed_eq, hd, jump_machineAt hq]

theorem execute_jumpBackward (hc : G.code.Has ⟨p, .jumpBackward, [d]⟩) (hd : q + d.toNat = p) :
    Exec.execute G.setting.ctx ⟨p, .jumpBackward, [d]⟩ ⟨G.machineAt (p + 2) K k, w⟩ =
      .ok .next ⟨G.machineAt q K k, w⟩ := by
  have hlt : p < G.code.size := hc.offset_lt
  have hrun : Exec.jumpBack ⟨p, .jumpBackward, [d]⟩ = Exec.jump q := by
    unfold Exec.jumpBack
    show (if p < d.toNat then throw (.internal .jumpBeforeCode) >>= fun _ => Exec.jump (p - d.toNat)
      else Exec.jump (p - d.toNat) : Exec Unit) = _
    rw [if_neg (by omega), show p - d.toNat = q by omega]
  show Exec.proceed (Exec.jumpBack ⟨p, .jumpBackward, [d]⟩) _ = _
  rw [hrun, proceed_eq, jump_machineAt (by omega)]

/-- **A jump back.** -/
theorem Follows.jumpBackward (hc : G.code.Has ⟨p, .jumpBackward, [d]⟩) (hd : q + d.toNat = p)
    (hx : G.Follows J N ν q K x ν' Q) : G.Follows J (N + 1) ν p K x ν' Q :=
  .after hc (fun _ _ => execute_jumpBackward hc hd) hx

/-- **A jump that depends on the truth of the top operand.** -/
theorem Follows.jumpIf {truth : Bool}
    (hc : G.code.Has ⟨p, if truth then .popJumpForwardIfTrue else .popJumpForwardIfFalse, [d]⟩)
    (hd : p + d.toNat = q) (hq : q ≤ G.code.size) :
    G.Follows J N ν p (v :: K) (Eval.look (·.isTruthy v)) ν
      (fun b q' us => q' = (if b = truth then q else p + 2) ∧ us = K) := by
  refine .exec hc fun k w hw => ?_
  have hrun : Exec.execute G.setting.ctx
      ⟨p, if truth then .popJumpForwardIfTrue else .popJumpForwardIfFalse, [d]⟩
      ⟨G.machineAt (p + 2) (v :: K) k, w⟩ =
      Exec.proceed (if w.heap.isTruthy v == truth then Exec.jump (p + d.toNat) else Pure.pure ())
        ⟨G.machineAt (p + 2) K k, w⟩ := by
    cases truth <;> rfl
  show G.Answers w ν _ k (Exec.execute G.setting.ctx
    ⟨p, if truth then .popJumpForwardIfTrue else .popJumpForwardIfFalse, [d]⟩
    ⟨G.machineAt (p + 2) (v :: K) k, w⟩) _
  rw [hrun, look_store (fun h => congrFun h.isTruthy_bare v), proceed_eq, hd]
  by_cases hb : w.heap.isTruthy v = truth
  · rw [if_pos (beq_iff_eq.mpr hb), jump_machineAt hq]
    exact .next ⟨(if_pos hb).symm, rfl⟩ (.refl hw)
  · rw [if_neg (fun h => hb (beq_iff_eq.mp h))]
    exact .next ⟨(if_neg hb).symm, rfl⟩ (.refl hw)

end Ground

end ScriptEngine
