import ScriptEngine.Builtin.Behavior
import ScriptEngine.Proofs.Heap.Operations

/-!
# Sound activities

A builtin sees of the machine what its activity asks for. An activity is sound if whatever it asks
for and ends with obeys a discipline, provided that the answers do. Between two steps of an activity
other fibers can be at work, so an activity is sound at a stage only if it goes on soundly from
every later one.

What the functions of a host do is up to the host. An honest host makes its values from those that
it was given and from plain data, and fails with errors of its own or with those that it was told
of: whatever a discipline says, its activities keep to it. Methods and the builtins for workers and
channels are sound without any such assumption.

## Main definitions

* `ScriptEngine.Blocking.Sound`, `ScriptEngine.Activity.Sound`: sound operations that wait, and
  sound activities;
* `ScriptEngine.Host.Honest`: hosts that keep to every discipline.

## Main results

* `ScriptEngine.Blocking.Sound.round`: a round of an operation that waits keeps to a discipline;
* `ScriptEngine.Builtin.sound_activity`: the activities of builtins are sound.
-/

namespace ScriptEngine

variable {D : Discipline} {w w' : D.Stage} {h : Heap}

/-! ### Operations that wait -/

/-- An operation that waits holds nothing but values and outcomes that obey a discipline. -/
def Blocking.Sound (D : Discipline) (w : D.Stage) : Blocking → Prop
  | .send _ v _ => D.value w v
  | .receive _ _ => True
  | .join _ phase => ∀ o, phase = .store o ∨ phase = .unlock (some o) → D.outcome w o

/-- What a phase leads to obeys a discipline. -/
def Progress.Sound (D : Discipline) (w : D.Stage) : Progress → Prop
  | .done o => D.outcome w o
  | .onward next | .rest next => next.Sound D w

theorem Discipline.channel.take? {c c' : Channel} {v : Value} (hc : D.channel w c)
    (h : c.take? = some (v, c')) : D.value w v ∧ D.channel w c' := by
  unfold Channel.take? at h
  split at h
  · rename_i hb
    obtain ⟨rfl, rfl⟩ := Prod.mk.inj (Option.some.inj h)
    have hv := hc.1
    rw [hb] at hv
    exact ⟨hv _ (List.mem_cons_self ..), fun u hu => hv u (List.mem_cons_of_mem _ hu), hc.2⟩
  · rename_i ho
    obtain ⟨rfl, rfl⟩ := Prod.mk.inj (Option.some.inj h)
    have hv := hc.2
    rw [ho] at hv
    exact ⟨hv _ (List.mem_cons_self ..), hc.1, fun o hm => hv o (List.mem_cons_of_mem _ hm)⟩
  · cases h

namespace Blocking.Sound

theorem mono {b : Blocking} (hb : b.Sound D w) (hw : D.le w w') : b.Sound D w' := by
  cases b with
  | send chan v phase => exact D.mono hw hb
  | receive chan phase => trivial
  | join thread phase => exact fun o ho => (hb o ho).mono hw

theorem ifAllowed {check : Except Interrupt Unit} {next : Blocking} (hn : next.Sound D w) :
    (ifAllowed check next).Sound D w := by
  cases check with
  | ok u => exact hn
  | error i => exact D.ordinary trivial

theorem sendStep (hs : h.Sound D w) (check : Except Interrupt Unit) (chan : Ref .channel)
    {v : Value} (hv : D.value w v) (phase : SendPhase) :
    (sendStep check h chan v phase).1.Sound D w ∧
      (sendStep check h chan v phase).2.Sound D w := by
  have hc := hs.channel chan
  cases phase with
  | inspect =>
    unfold Blocking.sendStep
    dsimp only
    split
    · exact ⟨D.ordinary trivial, hs⟩
    · exact ⟨hv, hs⟩
  | check => exact ⟨ifAllowed hv, hs⟩
  | offer =>
    unfold Blocking.sendStep
    dsimp only
    split
    · refine ⟨hv, hs.setChannel chan ⟨hc.1, fun o ho => ?_⟩⟩
      rcases List.mem_append.mp ho with ho | ho
      · exact hc.2 o ho
      · obtain rfl := List.mem_singleton.mp ho
        exact hv
    · split
      · rename_i c' hput
        refine ⟨D.data rfl, hs.setChannel chan ?_⟩
        unfold Channel.put? at hput
        split at hput
        · obtain rfl := Option.some.inj hput
          exact ⟨Discipline.values_append.mpr ⟨hc.1, Discipline.values_cons.mpr
            ⟨hv, Discipline.values_nil⟩⟩, hc.2⟩
        · cases hput
      · exact ⟨hv, hs⟩
  | held ticket =>
    unfold Blocking.sendStep
    dsimp only
    split
    · exact ⟨hv, hs.setChannel chan ⟨hc.1, fun o ho => hc.2 o (List.mem_filter.mp ho).1⟩⟩
    · exact ⟨D.data rfl, hs⟩

theorem receiveStep (hs : h.Sound D w) (check : Except Interrupt Unit) (chan : Ref .channel)
    (phase : ReceivePhase) :
    (receiveStep check h chan phase).1.Sound D w ∧
      (receiveStep check h chan phase).2.Sound D w := by
  have hc := hs.channel chan
  cases phase with
  | attempt | attend =>
    unfold Blocking.receiveStep
    dsimp only
    split
    · rename_i hk
      obtain ⟨hv, hc'⟩ := hc.take? hk
      exact ⟨hv, hs.setChannel chan hc'⟩
    · exact ⟨trivial, hs⟩
  | inspect =>
    unfold Blocking.receiveStep
    dsimp only
    split
    · exact ⟨D.data rfl, hs⟩
    · exact ⟨trivial, hs⟩
  | check => exact ⟨ifAllowed trivial, hs⟩

theorem joinStep (hs : h.Sound D w) (check : Except Interrupt Unit) (thread : Ref .thread)
    {phase : JoinPhase} (hp : ∀ o, phase = .store o ∨ phase = .unlock (some o) → D.outcome w o) :
    (joinStep check h thread phase).1.Sound D w ∧
      (joinStep check h thread phase).2.Sound D w := by
  have ht := hs.thread thread
  -- a phase that holds nothing, one that is about to store, and one that is about to answer
  have hnone : ∀ {phase : JoinPhase}, (∀ o, phase ≠ .store o ∧ phase ≠ .unlock (some o)) →
      (Blocking.join thread phase).Sound D w :=
    fun hne o ho => absurd ho (not_or.mpr (hne o))
  have hstore : ∀ {o}, D.outcome w o → (Blocking.join thread (.store o)).Sound D w := by
    rintro o ho o' (h | h)
    · exact JoinPhase.store.inj h ▸ ho
    · cases h
  have hanswer : ∀ {o}, D.outcome w o → (Blocking.join thread (.unlock (some o))).Sound D w := by
    rintro o ho o' (h | h)
    · cases h
    · exact Option.some.inj (JoinPhase.unlock.inj h) ▸ ho
  cases phase with
  | check => exact ⟨ifAllowed (hnone fun o => by simp), hs⟩
  | lock =>
    unfold Blocking.joinStep
    dsimp only
    split
    · exact ⟨hnone fun o => by simp, hs⟩
    · exact ⟨hnone fun o => by simp, hs.setThread thread ht⟩
  | read =>
    unfold Blocking.joinStep
    dsimp only
    split
    · rename_i o ho
      exact ⟨hanswer (ht.2 o ho), hs⟩
    · exact ⟨hnone fun o => by simp, hs⟩
  | receive =>
    unfold Blocking.joinStep
    dsimp only
    split
    · rename_i o ho
      exact ⟨hstore (ht.1 o ho), hs.setThread thread ⟨fun o' ho' => (by cases ho'), ht.2⟩⟩
    · split
      · exact ⟨hstore (D.ordinary rfl), hs⟩
      · exact ⟨hnone fun o => by simp, hs⟩
  | store o =>
    have ho := hp o (.inl rfl)
    refine ⟨hanswer ho, hs.setThread thread ⟨ht.1, fun o' ho' => ?_⟩⟩
    obtain rfl := Option.some.inj ho'
    exact ho
  | unlock answer =>
    refine ⟨?_, hs.setThread thread ht⟩
    cases answer with
    | none => exact hnone fun o => by simp
    | some o => exact hp o (.inr rfl)

theorem joining (thread : Ref .thread) : (Blocking.joining thread).Sound D w := by
  rintro o (h | h) <;> cases h

/-- A phase keeps to a discipline. -/
theorem step {b : Blocking} (hs : h.Sound D w) (hb : b.Sound D w)
    (check : Except Interrupt Unit) :
    (b.step check h).1.Sound D w ∧ (b.step check h).2.Sound D w := by
  cases b with
  | send chan v phase => exact sendStep hs check chan hb phase
  | receive chan phase => exact receiveStep hs check chan phase
  | join thread phase => exact joinStep hs check thread hb

theorem phases (check : Except Interrupt Unit) : ∀ (n : Nat) {h : Heap} {b : Blocking},
    h.Sound D w → b.Sound D w →
    (Blocking.phases check n h b).1.Sound D w ∧ (Blocking.phases check n h b).2.Sound D w
  | 0, _, _, hs, hb => ⟨hb, hs⟩
  | n + 1, h, b, hs, hb => by
    obtain ⟨hp, hs'⟩ := hb.step hs check
    unfold Blocking.phases
    split
    · rename_i heq
      rw [heq] at hp hs'
      exact phases check n hs' hp
    · exact ⟨hp, hs'⟩

/-- **A round keeps to a discipline.** -/
theorem round {b : Blocking} (hs : h.Sound D w) (hb : b.Sound D w)
    (check : Except Interrupt Unit) :
    (b.round check h).1.Sound D w ∧ (b.round check h).2.Sound D w :=
  phases check 6 hs hb

end Blocking.Sound

/-! ### Activities -/

/-- **Sound activities.** -/
def Activity.Sound (D : Discipline) : Activity → D.Stage → Prop
  | .finish o, w => D.outcome w o
  | .heap act next, w => ∀ w', D.le w w' → ∀ h : Heap, h.Sound D w' →
      (act h).2.Sound D w' ∧ (next (act h).1).Sound D w'
  | .limit _ next, w => ∀ answer, (next answer).Sound D w
  | .cancel next, w => next.Sound D w
  | .call callee args next, w => D.value w callee ∧ D.values w args ∧
      ∀ w', D.le w w' → ∀ o, D.outcome w' o → (next o).Sound D w'
  | .spawn callee args next, w => D.value w callee ∧ D.values w args ∧
      ∀ r, (next (.thread r)).Sound D w
  | .block operation next, w => operation.Sound D w ∧
      ∀ w', D.le w w' → ∀ o, D.outcome w' o → (next o).Sound D w'

namespace Activity.Sound

theorem mono {a : Activity} (h : a.Sound D w) (hw : D.le w w') : a.Sound D w' := by
  induction a with
  | finish o => exact Discipline.outcome.mono h hw
  | heap act next => exact fun w'' hw'' => h w'' (D.trans hw hw'')
  | limit query next ih => exact fun answer => ih answer (h answer)
  | cancel next ih => exact ih h
  | call callee args next =>
    obtain ⟨hc, ha, h⟩ := h
    exact ⟨D.mono hw hc, ha.mono hw, fun w'' hw'' => h w'' (D.trans hw hw'')⟩
  | spawn callee args next ih =>
    obtain ⟨hc, ha, h⟩ := h
    exact ⟨D.mono hw hc, ha.mono hw, fun r => ih _ (h r)⟩
  | block operation next =>
    obtain ⟨hb, h⟩ := h
    exact ⟨hb.mono hw, fun w'' hw'' => h w'' (D.trans hw hw'')⟩

theorem value {v : Value} (hv : D.value w v) : (Activity.value v).Sound D w :=
  hv

theorem fail {e : RuntimeError} (he : e.IsOrdinary) : (Activity.fail e).Sound D w :=
  D.ordinary he

/-- A step on the heap that yields what obeys a discipline. -/
theorem effect {act : Heap → Value × Heap}
    (ha : ∀ w', D.le w w' → ∀ h : Heap, h.Sound D w' → D.Yields w' (act h)) :
    (Activity.effect act).Sound D w := by
  intro w' hw h hs
  obtain ⟨hv, hs'⟩ := ha w' hw h hs
  exact ⟨hs', hv⟩

/-- A look at the heap that shows data. -/
theorem read {look : Heap → Value} (hl : ∀ h, (look h).isData = true) :
    (Activity.read look).Sound D w :=
  effect fun _ _ h hs => hs.yields (hl h)

/-- An operation that waits, and nothing after it. -/
theorem await {b : Blocking} (hb : b.Sound D w) : (Activity.await b).Sound D w :=
  ⟨hb, fun _ _ _ ho => ho⟩

theorem takes {callable : String} {expected : Nat} {args : List Value} {a : Activity}
    (ha : a.Sound D w) : (Activity.takes callable expected args a).Sound D w := by
  unfold Activity.takes
  split
  · exact ha
  · exact fail trivial

end Activity.Sound

/-! ### Methods -/

theorem Entries.values_eq (m : Entries) : m.values = m.toList.map Prod.snd := by
  have h : m.values = m.foldr (fun _ v vs => v :: vs) [] := rfl
  rw [h, Std.TreeMap.foldr_eq_foldr_toList]
  induction m.toList with
  | nil => rfl
  | cons e es ih => simp only [List.foldr_cons, List.map_cons, ih]

/-- **The activities of methods are sound.** -/
theorem Method.sound_activity (m : Method) {args : List Value} (ha : D.values w args) :
    (m.activity args).Sound D w := by
  have append : ∀ (r : Ref .list), (Activity.effect fun h =>
      (.list r, h.modifyList r (· ++ args.toArray))).Sound D w := fun r =>
    .effect fun w' hw h hs => ⟨D.data rfl, hs.modifyList r fun xs hx => by
      rw [Array.toList_append]
      exact Discipline.values_append.mpr ⟨hx, ha.mono hw⟩⟩
  cases m with
  | append r => exact append r
  | pop r => exact .takes (.effect fun _ _ h hs => hs.popList r)
  | listLength r => exact .takes (.read fun h => h.isData_length _)
  | keys r =>
    refine .takes (.effect fun _ _ h hs => hs.buildList fun v hv => ?_)
    obtain ⟨k, -, rfl⟩ := List.mem_map.mp hv
    exact D.data rfl
  | values r =>
    refine .takes (.effect fun _ _ h hs => hs.buildList fun v hv => ?_)
    rw [Entries.values_eq] at hv
    obtain ⟨⟨k, u⟩, hu, rfl⟩ := List.mem_map.mp hv
    exact hs.map_toList r hu
  | get r =>
    show (Method.getActivity r args).Sound D w
    unfold Method.getActivity
    split
    · exact .effect fun _ _ h hs => hs.withString _ _ fun key => hs.getOr r (D.data rfl) key
    · rename_i key other
      exact .effect fun _ hw h hs => hs.withString _ _ fun key =>
        hs.getOr r (D.mono hw (ha other (by simp))) key
    · exact .fail trivial
  | delete r =>
    refine .takes (.effect fun _ _ h hs => hs.withString _ _ fun key =>
      ⟨D.data rfl, hs.modifyMap r fun m hm k v hv => ?_⟩)
    rw [Std.TreeMap.getElem?_erase] at hv
    split at hv
    · cases hv
    · exact hm k v hv
  | upper s | lower s => exact .takes (.value (D.data rfl))
  | split s =>
    refine .takes (.effect fun _ _ h hs => hs.withString _ _ fun separator =>
      hs.buildList fun v hv => ?_)
    obtain ⟨t, -, rfl⟩ := List.mem_map.mp hv
    exact D.data rfl
  | contains s => exact .takes (.effect fun _ _ h hs => hs.withString _ _ fun sub => hs.yields rfl)
  | message e => exact .takes (.value (D.data rfl))
  | wait r => exact .takes (.await (.joining r))
  | send r => exact .takes (.await ha.headD)
  | receive r => exact .takes (.await trivial)
  | close r =>
    exact .takes (.effect fun _ _ h hs => ⟨D.data rfl, hs.setChannel r (hs.channel r)⟩)
  | chanLength r => exact .takes (.read fun h => h.isData_length _)

/-! ### Builtins -/

/-- **Hosts that keep to a discipline**: their activities do if the values do that the host is
given. -/
def Host.Keeps (D : Discipline) (host : Host) : Prop :=
  ∀ (w : D.Stage) (key : String) (captured args : List Value),
    D.values w captured → D.values w args → (host.behave key captured args).Sound D w

/-- **Honest hosts.** Whatever a discipline says of values and errors, the activities of the host
keep to it if the values do that the host is given. -/
def Host.Honest (host : Host) : Prop :=
  ∀ (D : Discipline) (w : D.Stage) (key : String) (captured args : List Value),
    D.values w captured → D.values w args → (host.behave key captured args).Sound D w

/-- An honest host keeps to every discipline. -/
theorem Host.Honest.keeps {host : Host} (hh : host.Honest) (D : Discipline) : host.Keeps D :=
  hh D

/-- **The activities of builtins are sound.** -/
theorem Builtin.sound_activity {host : Host} (hh : host.Keeps D) {b : Builtin}
    (hb : D.builtin w b) {args : List Value} (ha : D.values w args) :
    (b.activity host args).Sound D w := by
  unfold Builtin.activity
  split
  · exact Method.sound_activity _ ha
  · cases args with
    | nil => exact Activity.Sound.fail trivial
    | cons callee args =>
      obtain ⟨hc, ha⟩ := Discipline.values_cons.mp ha
      simp only [spawnActivity]
      split
      · exact ⟨hc, ha, fun r => D.data rfl⟩
      · exact Activity.Sound.read fun h => rfl
  · have make : ∀ capacity : Nat, (Activity.effect fun h =>
        (.chan (h.newChannel capacity).1, (h.newChannel capacity).2)).Sound D w := fun capacity =>
      .effect fun _ _ h hs => ⟨D.data rfl, hs.newChannel capacity⟩
    unfold channelActivity
    dsimp only
    split
    · exact make 0
    · split
      · split
        · exact make _
        · exact .read fun h => rfl
      · exact .read fun h => rfl
    · exact .fail trivial
  · rename_i key captured he
    exact hh w key captured args (hb key captured he) ha

end ScriptEngine
