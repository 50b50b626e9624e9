import ScriptEngine.Proofs.Evaluation.Carries
import ScriptEngine.Proofs.Heap.Sequences

/-!
# Loops that follow an evaluation

The rounds of a loop begin at one offset with the same operands, so that a run follows all rounds if
it follows one. A break and a continue drop what lies above these operands. A loop over a container
has an iterator among its operands, of which the evaluation knows nothing but the entries that are
left.

## Main results

* `ScriptEngine.Ground.Carries.leave`: a break or a continue;
* `ScriptEngine.Ground.Follows.round`: a round of a loop;
* `ScriptEngine.Ground.Follows.loop`: a loop, by induction on the number of rounds;
* `ScriptEngine.Ground.Ends.eachEntry`: a loop over entries, by induction on what is left of them.
-/

namespace ScriptEngine

open ScopeTable

namespace Ground

variable {G : Ground} {α β γ : Type} {n N : Nat} {S : Site} {busy : Bool} {C C' : Chain}
  {l l' : Layer} {a b m m' : Point} {ν ν' ν₁ ν₂ : Names} {J : Option Escape} {v : Value}
  {vs K : List Value} {x : Eval α} {out : α → List Value} {p q : Plan} {name : String}

/-! ### Breaks and continues -/

/-- A break or a continue that has arrived. -/
theorem Follows.leave {j : Escape} (isBreak : Bool) {Q : α → Nat → List Value → Prop} :
    G.Follows (some j) N ν (j.target isBreak) j.operands (throw (.leave isBreak) : Eval α) ν' Q :=
  fun k _ hw => .refl ⟨j, [], k, rfl, rfl, rfl, .refl hw⟩

/-- What drops operands declares nothing. -/
theorem drops_table : ∀ {count : Nat} {m m' : Point}, S.Drops count m m' → m'.table = m.table
  | 0, _, _, hd => congrArg Point.table hd
  | _ + 1, _, _, ⟨_, hat, hd⟩ => (drops_table hd).trans hat.table

/-- Operands are dropped one by one. -/
theorem Stage.drops (hs : G.Stage S C a b) {Q : α → Nat → List Value → Prop} :
    ∀ (dropped : List Value) {m m' : Point}, S.Drops dropped.length m m' →
      G.Follows J N ν m'.offset K x ν' Q → G.Follows J N ν m.offset (dropped ++ K) x ν' Q
  | [], _, _, hd, hx => by
    obtain rfl := hd
    exact hx
  | v :: dropped, m, _, hd, hx => by
    obtain ⟨m₁, hat, hd⟩ := hd
    have hnext := hs.drops dropped hd hx
    obtain rfl := hat.2.2
    exact (Follows.popTop (v := v) (hs.has hat) hnext).mono (Nat.le_succ N) fun _ _ _ h => h

/-- **A break or a continue** drops the operands that its loop does not have, and jumps. -/
theorem Carries.leave {isBreak : Bool} (hs : G.Stage S C a b)
    (hl : (Plan.leave isBreak).Laid S a b) :
    G.Carries n S false C C a b (throw (.leave isBreak) : Eval α) out := by
  obtain ⟨e, hexits, m, hdrops, d, hat, hd, -⟩ := hl
  obtain ⟨hexit, hnext⟩ := hs.exits e hexits
  have htarget : (if isBreak then e.exit else e.next) ≤ G.code.size := by
    cases isBreak
    · exact hnext
    · exact hexit
  have htable : b.table = a.table := hat.table.trans (drops_table hdrops)
  refine ⟨htable ▸ hs.opens, htable ▸ .refl _, fun J K he => htable ▸ ?_⟩
  obtain ⟨dropped, left, rfl, hlength, rfl⟩ := he rfl e hexits
  refine hs.drops dropped (hlength ▸ hdrops) ?_
  exact (Follows.jumpForward (hs.has hat) hd htarget
    (Follows.leave (j := ⟨e.exit, e.next, left⟩) isBreak)).mono (Nat.le_succ n) fun _ _ _ h => h

/-! ### Rounds -/

/-- **A round of a loop.** After its end as well as after a continue, the run goes on behind the
code that drops the value of the round, and elsewhere after a break. -/
theorem Follows.round {x : Eval Value} {exit p q : Nat}
    (h : G.Follows (some ⟨exit, q + 1, K⟩) N ν p vs x ν' (Atop K q ([·]))) (hg : ν.Grows ν')
    (hpop : G.code.Has ⟨q, .popTop, []⟩) :
    G.Follows J N ν p vs (Eval.round (Eval.inScope x)) ⟨ν.symbols, ν'.slots⟩
      fun more r us => r = (if more then q + 1 else exit) ∧ us = K := by
  intro k w hw
  have hends := h k w hw
  unfold Eval.round Eval.inScope
  match x (w.store ν.symbols), hends with
  | .ok v τ, hends =>
    refine Comes.bind hends fun F' w' => ?_
    rintro ⟨q', us, k', rfl, ⟨rfl, rfl, -⟩, rfl, hw'⟩
    obtain ⟨-, δ, hδ, -⟩ := hg
    have hstep := step_fiber ([v] ++ K) k' hpop hw'.fits.allows
    exact Comes.of_step hstep (.refl ⟨_, _, _, rfl, ⟨rfl, rfl⟩, by rw [hδ, cut_store], hw'⟩)
  | .error (.leave isBreak) τ, hends =>
    -- a break and a continue lead where the round ends, out of whatever was declared there
    refine Comes.mono hends (Nat.le_refl 0) fun F' w' => ?_
    rintro ⟨j, δ, k', hj, rfl, rfl, hw'⟩
    obtain rfl := Option.some.inj hj
    refine ⟨_, _, k', rfl, ⟨?_, rfl⟩, cut_store .., hw'⟩
    cases isBreak <;> rfl
  | .error (.failure e) τ, hends =>
    refine Comes.mono hends (Nat.le_refl 0) fun F' w' => ?_
    rintro ⟨ε, δ, hF, -, rfl, -, hw'⟩
    exact ⟨[], [], hF, rfl, cut_store .., fun s hs => absurd hs List.not_mem_nil, hw'⟩
  | .error .unfinished τ, hends => exact hends

/-- **A loop.** Every round begins at the same offset, and takes at least one step. -/
theorem Follows.loop {condition : Eval Bool} {body : Eval Value} {post : Eval Unit}
    {start inner next back exit : Nat} {d : Word} {Q : Unit → Nat → List Value → Prop}
    (hcondition : G.Follows J n ν start K condition ν
      fun yes q us => q = (if yes then inner else exit) ∧ us = K)
    (hround : G.Follows J n ν inner K (Eval.round body) ν
      fun more q us => q = (if more then next else exit) ∧ us = K)
    (hpost : G.Follows J n ν next K post ν fun _ q us => q = back ∧ us = K)
    (hback : G.code.Has ⟨back, .jumpBackward, [d]⟩) (hd : start + d.toNat = back)
    (hexit : G.Follows J n ν exit K (Pure.pure ()) ν Q) :
    ∀ rounds ≤ n, G.Follows J rounds ν start K (Eval.loop condition body post rounds) ν Q
  | 0, _ => .unfinished
  | rounds + 1, hle => by
    have hrest := Follows.loop hcondition hround hpost hback hd hexit rounds (Nat.le_of_succ_le hle)
    have hleave := hexit.mono hle fun _ _ _ h => h
    refine (hcondition.mono hle fun _ _ _ h => h).bind (fun yes q us hQ => ?_) (.refl ν) (.refl ν)
    obtain ⟨rfl, rfl⟩ := hQ
    cases yes with
    | false => exact hleave
    | true =>
      refine (hround.mono hle fun _ _ _ h => h).bind (fun more q us hQ => ?_) (.refl ν) (.refl ν)
      obtain ⟨rfl, rfl⟩ := hQ
      cases more with
      | false => exact hleave
      | true =>
        refine (hpost.mono hle fun _ _ _ h => h).bind (fun _ q us hQ => ?_) (.refl ν) (.refl ν)
        obtain ⟨rfl, rfl⟩ := hQ
        exact .jumpBackward hback hd hrest

/-! ### Loops over entries -/

/-- **The names of a loop are declared** for values that are there, the first one on top. -/
theorem Stage.bindings : ∀ {names : List String} {l : Layer} {a b m : Point},
    G.Stage S (l :: C) a m →
    (Plan.bindings names).Laid S a b → ∃ l', G.Opens S.scope (l' :: C) b.table ∧
      (a.table.visible (l :: C)).Grows (b.table.visible (l' :: C)) ∧
      ∀ (J : Option Escape) (K vs : List Value), vs.length = names.length → Plain vs →
        G.Follows J n (a.table.visible (l :: C)) a.offset (vs ++ K)
          ((names.zip vs).forM fun x =>
            if x.1 = "_" then return else Eval.declare x.1 x.2)
          (b.table.visible (l' :: C)) fun _ q us => q = b.offset ∧ us = K
  | [], l, a, b, _, hs, hl => by
    obtain rfl := hl
    refine ⟨l, hs.opens, .refl _, fun J K vs hlength _ => ?_⟩
    obtain rfl := List.length_eq_zero_iff.mp hlength
    exact .pure () ⟨rfl, rfl⟩
  | name :: names, l, a, b, _, hs, hl => by
    obtain ⟨m, hfirst, hrest⟩ := hl
    by_cases hname : name = "_"
    · rw [if_pos hname] at hfirst
      have hat : S.At a .popTop [] m := hfirst
      obtain rfl := hat.2.2
      obtain ⟨l', hopens, hgrows, hfollows⟩ :=
        Stage.bindings (hs.onward (m := a.skip 1) hs.opens) hrest
      refine ⟨l', hopens, hgrows, fun J K vs hlength hvs => ?_⟩
      obtain ⟨v, vs, rfl⟩ := List.exists_cons_of_length_eq_add_one hlength
      have hnext := hfollows J K vs (Nat.succ.inj hlength) (Discipline.values_cons.mp hvs).2
      show G.Follows J n _ _ (v :: (vs ++ K))
          ((if name = "_" then pure () else Eval.declare name v) >>=
        fun _ => (names.zip vs).forM _) _ _
      rw [if_pos hname, pure_bind]
      exact (Follows.popTop (hs.has hat) hnext).mono (Nat.le_succ n) fun _ _ _ h => h
    · rw [if_neg hname] at hfirst
      obtain ⟨symbol, t, hd, hset⟩ := hfirst
      obtain ⟨hopens, hgrows, hdeclare⟩ := hs.declare (n := n) hd hset
      obtain ⟨l', hopens', hgrows', hfollows⟩ := Stage.bindings (hs.onward hopens) hrest
      refine ⟨l', hopens', hgrows.trans hgrows', fun J K vs hlength hvs => ?_⟩
      obtain ⟨v, vs, rfl⟩ := List.exists_cons_of_length_eq_add_one hlength
      obtain ⟨hv, hvs⟩ := Discipline.values_cons.mp hvs
      show G.Follows J n _ _ (v :: (vs ++ K))
          ((if name = "_" then pure () else Eval.declare name v) >>=
        fun _ => (names.zip vs).forM _) _ _
      rw [if_neg hname]
      refine (hdeclare J (vs ++ K) v hv).bind (fun _ q us hQ => ?_) hgrows hgrows'
      obtain ⟨rfl, rfl, -⟩ := hQ
      exact hfollows J K vs (Nat.succ.inj hlength) hvs

/-- What a loop with a number of names takes of an entry, first the value of the first name. -/
def taken (count : Nat) (e : Value × Value) : List Value :=
  [e.1, e.2].take count

section Entries

variable {it : Ref .iterator} {w w₀ w₁ : World} {k : UInt32} {p count target : Nat} {d : Word}
  {e : Value × Value} {h : Heap} {i : Iterator}

/-- A step on the heap, in a run. -/
theorem onHeap_machine {f : Heap → α × Heap} {m : Machine} {r : α} (hf : f w.heap = (r, h)) :
    Exec.onHeap f ⟨m, w⟩ = .ok r ⟨m, { w with heap := h }⟩ := by
  show EStateM.Result.ok (f w.heap).1 (State.mk m { w with heap := (f w.heap).2 }) = _
  rw [hf]

theorem peek_machineAt : Exec.peek 0 ⟨G.machineAt p (v :: K) k, w⟩ =
    .ok v ⟨G.machineAt p (v :: K) k, w⟩ :=
  rfl

theorem pop_machineAt : Exec.pop ⟨G.machineAt p (v :: K) k, w⟩ = .ok v ⟨G.machineAt p K k, w⟩ :=
  rfl

/-- **What a loop takes of the next entry** is pushed. -/
theorem iteration_next (hcount : count ≤ 2) (hnext : w.heap.next it = (some e, h)) {r : Nat} :
    Exec.iteration ⟨r, .forIter, [d, count.toUInt16]⟩ ⟨G.machineAt p (.iter it :: K) k, w⟩ =
      (taken count e).reverse.forM Exec.push
        ⟨G.machineAt p (.iter it :: K) k, { w with heap := h }⟩ := by
  have hsecond (u : Word) : Instruction.second ⟨r, .forIter, [d, u]⟩ = u := rfl
  unfold Exec.iteration
  rw [bind_of_ok peek_machineAt]
  dsimp only
  rw [bind_of_ok (onHeap_machine hnext)]
  obtain ⟨key, v⟩ := e
  dsimp only
  rw [hsecond]
  obtain rfl | rfl | rfl : count = 0 ∨ count = 1 ∨ count = 2 := by omega
  · rfl
  · rw [if_neg (show ¬(2 : Word) ≤ Nat.toUInt16 1 by decide),
      if_pos (show (1 : Word) ≤ Nat.toUInt16 1 by decide)]
    show Exec.push key _ = (Exec.push key >>= fun _ => pure ()) _
    rw [bind_pure_unit]
  · rw [if_pos (show (2 : Word) ≤ Nat.toUInt16 2 by decide),
      if_pos (show (1 : Word) ≤ Nat.toUInt16 2 by decide)]
    show (Exec.push v >>= fun _ => Exec.push key) _ =
      (Exec.push v >>= fun _ => Exec.push key >>= fun _ => pure ()) _
    rw [bind_pure_unit]

/-- **After the last entry** the iterator is dropped, and the loop is left. -/
theorem iteration_last {r : Nat} (hnext : w.heap.next it = (none, w.heap))
    (hd : r + d.toNat = target)
    (ht : target ≤ G.code.size) {u : Word} :
    Exec.iteration ⟨r, .forIter, [d, u]⟩ ⟨G.machineAt p (.iter it :: K) k, w⟩ =
      .ok () ⟨G.machineAt target K k, w⟩ := by
  unfold Exec.iteration
  rw [bind_of_ok peek_machineAt]
  dsimp only
  rw [bind_of_ok (onHeap_machine hnext)]
  dsimp only
  rw [bind_of_ok pop_machineAt]
  show Exec.jump (r + d.toNat) ⟨G.machineAt p K k, w⟩ = _
  rw [hd, jump_machineAt ht]

/-- The world in which an iterator has moved on. -/
theorem Later.next (hw : G.Later ν.slots w₀ w) (hit : w₀.heap.iterators.size ≤ it.index)
    (hnext : w.heap.next it = (some e, h)) :
    Plain [e.1, e.2] ∧ G.Later ν.slots w₀ { w with heap := h } ∧
      ({ w with heap := h } : World).store ν.symbols = w.store ν.symbols := by
  obtain ⟨hsound, hplain⟩ := hw.fits.heap.next it
  rw [hnext] at hsound hplain
  have hset : h = w.heap.setIterator it { w.heap.iterator it with
      position := (w.heap.iterator it).position + 1 } := by
    unfold Heap.next at hnext
    dsimp only at hnext
    split at hnext
    · exact (Prod.mk.inj hnext).2.symm
    · cases hnext
  obtain ⟨hkey, hv⟩ := hplain e.1 e.2 rfl
  refine ⟨Discipline.values_cons.mpr ⟨hkey, Discipline.values_cons.mpr ⟨hv, Discipline.values_nil⟩⟩,
    ⟨⟨hw.fits.allows, hsound, hw.fits.globals⟩, ?_, hw.spares⟩, ?_⟩
  · obtain ⟨newer, hnewer⟩ := hw.iterators
    subst hset
    show _ <+: (w.heap.iterators.setIfInBounds it.index _).toList
    rw [Array.toList_setIfInBounds, ← hnewer, List.set_append_right _ _ hit]
    exact List.prefix_append ..
  · subst hset
    rfl

/-- **A loop over entries**, by induction on those that are left. -/
theorem Ends.eachEntry {names : List String} {body : Eval Value}
    {start inner next exit target : Nat}
    {u : Word} {Q : Unit → Nat → List Value → Prop} (hnames : names.length ≤ 2)
    (hadvance : G.code.Has ⟨start, .forIter, [d, names.length.toUInt16]⟩)
    (hd : start + d.toNat = target) (ht : target ≤ G.code.size)
    (hround : ∀ e : Value × Value, Plain [e.1, e.2] →
      G.Follows J n ν inner (taken names.length e ++ .iter it :: K)
        (Eval.round (Eval.inScope (do Eval.bindEntry names e; body))) ν
        fun more q us => q = (if more then next else exit) ∧ us = .iter it :: K)
    (hinner : inner = start + 3) (hback : G.code.Has ⟨next, .jumpBackward, [u]⟩)
    (hu : start + u.toNat = next) (hpop : G.code.Has ⟨exit, .popTop, []⟩)
    (hexit : target = exit + 1)
    (hend : G.Follows J n ν target K (pure ()) ν Q) (hit : w₀.heap.iterators.size ≤ it.index) :
    ∀ (rest : List (Value × Value)) {i : Iterator} {w : World} {k : UInt32}, G.Later ν.slots w₀ w →
      w.heap.iterators[it.index]? = some i → i.entries.toList.drop i.position = rest →
      G.Ends J n w₀ ν.symbols ν Q (G.fiber start (.iter it :: K) k) w
        (Eval.eachEntry names body rest (w.store ν.symbols))
  | [], i, w, k, hw, hi, hrest => by
    have hnone : i.entries[i.position]? = none := by
      rw [← Array.getElem?_toList]
      exact List.getElem?_eq_none (List.drop_eq_nil_iff.mp hrest)
    have hnext := Heap.next_of_none ((Heap.next_of_iterator hi).1.trans hnone)
    have hrun : Exec.execute G.setting.ctx ⟨start, .forIter, [d, names.length.toUInt16]⟩
        ⟨G.machineAt (start + 3) (.iter it :: K) (k + 1), w⟩ =
        .ok .next ⟨G.machineAt target K (k + 1), w⟩ := by
      show Exec.proceed (Exec.iteration ⟨start, .forIter, [d, names.length.toUInt16]⟩) _ = _
      rw [proceed_eq, iteration_last hnext hd ht]
    exact .after hadvance hw.fits hrun ((hend (k + 1) w hw.fits).rebase hw (δ := []) rfl (.refl ν))
  | e :: rest, i, w, k, hw, hi, hrest => by
    have hsome : i.entries[i.position]? = some e := by
      have h₀ : (i.entries.toList.drop i.position)[0]? = some e := by rw [hrest]; rfl
      rwa [List.getElem?_drop, Nat.add_zero, Array.getElem?_toList] at h₀
    obtain ⟨hfirst, hafter⟩ := Heap.next_of_iterator hi
    obtain ⟨h, hnext⟩ : ∃ h, w.heap.next it = (some e, h) :=
      ⟨(w.heap.next it).2, Prod.ext (hfirst.trans hsome) rfl⟩
    obtain ⟨hplain, hlater, hstore⟩ := hw.next hit hnext
    have hrun : Exec.execute G.setting.ctx ⟨start, .forIter, [d, names.length.toUInt16]⟩
        ⟨G.machineAt (start + 3) (.iter it :: K) (k + 1), w⟩ =
        Exec.proceed ((taken names.length e).reverse.forM Exec.push)
          ⟨G.machineAt (start + 3) (.iter it :: K) (k + 1), { w with heap := h }⟩ := by
      show Exec.proceed (Exec.iteration ⟨start, .forIter, [d, names.length.toUInt16]⟩) _ = _
      rw [proceed_eq, proceed_eq, iteration_next hnames hnext]
    obtain hpushed | ⟨s, hfull⟩ := forM_push (G := G) (q := start + 3) (k := k + 1)
      (w := { w with heap := h }) (taken names.length e).reverse (.iter it :: K)
    · rw [proceed_eq, hpushed, List.reverse_reverse] at hrun
      refine .after hadvance hw.fits hrun ?_
      subst hinner
      have hx := hround e hplain (k + 1) _ hlater.fits
      rw [← hstore]
      show G.Ends J n w₀ ν.symbols ν Q _ _ ((Eval.round _ >>= fun more =>
        if more then Eval.eachEntry names body rest else pure ()) _)
      refine hx.andThen (hx.rebase hlater (δ := []) rfl (.refl ν)) (fun more q us k' w' hQ hl => ?_)
        (.refl ν)
      obtain ⟨rfl, rfl⟩ := hQ
      have hlater' := hlater.trans hl (Nat.le_refl ν.slots)
      cases more with
      | false =>
        -- after a break the iterator is still there
        have hdrop : G.Follows J n ν exit (.iter it :: K) (pure ()) ν Q :=
          (Follows.popTop hpop (hexit ▸ hend)).mono (Nat.le_succ n) fun _ _ _ h => h
        exact (hdrop k' w' hlater'.fits).rebase hlater' (δ := []) rfl (.refl ν)
      | true =>
        refine .after hback hlater'.fits (execute_jumpBackward hback hu) ?_
        have hi' := hafter e h hnext
        refine Ends.eachEntry hnames hadvance hd ht hround rfl hback hu hpop hexit hend
          hit rest hlater'
          (i := { i with position := i.position + 1 }) ?_ ?_
        · obtain ⟨newer, hnewer⟩ := hl.iterators
          have hlt := (Array.getElem?_eq_some_iff.mp hi').1
          rw [← Array.getElem?_toList, ← hnewer, List.getElem?_append_left (by simpa using hlt),
            Array.getElem?_toList, hi']
        · rw [← List.drop_drop, hrest]
          rfl
    · rw [proceed_eq, hfull] at hrun
      exact .overflow hadvance hw.fits hrun

theorem startIteration_some (hr : w.heap.iterate v = (some it, h)) :
    Exec.startIteration ⟨G.machineAt p (v :: K) k, w⟩ =
      Exec.push (.iter it) ⟨G.machineAt p K k, { w with heap := h }⟩ := by
  unfold Exec.startIteration
  rw [bind_of_ok pop_machineAt, bind_of_ok (onHeap_machine hr)]

theorem startIteration_none (hr : w.heap.iterate v = (none, w.heap)) :
    Exec.startIteration ⟨G.machineAt p (v :: K) k, w⟩ =
      .error (.typeError (.notIterable (w.heap.typeName v))) ⟨G.machineAt p K k, w⟩ := by
  unfold Exec.startIteration
  rw [bind_of_ok pop_machineAt, bind_of_ok (onHeap_machine hr)]
  rfl

/-- **A loop over the entries of a value**, if it has any. -/
theorem Follows.each {names : List String} {body : Eval Value} {Q : Unit → Nat → List Value → Prop}
    (hget : G.code.Has ⟨p, .getIter, []⟩) (hv : Discipline.plain.value () v)
    (heach : ∀ {it : Ref .iterator} {w₀ w : World} {k : UInt32} {rest : List (Value × Value)}
      {i : Iterator}, w₀.heap.iterators.size ≤ it.index → G.Later ν.slots w₀ w →
        w.heap.iterators[it.index]? = some i → i.entries.toList.drop i.position = rest →
        G.Ends J n w₀ ν.symbols ν Q (G.fiber (p + 1) (.iter it :: K) k) w
          (Eval.eachEntry names body rest (w.store ν.symbols))) :
    G.Follows J n ν p (v :: K) (do Eval.eachEntry names body (← Eval.entriesOf v)) ν Q := by
  intro k w hw
  have hlook := look_store (f := (·.entries? v)) (fun h => congrFun h.entries?_bare v) w ν.symbols
  have hrun : Exec.execute G.setting.ctx ⟨p, .getIter, []⟩
      ⟨G.machineAt (p + 1) (v :: K) (k + 1), w⟩ =
      Exec.proceed Exec.startIteration ⟨G.machineAt (p + 1) (v :: K) (k + 1), w⟩ := rfl
  rw [proceed_eq] at hrun
  cases he : w.heap.entries? v with
  | none =>
    have hiterate : w.heap.iterate v = (none, w.heap) := by
      unfold Heap.iterate
      split
      · rename_i r
        exact absurd rfl (hv r)
      · rw [he]
    have hname := look_store (f := (·.typeName v)) (fun h => congrFun h.typeName_bare v) w ν.symbols
    have hstop : (Eval.entriesOf v >>= Eval.eachEntry names body) (w.store ν.symbols) =
        .error (.failure (.typeError (.notIterable (w.heap.typeName v)))) (w.store ν.symbols) :=
      bind_eq_error.mpr (.inl (bind_eq_error.mpr (.inr ⟨none, _, he ▸ hlook,
        bind_eq_error.mpr (.inr ⟨_, _, hname, rfl⟩)⟩)))
    rw [startIteration_none hiterate] at hrun
    rw [hstop]
    exact .fails hget hw hrun
  | some entries =>
    have hvalue : Eval.entriesOf v (w.store ν.symbols) = .ok entries.toList (w.store ν.symbols) :=
      bind_eq_ok.mpr ⟨some entries, _, he ▸ hlook, rfl⟩
    have hiterate : w.heap.iterate v =
        (some ⟨w.heap.iterators.size⟩, (w.heap.newIterator { entries }).2) := by
      unfold Heap.iterate
      split
      · rename_i r
        exact absurd rfl (hv r)
      · rw [he]
        rfl
    rw [startIteration_some hiterate, push_machineAt] at hrun
    rw [bind_of_ok hvalue]
    by_cases hroom : K.length < G.machine.stack.limit
    · rw [if_pos hroom] at hrun
      have hsound := hw.heap.iterate v
      rw [hiterate] at hsound
      let h := (w.heap.newIterator { entries }).2
      have hlater : G.Later ν.slots w { w with heap := h } := by
        refine ⟨⟨hw.allows, hsound, hw.globals⟩, ?_, fun _ _ => rfl⟩
        show _ <+: (w.heap.iterators.push { entries }).toList
        rw [Array.toList_push]
        exact List.prefix_append ..
      refine .after hget hw hrun ?_
      exact heach (i := { entries }) (Nat.le_refl w.heap.iterators.size) hlater
        Array.getElem?_push_size rfl
    · rw [if_neg hroom] at hrun
      exact .overflow hget hw hrun

end Entries

/-! ### The code of loops -/

/-- The end of a loop. -/
theorem Stage.landing (hs : G.Stage S C a m) (hnop : S.At m' .nop [] b) :
    G.Follows J n ν m'.offset K (pure ()) ν (Atop K b.offset fun _ => []) := by
  have hend : G.Follows J n ν b.offset K (pure ()) ν (Atop K b.offset fun _ => []) :=
    .pure () ⟨rfl, rfl, Discipline.values_nil⟩
  obtain rfl := hnop.2.2
  exact (Follows.nop (hs.has hnop) hend).mono (Nat.le_succ n) fun _ _ _ h => h

/-- **The code of a loop** whose body and post statement are enclosed. -/
theorem Stage.loop {condition : Eval Bool} {x : Eval Value} {post : Eval Unit}
    {m₂ m₃ m₄ m₅ m₆ : Point} (hs : G.Stage S C a b)
    (hcondition : G.Asks n S busy C a m₂ m₆.offset condition)
    (hbody : G.Carries n (S.inLoop m₆.offset m₄.offset) false C C m₂ m₃ (Eval.inScope x) ([·]))
    (hpop : S.At m₃ .popTop [] m₄) (hpost : G.Encloses n S busy C C' m₄ m₅ post fun _ => [])
    (hback : S.Back m₅ a.offset m₆) (hnop : S.At m₆ .nop [] b) :
    G.Encloses n S busy C C' a b (Eval.loop condition (Eval.inScope x) post n) fun _ => [] := by
  obtain ⟨d, hjump, hd⟩ := hback
  have htable : b.table = m₅.table := hnop.table.trans hjump.table
  have htable' : m₄.table = m₃.table := hpop.table
  have h₅ : (m₅.table.scope root).slots ≤ (b.table.scope root).slots := by rw [htable]
  have h₃ := htable' ▸ hpost.slots
  have h₂ := hbody.grows.1
  refine ⟨htable ▸ hpost.opens, ?_, fun J K he => ?_⟩
  · exact hcondition.grows.1.trans (h₂.trans (h₃.trans h₅))
  have hround : G.Follows J n (b.table.visible C) m₂.offset K (Eval.round (Eval.inScope x))
      (b.table.visible C) fun more q us => q = (if more then m₄.offset else m₆.offset) ∧
      us = K := by
    obtain rfl := hpop.2.2
    have hfollows := (hbody.follows _ K .inLoop).round (J := J) hbody.grows (hs.has hpop)
    rw [Eval.inScope_inScope] at hfollows
    exact hfollows.settle rfl rfl (h₃.trans h₅)
  have hasks : G.Follows J n (b.table.visible C) a.offset K condition (b.table.visible C) _ :=
    (hcondition.follows J K he).settle rfl rfl (h₂.trans (h₃.trans h₅))
  have hpost : G.Follows J n (b.table.visible C) m₄.offset K post (b.table.visible C) _ :=
    (hpost.follows J K he).settle rfl rfl h₅
  have hpost := hpost.mono (Nat.le_refl n) fun _ q us hQ =>
    show q = m₅.offset ∧ us = K from ⟨hQ.1, hQ.2.1⟩
  exact .start rfl
    (Follows.loop hasks hround hpost (hs.has hjump) hd (hs.landing hnop) n (Nat.le_refl n))

theorem zip_taken (names : List String) (hnames : names.length ≤ 2) (e : Value × Value) :
    names.zip (taken names.length e) = names.zip [e.1, e.2] := by
  obtain _ | ⟨x, _ | ⟨y, _ | ⟨z, names⟩⟩⟩ := names
  · rfl
  · rfl
  · rfl
  · exact absurd hnames (by simp)

theorem plain_taken {count : Nat} {e : Value × Value} (h : Plain [e.1, e.2]) :
    Plain (taken count e) :=
  fun v hv => h v (List.mem_of_mem_take hv)

theorem length_taken {count : Nat} (hcount : count ≤ 2) (e : Value × Value) :
    (taken count e).length = count := by
  unfold taken
  rw [List.length_take]
  exact Nat.min_eq_left hcount

/-- **The code of a loop over entries**, in the block in which the names of the loop are
declared. -/
theorem Stage.eachEntry {names : List String} {x body : Eval Value} (hs : G.Stage S (l :: C) a b)
    (hnames : names.length ≤ 2) (hx : G.Carries n S busy (l :: C) (l :: C) a m x ([·]))
    (hget : S.At m .getIter [] m')
    (hl : (Plan.iterate names.length (Plan.bindings names) p).Laid S m' b)
    (hbody : ∀ (l' : Layer) (exit next : Nat) (a' b' : Point),
      G.Stage (S.inLoop exit next) (l' :: C) a' b' → p.Laid (S.inLoop exit next) a' b' →
        G.Carries n (S.inLoop exit next) false (l' :: C) (l' :: C) a' b' body ([·])) :
    ∃ l', G.Encloses n S busy (l :: C) (l' :: C) a b (do
      let v ← x
      Eval.eachEntry names body (← Eval.entriesOf v)) fun _ => [] := by
  obtain ⟨m₁, m₂, m₃, m₄, m₅, m₆, ⟨d, hadvance, hd, -⟩, hbind, hp, hpop, ⟨u, hjump, hu⟩,
    hdrop, hnop⟩ := hl
  have hm : m'.table = m.table := hget.table
  have hm₁ : m₁.table = m.table := hadvance.table.trans hm
  have hs₁ : G.Stage S (l :: C) m₁ b := hs.onward (hm₁ ▸ hx.opens)
  obtain ⟨l', hopens, hgrows, hbindings⟩ := Stage.bindings (n := n) hs₁ hbind
  have htable : b.table = m₃.table :=
    hnop.table.trans (hdrop.table.trans (hjump.table.trans hpop.table))
  have hinside : m₅.offset ≤ G.code.size ∧ m₄.offset ≤ G.code.size :=
    ⟨Nat.le_of_lt (hs.has hdrop).offset_lt, Nat.le_of_lt (hs.has hjump).offset_lt⟩
  have hy := hbody l' m₅.offset m₄.offset m₂ m₃
    ⟨hs.hosts, hopens, Nat.le_of_lt (hs.has hpop).offset_lt,
      fun e he => Option.some.inj he ▸ hinside⟩ hp
  have hgrows' := hgrows.trans hy.grows
  refine ⟨l', htable ▸ hy.opens, ?_, fun J K he => ?_⟩
  · exact hx.grows.1.trans (hm₁ ▸ htable ▸ hgrows'.1)
  have hround (it : Ref .iterator) (e : Value × Value) (he : Plain [e.1, e.2]) :
      G.Follows J n (b.table.visible (l :: C)) m₁.offset (taken names.length e ++ .iter it :: K)
        (Eval.round (Eval.inScope (do Eval.bindEntry names e; body))) (b.table.visible (l :: C))
        fun more q us => q = (if more then m₄.offset else m₅.offset) ∧ us = .iter it :: K := by
    obtain rfl := hpop.2.2
    have hbound : G.Follows (some ⟨m₅.offset, m₃.offset + 1, .iter it :: K⟩) n
        (m₁.table.visible (l :: C)) m₁.offset (taken names.length e ++ .iter it :: K)
        (do Eval.bindEntry names e; body) (m₃.table.visible (l' :: C))
        (Atop (.iter it :: K) m₃.offset ([·])) := by
      have hnames' := hbindings (some ⟨m₅.offset, m₃.offset + 1, .iter it :: K⟩) (.iter it :: K)
        (taken names.length e) (length_taken hnames e) (plain_taken he)
      rw [zip_taken names hnames] at hnames'
      refine Follows.bind hnames' (fun _ q us hQ => ?_) hgrows hy.grows
      obtain ⟨rfl, rfl⟩ := hQ
      exact hy.follows _ _ .inLoop
    exact (hbound.round hgrows' (hs.has hpop)).settle rfl rfl (Nat.le_of_eq (htable ▸ rfl))
  have hslots := hm₁ ▸ htable ▸ hgrows'.1
  refine hx.andThen he (fun v hv => ?_) (.of_slots hslots)
  have heach : G.Follows J n (b.table.visible (l :: C)) m.offset (v :: K)
      (do Eval.eachEntry names body (← Eval.entriesOf v)) (b.table.visible (l :: C))
      (Atop K b.offset fun _ => []) := by
    refine .each (hs.has hget) (hv v List.mem_cons_self) fun {it} _ _ _ _ _ hit hw hi hrest => ?_
    have hm' : m'.offset = m.offset + 1 := hget.offset
    have hm₆ : m₆.offset = m₅.offset + 1 := hdrop.offset
    rw [← hm']
    exact Ends.eachEntry hnames (hs.has hadvance) hd (Nat.le_of_lt (hs.has hnop).offset_lt)
      (hround it) hadvance.offset (hs.has hjump) hu (hs.has hdrop) hm₆ (hs.landing hnop) hit _ hw hi
      hrest
  exact .start rfl heach

end Ground

end ScriptEngine
