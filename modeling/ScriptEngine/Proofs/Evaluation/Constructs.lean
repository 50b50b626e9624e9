import ScriptEngine.Proofs.Evaluation.Loops

/-!
# Constructs that are carried out

One fact for each construct of the language: its code carries out its evaluation if the code of its
parts carries out theirs.

## Main definitions

* `ScriptEngine.Ground.Seeks`: the code between two points asks something about the top operand.

## Main results

* `ScriptEngine.Ground.Carries.branched`: a branch;
* `ScriptEngine.Ground.Carries.sliced`: a slice, whose missing end is the length of the sequence;
* `ScriptEngine.Ground.Carries.switched`: a switch, which holds its subject;
* `ScriptEngine.Ground.Stage.looped`: a loop.
-/

namespace ScriptEngine

open ScopeTable

theorem Plan.laid_atMost {limit count : Nat} {e : CompileError} {p : Plan} {S : Site} {a b : Point}
    (h : (Plan.atMost limit count e p).Laid S a b) : count ≤ limit ∧ p.Laid S a b := by
  unfold Plan.atMost at h
  split at h
  · exact h.elim
  · rename_i hle
    exact ⟨Nat.le_of_not_lt hle, h⟩

theorem Value.plain_of_isScalar {v : Value} (h : v.isScalar = true) :
    Discipline.plain.value () v := by
  intro r hr
  subst hr
  cases h

/-- The plan of an operator that is no short circuit. -/
theorem Plan.ofExpr_binary {op : InfixOp} (hand : op ≠ .and) (hor : op ≠ .or) (bound : Bool)
    (left right : Expr) : Plan.ofExpr bound (.binary op left right) =
      .seq (Plan.ofExpr false left) (.seq (Plan.ofExpr false right) (.instr (.binary op))) := by
  rw [Plan.ofExpr.eq_def]
  cases op with
  | and => exact absurd rfl hand
  | or => exact absurd rfl hor
  | _ => rfl

namespace Ground

variable {G : Ground} {α β γ : Type} {n : Nat} {S : Site} {busy : Bool}
  {C C₁ C₂ : Chain} {l : Layer}
  {a b m m' : Point} {ν : Names} {J : Option Escape} {v : Value} {vs K : List Value}
  {x y z : Eval Value}
  {p q r : Plan} {op : Opcode} {operands : List Word} {target : Nat}

theorem Stage.hold (hs : G.Stage S C a b) : G.Stage S.hold C a b := by
  refine ⟨hs.hosts, hs.opens, hs.inside, fun e he => ?_⟩
  obtain ⟨e, hexits, rfl⟩ := Option.map_eq_some_iff.mp he
  exact hs.exits e hexits

/-- The surroundings of the second of two plans. -/
theorem Stage.start_le (hs : G.Stage S C a b) (hp : p.Laid S a b) : a.offset ≤ G.code.size :=
  Nat.le_trans (hp.spans hs.opens.sees).le hs.inside

namespace Carries

/-! ### Values -/

/-- **A value that is known beforehand.** -/
theorem known (hs : G.Stage S C a b) (hat : S.At a op operands b) (hv : Discipline.plain.value () v)
    (h : ∀ (q : Nat) (K : List Value) (k : UInt32) (w : World),
      Exec.execute G.setting.ctx ⟨a.offset, op, operands⟩ ⟨G.machineAt q K k, w⟩ =
        Exec.proceed (Exec.push v) ⟨G.machineAt q K k, w⟩) :
    G.Carries n S busy C C a b (pure v) ([·]) := by
  refine .single hs.opens hat.table fun J K => ?_
  rw [hat.offset]
  exact Follows.constant [] (hs.has hat) hv fun k w => h _ K k w

/-- **A literal.** -/
theorem literal {scalar : v.isScalar = true} (hs : G.Stage S C a b)
    (hl : (Plan.const v scalar).Laid S a b) : G.Carries n S busy C C a b (pure v) ([·]) := by
  obtain ⟨i, hi, hat⟩ := hl
  refine known hs hat (Value.plain_of_isScalar scalar) fun q K k w => ?_
  have hconstant : Exec.constant i ⟨G.machineAt q K k, w⟩ = .ok v ⟨G.machineAt q K k, w⟩ := by
    show Exec.entry G.code.constants[i.toNat]? _ _ = _
    rw [hs.hosts.constants _ _ hi]
    rfl
  show Exec.proceed (Exec.constant i >>= Exec.push) _ = _
  rw [proceed_eq, proceed_eq, bind_of_ok hconstant]

theorem pushNil (hs : G.Stage S C a b) (hl : (Plan.instr .pushNil).Laid S a b) :
    G.Carries n S busy C C a b (pure .nil) ([·]) := by
  have hat : S.At a .pushNil [] b := hl
  exact known hs hat (plain_of_isData rfl) fun _ _ _ _ => rfl

theorem pushBool {truth : Bool} (hs : G.Stage S C a b)
    (hl : (Plan.instr (.pushBool truth)).Laid S a b) :
    G.Carries n S busy C C a b (pure (.bool truth)) ([·]) := by
  cases truth with
  | true => exact known hs hl (plain_of_isData rfl) fun _ _ _ _ => rfl
  | false => exact known hs hl (plain_of_isData rfl) fun _ _ _ _ => rfl

/-- Nothing is done. -/
theorem skip {o : α} {out : α → List Value} (hs : G.Stage S C a b) (hout : out o = []) :
    G.Carries n S busy C C a a (pure o) out :=
  .single hs.opens rfl fun _ _ =>
    .pure o ⟨rfl, by rw [hout, List.nil_append], hout ▸ Discipline.values_nil⟩

/-! ### Operands -/

/-- The operands of another result. -/
theorem map {x : Eval α} {out : α → List Value} {out₁ : β → List Value} (f : α → β)
    (h : G.Carries n S busy C C₁ a b x out) (hout : ∀ v, out₁ (f v) = out v) :
    G.Carries n S busy C C₁ a b (do return f (← x)) out₁ := by
  refine h.after rfl fun J K v hv => .pure _ ⟨rfl, ?_, ?_⟩
  · rw [hout]
  · rw [hout]
    exact hv

/-- **One operand above another** that it depends on. -/
theorem above {x : Eval α} {y : α → Eval β} {out : α → List Value} {out₁ : β → List Value}
    (hx : G.Carries n S busy C C₁ a m x out) (ho : G.Opens S.scope C₂ b.table)
    (hg : (m.table.visible C₁).Grows (b.table.visible C₂))
    (hy : ∀ J K v, Plain (out v) → G.Follows J n (m.table.visible C₁) m.offset (out v ++ K) (y v)
      (b.table.visible C₂) (Atop (out v ++ K) b.offset out₁)) :
    G.Carries n S busy C C₂ a b (do
      let v ← x
      let u ← y v
      return (v, u)) fun r => out₁ r.2 ++ out r.1 := by
  refine ⟨ho, hx.grows.trans hg, fun J K he => hx.andThen he (fun v hv => ?_) hg⟩
  refine (hy J K v hv).bind (fun u q us hQ => ?_) hg (.refl _)
  obtain ⟨rfl, rfl, hu⟩ := hQ
  exact .pure _ ⟨rfl, (List.append_assoc ..).symm, Discipline.values_append.mpr ⟨hu, hv⟩⟩

/-- **Operands on top of each other.** -/
theorem cons {x : Eval Value} {y : Eval (List Value)} (hx : G.Carries n S busy C C a m x ([·]))
    (hy : G.Carries n S true C C m b y List.reverse) :
    G.Carries n S busy C C a b (do
      let v ← x
      let us ← y
      return v :: us) List.reverse := by
  have hcons : G.Carries n S busy C C a b (do
      let r ← (do
        let v ← x
        let us ← y
        return (v, us))
      return r.1 :: r.2) List.reverse := (hx.pair hy).map _ fun _ => List.reverse_cons
  simpa only [bind_assoc, pure_bind] using hcons

/-- **An operator before its operand.** -/
theorem unary {o : PrefixOp} (hx : G.Carries n S busy C C a m x ([·])) (hs : G.Stage S C a b)
    (hl : (Plan.instr (.unary o)).Laid S m b) :
    G.Carries n S busy C C a b (do
      let v ← x
      Eval.look (o.apply · v)) ([·]) := by
  have hat : S.At m (Operation.unary o).encode.1 (Operation.unary o).encode.2 b := hl
  have hoffset : b.offset = m.offset + 1 := by
    rw [hat.offset]
    cases o <;> rfl
  refine hx.after hat.table fun J K v _ => ?_
  rw [hoffset]
  exact .unary (hs.has hat)

/-- **An operator between its operands.** -/
theorem binary {o : InfixOp} (hx : G.Carries n S busy C C a m x ([·]))
    (hy : G.Carries n S true C C m m' y ([·])) (hs : G.Stage S C a b)
    (hl : (Plan.instr (.binary o)).Laid S m' b) :
    G.Carries n S busy C C a b (do
      let v ← x
      let u ← y
      Eval.onHeap (o.apply · v u)) ([·]) := by
  have hat : S.At m' (Generate.operator o).1 [(Generate.operator o).2] b := hl
  refine hx.afterBoth hy hat.table fun J K v u hv hu => ?_
  rw [hat.offset]
  exact .binary (hs.has hat) (Discipline.values_append.mpr ⟨hu, hv⟩)

theorem getItem (hx : G.Carries n S busy C C a m x ([·])) (hy : G.Carries n S true C C m m' y ([·]))
    (hs : G.Stage S C a b) (hl : (Plan.instr .getItem).Laid S m' b) :
    G.Carries n S busy C C a b (do
      let v ← x
      let u ← y
      Eval.look (·.getItem v u)) ([·]) := by
  have hat : S.At m' .binarySubscr [] b := hl
  refine hx.afterBoth hy hat.table fun J K v u _ _ => ?_
  rw [hat.offset]
  exact .getItem (hs.has hat)

theorem contains {negated : Bool} (hx : G.Carries n S busy C C a m x ([·]))
    (hy : G.Carries n S true C C m m' y ([·])) (hs : G.Stage S C a b)
    (hl : (Plan.instr (.contains negated)).Laid S m' b) :
    G.Carries n S busy C C a b (do
      let v ← x
      let u ← y
      Eval.look (·.membership v u negated)) ([·]) := by
  have hat : S.At m' .containsOp [if negated then 1 else 0] b := hl
  refine hx.afterBoth hy hat.table fun J K v u _ _ => ?_
  rw [hat.offset]
  exact .contains (hs.has hat)

/-- The length of a sequence, above it. -/
theorem length_above (hs : G.Stage S C a b) (hdup : S.At a .copy [0] m) (hlen : S.At m .length [] b)
    (hv : Discipline.plain.value () v) :
    G.Follows J n (a.table.visible C) a.offset (v :: K) (Eval.look (·.length v))
      (b.table.visible C) (Atop (v :: K) b.offset ([·])) := by
  have htable : b.table = a.table := hlen.table.trans hdup.table
  refine htable ▸ .duplicate (hs.has hdup) hv ?_ (.refl _)
  have hm : m.offset = a.offset + 2 := hdup.offset
  rw [← hm, hlen.offset]
  exact .length (hs.has hlen)

/-- **A slice**, whose missing end is the length of the sequence. -/
theorem sliced {y : Value → Eval Value} (hx : G.Carries n S busy C C a m x ([·]))
    (ho : G.Opens S.scope C m'.table) (hg : (m.table.visible C).Grows (m'.table.visible C))
    (hy : ∀ J K v, Discipline.plain.value () v →
      G.Follows J n (m.table.visible C) m.offset (v :: K) (y v)
      (m'.table.visible C) (Atop (v :: K) m'.offset ([·]))) {m₁ : Point}
    (hz : G.Carries n S true C C m' m₁ z ([·])) (hs : G.Stage S C a b)
    (hl : (Plan.instr .slice).Laid S m₁ b) :
    G.Carries n S busy C C a b (do
      let v ← x
      let last ← y v
      let first ← z
      Eval.onHeap (·.slice v first last)) ([·]) := by
  have hat : S.At m₁ .slice [] b := hl
  have hpair := hx.above ho hg fun J K v hv => hy J K v (hv v List.mem_cons_self)
  have hslice : G.Carries n S busy C C a b (do
      let r ← (do
        let v ← x
        let last ← y v
        return (v, last))
      let first ← z
      Eval.onHeap (·.slice r.1 first r.2)) ([·]) := by
    refine hpair.afterBoth hz hat.table fun J K r first _ _ => ?_
    rw [hat.offset]
    exact .slice (hs.has hat)
  simpa only [bind_assoc, pure_bind] using hslice

/-- **An item is stored.** -/
theorem setItem (hx : G.Carries n S busy C C a m x ([·])) (hy : G.Carries n S true C C m m' y ([·]))
    {m₁ : Point} (hz : G.Carries n S true C C m' m₁ z ([·])) (hs : G.Stage S C a b)
    (hl : (Plan.instr .setItem).Laid S m₁ b) :
    G.Carries n S busy C C a b (do
      let v ← x
      let u ← y
      let t ← z
      Eval.onHeapOrRaise (·.setItem u t v)) fun _ => [] := by
  have hat : S.At m₁ .storeSubscr [] b := hl
  have hset : G.Carries n S busy C C a b (do
      let r ← (do
        let v ← x
        let u ← y
        return (v, u))
      let t ← z
      Eval.onHeapOrRaise (·.setItem r.2 t r.1)) fun _ => [] := by
    refine (hx.pair hy).afterBoth hz hat.table fun J K r t hr ht => ?_
    rw [hat.offset]
    exact .setItem (hs.has hat) (Discipline.values_append.mpr ⟨ht, hr⟩)
  simpa only [bind_assoc, pure_bind] using hset

/-- **A value is built** of as many operands as an evaluation yields. -/
theorem builds {x : Eval α} {out : α → List Value} {f : α → Eval Value} {count : Nat}
    {op : Opcode} (hx : G.Carries n S busy C C a m x out) (hat : S.At m op [count.toUInt16] b)
    (hf : ∀ J K v, x.Yields v → Plain (out v) →
      G.Follows J n (m.table.visible C) m.offset (out v ++ K) (f v) (m.table.visible C)
        (Atop K (m.offset + 2) ([·]))) :
    G.Carries n S busy C C a b (x >>= f) ([·]) := by
  have htable : b.table = m.table := hat.table
  have hoffset : b.offset = m.offset + 2 := hat.offset
  refine ⟨htable ▸ hx.opens, htable ▸ hx.grows, fun J K he => ?_⟩
  refine (hx.follows J K he).yielding.bind (fun v q us hQ => ?_) hx.grows (htable ▸ .refl _)
  obtain ⟨⟨rfl, rfl, hplain⟩, hyields⟩ := hQ
  rw [hoffset, htable]
  exact hf J K v hyields hplain

/-! ### Statements -/

/-- **One evaluation after another** that leaves nothing. -/
theorem followedBy {x : Eval α} {y : Eval β} {out : β → List Value}
    (hx : G.Carries n S busy C C₁ a m x fun _ => []) (hy : G.Carries n S busy C₁ C₂ m b y out) :
    G.Carries n S busy C C₂ a b (do
      let _ ← x
      y) out :=
  ⟨hy.opens, hx.grows.trans hy.grows,
    fun J K he => hx.andThen he (fun _ _ => hy.follows J K he) hy.grows⟩

/-- **A result is dropped**, if there is any. -/
theorem dropped {leaves : Bool} (hs : G.Stage S C a m')
    (hx : G.Carries n S busy C C₁ a m x fun v => if leaves then [v] else [])
    (hl : (if leaves then Plan.instr .popTop else .skip).Laid S m b) :
    G.Carries n S busy C C₁ a b (do let _ ← x) fun _ => [] := by
  cases leaves with
  | false =>
    obtain rfl : b = m := hl
    exact hx.discard
  | true =>
    have hat : S.At m .popTop [] b := hl
    refine hx.after hat.table fun J K v _ => ?_
    have hoffset : b.offset = m.offset + 1 := hat.offset
    have hend : G.Follows J n (m.table.visible C₁) (m.offset + 1) K (pure ()) (m.table.visible C₁)
        (Atop K b.offset fun _ => []) := .pure () ⟨hoffset.symm, rfl, Discipline.values_nil⟩
    exact (Follows.popTop (hs.has hat) hend).mono (Nat.le_succ n) fun _ _ _ h => h

/-- **Nil is left** by what has no other value. -/
theorem completed (hs : G.Stage S C a b) (hx : G.Carries n S busy C C₁ a m x fun _ => [])
    (hnil : ∀ v, x.Yields v → v = .nil) (hl : (Plan.instr .pushNil).Laid S m b) :
    G.Carries n S busy C C₁ a b x ([·]) := by
  have hpush : G.Carries n S busy C₁ C₁ m b (pure .nil) ([·]) := pushNil (hs.onward hx.opens) hl
  refine ⟨hpush.opens, hx.grows.trans hpush.grows, fun J K he => ?_⟩
  have hfollows : G.Follows J n (a.table.visible C) a.offset K (x >>= pure) (b.table.visible C₁)
      (Atop K b.offset ([·])) := by
    refine (hx.follows J K he).yielding.bind (fun v q us hQ => ?_) hx.grows hpush.grows
    obtain ⟨⟨rfl, rfl, -⟩, hv⟩ := hQ
    obtain rfl := hnil v hv
    exact hpush.follows J us he
  rwa [bind_pure] at hfollows

/-- **A variable is changed by a number.** -/
theorem stepped {name : String} {one : Value} {scalar : one.isScalar = true} (hs : G.Stage S C a b)
    (hl : (Plan.update name true (.seq (.const one scalar) (.instr (.binary .add)))).Laid S a b) :
    G.Carries n S busy C C a b (do
      let old ← Eval.load G.setting name
      Eval.assign name (← Eval.onHeap (InfixOp.add.apply · old one))
      return Value.nil) fun _ => [] := by
  have hstep : G.Carries n S busy C C a b (do
      let _ ← (do
        let old ← Eval.load G.setting name
        let number ← (pure one : Eval Value)
        Eval.assign name (← Eval.onHeap (InfixOp.add.apply · old number)))
      return Value.nil) fun _ => [] := (compound hs hl literal).discard
  simpa only [bind_assoc, pure_bind] using hstep

/-- **A scope of its own.** -/
theorem inOwnScope {out : Value → List Value} (hs : G.Stage S C a b)
    (hl : (Plan.block p).Laid S a b)
    (hx : ∀ {S : Site} {l : Layer} {a : Point}, G.Stage S (l :: C) a b → p.Laid S a b →
      ∃ l', G.Carries n S busy (l :: C) (l' :: C) a b x out) :
    G.Carries n S busy C C a b (Eval.inScope x) out := by
  refine .block hs hl fun inner a hs hl => ?_
  obtain ⟨l', hx⟩ := hx hs hl
  exact ⟨l', hx.encloses⟩

/-! ### Branches -/

/-- **A branch.** -/
theorem branched {y z : Eval α} {out : α → List Value} (hs : G.Stage S C a b)
    (hl : (Plan.branch p q r).Laid S a b)
    (hp : ∀ {b : Point}, G.Stage S C a b → p.Laid S a b → G.Carries n S busy C C a b x ([·]))
    (hq : ∀ {a b : Point}, G.Stage S C a b → q.Laid S a b → G.Carries n S busy C C a b y out)
    (hr : ∀ {a b : Point}, G.Stage S C a b → r.Laid S a b → G.Carries n S busy C C a b z out) :
    G.Carries n S busy C C a b (do if ← Eval.truth x then y else z) out := by
  obtain ⟨m₁, m₂, m₃, m₄, hpl, hleave, hql, hjump, hrl⟩ := hl
  obtain ⟨d, hat, -⟩ := id hleave
  obtain ⟨d', hat', -⟩ := id hjump
  have hx := hp (hs.before hat) hpl
  have hasks := hx.asks (hs.onward hx.opens) hleave (hs.behind_le hat')
  have hs₂ : G.Stage S C m₂ b := hs.onward hasks.opens
  have hy := hq (hs₂.before hat') hql
  have hopens : G.Opens S.scope C m₄.table := hat'.table ▸ hy.opens
  exact branch hs₂ hasks hy hjump (hr (hs.onward hopens) hrl)

end Carries

/-! ### Switches -/

/-- **The code between two points asks something about the top operand**, which stays there: it goes
on at the target if the answer is yes, and at the second point otherwise. -/
structure Seeks (G : Ground) (n : Nat) (S : Site) (C : Chain) (a b : Point) (target : Nat)
    (x : Value → Eval Bool) : Prop where
  opens : G.Opens S.scope C b.table
  grows : (a.table.visible C).Grows (b.table.visible C)
  follows : target ≤ G.code.size → ∀ J K v, Discipline.plain.value () v →
    G.Follows J n (a.table.visible C) a.offset (v :: K) (x v) (b.table.visible C)
      fun found q us => q = (if found then target else b.offset) ∧ us = v :: K

theorem Seeks.nil (hs : G.Stage S C a b) (hl : Tests.nil.Laid S target a b) :
    G.Seeks n S C a b target fun _ => return false := by
  obtain rfl := hl
  exact ⟨hs.opens, .refl _, fun _ J K v _ => .pure false ⟨rfl, rfl⟩⟩

/-- Values that are equal, as an operator says. -/
theorem look_equals (v u : Value) : Eval.look (·.equals v u) =
    (do Eval.look (·.isTruthy (← Eval.onHeap (InfixOp.eq.apply · v u))) : Eval Bool) :=
  rfl

/-- **A value with which the top operand is compared**, and what comes after. -/
theorem Seeks.test {y : Value → Eval Bool} {rest : Tests} (hs : G.Stage S C a b)
    (hl : (Tests.test p rest).Laid S target a b)
    (hp : ∀ {a b : Point}, G.Stage S C a b → p.Laid S a b → G.Carries n S true C C a b x ([·]))
    (hrest : ∀ {a b : Point}, G.Stage S C a b → rest.Laid S target a b →
      G.Seeks n S C a b target y) :
    G.Seeks n S C a b target (fun v => do
      let u ← x
      if ← Eval.look (·.equals v u) then return true else y v) := by
  obtain ⟨m₁, m₂, m₃, m₄, hdup, hpl, hcompare, ⟨d, hjump, hd, -⟩, hrl⟩ := hl
  have hm₁ : m₁.table = a.table := hdup.table
  have hm₄ : m₄.table = m₂.table := hjump.table.trans hcompare.table
  have hs₁ : G.Stage S C m₁ b := hs.onward (hm₁ ▸ hs.opens)
  have hx := hp (hs₁.before hcompare) hpl
  have hy := hrest (hs.onward (hm₄ ▸ hx.opens)) hrl
  have hgrows : (m₂.table.visible C).Grows (b.table.visible C) := hm₄ ▸ hy.grows
  refine ⟨hy.opens, hm₁ ▸ hx.grows.trans hgrows, fun ht J K v hv => ?_⟩
  refine .duplicate (hs.has hdup) hv ?_ (hm₁ ▸ hx.grows.trans hgrows)
  have hoffset : m₁.offset = a.offset + 2 := hdup.offset
  rw [← hoffset, ← hm₁]
  refine hx.andThen .of_busy (fun u hu => ?_) hgrows
  rw [look_equals, bind_assoc]
  have hequal : G.Follows J n (m₂.table.visible C) m₂.offset (u :: v :: v :: K)
      (Eval.onHeap (InfixOp.eq.apply · v u)) (m₂.table.visible C)
      (Atop (v :: K) (m₂.offset + 2) ([·])) :=
    .binary (hs.has hcompare) (Discipline.values_append.mpr ⟨hu, Discipline.values_cons.mpr
      ⟨hv, Discipline.values_nil⟩⟩)
  refine hequal.bind (fun found q us hQ => ?_) (.refl _) hgrows
  obtain ⟨rfl, rfl, -⟩ := hQ
  have hm₃ : m₃.offset = m₂.offset + 2 := hcompare.offset
  rw [← hm₃]
  have hcode : G.code.Has ⟨m₃.offset,
      if true then .popJumpForwardIfTrue else .popJumpForwardIfFalse, [d]⟩ := hs.has hjump
  have htruth :=
    Follows.jumpIf (J := J) (N := n) (ν := m₂.table.visible C) (v := found) (K := v :: K)
    hcode hd ht
  refine htruth.bind (fun yes q us hQ => ?_) (.refl _) hgrows
  obtain ⟨rfl, rfl⟩ := hQ
  cases yes with
  | true => exact (Follows.pure true ⟨rfl, rfl⟩).widen hgrows.1
  | false =>
    have hoffset : m₄.offset = m₃.offset + 2 := hjump.offset
    show G.Follows J n _ (m₃.offset + 2) (v :: K) (y v) _ _
    rw [← hoffset, ← hm₄]
    exact hy.follows ht J K v hv

/-- **The code between two points selects an arm of a switch**, the bodies of which come later. -/
structure Selects (G : Ground) (n : Nat) (S : Site) (busy : Bool) (C : Chain) (arms : Arms)
    (targets : List Nat) (a b : Point) (x : Value → Eval Value → Eval Value) : Prop where
  opens : G.Opens S.scope C b.table
  grows : (a.table.visible C).Grows (b.table.visible C)
  bodies : ∀ {c d : Point} {done : Nat}, G.Stage S C c d → done ≤ G.code.size →
    arms.BodiesLaid S.hold targets done c d →
      G.Opens S.scope C d.table ∧ (c.table.visible C).Grows (d.table.visible C) ∧
      ∀ {J K v ν otherwise}, S.Escapes busy J K → ν.symbols = C.symbols →
        (b.table.scope root).slots ≤ ν.slots → (d.table.scope root).slots ≤ ν.slots →
        Discipline.plain.value () v →
        G.Follows J n ν b.offset (v :: K) otherwise ν (Atop (v :: K) done ([·])) →
        G.Follows J n ν a.offset (v :: K) (x v otherwise) ν (Atop (v :: K) done ([·]))

theorem Selects.nil {targets : List Nat} (hs : G.Stage S C a b)
    (hl : Arms.nil.TestsLaid S targets a b) :
    G.Selects n S busy C .nil targets a b fun _ otherwise => otherwise := by
  obtain ⟨-, rfl⟩ := hl
  refine ⟨hs.opens, .refl _, fun {c d done} hs' hd hb => ?_⟩
  obtain rfl := hb
  exact ⟨hs'.opens, .refl _, fun _ _ _ _ _ h => h⟩

/-- **An arm of a switch**, and what comes after. -/
theorem Selects.arm {tests : Tests} {rest : Arms} {targets : List Nat} {y : Value → Eval Bool}
    {f : Value → Eval Value → Eval Value} (hs : G.Stage S C a b)
    (hl : (Arms.arm tests p rest).TestsLaid S targets a b)
    (htests : ∀ {a b : Point} {target : Nat}, G.Stage S C a b → tests.Laid S target a b →
      G.Seeks n S C a b target y)
    (hp : ∀ {a b : Point}, G.Stage S.hold C a b → p.Laid S.hold a b →
      G.Carries n S.hold busy C C a b x ([·]))
    (hrest : ∀ {a b : Point} {targets : List Nat}, G.Stage S C a b → rest.TestsLaid S targets a b →
      G.Selects n S busy C rest targets a b f) :
    G.Selects n S busy C (.arm tests p rest) targets a b (fun v otherwise => do
      if ← y v then x else f v otherwise) := by
  obtain ⟨target, others, m, rfl, htl, hrl⟩ := hl
  have hle : m.offset ≤ b.offset :=
    (hrl.spans ((htl.spans hs.opens.sees).sees hs.opens.sees)).le
  have hy := htests (hs.upTo hle) htl
  have hf := hrest (hs.onward hy.opens) hrl
  refine ⟨hf.opens, hy.grows.trans hf.grows, fun {c d done} hs' hd hb => ?_⟩
  obtain ⟨others', m₁, m₂, heq, hpl, ⟨w, hat, hw, -⟩, hbl⟩ := hb
  obtain ⟨rfl, rfl⟩ := List.cons.inj heq
  have hx := hp (hs'.before hat).hold hpl
  have hm₂ : m₂.table = m₁.table := hat.table
  obtain ⟨hopens, hgrows, hothers⟩ := hf.bodies (hs'.onward (hm₂ ▸ hx.opens)) hd hbl
  have hgrows : (m₁.table.visible C).Grows (d.table.visible C) := hm₂ ▸ hgrows
  have htarget : c.offset ≤ G.code.size := (hs'.before hat).hold.start_le hpl
  refine ⟨hopens, hx.grows.trans hgrows, fun {J K v ν otherwise} he hν hb hd' hv hother => ?_⟩
  have hseeks : G.Follows J n ν a.offset (v :: K) (y v) ν _ :=
    (hy.follows htarget J K v hv).settle hν hν.symm (Nat.le_trans hf.grows.1 hb)
  refine hseeks.bind (fun found q us hQ => ?_) (.refl ν) (.refl ν)
  obtain ⟨rfl, rfl⟩ := hQ
  cases found with
  | true =>
    have hbody : G.Follows J n ν c.offset (v :: K) x ν (Atop (v :: K) m₁.offset ([·])) :=
      (hx.follows J (v :: K) he.hold).settle hν hν.symm (Nat.le_trans hgrows.1 hd')
    refine hbody.onward (.refl ν) fun u hu => ?_
    exact (Follows.jumpForward (hs.has hat) hw hd (.pure u ⟨rfl, rfl, hu⟩)).mono (Nat.le_succ n)
      fun _ _ _ h => h
  | false => exact hothers he hν hb hd' hv hother

/-- **A switch.** -/
theorem Carries.switched {arms : Arms} {f : Value → Eval Value → Eval Value} (hs : G.Stage S C a b)
    (hl : (Plan.switch p arms q).Laid S a b)
    (hp : ∀ {b : Point}, G.Stage S C a b → p.Laid S a b → G.Carries n S busy C C a b x ([·]))
    (harms : ∀ {a b : Point} {targets : List Nat}, G.Stage S C a b → arms.TestsLaid S targets a b →
      G.Selects n S busy C arms targets a b f)
    (hq : ∀ {a b : Point}, G.Stage S.hold C a b → q.Laid S.hold a b →
      G.Carries n S.hold busy C C a b y ([·])) :
    G.Carries n S busy C C a b (do f (← x) y) ([·]) := by
  obtain ⟨m₁, m₂, m₃, m₄, m₅, m₆, targets, hpl, htl, ⟨d, hjump, hd, -⟩, hbl, hql, hswap, hpop⟩ := hl
  have hm₃ : m₃.table = m₂.table := hjump.table
  have htable : b.table = m₅.table := hpop.table.trans hswap.table
  have hle : m₁.offset ≤ m₂.offset :=
    (htl.spans ((hpl.spans hs.opens.sees).sees hs.opens.sees)).le
  have hx := hp ((hs.before hjump).upTo hle) hpl
  have hf := harms ((hs.onward hx.opens).before hjump) htl
  have hopens : G.Opens S.scope C m₃.table := hm₃ ▸ hf.opens
  have hsees : S.hold.Sees m₃ := ⟨hopens.sees.wellFormed, hopens.sees.known⟩
  have hle₄ : m₄.offset ≤ m₅.offset :=
    (hql.spans ((hbl.spans hsees).sees hsees)).le
  have hs₃ : G.Stage S C m₃ m₅ := (hs.onward hopens).before hswap
  obtain ⟨hopens₄, hgrows₄, hbodies⟩ := hf.bodies (hs₃.upTo hle₄) hs₃.inside hbl
  have hy := hq (hs₃.onward hopens₄).hold hql
  have hgrows : (m₂.table.visible C).Grows (b.table.visible C) :=
    htable ▸ hm₃ ▸ hgrows₄.trans hy.grows
  refine ⟨htable ▸ hy.opens, hx.grows.trans (hf.grows.trans hgrows), fun J K he => ?_⟩
  refine hx.andThen he (fun v hv => ?_) (hf.grows.trans hgrows)
  have hotherwise : G.Follows J n (b.table.visible C) m₂.offset (v :: K) y (b.table.visible C)
      (Atop (v :: K) m₅.offset ([·])) := by
    have hdefault : G.Follows J n (b.table.visible C) m₄.offset (v :: K) y (b.table.visible C) _ :=
      (hy.follows J (v :: K) he.hold).settle rfl rfl (Nat.le_of_eq (htable ▸ rfl))
    exact (Follows.jumpForward (hs.has hjump) hd (Nat.le_trans hle₄ hs₃.inside) hdefault).mono
      (Nat.le_succ n) fun _ _ _ h => h
  have hselected := hbodies he rfl hgrows.1 (htable ▸ hy.grows.1) (hv v List.mem_cons_self)
    hotherwise
  refine .start rfl (hselected.onward (.refl _) fun u hu => ?_)
  -- the subject lies below the result
  have hend : G.Follows J n (b.table.visible C) b.offset (u :: K) (pure u) (b.table.visible C)
    (Atop K b.offset ([·])) := .pure u ⟨rfl, rfl, hu⟩
  have hm₆ : m₆.offset = m₅.offset + 2 := hswap.offset
  have hb : b.offset = m₅.offset + 3 := by
    rw [hpop.offset, hm₆]
    rfl
  refine (Follows.swapPop (hs.has hswap) (hm₆ ▸ hs.has hpop) (hb ▸ hend)).mono ?_ fun _ _ _ h => ?_
  · omega
  · exact hb ▸ h

/-! ### Loops -/

/-- **The surroundings of a loop**, which is carried out if what comes after each round is. -/
theorem Stage.looped {tested : Bool} {condition : Eval Bool} (hs : G.Stage S C a b)
    (hl : (Plan.loop tested p q r).Laid S a b)
    (hp : ∀ {m b : Point} {target : Nat}, G.Stage S C a m → target ≤ G.code.size → p.Laid S a m →
      S.ExitIf tested m target b → G.Asks n S busy C a b target condition)
    (hq : ∀ {exit next : Nat} {a b : Point}, G.Stage (S.inLoop exit next) C a b →
      q.Laid (S.inLoop exit next) a b →
        G.Carries n (S.inLoop exit next) false C C a b (Eval.inScope x) ([·])) :
    ∃ m m', G.Stage S C m m' ∧ r.Laid S m m' ∧ ∀ {C' : Chain} {post : Eval Unit},
      G.Encloses n S busy C C' m m' post (fun _ => []) →
        G.Encloses n S busy C C' a b (Eval.loop condition (Eval.inScope x) post n) fun _ => [] := by
  obtain ⟨m₁, m₂, m₃, m₄, m₅, m₆, hpl, hexit, hql, hpop, hrl, hback, hnop⟩ := hl
  obtain ⟨d, hjump, -⟩ := id hback
  have hsees := (hpl.spans hs.opens.sees).sees hs.opens.sees
  have hsees₂ := (hexit.spans hsees).sees hsees
  have hle : m₁.offset ≤ m₃.offset :=
    Nat.le_trans (hexit.spans hsees).le
      (hql.spans (S := S.inLoop m₆.offset m₄.offset) ⟨hsees₂.wellFormed, hsees₂.known⟩).le
  have hexits : m₆.offset ≤ G.code.size ∧ m₄.offset ≤ G.code.size :=
    ⟨hs.behind_le hjump, hs.behind_le hpop⟩
  have hasks := hp ((hs.before hpop).upTo hle) hexits.1 hpl hexit
  have hx := hq ⟨hs.hosts, hasks.opens, (hs.before hpop).inside,
    fun e he => Option.some.inj he ▸ hexits⟩ hql
  have hopens : G.Opens S.scope C m₄.table := hpop.table ▸ hx.opens
  exact ⟨m₄, m₅, (hs.onward hopens).before hjump, hrl,
    fun hpost => hs.loop hasks hx hpop hpost hback hnop⟩

/-- **A loop with nothing after its rounds.** -/
theorem Stage.repeated {tested : Bool} {condition : Eval Bool} (hs : G.Stage S C a b)
    (hl : (Plan.loop tested p q .skip).Laid S a b)
    (hp : ∀ {m b : Point} {target : Nat}, G.Stage S C a m → target ≤ G.code.size → p.Laid S a m →
      S.ExitIf tested m target b → G.Asks n S busy C a b target condition)
    (hq : ∀ {exit next : Nat} {a b : Point}, G.Stage (S.inLoop exit next) C a b →
      q.Laid (S.inLoop exit next) a b →
        G.Carries n (S.inLoop exit next) false C C a b (Eval.inScope x) ([·])) :
    G.Carries n S busy C C a b (Eval.loop condition (Eval.inScope x) (return) n) fun _ => [] := by
  obtain ⟨m, m', hs', rfl, hloop⟩ := hs.looped hl hp hq
  have hpost : G.Carries n S busy C C m' m' (return) fun _ => [] := .skip hs' rfl
  exact (hloop ⟨hpost.opens, hpost.grows.1, hpost.follows⟩).carries

/-- Only that nothing is left counts. -/
theorem Encloses.discard {x : Eval α} {o : β} (h : G.Encloses n S busy C C₁ a b x fun _ => []) :
    G.Encloses n S busy C C₁ a b (do
      let _ ← x
      return o) fun _ => [] := by
  refine ⟨h.opens, h.slots, fun J K he => ?_⟩
  refine (h.follows J K he).bind (fun _ q us hQ => ?_) (.of_slots h.slots) (.refl _)
  obtain ⟨rfl, rfl, -⟩ := hQ
  exact .pure o ⟨rfl, rfl, Discipline.values_nil⟩

/-- **No condition** is always met. -/
theorem Asks.always (hs : G.Stage S C a b) : G.Asks n S busy C a a target (return true) :=
  ⟨hs.opens, .refl _, fun _ _ _ => .pure true ⟨rfl, rfl⟩⟩

/-- **A loop after the statement in its head**, in the scope of both. -/
theorem Carries.enclosed {x : Eval α} {y : Eval β} {out : β → List Value}
    (hx : G.Carries n S busy C C₁ a m x fun _ => []) (hy : G.Encloses n S busy C₁ C₂ m b y out) :
    G.Encloses n S busy C C₂ a b (Eval.inScope (do
      let _ ← x
      y)) out := by
  have hgrows : (m.table.visible C₁).Grows (b.table.visible C₁) := .of_slots hy.slots
  refine ⟨hy.opens, Nat.le_trans hx.grows.1 hy.slots, fun J K he => ?_⟩
  have hfollows := hx.andThen he (fun _ _ => hy.follows J K he) hgrows
  exact hfollows.inScope (hx.grows.trans hgrows)

end Ground

end ScriptEngine
