import ScriptEngine.Proofs.Evaluation.Constructs

/-!
# Trees that are carried out

The code of every tree carries out its evaluation. The proof goes along the trees, with one case for
each construct.

## Main results

* `ScriptEngine.Ground.Carries.ofExpr`: the code of an expression;
* `ScriptEngine.Ground.Carries.ofStatement`, `ScriptEngine.Ground.Carries.ofStatements`: the code of
  statements.
-/

namespace ScriptEngine

open ScopeTable

namespace Eval

variable {Γ : Setting} {n : Nat}

theorem length_exprs : ∀ {es : List Expr} {vs : List Value}, (exprs Γ n es).Yields vs →
    vs.length = es.length
  | [], _, ⟨_, _, h⟩ => by
    rw [exprs] at h
    obtain ⟨rfl, -⟩ := pure_eq_ok.mp h
    rfl
  | e :: es, _, ⟨_, _, h⟩ => by
    rw [exprs] at h
    obtain ⟨v, _, -, h⟩ := bind_eq_ok.mp h
    obtain ⟨vs, _, hvs, h⟩ := bind_eq_ok.mp h
    obtain ⟨rfl, -⟩ := pure_eq_ok.mp h
    exact congrArg (· + 1) (length_exprs ⟨_, _, hvs⟩)

theorem length_entries : ∀ {items : List (Expr × Expr)} {es : List (Value × Value)},
    (entries Γ n items).Yields es → es.length = items.length
  | [], _, ⟨_, _, h⟩ => by
    rw [entries] at h
    obtain ⟨rfl, -⟩ := pure_eq_ok.mp h
    rfl
  | (key, value) :: items, _, ⟨_, _, h⟩ => by
    rw [entries] at h
    obtain ⟨k, _, -, h⟩ := bind_eq_ok.mp h
    obtain ⟨v, _, -, h⟩ := bind_eq_ok.mp h
    obtain ⟨es, _, hes, h⟩ := bind_eq_ok.mp h
    obtain ⟨rfl, -⟩ := pure_eq_ok.mp h
    exact congrArg (· + 1) (length_entries ⟨_, _, hes⟩)

theorem length_fragments : ∀ {pieces : List Fragment} {vs : List Value},
    (fragments Γ n pieces).Yields vs → vs.length = pieces.length
  | [], _, ⟨_, _, h⟩ => by
    rw [fragments] at h
    obtain ⟨rfl, -⟩ := pure_eq_ok.mp h
    rfl
  | .text s :: pieces, _, ⟨_, _, h⟩ => by
    rw [fragments] at h
    obtain ⟨vs, _, hvs, h⟩ := bind_eq_ok.mp h
    obtain ⟨rfl, -⟩ := pure_eq_ok.mp h
    exact congrArg (· + 1) (length_fragments ⟨_, _, hvs⟩)
  | .hole e :: pieces, _, ⟨_, _, h⟩ => by
    rw [fragments] at h
    obtain ⟨v, _, -, h⟩ := bind_eq_ok.mp h
    obtain ⟨vs, _, hvs, h⟩ := bind_eq_ok.mp h
    obtain ⟨rfl, -⟩ := pure_eq_ok.mp h
    exact congrArg (· + 1) (length_fragments ⟨_, _, hvs⟩)

/-- An evaluation that comes to no other value than nil. -/
def YieldsNil (x : Eval Value) : Prop :=
  ∀ v, x.Yields v → v = .nil

namespace YieldsNil

variable {α : Type}

theorem pure : YieldsNil (pure .nil) := by
  rintro v ⟨_, _, h⟩
  exact (pure_eq_ok.mp h).1.symm

theorem throw (e : Stop) : YieldsNil (throw e) := by
  rintro v ⟨_, _, h⟩
  exact (throw_ne_ok.mp h).elim

theorem bind {x : Eval α} {f : α → Eval Value} (h : ∀ u, YieldsNil (f u)) :
    YieldsNil (x >>= f) := by
  rintro v ⟨_, _, hv⟩
  obtain ⟨u, _, -, hv⟩ := bind_eq_ok.mp hv
  exact h u v ⟨_, _, hv⟩

theorem inScope {x : Eval Value} (h : YieldsNil x) : YieldsNil (inScope x) := by
  rintro v ⟨σ, τ, hv⟩
  unfold Eval.inScope at hv
  split at hv
  · obtain ⟨rfl, -⟩ := EStateM.Result.ok.inj hv
    rename_i hx
    exact h _ ⟨_, _, hx⟩
  · cases hv

end YieldsNil

/-- **A statement that is no expression** has no other value than nil. -/
theorem statement_yieldsNil {s : Statement} (hs : s.isExpression = false) :
    YieldsNil (statement Γ n s) := by
  match s with
  | .expr _ => cases hs
  | .brk | .cont | .setAttr .. | .ret _ | .func _ =>
    rw [statement]
    exact .throw _
  | .endlessLoop _ | .whileLoop .. =>
    rw [statement]
    exact .bind fun _ => .pure
  | .var .. | .const .. =>
    rw [statement]
    exact .bind fun _ => .bind fun _ => .pure
  | .multiVar .. | .step _ .inc | .step _ .dec | .rangeLoop .. =>
    rw [statement]
    exact .bind fun _ => .bind fun _ => .bind fun _ => .pure
  | .forLoop .. =>
    rw [statement]
    exact .inScope (.bind fun _ => .bind fun _ => .pure)
  | .assignIndex .. =>
    rw [statement]
    exact .bind fun _ => .bind fun _ => .bind fun _ => .bind fun _ => .pure
  | .assign _ op _ =>
    rw [statement]
    cases op.operation? with
    | none => exact .bind fun _ => .bind fun _ => .pure
    | some _ => exact .bind fun _ => .bind fun _ => .bind fun _ => .bind fun _ => .pure

end Eval

theorem isReturn_of_functionFree {s : Statement} (h : FunctionFree.statement s = true) :
    s.isReturn = false := by
  cases s with
  | ret _ =>
    rw [FunctionFree.statement] at h
    cases h
  | _ => rfl

namespace Ground

variable {G : Ground} {n : Nat}

namespace Carries

mutual

/-- **Expressions.** -/
theorem ofExpr (e : Expr) {bound busy : Bool} {S : Site} {C : Chain} {a b : Point}
    (hf : FunctionFree.expr e = true) (hp : Placed.expr busy e = true) (hs : G.Stage S C a b)
    (hl : (Plan.ofExpr bound e).Laid S a b) :
    G.Carries n S busy C C a b (Eval.expr G.setting n e) ([·]) := by
  match e with
  | .nil =>
    rw [Plan.ofExpr] at hl
    rw [Eval.expr]
    exact pushNil hs hl
  | .bool _ =>
    rw [Plan.ofExpr] at hl
    rw [Eval.expr]
    exact pushBool hs hl
  | .int _ | .float _ | .str _ =>
    rw [Plan.ofExpr] at hl
    rw [Eval.expr]
    exact literal hs hl
  | .template pieces =>
    rw [Plan.ofExpr] at hl
    rw [FunctionFree.expr] at hf
    rw [Placed.expr] at hp
    rw [Eval.expr]
    -- the number of pieces was checked, so it fits into the operand
    obtain ⟨hcount, m, hpieces, hat⟩ := Plan.laid_atMost hl
    have hat : S.At m .buildString [pieces.length.toUInt16] b := hat
    have hx := ofFragments pieces hf hp (hs.before hat) hpieces
    refine hx.builds hat fun J K vs hvs _ => ?_
    have hword : pieces.length.toUInt16.toNat = vs.length :=
      (UInt16.toNat_ofNat_of_lt' (Nat.lt_succ_of_le hcount)).trans (Eval.length_fragments hvs).symm
    exact .buildString hword (hs.has hat)
  | .ident name =>
    rw [Plan.ofExpr] at hl
    rw [Eval.expr]
    exact load hs hl
  | .unary op operand =>
    rw [Plan.ofExpr] at hl
    rw [FunctionFree.expr] at hf
    rw [Placed.expr] at hp
    rw [Eval.expr]
    obtain ⟨m, hoperand, hop⟩ := hl
    exact (ofExpr operand hf hp (hs.first hoperand hop) hoperand).unary hs hop
  | .binary op left right =>
    rw [FunctionFree.expr, Bool.and_eq_true, Bool.and_eq_true, Bool.and_eq_true] at hf
    -- both operands are evaluated: the operators that may skip the right one are left out
    obtain ⟨⟨⟨hand, hor⟩, hleft⟩, hright⟩ := hf
    rw [Placed.expr, Bool.and_eq_true] at hp
    rw [Plan.ofExpr_binary (of_decide_eq_true hand) (of_decide_eq_true hor)] at hl
    rw [Eval.expr]
    obtain ⟨m, hl, hrest⟩ := hl
    have hx := ofExpr left hleft hp.1 (hs.first hl hrest) hl
    obtain ⟨m', hr, hop⟩ := hrest
    have hat : S.At m' (Generate.operator op).1 [(Generate.operator op).2] b := hop
    exact hx.binary (ofExpr right hright hp.2 ((hs.onward hx.opens).before hat) hr) hs hop
  | .ternary condition ifTrue ifFalse =>
    rw [FunctionFree.expr, Bool.and_eq_true, Bool.and_eq_true] at hf
    rw [Placed.expr, Bool.and_eq_true, Bool.and_eq_true] at hp
    rw [Plan.ofExpr] at hl
    rw [Eval.expr]
    exact branched hs hl (ofExpr condition hf.1.1 hp.1.1) (ofExpr ifTrue hf.1.2 hp.1.2)
      (ofExpr ifFalse hf.2 hp.2)
  | .cond condition consequence alternative =>
    rw [FunctionFree.expr, Bool.and_eq_true, Bool.and_eq_true] at hf
    rw [Placed.expr, Bool.and_eq_true, Bool.and_eq_true] at hp
    rw [Plan.ofExpr] at hl
    rw [Eval.expr]
    exact branched hs hl (ofExpr condition hf.1.1 hp.1.1)
      (fun hs hl => inOwnScope hs hl (ofStatements consequence hf.1.2 hp.1.2))
      (ofBlock? alternative hf.2 hp.2)
  | .switch subject cs default =>
    rw [FunctionFree.expr, Bool.and_eq_true, Bool.and_eq_true] at hf
    rw [Placed.expr, Bool.and_eq_true, Bool.and_eq_true] at hp
    rw [Plan.ofExpr] at hl
    rw [Eval.expr]
    exact switched hs hl (ofExpr subject hf.1.1 hp.1.1) (ofCases cs hf.1.2 hp.1.2)
      (ofBlock? default hf.2 hp.2)
  | .index object index =>
    rw [FunctionFree.expr, Bool.and_eq_true] at hf
    rw [Placed.expr, Bool.and_eq_true] at hp
    rw [Plan.ofExpr] at hl
    rw [Eval.expr]
    obtain ⟨m, hl, hrest⟩ := hl
    have hx := ofExpr object hf.1 hp.1 (hs.first hl hrest) hl
    obtain ⟨m', hr, hop⟩ := hrest
    have hat : S.At m' .binarySubscr [] b := hop
    exact hx.getItem (ofExpr index hf.2 hp.2 ((hs.onward hx.opens).before hat) hr) hs hop
  | .slice object start stop =>
    rw [FunctionFree.expr, Bool.and_eq_true, Bool.and_eq_true] at hf
    rw [Placed.expr, Bool.and_eq_true, Bool.and_eq_true] at hp
    rw [Plan.ofExpr] at hl
    rw [Eval.expr]
    obtain ⟨m, hl, hrest⟩ := hl
    have hx := ofExpr object hf.1.1 hp.1.1 (hs.first hl hrest) hl
    obtain ⟨m', hstop, hrest⟩ := hrest
    have hs' := hs.onward hx.opens
    -- the end is evaluated before the start
    obtain ⟨hopens, hgrows, hlast⟩ := ofEnd stop hf.2 hp.1.2 (hs'.first hstop hrest) hstop
    obtain ⟨m₁, hstart, hop⟩ := hrest
    have hs₁ := hs'.onward hopens
    have hz := ofOption start hf.1.2 hp.2 (hs₁.first hstart hop) hstart literal
    exact hx.sliced hopens hgrows hlast hz hs hop
  | .list items =>
    rw [Plan.ofExpr] at hl
    rw [FunctionFree.expr] at hf
    rw [Placed.expr] at hp
    rw [Eval.expr]
    obtain ⟨hcount, m, hitems, hat⟩ := Plan.laid_atMost hl
    have hat : S.At m .buildList [items.length.toUInt16] b := hat
    have hx := ofExprs items hf hp (hs.before hat) hitems
    refine hx.builds hat fun J K vs hvs hplain => ?_
    have hword : items.length.toUInt16.toNat = vs.length :=
      (UInt16.toNat_ofNat_of_lt' (Nat.lt_succ_of_le hcount)).trans (Eval.length_exprs hvs).symm
    exact .buildList hword (hs.has hat) (List.reverse_reverse vs ▸ hplain.reverse)
  | .set items =>
    rw [Plan.ofExpr] at hl
    rw [FunctionFree.expr] at hf
    rw [Placed.expr] at hp
    rw [Eval.expr]
    obtain ⟨hcount, m, hitems, hat⟩ := Plan.laid_atMost hl
    have hat : S.At m .buildSet [items.length.toUInt16] b := hat
    have hx := ofExprs items hf hp (hs.before hat) hitems
    refine hx.builds hat fun J K vs hvs _ => ?_
    have hword : items.length.toUInt16.toNat = vs.length :=
      (UInt16.toNat_ofNat_of_lt' (Nat.lt_succ_of_le hcount)).trans (Eval.length_exprs hvs).symm
    exact .buildSet hword (hs.has hat)
  | .map items =>
    rw [Plan.ofExpr] at hl
    rw [FunctionFree.expr] at hf
    rw [Placed.expr] at hp
    rw [Eval.expr]
    obtain ⟨hcount, m, hitems, hat⟩ := Plan.laid_atMost hl
    have hat : S.At m .buildMap [items.length.toUInt16] b := hat
    have hx := ofEntries items hf hp (hs.before hat) hitems
    refine hx.builds hat fun J K es hes hplain => ?_
    have hword : items.length.toUInt16.toNat = es.length :=
      (UInt16.toNat_ofNat_of_lt' (Nat.lt_succ_of_le hcount)).trans (Eval.length_entries hes).symm
    exact .buildMap hword (hs.has hat) (List.reverse_reverse (flat es) ▸ hplain.reverse)
  | .contains item container negated =>
    rw [FunctionFree.expr, Bool.and_eq_true] at hf
    rw [Placed.expr, Bool.and_eq_true] at hp
    rw [Plan.ofExpr] at hl
    rw [Eval.expr]
    obtain ⟨m, hl, hrest⟩ := hl
    -- the container is evaluated before the item
    have hx := ofExpr container hf.2 hp.1 (hs.first hl hrest) hl
    obtain ⟨m', hr, hop⟩ := hrest
    have hat : S.At m' .containsOp [if negated then 1 else 0] b := hop
    exact hx.contains (ofExpr item hf.1 hp.2 ((hs.onward hx.opens).before hat) hr) hs hop
  | .call .. | .method .. | .attr .. | .pipe _ | .func _ =>
    rw [FunctionFree.expr] at hf
    cases hf

/-- **Expressions**, in order. -/
theorem ofExprs (es : List Expr) {busy : Bool} {S : Site} {C : Chain} {a b : Point}
    (hf : FunctionFree.exprs es = true) (hp : Placed.exprs busy es = true) (hs : G.Stage S C a b)
    (hl : (Plan.ofExprs es).Laid S a b) :
    G.Carries n S busy C C a b (Eval.exprs G.setting n es) List.reverse := by
  match es with
  | [] =>
    rw [Plan.ofExprs] at hl
    obtain rfl := hl
    rw [Eval.exprs]
    exact skip hs rfl
  | e :: rest =>
    rw [FunctionFree.exprs, Bool.and_eq_true] at hf
    rw [Placed.exprs, Bool.and_eq_true] at hp
    rw [Plan.ofExprs] at hl
    rw [Eval.exprs]
    obtain ⟨m, hl, hr⟩ := hl
    have hx := ofExpr e hf.1 hp.1 (hs.first hl hr) hl
    have hxs := ofExprs rest hf.2 hp.2 (hs.onward hx.opens) hr
    exact hx.cons hxs

/-- **Keys and values**, in order. -/
theorem ofEntries (items : List (Expr × Expr)) {busy : Bool} {S : Site} {C : Chain} {a b : Point}
    (hf : FunctionFree.entries items = true) (hp : Placed.entries busy items = true)
    (hs : G.Stage S C a b) (hl : (Plan.ofEntries items).Laid S a b) :
    G.Carries n S busy C C a b (Eval.entries G.setting n items) fun es => (flat es).reverse := by
  match items with
  | [] =>
    rw [Plan.ofEntries] at hl
    obtain rfl := hl
    rw [Eval.entries]
    exact skip hs rfl
  | (key, value) :: rest =>
    rw [FunctionFree.entries, Bool.and_eq_true, Bool.and_eq_true] at hf
    rw [Placed.entries, Bool.and_eq_true, Bool.and_eq_true] at hp
    rw [Plan.ofEntries] at hl
    rw [Eval.entries]
    obtain ⟨m, hk, hrest⟩ := hl
    have hx := ofExpr key hf.1.1 hp.1.1 (hs.first hk hrest) hk
    obtain ⟨m', hv, hr⟩ := hrest
    have hs' := hs.onward hx.opens
    have hy := ofExpr value hf.1.2 hp.1.2 (hs'.first hv hr) hv
    have hxs := ofEntries rest hf.2 hp.2 (hs'.onward hy.opens) hr
    have hentries : G.Carries n S busy C C a b (do
        let r ← (do
          let e ← (do
            let k ← Eval.expr G.setting n key
            let v ← Eval.expr G.setting n value
            return (k, v))
          let es ← Eval.entries G.setting n rest
          return (e, es))
        return r.1 :: r.2) fun es => (flat es).reverse :=
      ((hx.pair hy).pair hxs).map _ fun _ => List.reverse_append
    simpa only [bind_assoc, pure_bind] using hentries

/-- **The pieces of a template.** -/
theorem ofFragments (pieces : List Fragment) {busy : Bool} {S : Site} {C : Chain} {a b : Point}
    (hf : FunctionFree.fragments pieces = true) (hp : Placed.fragments busy pieces = true)
    (hs : G.Stage S C a b) (hl : (Plan.ofFragments pieces).Laid S a b) :
    G.Carries n S busy C C a b (Eval.fragments G.setting n pieces) List.reverse := by
  match pieces with
  | [] =>
    rw [Plan.ofFragments] at hl
    obtain rfl := hl
    rw [Eval.fragments]
    exact skip hs rfl
  | .text s :: rest =>
    rw [FunctionFree.fragments] at hf
    rw [Placed.fragments] at hp
    rw [Plan.ofFragments] at hl
    rw [Eval.fragments]
    obtain ⟨m, hl, hr⟩ := hl
    have hx : G.Carries n S busy C C a m (pure (.str s)) ([·]) := literal (hs.first hl hr) hl
    have hxs := ofFragments rest hf hp (hs.onward hx.opens) hr
    simpa only [pure_bind] using hx.cons hxs
  | .hole e :: rest =>
    rw [FunctionFree.fragments, Bool.and_eq_true] at hf
    rw [Placed.fragments, Bool.and_eq_true] at hp
    rw [Plan.ofFragments] at hl
    rw [Eval.fragments]
    obtain ⟨m, hl, hr⟩ := hl
    have hx := ofOption e hf.1 hp.1 (hs.first hl hr) hl literal
    have hxs := ofFragments rest hf.2 hp.2 (hs.onward hx.opens) hr
    exact hx.cons hxs

/-- **An expression that may be missing.** -/
theorem ofOption (e : Option Expr) {missing : Eval Value} {p : Plan} {busy : Bool} {S : Site}
    {C : Chain} {a b : Point} (hf : FunctionFree.option e = true) (hp : Placed.option busy e = true)
    (hs : G.Stage S C a b) (hl : (Plan.ofOption e p).Laid S a b)
    (hmissing : G.Stage S C a b → p.Laid S a b → G.Carries n S busy C C a b missing ([·])) :
    G.Carries n S busy C C a b (Eval.bound G.setting n missing e) ([·]) := by
  match e with
  | some e =>
    rw [FunctionFree.option] at hf
    rw [Placed.option] at hp
    rw [Plan.ofOption] at hl
    rw [Eval.bound]
    exact ofExpr e hf hp hs hl
  | none =>
    rw [Plan.ofOption] at hl
    rw [Eval.bound]
    exact hmissing hs hl

/-- **The end of a slice**, above the sequence. -/
theorem ofEnd (stop : Option Expr) {S : Site} {C : Chain} {a b : Point}
    (hf : FunctionFree.option stop = true) (hp : Placed.option true stop = true)
    (hs : G.Stage S C a b)
    (hl : (Plan.ofOption stop (.seq (.instr .duplicate) (.instr .length))).Laid S a b) :
    G.Opens S.scope C b.table ∧ (a.table.visible C).Grows (b.table.visible C) ∧
      ∀ J K v, Discipline.plain.value () v →
        G.Follows J n (a.table.visible C) a.offset (v :: K)
          (Eval.bound G.setting n (Eval.look (·.length v)) stop) (b.table.visible C)
          (Atop (v :: K) b.offset ([·])) := by
  match stop with
  | some e =>
    rw [FunctionFree.option] at hf
    rw [Placed.option] at hp
    rw [Plan.ofOption] at hl
    have hx := ofExpr e hf hp hs hl
    simp only [Eval.bound]
    exact ⟨hx.opens, hx.grows, fun J K v _ => hx.follows J (v :: K) .of_busy⟩
  | none =>
    rw [Plan.ofOption] at hl
    obtain ⟨m, hdup, hlen⟩ := hl
    have hdup : S.At a .copy [0] m := hdup
    have hlen : S.At m .length [] b := hlen
    have htable : b.table = a.table := hlen.table.trans hdup.table
    simp only [Eval.bound]
    exact ⟨htable ▸ hs.opens, htable ▸ .refl _, fun J K v hv => length_above hs hdup hlen hv⟩

/-- **The cases of a switch.** -/
theorem ofCases (cs : List Case) {busy : Bool} {S : Site} {C : Chain} {a b : Point}
    {targets : List Nat} (hf : FunctionFree.cases cs = true) (hp : Placed.cases busy cs = true)
    (hs : G.Stage S C a b) (hl : (Plan.ofCases cs).TestsLaid S targets a b) :
    G.Selects n S busy C (Plan.ofCases cs) targets a b fun v otherwise =>
      Eval.cases G.setting n v otherwise cs := by
  match cs with
  | [] =>
    rw [Plan.ofCases] at hl ⊢
    simp only [Eval.cases]
    exact .nil hs hl
  | .mk values body :: rest =>
    rw [FunctionFree.cases, Bool.and_eq_true, Bool.and_eq_true] at hf
    rw [Placed.cases, Bool.and_eq_true, Bool.and_eq_true] at hp
    rw [Plan.ofCases] at hl ⊢
    simp only [Eval.cases]
    exact .arm hs hl (ofTests values hf.1.1 hp.1.1) (ofBlock? body hf.1.2 hp.1.2)
      (ofCases rest hf.2 hp.2)

/-- **The values of a case.** -/
theorem ofTests (es : List Expr) {S : Site} {C : Chain} {a b : Point} {target : Nat}
    (hf : FunctionFree.exprs es = true) (hp : Placed.exprs true es = true) (hs : G.Stage S C a b)
    (hl : (Plan.ofTests es).Laid S target a b) :
    G.Seeks n S C a b target fun v => Eval.meets G.setting n v es := by
  match es with
  | [] =>
    rw [Plan.ofTests] at hl
    simp only [Eval.meets]
    exact .nil hs hl
  | e :: rest =>
    rw [FunctionFree.exprs, Bool.and_eq_true] at hf
    rw [Placed.exprs, Bool.and_eq_true] at hp
    rw [Plan.ofTests] at hl
    simp only [Eval.meets]
    exact .test hs hl (ofExpr e hf.1 hp.1) (ofTests rest hf.2 hp.2)

/-- **A block**, or nil where there is none. -/
theorem ofBlock? (body : Option (List Statement)) {busy : Bool} {S : Site} {C : Chain} {a b : Point}
    (hf : FunctionFree.block? body = true) (hp : Placed.block? busy body = true)
    (hs : G.Stage S C a b) (hl : (Plan.ofBlock? body).Laid S a b) :
    G.Carries n S busy C C a b (Eval.block? G.setting n body) ([·]) := by
  match body with
  | some body =>
    rw [FunctionFree.block?] at hf
    rw [Placed.block?] at hp
    rw [Plan.ofBlock?] at hl
    rw [Eval.block?]
    exact inOwnScope hs hl (ofStatements body hf hp)
  | none =>
    rw [Plan.ofBlock?] at hl
    rw [Eval.block?]
    exact pushNil hs hl

/-- **Lists of statements.** -/
theorem ofStatements (ss : List Statement) {busy : Bool} {S : Site} {l : Layer} {C : Chain}
    {a b : Point} (hf : FunctionFree.statements ss = true) (hp : Placed.statements busy ss = true)
    (hs : G.Stage S (l :: C) a b) (hl : (Plan.ofStatements ss).Laid S a b) :
    ∃ l', G.Carries n S busy (l :: C) (l' :: C) a b (Eval.statements G.setting n ss) ([·]) := by
  match ss with
  | [] =>
    rw [Plan.ofStatements] at hl
    rw [Eval.statements]
    exact ⟨l, pushNil hs hl⟩
  | [s] =>
    rw [FunctionFree.statements, Bool.and_eq_true] at hf
    rw [Placed.statements, Bool.and_eq_true] at hp
    rw [Plan.ofStatements] at hl
    rw [Eval.statements]
    obtain ⟨m, hl, hfill⟩ := hl
    obtain ⟨l', hx⟩ := ofStatement s hf.1 hp.1 (hs.first hl hfill) hl
    refine ⟨l', ?_⟩
    cases he : s.isExpression with
    | true =>
      rw [he] at hx hfill
      obtain rfl : b = m := hfill
      exact hx
    | false =>
      rw [he, isReturn_of_functionFree hf.1] at hfill
      rw [he] at hx
      exact completed hs hx (Eval.statement_yieldsNil he) hfill
  | s :: t :: rest =>
    rw [FunctionFree.statements, Bool.and_eq_true] at hf
    rw [Placed.statements, Bool.and_eq_true] at hp
    rw [Plan.ofStatements.eq_3 _ _ (List.cons_ne_nil t rest)] at hl
    rw [Eval.statements.eq_3 _ _ _ _ (List.cons_ne_nil t rest)]
    obtain ⟨m, hl, hrest⟩ := hl
    obtain ⟨l₁, hx⟩ := ofStatement s hf.1 hp.1 (hs.first hl hrest) hl
    obtain ⟨m', hpop, hrest⟩ := hrest
    have hx := hx.dropped hs hpop
    obtain ⟨l', hy⟩ := ofStatements (t :: rest) hf.2 hp.2 (hs.onward hx.opens) hrest
    have hfollowed := hx.followedBy hy
    simp only [bind_assoc, pure_bind] at hfollowed
    exact ⟨l', hfollowed⟩

/-- **A statement in the head of a loop.** -/
theorem ofClause (s : Option Statement) {busy : Bool} {S : Site} {l : Layer} {C : Chain}
    {a b : Point} (hf : FunctionFree.clause s = true) (hp : Placed.clause busy s = true)
    (hs : G.Stage S (l :: C) a b) (hl : (Plan.ofClause s).Laid S a b) :
    ∃ l', G.Carries n S busy (l :: C) (l' :: C) a b (Eval.clause G.setting n s) fun _ => [] := by
  match s with
  | none =>
    rw [Plan.ofClause] at hl
    obtain rfl := hl
    rw [Eval.clause]
    exact ⟨l, skip hs rfl⟩
  | some s =>
    rw [FunctionFree.clause] at hf
    rw [Placed.clause] at hp
    rw [Plan.ofClause] at hl
    rw [Eval.clause]
    obtain ⟨m, hl, hpop⟩ := hl
    obtain ⟨l', hx⟩ := ofStatement s hf hp (hs.first hl hpop) hl
    exact ⟨l', hx.dropped hs hpop⟩

/-- **The condition of a loop**, and the jump behind it. -/
theorem ofTest (e : Option Expr) {busy : Bool} {S : Site} {C : Chain} {a m b : Point} {target : Nat}
    (hf : FunctionFree.option e = true) (hp : Placed.option busy e = true) (hs : G.Stage S C a m)
    (ht : target ≤ G.code.size) (hl : (Plan.ofOption e .skip).Laid S a m)
    (hexit : S.ExitIf e.isSome m target b) :
    G.Asks n S busy C a b target (Eval.test G.setting n e) := by
  match e with
  | some e =>
    rw [FunctionFree.option] at hf
    rw [Placed.option] at hp
    rw [Plan.ofOption] at hl
    rw [Eval.test]
    have hx := ofExpr e hf hp hs hl
    exact hx.asks (hs.onward hx.opens) hexit ht
  | none =>
    rw [Plan.ofOption] at hl
    rw [Eval.test]
    obtain rfl := hl
    obtain rfl := hexit
    exact .always hs

/-- **Statements.** -/
theorem ofStatement (s : Statement) {busy : Bool} {S : Site} {l : Layer} {C : Chain} {a b : Point}
    (hf : FunctionFree.statement s = true) (hp : Placed.statement busy s = true)
    (hs : G.Stage S (l :: C) a b) (hl : (Plan.ofStatement s).Laid S a b) :
    ∃ l', G.Carries n S busy (l :: C) (l' :: C) a b (Eval.statement G.setting n s)
      fun v => if s.isExpression then [v] else [] := by
  match s with
  | .var name value =>
    rw [FunctionFree.statement] at hf
    rw [Placed.statement] at hp
    rw [Plan.ofStatement] at hl
    rw [Eval.statement]
    obtain ⟨l', hx⟩ := declare hs hl (ofExpr value hf hp)
    have hfollowed := hx.discard (o := Value.nil)
    simp only [bind_assoc] at hfollowed
    exact ⟨l', hfollowed⟩
  | .const name value =>
    rw [FunctionFree.statement] at hf
    rw [Placed.statement] at hp
    rw [Plan.ofStatement] at hl
    rw [Eval.statement]
    obtain ⟨l', hx⟩ := declare hs hl (ofExpr value hf hp)
    have hfollowed := hx.discard (o := Value.nil)
    simp only [bind_assoc] at hfollowed
    exact ⟨l', hfollowed⟩
  | .multiVar names value =>
    rw [FunctionFree.statement] at hf
    rw [Placed.statement] at hp
    rw [Plan.ofStatement] at hl
    rw [Eval.statement]
    obtain ⟨hcount, m, hl, hrest⟩ := Plan.laid_atMost hl
    have hx := ofExpr value hf hp (hs.first hl hrest) hl
    obtain ⟨m', hunpack, hl⟩ := hrest
    obtain ⟨l', hx⟩ := declareAll hs hx hcount hunpack hl
    have hfollowed := hx.discard (o := Value.nil)
    simp only [bind_assoc] at hfollowed
    exact ⟨l', hfollowed⟩
  | .assign name op value =>
    rw [FunctionFree.statement] at hf
    rw [Placed.statement] at hp
    rw [Plan.ofStatement] at hl
    rw [Eval.statement]
    -- an operator in front of the assignment reads the variable before the value is evaluated
    cases ho : op.operation? with
    | none =>
      rw [ho] at hl hp
      rw [Option.isSome_none, Bool.or_false] at hp
      have hx := (assign hs hl (ofExpr value hf hp)).discard (o := Value.nil)
      simp only [bind_assoc] at hx
      exact ⟨l, hx⟩
    | some operation =>
      rw [ho] at hl hp
      rw [Option.isSome_some, Bool.or_true] at hp
      have hx : G.Carries n S busy (l :: C) (l :: C) a b _ _ := compound hs hl (ofExpr value hf hp)
      have hx := hx.discard (o := Value.nil)
      simp only [bind_assoc] at hx
      exact ⟨l, hx⟩
  | .assignIndex object index op value =>
    rw [FunctionFree.statement, Bool.and_eq_true, Bool.and_eq_true] at hf
    rw [Placed.statement, Bool.and_eq_true, Bool.and_eq_true] at hp
    rw [Plan.ofStatement] at hl
    rw [Eval.statement]
    split at hl
    · exact hl.elim
    · obtain ⟨m, hl, hrest⟩ := hl
      -- the value is evaluated before the place where it goes
      have hx := ofExpr value hf.2 hp.1.1 (hs.first hl hrest) hl
      obtain ⟨m', hl, hrest⟩ := hrest
      have hs' := hs.onward hx.opens
      have hy := ofExpr object hf.1.1 hp.1.2 (hs'.first hl hrest) hl
      obtain ⟨m₁, hl, hset⟩ := hrest
      have hz := ofExpr index hf.1.2 hp.2 ((hs'.onward hy.opens).first hl hset) hl
      have hx := (hx.setItem hy hz hs hset).discard (o := Value.nil)
      simp only [bind_assoc] at hx
      exact ⟨l, hx⟩
  | .step name .inc | .step name .dec =>
    rw [Plan.ofStatement] at hl
    rw [Eval.statement]
    exact ⟨l, stepped hs hl⟩
  | .brk =>
    rw [Placed.statement] at hp
    rw [Plan.ofStatement] at hl
    rw [Eval.statement]
    -- inside an unfinished expression the jump would leave its operands on the stack
    obtain rfl : busy = false := by simpa using hp
    exact ⟨l, leave hs hl⟩
  | .cont =>
    rw [Placed.statement] at hp
    rw [Plan.ofStatement] at hl
    rw [Eval.statement]
    obtain rfl : busy = false := by simpa using hp
    exact ⟨l, leave hs hl⟩
  | .endlessLoop body =>
    rw [FunctionFree.statement] at hf
    rw [Placed.statement] at hp
    rw [Plan.ofStatement] at hl
    rw [Eval.statement]
    refine ⟨l, discard (hs.repeated hl (fun hs _ hl hexit => ?_)
      fun hs hl => inOwnScope hs hl (ofStatements body hf hp))⟩
    obtain rfl := hl
    obtain rfl := hexit
    exact .always hs
  | .whileLoop condition body =>
    rw [FunctionFree.statement, Bool.and_eq_true] at hf
    rw [Placed.statement, Bool.and_eq_true] at hp
    rw [Plan.ofStatement] at hl
    rw [Eval.statement]
    refine ⟨l, discard (hs.repeated hl (fun hs ht hl hexit => ?_)
      fun hs hl => inOwnScope hs hl (ofStatements body hf.2 hp.2))⟩
    have hx := ofExpr condition hf.1 hp.1 hs hl
    exact hx.asks (hs.onward hx.opens) hexit ht
  | .forLoop init condition post body =>
    rw [FunctionFree.statement, Bool.and_eq_true, Bool.and_eq_true, Bool.and_eq_true] at hf
    rw [Placed.statement, Bool.and_eq_true, Bool.and_eq_true, Bool.and_eq_true] at hp
    rw [Plan.ofStatement] at hl
    rw [Eval.statement]
    refine ⟨l, block hs hl fun inner a hs hl => ?_⟩
    obtain ⟨m, hinit, hl⟩ := hl
    -- what the first clause declares is seen by the other clauses and the body, and not behind
    obtain ⟨l₁, hx⟩ := ofClause init hf.1.1.1 hp.1.1.1 (hs.first hinit hl) hinit
    obtain ⟨m₁, m₂, hs', hpost, hloop⟩ := (hs.onward hx.opens).looped hl
      (ofTest condition hf.1.1.2 hp.1.1.2)
      (fun hs hl => inOwnScope hs hl (ofStatements body hf.2 hp.2))
    obtain ⟨l₂, hy⟩ := ofClause post hf.1.2 hp.1.2 hs' hpost
    exact ⟨l₂, hx.enclosed (hloop hy.encloses).discard⟩
  | .rangeLoop names iterable body =>
    rw [FunctionFree.statement, Bool.and_eq_true] at hf
    rw [Placed.statement, Bool.and_eq_true] at hp
    rw [Plan.ofStatement] at hl
    rw [Eval.statement]
    have hx : G.Carries n S busy (l :: C) (l :: C) a b (do
        let v ← Eval.expr G.setting n iterable
        Eval.eachEntry names (Eval.inScope (Eval.statements G.setting n body))
          (← Eval.entriesOf v)) fun _ => [] := block hs hl fun inner a hs hl => ?_
    · have hx := hx.discard (o := Value.nil)
      simp only [bind_assoc] at hx
      exact ⟨l, hx⟩
    · obtain ⟨hnames, m, hl, hrest⟩ := Plan.laid_atMost hl
      have hx := ofExpr iterable hf.1 hp.1 (hs.first hl hrest) hl
      obtain ⟨m', hget, hl⟩ := hrest
      exact hs.eachEntry hnames hx hget hl fun _ _ _ _ _ hs hl =>
        inOwnScope hs hl (ofStatements body hf.2 hp.2)
  | .expr e =>
    rw [FunctionFree.statement] at hf
    rw [Placed.statement] at hp
    rw [Plan.ofStatement] at hl
    rw [Eval.statement]
    exact ⟨l, ofExpr e hf hp hs hl⟩
  | .setAttr .. | .ret _ | .func _ =>
    rw [FunctionFree.statement] at hf
    cases hf

end

end Carries

end Ground

end ScriptEngine
