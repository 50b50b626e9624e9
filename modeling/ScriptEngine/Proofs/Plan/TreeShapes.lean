import ScriptEngine.Proofs.Plan.Shape

/-!
# Shapes of trees

The plans of all trees lead from shape to shape as their constructs say, whatever breaks and
continues they contain. If none of these lies inside an operand of an unfinished expression, each
arrives at the shape that its loop expects.

## Main results

* `ScriptEngine.Plan.shapes_ofExpr`: the plan of an expression leaves one more value;
* `ScriptEngine.Plan.shapes_ofStatement`: the plan of a statement;
* `ScriptEngine.Plan.shapes_ofStatements`: the plan of a list of statements leaves one more value;
* `ScriptEngine.Plan.returns_ofStatements`: the plan of a block that ends with a return does so too.
-/

namespace ScriptEngine.Plan

/-- **What is known where a tree lies**: no less lies on the stack than a break or a continue
expects and, outside the operands of unfinished expressions, no more. -/
def Ready (strict busy : Bool) (exit : Option Shape) (σ : Shape) : Prop :=
  ∀ ρ, exit = some ρ → ρ.length ≤ σ.length ∧ (strict = true → busy = false → σ = ρ)

namespace Ready

variable {strict busy : Bool} {exit : Option Shape} {σ : Shape}

/-- Inside an operand more lies on the stack. -/
theorem operand {k : Kind} (h : Ready strict busy exit σ) : Ready strict true exit (k :: σ) :=
  fun ρ hρ => ⟨Nat.le_succ_of_le (h ρ hρ).1, fun _ hb => by cases hb⟩

/-- The bodies of a switch hold its subject. -/
theorem hold (h : Ready strict busy exit σ) :
    Ready strict busy (exit.map (.value :: ·)) (.value :: σ) := by
  intro ρ hρ
  obtain ⟨ρ', he, rfl⟩ := Option.map_eq_some_iff.mp hρ
  obtain ⟨hle, hσ⟩ := h ρ' he
  exact ⟨Nat.succ_le_succ hle, fun hs hb => congrArg (Kind.value :: ·) (hσ hs hb)⟩

/-- The body of a loop. -/
theorem loop (strict : Bool) (σ : Shape) : Ready strict false (some σ) σ := by
  intro ρ hρ
  obtain rfl := Option.some.inj hρ
  exact ⟨Nat.le_refl _, fun _ _ => rfl⟩

/-- The body of a function. -/
theorem function (strict busy : Bool) (σ : Shape) : Ready strict busy none σ := by
  intro ρ hρ
  cases hρ

/-- The operand of a compound assignment lies above the value of its variable. -/
theorem or (h : Ready strict busy exit σ) (reads : Bool) :
    Ready strict (busy || reads) exit (if reads then .value :: σ else σ) := by
  cases reads with
  | true =>
    rw [Bool.or_true]
    exact h.operand
  | false =>
    rw [Bool.or_false]
    exact h

end Ready

/-- The two halves of a condition that matters under a premise. -/
theorem placed_and {P : Prop} {a b : Bool} (h : P → (a && b) = true) :
    (P → a = true) ∧ (P → b = true) :=
  ⟨fun hp => (Bool.and_eq_true_iff.mp (h hp)).1, fun hp => (Bool.and_eq_true_iff.mp (h hp)).2⟩

/-! ### Pieces of plans -/

variable {strict busy : Bool} {exit : Option Shape} {σ τ : Shape}

theorem shapes_atMost {limit count : Nat} {e : CompileError} {p : Plan}
    (h : count ≤ limit → p.Shapes strict exit σ τ) :
    (atMost limit count e p).Shapes strict exit σ τ := by
  unfold atMost
  split
  · trivial
  · exact h (by omega)

/-- An operation on the entries on top. -/
theorem shapes_instr (o : Operation) (ρ : Shape) :
    (instr o).Shapes strict exit (o.effect.1 ++ ρ) (o.effect.2 ++ ρ) :=
  ⟨ρ, rfl, fun _ => rfl⟩

/-- Building a container of as many items as fit into a word. -/
theorem shapes_build {o : Operation} {n : Nat} (σ : Shape)
    (ho : o.effect = (values n.toUInt16.toNat, [.value])) (hn : n ≤ 0xffff) :
    (instr o).Shapes strict exit (values n ++ σ) (.value :: σ) := by
  refine ⟨σ, ?_, fun _ => ?_⟩
  · rw [ho, show n.toUInt16.toNat = n from Nat.mod_eq_of_lt (by omega)]
  · rw [ho]
    rfl

theorem shapes_call (bound : Bool) {n : Nat} (σ : Shape) (hn : n ≤ Generate.argumentLimit) :
    (instr (.call bound n.toUInt16)).Shapes strict exit (values n ++ .value :: σ)
      (.value :: σ) := by
  have hn' : n.toUInt16.toNat = n :=
    Nat.mod_eq_of_lt (by simp [Generate.argumentLimit] at hn; omega)
  refine ⟨σ, ?_, fun _ => rfl⟩
  rw [values_append_cons, Operation.effect, hn']

theorem shapes_bindings (names : List String) (σ : Shape) :
    (bindings names).Shapes strict exit (values names.length ++ σ) σ := by
  induction names with
  | nil => exact rfl
  | cons name rest ih =>
    refine ⟨values rest.length ++ σ, ?_, ih⟩
    split
    · exact shapes_instr .popTop _
    · exact rfl

theorem returns_seq {x y : Plan} (h : y.returns = true) : (seq x y).returns = true := by
  cases y with
  | skip => cases h
  | _ => exact h

/-- **The plan of a block that ends with a return** ends with a return. -/
theorem returns_ofStatements : ∀ {b : Block}, b.endsWithReturn = true →
    (ofStatements b).returns = true
  | [], h => by cases h
  | [s], h => by
    cases s with
    | ret value => rfl
    | _ => cases h
  | s :: s' :: rest, h => by
    have ih := returns_ofStatements (b := s' :: rest) (by
      rw [← h]
      unfold Block.endsWithReturn
      rw [List.getLast?_cons_cons])
    exact returns_seq (returns_seq ih)

/-! ### Trees -/

mutual

/-- **Expressions** leave one more value. -/
theorem shapes_ofExpr (bound : Bool) (e : Expr) {busy : Bool} {exit : Option Shape} (σ : Shape)
    (hx : Ready strict busy exit σ) (hp : strict = true → Placed.expr busy e = true) :
    (ofExpr bound e).Shapes strict exit σ (.value :: σ) := by
  match e with
  | .nil => exact shapes_instr .pushNil σ
  | .bool b => exact shapes_instr (.pushBool b) σ
  | .int _ => exact rfl
  | .float _ => exact rfl
  | .str _ => exact rfl
  | .ident _ => exact rfl
  | .template pieces =>
    rw [ofExpr]
    refine shapes_atMost fun hn => ?_
    exact ⟨_, shapes_ofFragments pieces σ hx hp, shapes_build σ rfl hn⟩
  | .unary op operand =>
    rw [ofExpr]
    exact ⟨_, shapes_ofExpr false operand σ hx hp, shapes_instr (.unary op) σ⟩
  | .binary op left right =>
    obtain ⟨hl, hr⟩ := placed_and hp
    have hl := shapes_ofExpr false left σ hx hl
    have hr := shapes_ofExpr false right (.value :: σ) hx.operand hr
    rw [ofExpr.eq_def]
    cases op with
    | and => exact ⟨hl, hr, rfl⟩
    | or => exact ⟨hl, hr, rfl⟩
    | _ => exact ⟨_, hl, _, hr, shapes_instr (.binary _) σ⟩
  | .ternary condition ifTrue ifFalse =>
    obtain ⟨hp, hf⟩ := placed_and hp
    obtain ⟨hc, ht⟩ := placed_and hp
    rw [ofExpr]
    exact ⟨shapes_ofExpr false condition σ hx hc, shapes_ofExpr false ifTrue σ hx ht,
      shapes_ofExpr false ifFalse σ hx hf⟩
  | .cond condition consequence alternative =>
    obtain ⟨hp, ha⟩ := placed_and hp
    obtain ⟨hc, hs⟩ := placed_and hp
    rw [ofExpr]
    exact ⟨shapes_ofExpr false condition σ hx hc, shapes_ofStatements consequence σ hx hs,
      shapes_ofBlock? alternative σ hx ha⟩
  | .switch subject cases default =>
    obtain ⟨hp, hd⟩ := placed_and hp
    obtain ⟨hs, hc⟩ := placed_and hp
    rw [ofExpr]
    exact ⟨shapes_ofExpr false subject σ hx hs, shapes_ofCases cases σ hx hc,
      shapes_ofBlock? default _ hx.hold hd, rfl⟩
  | .call callee args =>
    obtain ⟨hc, ha⟩ := placed_and hp
    rw [ofExpr]
    refine ⟨_, shapes_ofExpr false callee σ hx hc, shapes_atMost fun hn => ?_⟩
    exact ⟨_, shapes_ofExprs args _ hx.operand ha, shapes_call bound σ hn⟩
  | .method object name args =>
    obtain ⟨ho, ha⟩ := placed_and hp
    rw [ofExpr]
    refine ⟨_, shapes_ofExpr false object σ hx ho, _, ⟨σ, rfl, rfl⟩, shapes_atMost fun hn => ?_⟩
    exact ⟨_, shapes_ofExprs args _ hx.operand ha, shapes_call bound σ hn⟩
  | .attr object name =>
    rw [ofExpr]
    exact ⟨_, shapes_ofExpr false object σ hx hp, σ, rfl, rfl⟩
  | .index object index =>
    obtain ⟨ho, hi⟩ := placed_and hp
    rw [ofExpr]
    exact ⟨_, shapes_ofExpr false object σ hx ho, _,
      shapes_ofExpr false index _ hx.operand hi, shapes_instr .getItem σ⟩
  | .slice object start stop =>
    obtain ⟨hp, hs⟩ := placed_and hp
    obtain ⟨ho, hst⟩ := placed_and hp
    rw [ofExpr]
    refine ⟨_, shapes_ofExpr false object σ hx ho, _,
      shapes_ofOption stop hx.operand hst ?_ fun _ => rfl, _,
      shapes_ofOption start hx.operand.operand hs rfl fun _ => rfl, shapes_instr .slice σ⟩
    exact ⟨_, shapes_instr .duplicate σ, shapes_instr .length (.value :: σ)⟩
  | .list items =>
    rw [ofExpr]
    refine shapes_atMost fun hn => ?_
    exact ⟨_, shapes_ofExprs items σ hx hp, shapes_build σ rfl hn⟩
  | .set items =>
    rw [ofExpr]
    refine shapes_atMost fun hn => ?_
    exact ⟨_, shapes_ofExprs items σ hx hp, shapes_build σ rfl hn⟩
  | .map items =>
    rw [ofExpr]
    refine shapes_atMost fun hn => ?_
    refine ⟨_, shapes_ofEntries items σ hx hp, σ, ?_, fun _ => rfl⟩
    rw [Operation.effect, show items.length.toUInt16.toNat = items.length from
      Nat.mod_eq_of_lt (by omega)]
  | .contains item container negated =>
    obtain ⟨hc, hi⟩ := placed_and hp
    rw [ofExpr]
    exact ⟨_, shapes_ofExpr false container σ hx hc, _,
      shapes_ofExpr false item _ hx.operand hi, shapes_instr (.contains negated) σ⟩
  | .pipe ss =>
    rw [ofExpr]
    refine ⟨σ, rfl, ?_⟩
    split
    · trivial
    · rename_i hlen
      exact shapes_ofPipeline ss σ (by omega) hx hp
  | .func f => exact shapes_ofFunc f σ hp

/-- **Several expressions** leave as many values. -/
theorem shapes_ofExprs (es : List Expr) {busy : Bool} {exit : Option Shape} (σ : Shape)
    (hx : Ready strict busy exit σ) (hp : strict = true → Placed.exprs busy es = true) :
    (ofExprs es).Shapes strict exit σ (values es.length ++ σ) := by
  match es with
  | [] => exact rfl
  | e :: rest =>
    obtain ⟨he, hr⟩ := placed_and hp
    rw [ofExprs, List.length_cons, ← values_append_cons]
    exact ⟨_, shapes_ofExpr false e σ hx he, shapes_ofExprs rest _ hx.operand hr⟩

/-- An expression, or what stands for a missing one. -/
theorem shapes_ofOption (e : Option Expr) {busy : Bool} {exit : Option Shape} {σ τ : Shape}
    {missing : Plan} (hx : Ready strict busy exit σ)
    (hp : strict = true → Placed.option busy e = true)
    (hm : missing.Shapes strict exit σ τ) (hτ : e.isSome → τ = .value :: σ) :
    (ofOption e missing).Shapes strict exit σ τ := by
  match e with
  | some e =>
    rw [ofOption, hτ rfl]
    exact shapes_ofExpr false e σ hx hp
  | none => exact hm

/-- Keys and values. -/
theorem shapes_ofEntries (es : List (Expr × Expr)) {busy : Bool} {exit : Option Shape} (σ : Shape)
    (hx : Ready strict busy exit σ) (hp : strict = true → Placed.entries busy es = true) :
    (ofEntries es).Shapes strict exit σ (values (es.length * 2) ++ σ) := by
  match es with
  | [] => exact rfl
  | (key, value) :: rest =>
    obtain ⟨hp, hr⟩ := placed_and hp
    obtain ⟨hk, hv⟩ := placed_and hp
    rw [ofEntries, List.length_cons, show (rest.length + 1) * 2 = rest.length * 2 + 1 + 1 by omega,
      ← values_append_cons, ← values_append_cons]
    exact ⟨_, shapes_ofExpr false key σ hx hk, _,
      shapes_ofExpr false value _ hx.operand hv, shapes_ofEntries rest _ hx.operand.operand hr⟩

/-- The pieces of a template leave as many values. -/
theorem shapes_ofFragments (ps : List Fragment) {busy : Bool} {exit : Option Shape} (σ : Shape)
    (hx : Ready strict busy exit σ) (hp : strict = true → Placed.fragments busy ps = true) :
    (ofFragments ps).Shapes strict exit σ (values ps.length ++ σ) := by
  match ps with
  | [] => exact rfl
  | .text s :: rest =>
    rw [ofFragments, List.length_cons, ← values_append_cons]
    exact ⟨_, rfl, shapes_ofFragments rest _ hx.operand hp⟩
  | .hole e :: rest =>
    obtain ⟨he, hr⟩ := placed_and hp
    rw [ofFragments, List.length_cons, ← values_append_cons]
    exact ⟨_, shapes_ofOption e hx he rfl fun _ => rfl, shapes_ofFragments rest _ hx.operand hr⟩

/-- A pipe with at least one stage leaves one more value. -/
theorem shapes_ofPipeline (ss : List Expr) {busy : Bool} {exit : Option Shape} (σ : Shape)
    (hs : 0 < ss.length) (hx : Ready strict busy exit σ)
    (hp : strict = true → Placed.pipeline busy ss = true) :
    (ofPipeline ss).Shapes strict exit σ (.value :: σ) := by
  match ss with
  | first :: rest =>
    obtain ⟨hf, hr⟩ := placed_and hp
    rw [ofPipeline]
    exact ⟨_, shapes_ofExpr false first σ hx hf, shapes_ofStages rest σ hx.operand hr⟩

/-- The later stages of a pipe replace the value so far. -/
theorem shapes_ofStages (ss : List Expr) {exit : Option Shape} (σ : Shape)
    (hx : Ready strict true exit (.value :: σ))
    (hp : strict = true → Placed.stages ss = true) :
    (ofStages ss).Shapes strict exit (.value :: σ) (.value :: σ) := by
  match ss with
  | [] => exact rfl
  | stage :: rest =>
    obtain ⟨hs, hr⟩ := placed_and hp
    rw [ofStages]
    exact ⟨_, shapes_ofExpr true stage _ hx hs, _, shapes_instr .exchange σ, _,
      shapes_call false (n := 1) σ (by decide), shapes_ofStages rest σ hx hr⟩

/-- The cases of a switch. -/
theorem shapes_ofCases (cs : List Case) {busy : Bool} {exit : Option Shape} (σ : Shape)
    (hx : Ready strict busy exit σ) (hp : strict = true → Placed.cases busy cs = true) :
    (ofCases cs).Shapes strict exit σ := by
  match cs with
  | [] => trivial
  | .mk tests body :: rest =>
    obtain ⟨hp, hr⟩ := placed_and hp
    obtain ⟨ht, hb⟩ := placed_and hp
    rw [ofCases]
    exact ⟨shapes_ofTests tests σ hx ht, shapes_ofBlock? body _ hx.hold hb,
      shapes_ofCases rest σ hx hr⟩

/-- The tests of a case lie above the subject and its copy. -/
theorem shapes_ofTests (es : List Expr) {busy : Bool} {exit : Option Shape} (σ : Shape)
    (hx : Ready strict busy exit σ) (hp : strict = true → Placed.exprs true es = true) :
    (ofTests es).Shapes strict exit σ := by
  match es with
  | [] => trivial
  | e :: rest =>
    obtain ⟨he, hr⟩ := placed_and hp
    rw [ofTests]
    exact ⟨shapes_ofExpr false e _ hx.operand.operand he, shapes_ofTests rest σ hx hr⟩

/-- A block leaves one more value, and so does what stands for a missing one. -/
theorem shapes_ofBlock? (body : Option (List Statement)) {busy : Bool} {exit : Option Shape}
    (σ : Shape) (hx : Ready strict busy exit σ)
    (hp : strict = true → Placed.block? busy body = true) :
    (ofBlock? body).Shapes strict exit σ (.value :: σ) := by
  match body with
  | some body =>
    rw [ofBlock?]
    exact shapes_ofStatements body σ hx hp
  | none => exact shapes_instr .pushNil σ

/-- A function leaves one more value, and its body does so too. -/
theorem shapes_ofFunc (f : Func) {exit : Option Shape} (σ : Shape)
    (hp : strict = true → Placed.func f = true) :
    (ofFunc f).Shapes strict exit σ (.value :: σ) := by
  match f with
  | .mk name params body =>
    rw [ofFunc]
    exact ⟨shapes_ofStatements body [] (.function strict false []) hp, returns_ofStatements, rfl⟩

/-- **A list of statements** leaves one more value. -/
theorem shapes_ofStatements (ss : List Statement) {busy : Bool} {exit : Option Shape} (σ : Shape)
    (hx : Ready strict busy exit σ) (hp : strict = true → Placed.statements busy ss = true) :
    (ofStatements ss).Shapes strict exit σ (.value :: σ) := by
  match ss with
  | [] => exact shapes_instr .pushNil σ
  | [s] =>
    obtain ⟨hs, -⟩ := placed_and hp
    rw [ofStatements]
    by_cases he : s.isExpression = true
    · refine ⟨_, shapes_ofStatement s σ (.value :: σ) hx hs fun _ => by rw [if_pos he], ?_⟩
      simp only [he, Bool.not_true, Bool.false_and, Bool.false_eq_true, if_false]
      exact rfl
    · by_cases hr : s.isReturn = true
      · refine ⟨_, shapes_ofStatement s σ (.value :: σ) hx hs fun h => by simp [h] at hr, ?_⟩
        simp only [hr, Bool.not_true, Bool.and_false, Bool.false_eq_true, if_false]
        exact rfl
      · refine ⟨_, shapes_ofStatement s σ σ hx hs fun _ => by rw [if_neg he], ?_⟩
        simp only [he, hr, Bool.not_false, Bool.and_true, if_true]
        exact shapes_instr .pushNil σ
  | s :: s' :: rest =>
    obtain ⟨hs, hr⟩ := placed_and hp
    rw [ofStatements.eq_3 _ _ (List.cons_ne_nil s' rest)]
    refine ⟨_, shapes_ofStatement s σ _ hx hs fun _ => rfl, σ, ?_,
      shapes_ofStatements (s' :: rest) σ hx hr⟩
    split
    · exact shapes_instr .popTop σ
    · exact rfl

/-- A statement in the head of a loop leaves the shape as it is. -/
theorem shapes_ofClause (s : Option Statement) {busy : Bool} {exit : Option Shape} (σ : Shape)
    (hx : Ready strict busy exit σ) (hp : strict = true → Placed.clause busy s = true) :
    (ofClause s).Shapes strict exit σ σ := by
  match s with
  | none => exact rfl
  | some s =>
    rw [ofClause]
    refine ⟨_, shapes_ofStatement s σ _ hx hp fun _ => rfl, ?_⟩
    split
    · exact shapes_instr .popTop σ
    · exact rfl

/-- **Statements.** Nothing is said about the shape behind a return, which is never reached. -/
theorem shapes_ofStatement (s : Statement) {busy : Bool} {exit : Option Shape} (σ τ : Shape)
    (hx : Ready strict busy exit σ) (hp : strict = true → Placed.statement busy s = true)
    (hτ : s.isReturn = false → τ = if s.isExpression then .value :: σ else σ) :
    (ofStatement s).Shapes strict exit σ τ := by
  match s with
  | .var name value =>
    rw [ofStatement, hτ rfl]
    exact ⟨_, shapes_ofExpr false value σ hx hp, rfl⟩
  | .const name value =>
    rw [ofStatement, hτ rfl]
    exact ⟨_, shapes_ofExpr false value σ hx hp, rfl⟩
  | .multiVar names value =>
    rw [ofStatement, hτ rfl]
    refine shapes_atMost fun hn => ?_
    refine ⟨_, shapes_ofExpr false value σ hx hp, values names.length ++ σ, ⟨σ, rfl, fun _ => ?_⟩,
      rfl⟩
    rw [Operation.effect, show names.length.toUInt16.toNat = names.length from
      Nat.mod_eq_of_lt (by omega)]
  | .assign name op value =>
    rw [hτ rfl]
    have hr := hx.or op.operation?.isSome
    rw [ofStatement]
    have hv := shapes_ofExpr false value _ hr hp
    cases ho : op.operation? with
    | none =>
      rw [ho] at hv
      exact ⟨hv, rfl⟩
    | some operation =>
      rw [ho] at hv
      exact ⟨⟨_, hv, shapes_instr (.binary operation) σ⟩, rfl⟩
  | .assignIndex object index op value =>
    obtain ⟨hp, hi⟩ := placed_and hp
    obtain ⟨hv, ho⟩ := placed_and hp
    rw [ofStatement, hτ rfl]
    split
    · trivial
    · exact ⟨_, shapes_ofExpr false value σ hx hv, _,
        shapes_ofExpr false object _ hx.operand ho, _,
        shapes_ofExpr false index _ hx.operand.operand hi, shapes_instr .setItem σ⟩
  | .setAttr object name value =>
    obtain ⟨hv, ho⟩ := placed_and hp
    rw [ofStatement, hτ rfl]
    exact ⟨_, shapes_ofExpr false value σ hx hv, _,
      shapes_ofExpr false object _ hx.operand ho, rfl⟩
  | .step name op =>
    rw [hτ rfl]
    unfold ofStatement
    exact ⟨⟨_, rfl, shapes_instr (.binary .add) σ⟩, rfl⟩
  | .ret value =>
    rw [ofStatement]
    refine ⟨σ, rfl, if value.isSome then .value :: σ else σ, ?_, σ, ?_, fun h => by cases h⟩
    · cases value with
      | none => exact rfl
      | some e => exact shapes_ofExpr false e σ hx hp
    · cases value <;> rfl
  | .brk =>
    intro ρ hρ
    obtain ⟨hle, hσ⟩ := hx ρ hρ
    exact ⟨hle, fun hs => hσ hs (by simpa [Placed.statement] using hp hs)⟩
  | .cont =>
    intro ρ hρ
    obtain ⟨hle, hσ⟩ := hx ρ hρ
    exact ⟨hle, fun hs => hσ hs (by simpa [Placed.statement] using hp hs)⟩
  | .endlessLoop body =>
    rw [ofStatement, hτ rfl]
    exact ⟨rfl, shapes_ofStatements body σ (.loop strict σ) hp, rfl, rfl⟩
  | .whileLoop condition body =>
    obtain ⟨hc, hb⟩ := placed_and hp
    rw [ofStatement, hτ rfl]
    exact ⟨shapes_ofExpr false condition σ hx hc, shapes_ofStatements body σ (.loop strict σ) hb,
      rfl, rfl⟩
  | .forLoop init condition post body =>
    obtain ⟨hp, hb⟩ := placed_and hp
    obtain ⟨hp, hpost⟩ := placed_and hp
    obtain ⟨hi, hc⟩ := placed_and hp
    rw [ofStatement, hτ rfl]
    refine ⟨σ, shapes_ofClause init σ hx hi, ?_, shapes_ofStatements body σ (.loop strict σ) hb,
      shapes_ofClause post σ hx hpost, rfl⟩
    cases condition with
    | none => exact rfl
    | some e => exact shapes_ofExpr false e σ hx hc
  | .rangeLoop names iterable body =>
    obtain ⟨hi, hb⟩ := placed_and hp
    rw [ofStatement, hτ rfl]
    refine shapes_atMost fun hn => ?_
    exact ⟨_, shapes_ofExpr false iterable σ hx hi, _, shapes_instr .getIter σ, hn, rfl,
      shapes_bindings names _, shapes_ofStatements body _ (.loop strict _) hb⟩
  | .func (.mk none _ _) => trivial
  | .func (.mk (some name) params body) =>
    rw [ofStatement, hτ rfl]
    exact ⟨_, ⟨shapes_ofStatements body [] (.function strict false []) hp, returns_ofStatements,
      rfl⟩, rfl⟩
  | .expr e =>
    rw [ofStatement, hτ rfl]
    exact shapes_ofExpr false e σ hx hp

end

end ScriptEngine.Plan
