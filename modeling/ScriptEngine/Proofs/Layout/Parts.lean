import ScriptEngine.Proofs.Layout.Basic

/-!
# The parts of a plan

A plan is made of plans, those of the functions in it included. Where the code of a plan lies, the
code of each of its parts lies as well: in the same code, or in that of a function.

## Main definitions

* `ScriptEngine.Plan.parts`: a plan and all plans in it.

## Main results

* `ScriptEngine.Plan.Laid.part`: the code of each part lies somewhere.
-/

namespace ScriptEngine

mutual

/-- **A plan and all plans in it.** -/
def Plan.parts : Plan → List Plan
  | .seq x y => .seq x y :: (x.parts ++ y.parts)
  | .update name reads value => .update name reads value :: value.parts
  | .stages body => .stages body :: body.parts
  | .branch condition ifTrue ifFalse =>
    .branch condition ifTrue ifFalse :: (condition.parts ++ ifTrue.parts ++ ifFalse.parts)
  | .shortCircuit both left right => .shortCircuit both left right :: (left.parts ++ right.parts)
  | .switch subject arms default =>
    .switch subject arms default :: (subject.parts ++ arms.parts ++ default.parts)
  | .block body => .block body :: body.parts
  | .loop tested condition body post =>
    .loop tested condition body post :: (condition.parts ++ body.parts ++ post.parts)
  | .iterate names bind body => .iterate names bind body :: (bind.parts ++ body.parts)
  | .func f body => .func f body :: body.parts
  -- the other plans have no parts but themselves
  | p => [p]

/-- The plans in the cases of a switch. -/
def Arms.parts : Arms → List Plan
  | .nil => []
  | .arm tests body rest => tests.parts ++ body.parts ++ rest.parts

/-- The plans in the tests of a case. -/
def Tests.parts : Tests → List Plan
  | .nil => []
  | .test value rest => value.parts ++ rest.parts

end

/-- **The code of a plan lies somewhere** in a code, or in that of a function. -/
def Site.Lays (S : Site) (p : Plan) : Prop :=
  ∃ (S' : Site) (a b : Point), p.Laid S' a b ∧
    (S'.code = S.code ∨ ∃ f ∈ S.functions, S'.code = f.code)

namespace Site

variable {S : Site} {p : Plan}

/-- What lies in a code does not depend on the scope and the exits. -/
theorem Lays.of_code {S' : Site} (h : S'.Lays p) (hc : S'.code = S.code)
    (hf : S'.functions = S.functions) : S.Lays p := by
  obtain ⟨S'', a, b, hp, h⟩ := h
  rw [hc, hf] at h
  exact ⟨S'', a, b, hp, h⟩

/-- What lies in the code of a function or in that of another one. -/
theorem Lays.of_function {S' : Site} (h : S'.Lays p) {f : Function} (hm : f ∈ S.functions)
    (hc : S'.code = f.code) (hf : S'.functions = S.functions) : S.Lays p := by
  obtain ⟨S'', a, b, hp, h⟩ := h
  rw [hc, hf] at h
  refine ⟨S'', a, b, hp, .inr ?_⟩
  rcases h with h | h
  · exact ⟨f, hm, h⟩
  · exact h

end Site

variable {p : Plan}

mutual

/-- **The code of each part of a plan lies somewhere.** -/
theorem Plan.Laid.part : (q : Plan) → ∀ {S : Site} {a b : Point}, q.Laid S a b → p ∈ q.parts →
    S.Lays p
  | .seq x y, S, a, b, h, hp => by
    rcases List.mem_cons.mp hp with rfl | hp
    · exact ⟨S, a, b, h, .inl rfl⟩
    obtain ⟨m, hx, hy⟩ := h
    rcases List.mem_append.mp hp with hp | hp
    · exact Plan.Laid.part x hx hp
    · exact Plan.Laid.part y hy hp
  | .update name reads value, S, a, b, h, hp => by
    rcases List.mem_cons.mp hp with rfl | hp
    · exact ⟨S, a, b, h, .inl rfl⟩
    obtain ⟨_, _, -, -, _, -, _, hv, -⟩ := h
    exact Plan.Laid.part value hv hp
  | .stages body, S, a, b, h, hp => by
    rcases List.mem_cons.mp hp with rfl | hp
    · exact ⟨S, a, b, h, .inl rfl⟩
    exact Plan.Laid.part body h hp
  | .branch condition ifTrue ifFalse, S, a, b, h, hp => by
    rcases List.mem_cons.mp hp with rfl | hp
    · exact ⟨S, a, b, h, .inl rfl⟩
    obtain ⟨_, _, _, _, hc, -, ht, -, hf⟩ := h
    rw [List.mem_append, List.mem_append] at hp
    obtain (hp | hp) | hp := hp
    · exact Plan.Laid.part condition hc hp
    · exact Plan.Laid.part ifTrue ht hp
    · exact Plan.Laid.part ifFalse hf hp
  | .shortCircuit both left right, S, a, b, h, hp => by
    rcases List.mem_cons.mp hp with rfl | hp
    · exact ⟨S, a, b, h, .inl rfl⟩
    obtain ⟨_, _, _, _, _, hl, -, -, hr, -⟩ := h
    rcases List.mem_append.mp hp with hp | hp
    · exact Plan.Laid.part left hl hp
    · exact Plan.Laid.part right hr hp
  | .switch subject arms default, S, a, b, h, hp => by
    rcases List.mem_cons.mp hp with rfl | hp
    · exact ⟨S, a, b, h, .inl rfl⟩
    obtain ⟨_, _, _, _, _, _, _, hs, ht, -, hb, hd, -⟩ := h
    rw [List.mem_append, List.mem_append] at hp
    obtain (hp | hp) | hp := hp
    · exact Plan.Laid.part subject hs hp
    · exact Arms.part (R := S.hold) rfl rfl arms ht hb hp
    · exact (Plan.Laid.part (S := S.hold) default hd hp).of_code rfl rfl
  | .block body, S, a, b, h, hp => by
    rcases List.mem_cons.mp hp with rfl | hp
    · exact ⟨S, a, b, h, .inl rfl⟩
    obtain ⟨inner, _, -, h⟩ := h
    exact (Plan.Laid.part (S := { S with scope := inner }) body h hp).of_code rfl rfl
  | .loop tested condition body post, S, a, b, h, hp => by
    rcases List.mem_cons.mp hp with rfl | hp
    · exact ⟨S, a, b, h, .inl rfl⟩
    obtain ⟨_, _, _, _, _, _, hc, -, hb, -, hs, -⟩ := h
    rw [List.mem_append, List.mem_append] at hp
    obtain (hp | hp) | hp := hp
    · exact Plan.Laid.part condition hc hp
    · exact (Plan.Laid.part (S := S.inLoop _ _) body hb hp).of_code rfl rfl
    · exact Plan.Laid.part post hs hp
  | .iterate names bind body, S, a, b, h, hp => by
    rcases List.mem_cons.mp hp with rfl | hp
    · exact ⟨S, a, b, h, .inl rfl⟩
    obtain ⟨_, _, _, _, _, _, -, hn, hb, -⟩ := h
    rcases List.mem_append.mp hp with hp | hp
    · exact Plan.Laid.part bind hn hp
    · exact (Plan.Laid.part (S := S.inLoop _ _) body hb hp).of_code rfl rfl
  | .func f body, S, a, b, h, hp => by
    rcases List.mem_cons.mp hp with rfl | hp
    · exact ⟨S, a, b, h, .inl rfl⟩
    obtain ⟨-, -, _, _, -, block, _, -, code, _, _, -, -, -, -, hb, -, hf, -⟩ := h
    exact (Plan.Laid.part
      (S := { S with code, scope := block, exits := none, inFunction := true }) body hb
        hp).of_function
      (Array.mem_of_getElem? hf) rfl rfl
  | .skip, S, a, b, h, hp
  | .instr _, S, a, b, h, hp
  | .const _ _, S, a, b, h, hp
  | .attr _ _, S, a, b, h, hp
  | .load _, S, a, b, h, hp
  | .declare _ _, S, a, b, h, hp
  | .declareAll _, S, a, b, h, hp
  | .refuse _, S, a, b, h, hp
  | .outsidePipe, S, a, b, h, hp
  | .insideFunction, S, a, b, h, hp
  | .leave _, S, a, b, h, hp => by
    obtain rfl := List.mem_singleton.mp hp
    exact ⟨S, a, b, h, .inl rfl⟩

/-- The same for the plans in the cases of a switch. -/
theorem Arms.part {S R : Site} {done : Nat} (hc : R.code = S.code)
    (hf : R.functions = S.functions) : (arms : Arms) → ∀ {targets others : List Nat}
      {a b c d : Point}, arms.TestsLaid S targets a b → arms.BodiesLaid R others done c d →
        p ∈ arms.parts → S.Lays p
  | .nil, _, _, _, _, _, _, _, _, hp => absurd hp List.not_mem_nil
  | .arm tests body rest, _, _, _, _, _, _, ht, hb, hp => by
    obtain ⟨_, _, _, -, ht, hts⟩ := ht
    obtain ⟨_, _, _, -, hb, -, hbs⟩ := hb
    obtain hp : p ∈ tests.parts ++ body.parts ++ rest.parts := hp
    rw [List.mem_append, List.mem_append] at hp
    obtain (hp | hp) | hp := hp
    · exact Tests.part tests ht hp
    · exact (Plan.Laid.part body hb hp).of_code hc hf
    · exact Arms.part hc hf rest hts hbs hp

/-- The same for the plans in the tests of a case. -/
theorem Tests.part {S : Site} {target : Nat} : (tests : Tests) → ∀ {a b : Point},
    tests.Laid S target a b → p ∈ tests.parts → S.Lays p
  | .nil, _, _, _, hp => absurd hp List.not_mem_nil
  | .test value rest, _, _, h, hp => by
    obtain ⟨_, _, _, _, -, hv, -, -, h⟩ := h
    rcases List.mem_append.mp hp with hp | hp
    · exact Plan.Laid.part value hv hp
    · exact Tests.part rest h hp

end

end ScriptEngine
