import ScriptEngine.Proofs.Code.Walk
import ScriptEngine.Proofs.Scope.Steps

/-!
# What a layout spans

The code of a plan is a sequence of complete instructions, during which scopes and functions are
only added.

## Main definitions

* `ScriptEngine.Site.Sees`: the scope of a site is known at a point;
* `ScriptEngine.Site.Spans`: complete instructions lie between two points.

## Main results

* `ScriptEngine.Plan.Laid.spans`: the code of a plan spans what lies between its points.
-/

namespace ScriptEngine

open ScopeTable

/-- **The scope of a site is known at a point.** -/
structure Site.Sees (S : Site) (a : Point) : Prop where
  wellFormed : a.table.WellFormed
  known : S.scope.index < a.table.scopes.size

/-- **Complete instructions lie between two points**, and the second point knows more. -/
structure Site.Spans (S : Site) (a b : Point) : Prop where
  walk : S.code.Walks (fun _ => True) a.offset b.offset
  grows : a.table.Grows b.table
  wellFormed : b.table.WellFormed
  count : a.count ≤ b.count
  lexical : a.table.Lexical → b.table.Lexical

namespace Site

variable {S : Site} {a b m : Point}

theorem Sees.refl (h : S.Sees a) : S.Spans a a :=
  ⟨.refl _, .refl _, h.wellFormed, Nat.le_refl _, id⟩

theorem Sees.from {quiet : Prop} (h : S.Sees a) : From quiet a.table S.scope a.table :=
  .refl h.wellFormed h.known

theorem Sees.of_from {quiet : Prop} {t : ScopeTable} (h : From quiet a.table S.scope t) :
    S.Sees (a.withTable t) :=
  ⟨h.wellFormed, h.known⟩

theorem Spans.of_from {quiet : Prop} {t : ScopeTable} (h : From quiet a.table S.scope t) :
    S.Spans a (a.withTable t) :=
  ⟨.refl _, h.grows, h.wellFormed, Nat.le_refl _, h.lexical⟩

theorem Spans.trans (h : S.Spans a m) (h' : S.Spans m b) : S.Spans a b :=
  ⟨h.walk.trans h'.walk, h.grows.trans h'.grows, h'.wellFormed, Nat.le_trans h.count h'.count,
    fun hl => h'.lexical (h.lexical hl)⟩

theorem Spans.sees (h : S.Spans a b) (hs : S.Sees a) : S.Sees b :=
  ⟨h.wellFormed, Nat.lt_of_lt_of_le hs.known h.grows.size⟩

theorem Spans.le (h : S.Spans a b) : a.offset ≤ b.offset :=
  h.walk.le

/-- What lies between two points does not depend on the exits. -/
theorem Spans.of_code {S' : Site} (h : S'.Spans a b) (hc : S'.code = S.code) : S.Spans a b :=
  ⟨hc ▸ h.walk, h.grows, h.wellFormed, h.count, h.lexical⟩

/-! ### Instructions -/

/-- The instruction at a point. -/
theorem At.has {op : Opcode} {operands : List Word} (h : S.At a op operands b) :
    S.code.Has ⟨a.offset, op, operands⟩ :=
  ⟨h.1, h.2.1⟩

theorem At.offset {op : Opcode} {operands : List Word} (h : S.At a op operands b) :
    b.offset = Instruction.stop ⟨a.offset, op, operands⟩ := by
  rw [h.2.2]
  show a.offset + (1 + operands.length) = a.offset + 1 + operands.length
  omega

theorem At.offset_lt {op : Opcode} {operands : List Word} (h : S.At a op operands b) :
    a.offset < b.offset := by
  rw [h.offset]
  exact Code.Has.offset_lt_stop ⟨a.offset, op, operands⟩

theorem At.table {op : Opcode} {operands : List Word} (h : S.At a op operands b) :
    b.table = a.table := by
  rw [h.2.2]
  rfl

theorem At.count {op : Opcode} {operands : List Word} (h : S.At a op operands b) :
    b.count = a.count := by
  rw [h.2.2]
  rfl

theorem At.walks {P : Instruction → Prop} {op : Opcode} {operands : List Word}
    (h : S.At a op operands b) (hP : P ⟨a.offset, op, operands⟩) :
    S.code.Walks P a.offset b.offset := by
  rw [h.offset]
  exact .single h.has hP

theorem At.spans {op : Opcode} {operands : List Word} (h : S.At a op operands b)
    (hs : S.Sees a) : S.Spans a b :=
  ⟨h.walks trivial, h.table ▸ .refl _, h.table ▸ hs.wellFormed, Nat.le_of_eq h.count.symm,
    fun hl => h.table ▸ hl⟩

theorem Forward.spans {op : Opcode} {target : Nat} (h : S.Forward a op target b)
    (hs : S.Sees a) : S.Spans a b := by
  obtain ⟨_, h, -⟩ := h
  exact h.spans hs

theorem Back.spans {target : Nat} (h : S.Back a target b) (hs : S.Sees a) : S.Spans a b := by
  obtain ⟨_, h, -⟩ := h
  exact h.spans hs

theorem Advance.spans {target names : Nat} (h : S.Advance a target names b) (hs : S.Sees a) :
    S.Spans a b := by
  obtain ⟨_, h, -⟩ := h
  exact h.spans hs

theorem ExitIf.spans {tested : Bool} {target : Nat} (h : S.ExitIf tested a target b)
    (hs : S.Sees a) : S.Spans a b := by
  unfold ExitIf at h
  split at h
  · exact Forward.spans h hs
  · exact h ▸ hs.refl

theorem Drops.spans : ∀ {n : Nat} {a b : Point}, S.Drops n a b → S.Sees a → S.Spans a b
  | 0, _, _, h, hs => h ▸ hs.refl
  | _ + 1, _, _, ⟨_, h, h'⟩, hs =>
    (h.spans hs).trans (Drops.spans h' ((h.spans hs).sees hs))

theorem Loads.spans {r : Resolution} (h : S.Loads r a b) (hs : S.Sees a) : S.Spans a b := by
  unfold Loads at h
  split at h
  all_goals exact At.spans h hs

theorem Stores.spans {r : Resolution} (h : S.Stores r a b) (hs : S.Sees a) : S.Spans a b := by
  unfold Stores at h
  split at h
  case h_4 => exact h.elim
  all_goals exact At.spans h hs

theorem SetsAll.spans : ∀ {symbols : List Symbol} {a b : Point}, S.SetsAll symbols a b →
    S.Sees a → S.Spans a b
  | [], _, _, h, hs => h ▸ hs.refl
  | _ :: _, _, _, ⟨_, h, h'⟩, hs =>
    (At.spans h hs).trans (SetsAll.spans h' ((At.spans h hs).sees hs))

/-! ### Names -/

/-- A name that was looked up. -/
theorem Sees.resolve (hs : S.Sees a) {name : String} {r : Resolution} {t : ScopeTable}
    (h : ScopeTable.resolve S.scope name a.table = .ok (some r) t) :
    From True a.table S.scope t ∧ t.InRange S.scope r ∧ r.symbol.name = name := by
  obtain ⟨hf, hr⟩ := (ensures_resolve name a.table hs.from).1 _ _ h
  exact ⟨hf, hr r rfl⟩

/-- A name that was declared. -/
theorem Sees.declare (hs : S.Sees a) {name : String} {constant : Bool} {symbol : Symbol}
    {t : ScopeTable} (h : ScopeTable.declare S.scope name constant a.table = .ok symbol t) :
    From False a.table S.scope t ∧ t.get? S.scope name = some symbol :=
  (ensures_declare id name constant a.table hs.from).1 _ _ h

/-- Several names that were declared. Each of them is known afterwards. -/
theorem Sees.declareEach : ∀ {names : List String} {a : Point}, S.Sees a →
    ∀ {symbols : List Symbol} {t : ScopeTable},
      ScopeTable.declareEach S.scope names a.table = .ok symbols t →
      From False a.table S.scope t ∧ ∀ symbol ∈ symbols, ∃ name, t.get? S.scope name = some symbol
  | [], a, hs, symbols, t, h => by
    obtain ⟨rfl, rfl⟩ := ScopeTable.of_declareEach_nil h
    exact ⟨hs.from, by simp⟩
  | name :: names, a, hs, symbols, t, h => by
    obtain ⟨symbol, t₁, rest, h₁, h₂, rfl⟩ := ScopeTable.of_declareEach_cons h
    obtain ⟨f₁, hn⟩ := hs.declare h₁
    obtain ⟨f₂, hall⟩ := Sees.declareEach (Sees.of_from f₁) (a := a.withTable t₁) h₂
    refine ⟨f₁.trans f₂, fun s hmem => ?_⟩
    rcases List.mem_cons.mp hmem with rfl | hmem
    · exact ⟨name, (f₂.grows.scope S.scope f₁.known).names name _ hn⟩
    · exact hall s hmem

theorem Passes.spans {name : String} (h : S.Passes name a b) (hs : S.Sees a) : S.Spans a b := by
  obtain ⟨r, t, hr, h⟩ := h
  obtain ⟨hf, -⟩ := hs.resolve hr
  refine (Spans.of_from hf).trans ?_
  rcases h with ⟨-, h⟩ | ⟨-, h⟩
  · exact At.spans h (Sees.of_from hf)
  · exact At.spans h (Sees.of_from hf)

theorem PassesAll.spans : ∀ {names : List String} {a b : Point}, S.PassesAll names a b →
    S.Sees a → S.Spans a b
  | [], _, _, h, hs => h ▸ hs.refl
  | _ :: _, _, _, ⟨_, h, h'⟩, hs =>
    (Passes.spans h hs).trans (PassesAll.spans h' ((Passes.spans h hs).sees hs))

theorem Instantiates.spans {k : Nat} {free : List Resolution} (h : S.Instantiates k free a b)
    (hs : S.Sees a) : S.Spans a b := by
  obtain ⟨_, -, h⟩ := h
  split at h
  · exact At.spans h hs
  · obtain ⟨-, m, h, h'⟩ := h
    exact (PassesAll.spans h hs).trans (At.spans h' ((PassesAll.spans h hs).sees hs))

/-- The site of a block. -/
theorem Sees.openScope (hs : S.Sees a) {kind : ScopeKind} {inner : ScopeId} {t : ScopeTable}
    (h : ScopeTable.openScope S.scope kind a.table = .ok inner t) :
    From True a.table S.scope t ∧ Site.Sees { S with scope := inner } (a.withTable t) ∧
      t.scope inner = { parent := some S.scope, kind } := by
  obtain ⟨hf, hi, -, hsc⟩ := (ensures_openScope kind a.table hs.from).1 _ _ h
  exact ⟨hf, ⟨hf.wellFormed, hi⟩, hsc⟩

/-- The site of the body of a function. -/
theorem Sees.enter (hs : S.Sees a) {f : Func} {inner : ScopeId} {t : ScopeTable}
    (h : Generate.enter f S.scope a.table = .ok inner t) :
    From True a.table S.scope t ∧ From False t inner t ∧ (t.scope inner).kind = .function ∧
      (t.scope inner).parent = some S.scope := by
  obtain ⟨hf, hi, -, hsc⟩ := (ensures_enter f a.table hs.from).1 _ _ h
  exact ⟨hf, .refl hf.wellFormed hi, hsc⟩

end Site

/-! ### Plans -/

mutual

/-- **The code of a plan** spans what lies between its points. -/
theorem Plan.Laid.spans : ∀ {p : Plan} {S : Site} {a b : Point}, p.Laid S a b → S.Sees a →
    S.Spans a b
  | .skip, _, _, _, h, hs => h ▸ hs.refl
  | .seq x y, _, _, _, ⟨_, hx, hy⟩, hs =>
    have sx := hx.spans hs
    sx.trans (hy.spans (sx.sees hs))
  | .instr _, _, _, _, h, hs => Site.At.spans h hs
  | .const _ _, _, _, _, ⟨_, _, h⟩, hs => h.spans hs
  | .attr _ _, _, _, _, ⟨_, _, h⟩, hs => h.spans hs
  | .load _, _, _, _, ⟨_, _, hr, h⟩, hs =>
    have hf := (hs.resolve hr).1
    (Site.Spans.of_from hf).trans (h.spans (.of_from hf))
  | .update name reads value, S, a, b, h, hs => by
    obtain ⟨r, t, hr, -, m, hm, n, hv, hst⟩ := h
    have hf := (hs.resolve hr).1
    have ht : S.Sees (a.withTable t) := .of_from hf
    have sm : S.Spans (a.withTable t) m := by
      split at hm
      · exact Site.Loads.spans hm ht
      · exact hm ▸ ht.refl
    have sv := hv.spans (sm.sees ht)
    exact (Site.Spans.of_from hf).trans
      (sm.trans (sv.trans (hst.spans (sv.sees (sm.sees ht)))))
  | .declare _ _, _, _, _, ⟨_, _, hd, h⟩, hs =>
    have hf := (hs.declare hd).1
    (Site.Spans.of_from hf).trans (Site.At.spans h (.of_from hf))
  | .declareAll _, _, _, _, ⟨_, _, hd, h⟩, hs =>
    have hf := (hs.declareEach hd).1
    (Site.Spans.of_from hf).trans (h.spans (.of_from hf))
  | .refuse _, _, _, _, h, _ => h.elim
  | .outsidePipe, _, _, _, h, hs => h ▸ hs.refl
  | .stages body, S, a, b, h, hs => Plan.Laid.spans (p := body) h hs
  | .insideFunction, _, _, _, ⟨_, h⟩, hs => h ▸ hs.refl
  | .leave _, _, _, _, ⟨_, _, _, hd, hj⟩, hs =>
    have sd := hd.spans hs
    sd.trans (hj.spans (sd.sees hs))
  | .branch condition ifTrue ifFalse, S, a, b, h, hs => by
    obtain ⟨m₁, m₂, m₃, m₄, hc, hj, ht, hj', hf⟩ := h
    have s₁ := hc.spans hs
    have s₂ := s₁.trans (hj.spans (s₁.sees hs))
    have s₃ := s₂.trans (ht.spans (s₂.sees hs))
    have s₄ := s₃.trans (hj'.spans (s₃.sees hs))
    exact s₄.trans (hf.spans (s₄.sees hs))
  | .shortCircuit both left right, S, a, b, h, hs => by
    obtain ⟨m₁, m₂, m₃, m₄, m₅, hl, hc, hj, hr, ho, hn⟩ := h
    have s₁ := hl.spans hs
    have s₂ := s₁.trans (hc.spans (s₁.sees hs))
    have s₃ := s₂.trans (hj.spans (s₂.sees hs))
    have s₄ := s₃.trans (hr.spans (s₃.sees hs))
    have s₅ := s₄.trans (ho.spans (s₄.sees hs))
    exact s₅.trans (hn.spans (s₅.sees hs))
  | .switch subject arms default, S, a, b, h, hs => by
    obtain ⟨m₁, m₂, m₃, m₄, m₅, m₆, targets, hp, ht, hj, hb, hd, hw, hq⟩ := h
    have s₁ := hp.spans hs
    have s₂ := s₁.trans (ht.spans (s₁.sees hs))
    have s₃ := s₂.trans (hj.spans (s₂.sees hs))
    have hh : ∀ {m : Point}, S.Spans a m → S.hold.Sees m := fun s =>
      ⟨(s.sees hs).wellFormed, (s.sees hs).known⟩
    have s₄ := s₃.trans ((hb.spans (hh s₃)).of_code rfl)
    have s₅ := s₄.trans ((hd.spans (hh s₄)).of_code rfl)
    have s₆ := s₅.trans (hw.spans (s₅.sees hs))
    exact s₆.trans (hq.spans (s₆.sees hs))
  | .block body, S, a, b, ⟨_, _, ho, h⟩, hs => by
    obtain ⟨hf, hi, -⟩ := hs.openScope ho
    exact (Site.Spans.of_from hf).trans ((h.spans hi).of_code rfl)
  | .loop tested condition body post, S, a, b, h, hs => by
    obtain ⟨m₁, m₂, m₃, m₄, m₅, m₆, hc, hx, hb, hq, hp, hk, hn⟩ := h
    have s₁ := hc.spans hs
    have s₂ := s₁.trans (hx.spans (s₁.sees hs))
    have s₃ := s₂.trans ((hb.spans ⟨(s₂.sees hs).wellFormed, (s₂.sees hs).known⟩).of_code rfl)
    have s₄ := s₃.trans (hq.spans (s₃.sees hs))
    have s₅ := s₄.trans (hp.spans (s₄.sees hs))
    have s₆ := s₅.trans (hk.spans (s₅.sees hs))
    exact s₆.trans (hn.spans (s₆.sees hs))
  | .iterate names bind body, S, a, b, h, hs => by
    obtain ⟨m₁, m₂, m₃, m₄, m₅, m₆, hx, hi, hb, hq, hk, hp, hn⟩ := h
    have s₁ := hx.spans hs
    have s₂ := s₁.trans (hi.spans (s₁.sees hs))
    have s₃ := s₂.trans ((hb.spans ⟨(s₂.sees hs).wellFormed, (s₂.sees hs).known⟩).of_code rfl)
    have s₄ := s₃.trans (hq.spans (s₃.sees hs))
    have s₅ := s₄.trans (hk.spans (s₄.sees hs))
    have s₆ := s₅.trans (hp.spans (s₅.sees hs))
    exact s₆.trans (hn.spans (s₆.sees hs))
  | .func f body, S, a, b, h, hs => by
    obtain ⟨-, -, inner, t, he, block, opened, ho, code, m, n, -, -, -, -, hb, -, -, -, hi⟩ := h
    obtain ⟨hf, hf', -⟩ := hs.enter he
    obtain ⟨hf'', hsees, -⟩ := Site.Sees.openScope (S := { S with code, scope := inner })
      (a := ⟨0, t, a.count⟩) ⟨hf'.wellFormed, hf'.known⟩ ho
    have sb := hb.spans ⟨hsees.wellFormed, hsees.known⟩
    have hgrows : a.table.Grows m.table := hf.grows.trans (hf''.grows.trans sb.grows)
    have hm : S.Sees ⟨a.offset, m.table, m.count + 1⟩ :=
      ⟨sb.wellFormed, Nat.lt_of_lt_of_le hs.known hgrows.size⟩
    have sm : S.Spans a ⟨a.offset, m.table, m.count + 1⟩ :=
      ⟨.refl _, hgrows, sb.wellFormed, Nat.le_succ_of_le sb.count,
        fun hl => sb.lexical (hf''.lexical (hf.lexical hl))⟩
    exact sm.trans (hi.spans hm)

/-- The tests of all cases. -/
theorem Arms.TestsLaid.spans : ∀ {c : Arms} {S : Site} {targets : List Nat} {a b : Point},
    c.TestsLaid S targets a b → S.Sees a → S.Spans a b
  | .nil, _, _, _, _, ⟨_, h⟩, hs => h ▸ hs.refl
  | .arm _ _ _, _, _, _, _, ⟨_, _, _, _, ht, hr⟩, hs =>
    have st := ht.spans hs
    st.trans (hr.spans (st.sees hs))

/-- The tests of a case. -/
theorem Tests.Laid.spans : ∀ {t : Tests} {S : Site} {target : Nat} {a b : Point},
    t.Laid S target a b → S.Sees a → S.Spans a b
  | .nil, _, _, _, _, h, hs => h ▸ hs.refl
  | .test value rest, S, target, a, b, h, hs => by
    obtain ⟨m₁, m₂, m₃, m₄, hc, hv, he, hj, hr⟩ := h
    have s₁ := hc.spans hs
    have s₂ := s₁.trans (hv.spans (s₁.sees hs))
    have s₃ := s₂.trans (he.spans (s₂.sees hs))
    have s₄ := s₃.trans (hj.spans (s₃.sees hs))
    exact s₄.trans (hr.spans (s₄.sees hs))

/-- The bodies of all cases. -/
theorem Arms.BodiesLaid.spans : ∀ {c : Arms} {S : Site} {targets : List Nat} {done : Nat}
    {a b : Point}, c.BodiesLaid S targets done a b → S.Sees a → S.Spans a b
  | .nil, _, _, _, _, _, h, hs => h ▸ hs.refl
  | .arm _ body rest, S, targets, done, a, b, h, hs => by
    obtain ⟨others, m₁, m₂, -, hb, hj, hr⟩ := h
    have s₁ := hb.spans hs
    have s₂ := s₁.trans (hj.spans (s₁.sees hs))
    exact s₂.trans (hr.spans (s₂.sees hs))

end

end ScriptEngine
