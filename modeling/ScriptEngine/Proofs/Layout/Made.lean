import ScriptEngine.Proofs.Layout.Spans

/-!
# Layouts piece by piece

The code of a plan, taken as the sequence of the pieces of which it is made: instructions, uses and
declarations of names, and functions. Where control goes is forgotten, and with it the shape of the
plan. What is said about the pieces alone, in the order in which they were emitted, is proved by one
induction.

## Main definitions

* `ScriptEngine.Site.Made`: pieces lie between two points.

## Main results

* `ScriptEngine.Site.Made.spans`: what pieces span;
* `ScriptEngine.Plan.Laid.made`: the code of a plan is made of pieces.
-/

namespace ScriptEngine

open ScopeTable

/-- The instructions that neither store a variable nor have to do with cells. -/
def Opcode.isPlain : Opcode → Bool
  | .storeFast | .storeFree | .storeGlobal | .makeCell | .loadClosure => false
  | _ => true

/-- **Pieces of code** lie between two points, in the order in which they were emitted. -/
inductive Site.Made : Site → Point → Point → Prop
  | refl (S : Site) (a : Point) : Made S a a
  | trans {S : Site} {a m b : Point} (h : Made S a m) (h' : Made S m b) : Made S a b
  | plain {S : Site} {a b : Point} {op : Opcode} {operands : List Word} (h : S.At a op operands b)
    (hop : op.isPlain = true) : Made S a b
  | looks {S : Site} {a : Point} {name : String} {r : Resolution} {t : ScopeTable}
    (hr : resolve S.scope name a.table = .ok (some r) t) : Made S a (a.withTable t)
  /-- A variable that was looked up before is assigned to. -/
  | stores {S : Site} {a b : Point} {name : String} {r : Resolution} {t₀ t : ScopeTable}
    (hw : t₀.WellFormed) (hs : S.scope.index < t₀.scopes.size)
    (hr : resolve S.scope name t₀ = .ok (some r) t) (hg : t.Grows a.table)
    (hc : r.symbol.constant = false) (h : S.Stores r a b) : Made S a b
  | declares {S : Site} {a b : Point} {name : String} {constant : Bool} {symbol : Symbol}
    {t : ScopeTable} (hd : declare S.scope name constant a.table = .ok symbol t)
    (h : S.Sets symbol (a.withTable t) b) : Made S a b
  | declaresAll {S : Site} {a b : Point} {names : List String} {symbols : List Symbol}
    {t : ScopeTable} (hd : declareEach S.scope names a.table = .ok symbols t)
    (h : S.SetsAll symbols.reverse (a.withTable t) b) : Made S a b
  | block {S : Site} {a b : Point} {inner : ScopeId} {t : ScopeTable}
    (ho : openScope S.scope .block a.table = .ok inner t)
    (h : Made { S with scope := inner } (a.withTable t) b) : Made S a b
  /-- It does not matter where breaks and continues lead to. -/
  | exits {S : Site} {e : Option Exits} {a b : Point} (h : Made { S with exits := e } a b) :
    Made S a b
  | function {S : Site} {f : Func} {a m n b : Point} {inner block : ScopeId} {t opened : ScopeTable}
    {code : Code} (he : Generate.enter f S.scope a.table = .ok inner t)
    (ho : openScope inner .block t = .ok block opened) (hname : code.name = f.name)
    (hlocals : code.localCount = m.table.slotCount inner) (hsize : code.size = n.offset)
    (hconstants : ∀ v ∈ code.constants, v.IsConstant m.count)
    (h : Made { S with code, scope := block, exits := none, inFunction := true }
      ⟨0, opened, a.count⟩ m)
    (hlast : n = m ∨ { S with code }.At m .returnValue [1] n)
    (hf : S.functions[m.count]? = some ⟨f.name, f.paramNames, f.defaults, code⟩)
    (hcells : S.cells m.count = (m.table.freeVars inner).size)
    (hi : S.Instantiates m.count (m.table.freeVars inner).toList
      ⟨a.offset, m.table, m.count + 1⟩ b) :
    Made S a b

namespace Site

variable {S : Site} {a b m : Point}

theorem Made.of_eq (h : b = a) : S.Made a b :=
  h ▸ .refl S a

theorem Made.operation {o : Operation} (h : S.At a o.encode.1 o.encode.2 b) : S.Made a b := by
  refine .plain h ?_
  cases o with
  | pushBool b => cases b <;> rfl
  | unary op => cases op <;> rfl
  | binary op => cases op <;> rfl
  | call bound count => cases bound <;> rfl
  | _ => rfl

theorem Made.forward {op : Opcode} {target : Nat} (h : S.Forward a op target b)
    (hop : op.isPlain = true) : S.Made a b := by
  obtain ⟨d, h, -⟩ := h
  exact .plain h hop

theorem Made.back {target : Nat} (h : S.Back a target b) : S.Made a b := by
  obtain ⟨d, h, -⟩ := h
  exact .plain h rfl

theorem Made.advance {target names : Nat} (h : S.Advance a target names b) : S.Made a b := by
  obtain ⟨d, h, -⟩ := h
  exact .plain h rfl

theorem Made.exitIf {tested : Bool} {target : Nat} (h : S.ExitIf tested a target b) :
    S.Made a b := by
  unfold ExitIf at h
  split at h
  · exact .forward h rfl
  · exact .of_eq h

/-! ### Functions -/

theorem Stores.count {r : Resolution} (h : S.Stores r a b) : b.count = a.count := by
  unfold Stores at h
  split at h
  case h_4 => exact h.elim
  all_goals exact At.count h

theorem SetsAll.count : ∀ {symbols : List Symbol} {a b : Point}, S.SetsAll symbols a b →
    b.count = a.count
  | [], _, _, h => h ▸ rfl
  | _ :: _, _, _, ⟨_, h, h'⟩ => (SetsAll.count h').trans (At.count h)

theorem Passes.count {name : String} (h : S.Passes name a b) : b.count = a.count := by
  obtain ⟨r, t, -, ⟨-, h⟩ | ⟨-, h⟩⟩ := h
  · exact At.count (a := a.withTable t) h
  · exact At.count (a := a.withTable t) h

theorem PassesAll.count : ∀ {names : List String} {a b : Point}, S.PassesAll names a b →
    b.count = a.count
  | [], _, _, h => h ▸ rfl
  | _ :: _, _, _, ⟨_, h, h'⟩ => (PassesAll.count h').trans (Passes.count h)

theorem Instantiates.count {k : Nat} {free : List Resolution} (h : S.Instantiates k free a b) :
    b.count = a.count := by
  obtain ⟨_, -, h⟩ := h
  split at h
  · exact At.count h
  · obtain ⟨-, m, h, h'⟩ := h
    exact (At.count h').trans h.count

/-- The site in which the body of a function lies. -/
theorem Sees.body (hs : S.Sees a) (code : Code) {f : Func} {inner block : ScopeId}
    {t opened : ScopeTable} (he : Generate.enter f S.scope a.table = .ok inner t)
    (ho : ScopeTable.openScope inner .block t = .ok block opened) :
    a.table.Grows opened ∧ (a.table.Lexical → opened.Lexical) ∧
      Sees { S with code, scope := block, exits := none, inFunction := true }
        ⟨0, opened, a.count⟩ := by
  obtain ⟨hf, hf', -⟩ := hs.enter he
  obtain ⟨hf'', hsees, -⟩ := Sees.openScope (S := { S with code, scope := inner })
    (a := ⟨0, t, a.count⟩) ⟨hf'.wellFormed, hf'.known⟩ ho
  exact ⟨hf.grows.trans hf''.grows, fun hl => hf''.lexical (hf.lexical hl),
    hsees.wellFormed, hsees.known⟩

/-- **What pieces span.** -/
theorem Made.spans (h : S.Made a b) : S.Sees a → S.Spans a b := by
  induction h with
  | refl => exact fun hs => hs.refl
  | trans _ _ ih ih' => exact fun hs => (ih hs).trans (ih' ((ih hs).sees hs))
  | plain h => exact fun hs => At.spans h hs
  | looks hr => exact fun hs => .of_from (hs.resolve hr).1
  | stores _ _ _ _ _ h => exact fun hs => h.spans hs
  | declares hd h =>
    intro hs
    have hf := (hs.declare hd).1
    exact (Spans.of_from hf).trans (At.spans h (.of_from hf))
  | declaresAll hd h =>
    intro hs
    have hf := (hs.declareEach hd).1
    exact (Spans.of_from hf).trans (h.spans (.of_from hf))
  | block ho _ ih =>
    intro hs
    obtain ⟨hf, hi, -⟩ := hs.openScope ho
    exact (Spans.of_from hf).trans ((ih hi).of_code rfl)
  | exits _ ih => exact fun hs => (ih ⟨hs.wellFormed, hs.known⟩).of_code rfl
  | @function S f a m n b _ _ _ _ code he ho _ _ _ _ _ _ _ _ hi ih =>
    intro hs
    obtain ⟨hg, hlexical, hsees⟩ := hs.body code he ho
    have sb := ih hsees
    have hgrows : a.table.Grows m.table := hg.trans sb.grows
    have sm : S.Spans a ⟨a.offset, m.table, m.count + 1⟩ :=
      ⟨.refl _, hgrows, sb.wellFormed, Nat.le_succ_of_le sb.count,
        fun hl => sb.lexical (hlexical hl)⟩
    exact sm.trans (hi.spans (sm.sees hs))

theorem Made.drops : ∀ {n : Nat} {a b : Point}, S.Drops n a b → S.Made a b
  | 0, _, _, h => .of_eq h
  | _ + 1, _, _, ⟨_, h, h'⟩ => (Made.plain h rfl).trans (drops h')

theorem Made.loads {r : Resolution} (h : S.Loads r a b) : S.Made a b := by
  unfold Loads at h
  split at h
  all_goals exact .plain h rfl

end Site

mutual

/-- **The code of a plan** is made of pieces. -/
theorem Plan.Laid.made : (p : Plan) → ∀ {S : Site} {a b : Point}, p.Laid S a b → S.Sees a →
    S.Made a b
  | .skip, _, _, _, h, _ => .of_eq h
  | .seq x y, _, _, _, ⟨_, hx, hy⟩, hs =>
    (Plan.Laid.made x hx hs).trans (Plan.Laid.made y hy ((hx.spans hs).sees hs))
  | .instr _, _, _, _, h, _ => .operation h
  | .const _ _, _, _, _, ⟨_, _, h⟩, _ => .plain h rfl
  | .attr sets _, _, _, _, ⟨_, _, h⟩, _ => .plain h (by cases sets <;> rfl)
  | .load _, _, _, _, ⟨_, _, hr, h⟩, _ => (Site.Made.looks hr).trans (.loads h)
  | .update name reads value, S, a, b, h, hs => by
    obtain ⟨r, t, hr, hc, m, hm, n, hv, hst⟩ := h
    have hf := (hs.resolve hr).1
    have ht : S.Sees (a.withTable t) := .of_from hf
    have sm : S.Spans (a.withTable t) m ∧ S.Made (a.withTable t) m := by
      split at hm
      · exact ⟨Site.Loads.spans hm ht, .loads hm⟩
      · exact ⟨hm ▸ ht.refl, .of_eq hm⟩
    have sv := hv.spans (sm.1.sees ht)
    -- the variable was looked up before its new value was evaluated
    refine (Site.Made.looks hr).trans
      (sm.2.trans ((Plan.Laid.made value hv (sm.1.sees ht)).trans ?_))
    exact .stores hs.wellFormed hs.known hr (sm.1.grows.trans sv.grows) hc hst
  | .declare _ _, _, _, _, ⟨_, _, hd, h⟩, _ => .declares hd h
  | .declareAll _, _, _, _, ⟨_, _, hd, h⟩, _ => .declaresAll hd h
  | .refuse _, _, _, _, h, _ => h.elim
  | .outsidePipe, _, _, _, h, _ => .of_eq h
  | .stages body, _, _, _, h, hs => Plan.Laid.made body h hs
  | .insideFunction, _, _, _, ⟨_, h⟩, _ => .of_eq h
  | .leave _, _, _, _, ⟨_, _, _, hd, hj⟩, _ => (Site.Made.drops hd).trans (.forward hj rfl)
  | .branch condition ifTrue ifFalse, S, a, b, h, hs => by
    obtain ⟨m₁, m₂, m₃, m₄, hc, hj, ht, hj', hf⟩ := h
    have s₁ := hc.spans hs
    have s₂ := s₁.trans (hj.spans (s₁.sees hs))
    have s₃ := s₂.trans (ht.spans (s₂.sees hs))
    have s₄ := s₃.trans (hj'.spans (s₃.sees hs))
    have k₂ := (Plan.Laid.made condition hc hs).trans (.forward hj rfl)
    have k₄ := (Plan.Laid.made ifTrue ht (s₂.sees hs)).trans (.forward hj' rfl)
    exact k₂.trans (k₄.trans (Plan.Laid.made ifFalse hf (s₄.sees hs)))
  | .shortCircuit both left right, S, a, b, h, hs => by
    obtain ⟨m₁, m₂, m₃, m₄, m₅, hl, hc, hj, hr, ho, hn⟩ := h
    have s₁ := hl.spans hs
    have s₂ := s₁.trans (hc.spans (s₁.sees hs))
    have s₃ := s₂.trans (hj.spans (s₂.sees hs))
    have k₃ := (Plan.Laid.made left hl hs).trans ((Site.Made.plain hc rfl).trans
      (.forward hj (by cases both <;> rfl)))
    exact k₃.trans ((Plan.Laid.made right hr (s₃.sees hs)).trans
      ((Site.Made.operation ho).trans (.plain hn rfl)))
  | .switch subject arms default, S, a, b, h, hs => by
    obtain ⟨m₁, m₂, m₃, m₄, m₅, m₆, targets, hp, ht, hj, hb, hd, hw, hq⟩ := h
    have s₁ := hp.spans hs
    have s₂ := s₁.trans (ht.spans (s₁.sees hs))
    have s₃ := s₂.trans (hj.spans (s₂.sees hs))
    have h₃ : S.hold.Sees m₃ := ⟨(s₃.sees hs).wellFormed, (s₃.sees hs).known⟩
    have h₄ := (hb.spans h₃).sees h₃
    have k₃ := (Plan.Laid.made subject hp hs).trans
      ((Arms.TestsLaid.made arms ht (s₁.sees hs)).trans (.forward hj rfl))
    have k₅ : S.Made m₃ m₅ :=
      .exits ((Arms.BodiesLaid.made arms hb h₃).trans (Plan.Laid.made default hd h₄))
    exact k₃.trans (k₅.trans ((Site.Made.plain hw rfl).trans (.plain hq rfl)))
  | .block body, _, _, _, ⟨_, _, ho, h⟩, hs =>
    .block ho (Plan.Laid.made body h (hs.openScope ho).2.1)
  | .loop tested condition body post, S, a, b, h, hs => by
    obtain ⟨m₁, m₂, m₃, m₄, m₅, m₆, hc, hx, hb, hq, hp, hk, hn⟩ := h
    have s₁ := hc.spans hs
    have s₂ := s₁.trans (hx.spans (s₁.sees hs))
    have h₂ : (S.inLoop m₆.offset m₄.offset).Sees m₂ :=
      ⟨(s₂.sees hs).wellFormed, (s₂.sees hs).known⟩
    have s₃ := s₂.trans ((hb.spans h₂).of_code rfl)
    have s₄ := s₃.trans (hq.spans (s₃.sees hs))
    have k₂ := (Plan.Laid.made condition hc hs).trans (.exitIf hx)
    have k₄ : S.Made m₂ m₄ := Site.Made.trans (.exits (Plan.Laid.made body hb h₂)) (.plain hq rfl)
    exact k₂.trans (k₄.trans ((Plan.Laid.made post hp (s₄.sees hs)).trans
      ((Site.Made.back hk).trans (.plain hn rfl))))
  | .iterate names bind body, S, a, b, h, hs => by
    obtain ⟨m₁, m₂, m₃, m₄, m₅, m₆, hx, hi, hb, hq, hk, hp, hn⟩ := h
    have s₁ := hx.spans hs
    have s₂ := s₁.trans (hi.spans (s₁.sees hs))
    have h₂ : (S.inLoop m₅.offset m₄.offset).Sees m₂ :=
      ⟨(s₂.sees hs).wellFormed, (s₂.sees hs).known⟩
    have k₂ := (Site.Made.advance hx).trans (Plan.Laid.made bind hi (s₁.sees hs))
    have k₄ : S.Made m₂ m₄ := Site.Made.trans (.exits (Plan.Laid.made body hb h₂)) (.plain hq rfl)
    exact k₂.trans (k₄.trans ((Site.Made.back hk).trans
      ((Site.Made.plain hp rfl).trans (.plain hn rfl))))
  | .func f body, S, a, b, h, hs => by
    obtain ⟨-, -, inner, t, he, block, opened, ho, code, m, n, hname, hlocals, hsize,
      hconstants, hb,
      hlast, hf, hcells, hi⟩ := h
    refine .function he ho hname hlocals hsize hconstants
      (Plan.Laid.made body hb (hs.body code he ho).2.2) ?_ hf hcells hi
    split at hlast
    · exact .inl hlast
    · exact .inr hlast

/-- The tests of all cases. -/
theorem Arms.TestsLaid.made : (c : Arms) → ∀ {S : Site} {targets : List Nat} {a b : Point},
    c.TestsLaid S targets a b → S.Sees a → S.Made a b
  | .nil, _, _, _, _, ⟨_, h⟩, _ => .of_eq h
  | .arm tests _ rest, _, _, _, _, ⟨_, _, _, _, ht, hr⟩, hs =>
    (Tests.Laid.made tests ht hs).trans (Arms.TestsLaid.made rest hr ((ht.spans hs).sees hs))

/-- The tests of a case. -/
theorem Tests.Laid.made : (t : Tests) → ∀ {S : Site} {target : Nat} {a b : Point},
    t.Laid S target a b → S.Sees a → S.Made a b
  | .nil, _, _, _, _, h, _ => .of_eq h
  | .test value rest, S, target, a, b, h, hs => by
    obtain ⟨m₁, m₂, m₃, m₄, hc, hv, he, hj, hr⟩ := h
    have s₁ := hc.spans hs
    have s₂ := s₁.trans (hv.spans (s₁.sees hs))
    have s₃ := s₂.trans (he.spans (s₂.sees hs))
    have s₄ := s₃.trans (hj.spans (s₃.sees hs))
    have k₂ := (Site.Made.plain hc rfl).trans (Plan.Laid.made value hv (s₁.sees hs))
    exact k₂.trans ((Site.Made.plain he rfl).trans ((Site.Made.forward hj rfl).trans
      (Tests.Laid.made rest hr (s₄.sees hs))))

/-- The bodies of all cases. -/
theorem Arms.BodiesLaid.made : (c : Arms) → ∀ {S : Site} {targets : List Nat} {done : Nat}
    {a b : Point}, c.BodiesLaid S targets done a b → S.Sees a → S.Made a b
  | .nil, _, _, _, _, _, h, _ => .of_eq h
  | .arm _ body rest, S, targets, done, a, b, h, hs => by
    obtain ⟨others, m₁, m₂, -, hb, hj, hr⟩ := h
    have s₁ := hb.spans hs
    have s₂ := s₁.trans (hj.spans (s₁.sees hs))
    exact (Plan.Laid.made body hb hs).trans ((Site.Made.forward hj rfl).trans
      (Arms.BodiesLaid.made rest hr (s₂.sees hs)))

end

end ScriptEngine
