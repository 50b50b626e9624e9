import ScriptEngine.Proofs.Code.Legal
import ScriptEngine.Proofs.Layout.Spans
import ScriptEngine.Proofs.Plan.Shape

/-!
# Laid out code is sound

Wherever the code of a plan lies, its instructions refer only to what exists in the end. Inside the
code of a plan the targets are the boundaries between its instructions; behind a return there is
none.

## Main definitions

* `ScriptEngine.Site.Within`: what exists in the surroundings of a plan;
* `ScriptEngine.Site.Lawful`: legal instructions lie between two points, and the functions compiled
  there are sound.

## Main results

* `ScriptEngine.Plan.Laid.lawful`: the code of a plan is lawful.
-/

namespace ScriptEngine

open ScopeTable

/-- An answer of a lookup refers to what exists. -/
def Resolution.Exists (E : Environment) (c : Code) (own : Nat) (r : Resolution) : Prop :=
  match r.storage with
  | .global => r.symbol.index.toNat < E.globals
  | .local => r.symbol.index.toNat < c.localCount
  | .free => r.freeIndex.toNat < own
  | .builtin => r.symbol.index.toNat < E.builtins

namespace Site

/-- **What exists around the code of a plan.** The boundaries between the two points, up to one that
is excluded if `last` is not set, are targets, and so are the exits of the loop. -/
structure Within (S : Site) (E : Environment) (own : Nat) (target : Nat → Prop) (last : Bool)
    (a b : Point) : Prop where
  functions : S.functions = E.functions
  cells : S.cells = E.cells
  exits : ∀ e, S.exits = some e → target e.exit ∧ target e.next
  inRange : ∀ r : Resolution, b.table.InRange S.scope r → r.Exists E S.code own
  inside : ∀ x, S.code.Walks (fun _ => True) a.offset x →
    S.code.Walks (fun _ => True) x b.offset → (x < b.offset ∨ last = true) → target x

/-- **Legal instructions** lie between two points, and sound functions were compiled there. -/
structure Lawful (S : Site) (E : Environment) (own : Nat) (target : Nat → Prop) (a b : Point) :
    Prop where
  walk : S.code.Walks (Instruction.Legal E S.code own target) a.offset b.offset
  functions : ∀ k, a.count ≤ k → k < b.count →
    ∃ f, E.functions[k]? = some f ∧ f.Sound E (E.cells k)

variable {S : Site} {E : Environment} {own : Nat} {target : Nat → Prop} {last : Bool}
  {a b m m' : Point}

namespace Within

/-- What exists around the code of a part of a plan. -/
theorem sub (w : S.Within E own target last a b) (hs : S.Sees a) (h₁ : S.Spans a m)
    (h₂ : S.Spans m m') (h₃ : S.Spans m' b) (hl : last = true ∨ m'.offset < b.offset) :
    S.Within E own target true m m' where
  functions := w.functions
  cells := w.cells
  exits := w.exits
  inRange r hr := by
    have hm := (h₁.trans h₂).sees hs
    exact w.inRange r (hr.grows h₃.grows hm.wellFormed.toIsTree h₃.wellFormed.toIsTree hm.known)
  inside x hx hx' _ := by
    refine w.inside x (h₁.walk.trans hx) (hx'.trans h₃.walk) ?_
    rcases hl with hl | hl
    · exact .inr hl
    · have := hx'.le
      omega

theorem target_start (w : S.Within E own target true a b) (h : S.Spans a b) : target a.offset :=
  w.inside _ (.refl _) h.walk (.inr rfl)

theorem target_stop (w : S.Within E own target true a b) (h : S.Spans a b) : target b.offset :=
  w.inside _ h.walk (.refl _) (.inr rfl)

/-- A point between the two is a target. -/
theorem target_mid (w : S.Within E own target true a b) (h : S.Spans a m) (h' : S.Spans m b) :
    target m.offset :=
  w.inside _ h.walk h'.walk (.inr rfl)

end Within

namespace Lawful

theorem refl (a : Point) : S.Lawful E own target a a :=
  ⟨.refl _, fun _ hk hk' => absurd hk' (Nat.not_lt_of_le hk)⟩

theorem trans (h : S.Lawful E own target a m) (h' : S.Lawful E own target m b) :
    S.Lawful E own target a b := by
  refine ⟨h.walk.trans h'.walk, fun k hk hk' => ?_⟩
  by_cases hm : k < m.count
  · exact h.functions k hk hm
  · exact h'.functions k (by omega) hk'

theorem of_eq (h : b = a) : S.Lawful E own target a b := by
  subst h
  exact refl b

/-- A step on the scopes. -/
theorem withTable (a : Point) (t : ScopeTable) : S.Lawful E own target a (a.withTable t) :=
  ⟨.refl _, fun _ hk hk' => absurd hk' (Nat.not_lt_of_le hk)⟩

/-- What lies between two points does not depend on the exits. -/
theorem of_code {S' : Site} (h : S'.Lawful E own target a b) (hc : S'.code = S.code) :
    S.Lawful E own target a b :=
  ⟨hc ▸ h.walk, h.functions⟩

/-- **An instruction.** -/
theorem instruction {op : Opcode} {operands : List Word} (h : S.At a op operands b)
    (hl : Instruction.Legal E S.code own target ⟨a.offset, op, operands⟩) :
    S.Lawful E own target a b :=
  ⟨h.walks hl, fun _ hk hk' => absurd hk' (Nat.not_lt_of_le (h.count ▸ hk))⟩

/-- An operation refers to nothing. -/
theorem operation {o : Operation} (h : S.At a o.encode.1 o.encode.2 b) :
    S.Lawful E own target a b := by
  refine .instruction h ?_
  cases o with
  | pushBool b => cases b <;> trivial
  | unary op => cases op <;> trivial
  | binary op => cases op <;> rfl
  | call bound count => cases bound <;> trivial
  | _ => trivial

/-- **A jump forward** to a target. -/
theorem forward {op : Opcode} {x : Nat} (h : S.Forward a op x b) (hx : target x)
    (hop : op = .jumpForward ∨ op = .popJumpForwardIfFalse ∨ op = .popJumpForwardIfTrue) :
    S.Lawful E own target a b := by
  obtain ⟨d, h, hd, hlt⟩ := h
  have hne : d ≠ placeholder := fun he => Nat.lt_irrefl _ (he ▸ hlt)
  refine .instruction h ?_
  rcases hop with rfl | rfl | rfl
  all_goals exact ⟨hne, hd ▸ hx⟩

/-- A jump back to a target. -/
theorem back {x : Nat} (h : S.Back a x b) (hx : target x) : S.Lawful E own target a b := by
  obtain ⟨d, h, hd⟩ := h
  refine .instruction h ⟨?_, ?_⟩
  · show d.toNat ≤ a.offset
    omega
  · show target (a.offset - d.toNat)
    rwa [show a.offset - d.toNat = x by omega]

/-- The entry of a loop over an iterator. -/
theorem advance {x names : Nat} (h : S.Advance a x names b) (hx : target x) :
    S.Lawful E own target a b := by
  obtain ⟨d, h, hd, hlt⟩ := h
  exact .instruction h ⟨fun he => Nat.lt_irrefl _ (he ▸ hlt), hd ▸ hx⟩

theorem exitIf {tested : Bool} {x : Nat} (h : S.ExitIf tested a x b) (hx : target x) :
    S.Lawful E own target a b := by
  unfold ExitIf at h
  split at h
  · exact forward h hx (.inr (.inl rfl))
  · exact of_eq h

theorem drops : ∀ {n : Nat} {a b : Point}, S.Drops n a b → S.Lawful E own target a b
  | 0, _, _, h => of_eq h
  | _ + 1, _, _, ⟨_, h, h'⟩ => (Lawful.instruction h trivial).trans (drops h')

theorem loads {r : Resolution} (h : S.Loads r a b) (hr : r.Exists E S.code own) :
    S.Lawful E own target a b := by
  unfold Loads at h
  unfold Resolution.Exists at hr
  cases hst : r.storage <;> simp only [hst] at h hr <;> exact .instruction h hr

theorem stores {r : Resolution} (h : S.Stores r a b) (hr : r.Exists E S.code own) :
    S.Lawful E own target a b := by
  unfold Stores at h
  unfold Resolution.Exists at hr
  cases hst : r.storage <;> simp only [hst] at h hr <;> exact .instruction h hr

/-- A store in a slot of the scope. -/
theorem sets {symbol : Symbol} (h : S.Sets symbol a b)
    (hr : (⟨symbol, if a.table.isGlobal S.scope then .global else .local, 0, 0⟩ :
      Resolution).Exists E S.code own) : S.Lawful E own target a b := by
  unfold Sets at h
  cases hg : a.table.isGlobal S.scope <;>
    simp only [hg, if_true, if_false, Bool.false_eq_true] at h hr
  all_goals exact .instruction h hr

end Lawful

/-- What was declared in the scope of a site is in range. -/
theorem Sees.inRange (hs : S.Sees a) {name : String} {symbol : Symbol}
    (h : a.table.get? S.scope name = some symbol) :
    a.table.InRange S.scope
      ⟨symbol, if a.table.isGlobal S.scope then .global else .local, 0, 0⟩ := by
  have known : a.table.known? S.scope name =
      some ⟨symbol, if a.table.isGlobal S.scope then .global else .local, 0, 0⟩ := by
    unfold known?
    rw [h]
  exact (known?_inRange hs.wellFormed hs.known known).1

namespace Lawful

theorem setsAll : ∀ {symbols : List Symbol} {a b : Point}, S.SetsAll symbols a b → S.Sees a →
    (∀ symbol ∈ symbols, ∃ name, a.table.get? S.scope name = some symbol) →
    (∀ r : Resolution, a.table.InRange S.scope r → r.Exists E S.code own) →
    S.Lawful E own target a b
  | [], _, _, h, _, _, _ => of_eq h
  | symbol :: rest, a, b, ⟨m, h, h'⟩, hs, hn, hr => by
    obtain ⟨name, hname⟩ := hn symbol (List.mem_cons_self ..)
    have hm : S.Sees m := (At.spans h hs).sees hs
    have ht : m.table = a.table := At.table h
    refine (sets h (hr _ (hs.inRange hname))).trans (setsAll h' hm (fun s hmem => ?_) fun r => ?_)
    · rw [ht]
      exact hn s (List.mem_cons_of_mem _ hmem)
    · rw [ht]
      exact hr r

/-- The cell behind a captured name exists. -/
theorem passes {name : String} (h : S.Passes name a b) (hs : S.Sees a)
    (hr : ∀ r : Resolution, b.table.InRange S.scope r → r.Exists E S.code own) :
    S.Lawful E own target a b := by
  obtain ⟨r, t, hres, h⟩ := h
  obtain ⟨-, hin, -⟩ := hs.resolve hres
  refine (withTable a t).trans ?_
  rcases h with ⟨hst, h⟩ | ⟨hst, h⟩
  all_goals
    have hex := hr r (by rw [h.table]; exact hin)
    unfold Resolution.Exists at hex
    simp only [hst] at hex
  · exact .instruction h (.inl ⟨rfl, hex⟩)
  · exact .instruction h (.inr ⟨rfl, hex⟩)

theorem passesAll : ∀ {names : List String} {a b : Point}, S.PassesAll names a b → S.Sees a →
    (∀ r : Resolution, b.table.InRange S.scope r → r.Exists E S.code own) →
    S.Lawful E own target a b
  | [], _, _, h, _, _ => of_eq h
  | _ :: _, a, b, ⟨m, h, h'⟩, hs, hr => by
    have s₁ := Passes.spans h hs
    have s₂ := PassesAll.spans h' (s₁.sees hs)
    have hm := s₁.sees hs
    refine (passes h hs fun r hin => ?_).trans (passesAll h' hm hr)
    exact hr r (hin.grows s₂.grows hm.wellFormed.toIsTree s₂.wellFormed.toIsTree hm.known)

/-- **A function is instantiated with as many cells as it has free variables.** -/
theorem instantiates {k : Nat} {free : List Resolution} (h : S.Instantiates k free a b)
    (hs : S.Sees a) (hk : E.cells k = free.length)
    (hr : ∀ r : Resolution, b.table.InRange S.scope r → r.Exists E S.code own) :
    S.Lawful E own target a b := by
  obtain ⟨index, hi, h⟩ := h
  split at h
  · rename_i hfree
    refine .instruction h ⟨_, hi, fun r hr => ?_⟩
    obtain rfl := Value.function.inj hr
    rw [hk, hfree]
    rfl
  · obtain ⟨hlen, m, h, h'⟩ := h
    refine (passesAll h hs fun r hin => hr r ?_).trans (.instruction h' ⟨_, hi, ?_⟩)
    · rw [h'.table]
      exact hin
    · show E.cells k = free.length.toUInt16.toNat
      rw [hk]
      exact (Nat.mod_eq_of_lt (by omega)).symm

end Lawful

end Site

/-! ### Bodies of functions -/

/-- What a lookup finds from inside a function, apart from its own slots and cells, it finds around
the function, too. -/
theorem Site.Within.function {S : Site} {E : Environment} {own : Nat} {target : Nat → Prop}
    {last : Bool} {a b m : Point} (w : S.Within E own target last a b) (S' : Site)
    {inner : ScopeId} (hs : S.Sees a) (ham : a.table.Grows m.table) (hm : m.table.WellFormed)
    (hb : b.table.WellFormed) (hmb : m.table.Grows b.table)
    (hfs : S'.functions = S.functions) (hcs : S'.cells = S.cells) (hex : S'.exits = none)
    (hi : m.table.functionScope S'.scope = inner)
    (hl : S'.code.localCount = m.table.slotCount inner)
    (hk : (m.table.scope inner).kind = .function) {k : Nat}
    (hcells : S.cells k = (m.table.freeVars inner).size) {start : Point} {last' : Bool}
    {target' : Nat → Prop}
    (ht : ∀ x, S'.code.Walks (fun _ => True) start.offset x →
      S'.code.Walks (fun _ => True) x m.offset → (x < m.offset ∨ last' = true) → target' x) :
    S'.Within E (E.cells k) target' last' start m where
  functions := hfs.trans w.functions
  cells := hcs.trans w.cells
  exits e he := by
    rw [hex] at he
    cases he
  inside := ht
  inRange r hr := by
    have hslots : m.table.slotCount S'.scope = m.table.slotCount inner := by
      unfold slotCount
      rw [hi, functionScope_of_function hk]
    have hsm : S.scope.index < m.table.scopes.size := Nat.lt_of_lt_of_le hs.known ham.size
    have out : ∀ r : Resolution, m.table.InRange S.scope r → r.Exists E S.code own := fun r hr =>
      w.inRange r (hr.grows hmb hm.toIsTree hb.toIsTree hsm)
    have hout := out r
    unfold Resolution.Exists at hout ⊢
    unfold InRange at hout hr
    cases hst : r.storage <;> simp only [hst] at hr hout ⊢
    · exact hout hr
    · rw [hl, ← hslots]
      exact hr.2
    · rw [hi, ← hcells, w.cells] at hr
      exact hr.2
    · exact hout hr

/-- **The code of a function is sound** if it is lawful and ends with a return. -/
theorem Site.Lawful.sound {S : Site} {E : Environment} {own : Nat} {a b : Point}
    (h : S.Lawful E own (S.code.Target (some own)) a b) (ha : a.offset = 0)
    (hsize : S.code.size = b.offset)
    (hret : ∃ l w, S.At l .returnValue [w] b ∧ S.code.Boundary l.offset)
    (hpool : ∀ v ∈ S.code.constants, v.IsConstant E.functions.size) :
    S.code.Sound E (some own) where
  walk := by
    rw [hsize, ← ha]
    exact h.walk
  last _ := by
    obtain ⟨l, w, hl, hb⟩ := hret
    exact ⟨_, hl.has, hb, rfl, by rw [hsize, hl.offset]⟩
  constants := hpool

/-- The defaults of a function are literals. -/
theorem Func.isScalar_of_defaults (f : Func) {v : Value} (h : some v ∈ f.defaults) :
    v.isScalar = true := by
  obtain ⟨p, -, hp⟩ := List.mem_map.mp h
  obtain ⟨e, -, he⟩ := Option.bind_eq_some_iff.mp hp
  unfold Generate.literal? at he
  split at he
  case h_8 => cases he
  all_goals
    obtain rfl := Option.some.inj he
    rfl

/-! ### Plans -/

section Sequences

variable {S : Site} {E : Environment} {own : Nat} {target : Nat → Prop} {last : Bool}
  {a b m m' : Point}

/-- The rest of the code of a plan. -/
theorem Site.Within.rest (w : S.Within E own target last a b) (h₁ : S.Spans a m) :
    S.Within E own target last m b where
  functions := w.functions
  cells := w.cells
  exits := w.exits
  inRange := w.inRange
  inside x hx hx' := w.inside x (h₁.walk.trans hx) hx'

/-- Inside the body of a loop, the exits are those of the loop. -/
theorem Site.Within.inLoop (w : S.Within E own target true a b) {exit next : Nat}
    (he : target exit) (hn : target next) :
    (S.inLoop exit next).Within E own target true a b where
  functions := w.functions
  cells := w.cells
  exits e h := by
    obtain rfl := Option.some.inj h
    exact ⟨he, hn⟩
  inRange := w.inRange
  inside := w.inside

/-- Inside the bodies of a switch, the exits are the same. -/
theorem Site.Within.hold (w : S.Within E own target last a b) :
    S.hold.Within E own target last a b where
  functions := w.functions
  cells := w.cells
  exits e h := by
    obtain ⟨e', he', rfl⟩ := Option.map_eq_some_iff.mp h
    exact w.exits e' he'
  inRange := w.inRange
  inside := w.inside

/-- Inside a block, what is in range is in range around it. -/
theorem Site.Within.block (w : S.Within E own target last a b) {inner : ScopeId}
    {t : ScopeTable} (hi : Site.Sees { S with scope := inner } (a.withTable t))
    (hsc : t.scope inner = { parent := some S.scope, kind := .block }) (hg : t.Grows b.table)
    (hb : b.table.WellFormed) :
    Site.Within { S with scope := inner } E own target last (a.withTable t) b where
  functions := w.functions
  cells := w.cells
  exits := w.exits
  inRange r hr := by
    have g := hg.scope inner hi.known
    refine w.inRange r ?_
    have hk : (b.table.scope inner).kind = .block := by rw [g.kind, hsc]
    have hp : (b.table.scope inner).parent = some S.scope := by rw [g.parent, hsc]
    have hf := functionScope_of_block hb.toIsTree hk hp
    unfold InRange slotCount isGlobal at hr ⊢
    rwa [hf] at hr
  inside := w.inside

end Sequences

/-- **The code of a plan that returns** ends with a return. -/
theorem Plan.Laid.exists_return {p : Plan} {S : Site} {a b : Point} (hr : p.returns = true)
    (h : p.Laid S a b) (hs : S.Sees a) : ∃ m w, S.Spans a m ∧ S.At m .returnValue [w] b := by
  cases p with
  | instr o =>
    cases o with
    | ret withValue => exact ⟨a, _, hs.refl, h⟩
    | _ => cases hr
  | seq x y =>
    obtain ⟨m, hx, hy⟩ := h
    by_cases hskip : y = .skip
    · subst hskip
      obtain rfl : b = m := hy
      exact hx.exists_return (show x.returns = true from hr) hs
    · have s₁ := hx.spans hs
      obtain ⟨n, w, s₂, h⟩ := hy.exists_return (Plan.returns_of_seq hskip hr) (s₁.sees hs)
      exact ⟨n, w, s₁.trans s₂, h⟩
  | _ => cases hr
termination_by structural p

/-- Each test leads to the body of its case. -/
theorem Arms.BodiesLaid.targets : ∀ {c : Arms} {S S' : Site} {targets : List Nat} {done : Nat}
    {a b a' b' : Point}, c.TestsLaid S' targets a' b' → c.BodiesLaid S targets done a b →
    S.Sees a → ∀ x ∈ targets, ∃ m, S.Spans a m ∧ S.Spans m b ∧ x = m.offset
  | .nil, _, _, _, _, _, _, _, _, ⟨ht, _⟩, _, _, x, hx => by
    rw [ht] at hx
    cases hx
  | .arm tests body rest, S, S', targets, done, a, b, a', b', ht, hb, hs, x, hx => by
    obtain ⟨y, others, n, rfl, -, ht⟩ := ht
    obtain ⟨others', m₁, m₂, heq, hb, hj, hr⟩ := hb
    obtain ⟨rfl, rfl⟩ := List.cons.inj heq
    have s₁ := hb.spans hs
    have s₂ := s₁.trans (hj.spans (s₁.sees hs))
    have s₃ := hr.spans (s₂.sees hs)
    rcases List.mem_cons.mp hx with rfl | hx
    · exact ⟨a, hs.refl, s₂.trans s₃, rfl⟩
    · obtain ⟨m, hm, hm', rfl⟩ := hr.targets ht (s₂.sees hs) x hx
      exact ⟨m, s₂.trans hm, hm', rfl⟩

mutual

/-- **The code of a plan is lawful.** The end of a plan that returns need not be a target. -/
theorem Plan.Laid.lawful : ∀ {p : Plan} {S : Site} {a b : Point} {E : Environment} {own : Nat}
    {target : Nat → Prop} {last strict : Bool} {exit : Option Shape} {σ τ : Shape},
    p.Laid S a b → S.Sees a → p.Shapes strict exit σ τ → S.Within E own target last a b →
    (last = true ∨ p.returns = true) → S.Lawful E own target a b
  -- by induction on the plan; the targets around a plan are targets around each of its parts
  | .skip, _, _, _, _, _, _, _, _, _, _, _, h, _, _, _, _ => .of_eq h
  | .seq x y, S, a, b, E, own, target, last, _, _, _, _, ⟨m, hx, hy⟩, hs, ⟨_, kx, ky⟩, w, hl => by
    have s₁ := hx.spans hs
    have s₂ := hy.spans (s₁.sees hs)
    -- what a sequence ends with is the end of its last part that has code at all
    by_cases hskip : y = .skip
    · subst hskip
      obtain rfl : b = m := hy
      exact hx.lawful hs kx w hl
    · have hy' : last = true ∨ y.returns = true := hl.imp_right (Plan.returns_of_seq hskip)
      refine (hx.lawful hs kx (w.sub hs hs.refl s₁ s₂ ?_) (.inl rfl)).trans
        (hy.lawful (s₁.sees hs) ky (w.rest s₁) hy')
      rcases hy' with hl | hr
      · exact .inl hl
      · obtain ⟨n, _, sn, hn⟩ := hy.exists_return hr (s₁.sees hs)
        exact .inr (Nat.lt_of_le_of_lt sn.le hn.offset_lt)
  | .instr _, _, _, _, _, _, _, _, _, _, _, _, h, _, _, _, _ => .operation h
  | .const v scalar, _, _, _, _, _, _, _, _, _, _, _, ⟨_, hi, h⟩, _, _, _, _ =>
    .instruction h ⟨v, hi, fun r hr => by
      subst hr
      cases scalar⟩
  | .attr sets _, _, _, _, _, _, _, _, _, _, _, _, ⟨_, hi, h⟩, _, _, _, _ => by
    have hlt := (Array.getElem?_eq_some_iff.mp hi).1
    cases sets with
    | true => exact .instruction h hlt
    | false => exact .instruction h hlt
  | .load name, S, a, b, E, own, target, last, _, _, _, _, ⟨r, t, hr, h⟩, hs, _, w, hl => by
    -- a name that was in range when it was resolved still is at the end: scopes only grow
    obtain ⟨hf, hin, -⟩ := hs.resolve hr
    have hs' : S.Sees (a.withTable t) := .of_from hf
    have sp := Site.Loads.spans h hs'
    have hin := hin.grows sp.grows hf.wellFormed.toIsTree sp.wellFormed.toIsTree hf.known
    exact (Site.Lawful.withTable a t).trans (.loads h (w.inRange r hin))
  | .update name reads value, S, a, b, E, own, target, last, _, _, _, _, h, hs, k, w, hl => by
    obtain rfl : last = true := by simpa [Plan.returns] using hl
    obtain ⟨r, t, hr, -, m, hm, n, hv, hst⟩ := h
    obtain ⟨hf, hin, -⟩ := hs.resolve hr
    have hs' : S.Sees (a.withTable t) := .of_from hf
    have s₀ := Site.Spans.of_from hf
    have s₁ : S.Spans (a.withTable t) m := by
      split at hm
      · exact Site.Loads.spans hm hs'
      · exact hm ▸ hs'.refl
    have s₂ := hv.spans (s₁.sees hs')
    have s₃ := Site.Stores.spans hst (s₂.sees (s₁.sees hs'))
    have st := s₁.trans (s₂.trans s₃)
    have hr := w.inRange r
      (hin.grows st.grows hf.wellFormed.toIsTree st.wellFormed.toIsTree hf.known)
    have l₁ : S.Lawful E own target (a.withTable t) m := by
      split at hm
      · exact .loads hm hr
      · exact .of_eq hm
    exact (Site.Lawful.withTable a t).trans (l₁.trans ((hv.lawful (s₁.sees hs') k.1
      (w.sub hs (s₀.trans s₁) s₂ s₃ (.inl rfl)) (.inl rfl)).trans (.stores hst hr)))
  | .declare name constant, S, a, b, E, own, target, last, _, _, _, _, ⟨symbol, t, hd, h⟩, hs, _,
      w, hl => by
    obtain ⟨hf, hn⟩ := hs.declare hd
    have hs' : S.Sees (a.withTable t) := .of_from hf
    have sp := Site.At.spans h hs'
    have hin := (hs'.inRange hn).grows sp.grows hf.wellFormed.toIsTree sp.wellFormed.toIsTree
      hf.known
    exact (Site.Lawful.withTable a t).trans (.sets h (w.inRange _ hin))
  | .declareAll names, S, a, b, E, own, target, last, _, _, _, _, ⟨symbols, t, hd, h⟩, hs, _,
      w, hl => by
    obtain ⟨hf, hn⟩ := hs.declareEach hd
    have hs' : S.Sees (a.withTable t) := .of_from hf
    have sp := Site.SetsAll.spans h hs'
    refine (Site.Lawful.withTable a t).trans (.setsAll h hs' (fun s hmem => ?_) fun r hin => ?_)
    · exact hn s (List.mem_reverse.mp hmem)
    · exact w.inRange r (hin.grows sp.grows hf.wellFormed.toIsTree sp.wellFormed.toIsTree hf.known)
  | .refuse _, _, _, _, _, _, _, _, _, _, _, _, h, _, _, _, _ => h.elim
  | .outsidePipe, _, _, _, _, _, _, _, _, _, _, _, h, _, _, _, _ => .of_eq h
  | .stages body, S, a, b, E, own, target, last, _, _, _, _, h, hs, k, w, hl => by
    obtain rfl : last = true := by simpa [Plan.returns] using hl
    exact Plan.Laid.lawful (p := body) h hs k w (.inl rfl)
  | .insideFunction, _, _, _, _, _, _, _, _, _, _, _, ⟨_, h⟩, _, _, _, _ => .of_eq h
  | .leave isBreak, S, a, b, E, own, target, last, _, _, _, _, ⟨e, he, m, hd, hj⟩, hs,
    _, w, hl => by
    -- both ways out of the loop are targets since the loop was entered
    obtain ⟨hx, hn⟩ := w.exits e he
    refine (Site.Lawful.drops hd).trans (.forward hj ?_ (.inl rfl))
    cases isBreak with
    | true => exact hx
    | false => exact hn
  | .branch condition ifTrue ifFalse, S, a, b, E, own, target, last, _, _, _, _, h, hs, k, w,
      hl => by
    obtain rfl : last = true := by simpa [Plan.returns] using hl
    obtain ⟨m₁, m₂, m₃, m₄, hc, hj, ht, hj', hf⟩ := h
    obtain ⟨kc, kt, kf⟩ := k
    have s₁ := hc.spans hs
    have s₂ := hj.spans (s₁.sees hs)
    have e₂ := s₁.trans s₂
    have s₃ := ht.spans (e₂.sees hs)
    have e₃ := e₂.trans s₃
    have s₄ := hj'.spans (e₃.sees hs)
    have e₄ := e₃.trans s₄
    have s₅ := hf.spans (e₄.sees hs)
    -- something follows each of the parts, so the end of each may be jumped to
    have lc := hc.lawful hs kc (w.sub hs hs.refl s₁ (s₂.trans (s₃.trans (s₄.trans s₅))) (.inl rfl))
      (.inl rfl)
    have lt := ht.lawful (e₂.sees hs) kt (w.sub hs e₂ s₃ (s₄.trans s₅) (.inl rfl)) (.inl rfl)
    have lf := hf.lawful (e₄.sees hs) kf (w.rest e₄) (.inl rfl)
    exact lc.trans ((Site.Lawful.forward hj (w.target_mid e₄ s₅) (.inr (.inl rfl))).trans
      (lt.trans ((Site.Lawful.forward hj' (w.target_stop (e₄.trans s₅)) (.inl rfl)).trans lf)))
  | .shortCircuit both left right, S, a, b, E, own, target, last, _, _, _, _, h, hs, k, w, hl => by
    obtain rfl : last = true := by simpa [Plan.returns] using hl
    obtain ⟨m₁, m₂, m₃, m₄, m₅, hl, hc, hj, hr, ho, hn⟩ := h
    obtain ⟨kl, kr, -⟩ := k
    have s₁ := hl.spans hs
    have e₂ := s₁.trans (hc.spans (s₁.sees hs))
    have s₃ := hj.spans (e₂.sees hs)
    have e₃ := e₂.trans s₃
    have s₄ := hr.spans (e₃.sees hs)
    have e₄ := e₃.trans s₄
    have s₅ := ho.spans (e₄.sees hs)
    have s₆ := hn.spans ((e₄.trans s₅).sees hs)
    have sr := s₄.trans (s₅.trans s₆)
    have ll := hl.lawful hs kl (w.sub hs hs.refl s₁ ((hc.spans (s₁.sees hs)).trans (s₃.trans sr))
      (.inl rfl)) (.inl rfl)
    have lr := hr.lawful (e₃.sees hs) kr (w.sub hs e₃ s₄ (s₅.trans s₆) (.inl rfl)) (.inl rfl)
    have lj : S.Lawful E own target m₂ m₃ :=
      .forward hj (w.target_mid (e₄.trans s₅) s₆) (by cases both <;> simp)
    exact ll.trans ((Site.Lawful.instruction hc trivial).trans (lj.trans (lr.trans
      ((Site.Lawful.operation ho).trans (.instruction hn trivial)))))
  | .switch subject arms default, S, a, b, E, own, target, last, _, _, _, _, h, hs, k, w, hl => by
    obtain rfl : last = true := by simpa [Plan.returns] using hl
    obtain ⟨m₁, m₂, m₃, m₄, m₅, m₆, targets, hp, ht, hj, hb, hd, hw, hq⟩ := h
    obtain ⟨kp, ka, kd, -⟩ := k
    have s₁ := hp.spans hs
    have s₂ := ht.spans (s₁.sees hs)
    have e₂ := s₁.trans s₂
    have s₃ := hj.spans (e₂.sees hs)
    have e₃ := e₂.trans s₃
    have h₃ : S.hold.Sees m₃ := ⟨(e₃.sees hs).wellFormed, (e₃.sees hs).known⟩
    have s₄ : S.Spans m₃ m₄ := (hb.spans h₃).of_code rfl
    have e₄ := e₃.trans s₄
    have h₄ : S.hold.Sees m₄ := ⟨(e₄.sees hs).wellFormed, (e₄.sees hs).known⟩
    have s₅ : S.Spans m₄ m₅ := (hd.spans h₄).of_code rfl
    have e₅ := e₄.trans s₅
    have s₆ := hw.spans (e₅.sees hs)
    have s₇ := hq.spans ((e₅.trans s₆).sees hs)
    have sr := s₆.trans s₇
    -- the tests lead to the starts of the bodies, which lie inside this plan
    have tb : ∀ x ∈ targets, target x := fun x hx => by
      obtain ⟨m, hm, hm', rfl⟩ := hb.targets ht h₃ x hx
      have hm' : S.Spans m m₄ := hm'.of_code rfl
      exact w.target_mid (e₃.trans (hm.of_code rfl)) (hm'.trans (s₅.trans sr))
    have ls := hp.lawful hs kp (w.sub hs hs.refl s₁ (s₂.trans (s₃.trans (s₄.trans (s₅.trans sr))))
      (.inl rfl)) (.inl rfl)
    have lt := ht.lawful (s₁.sees hs) ka
      (w.sub hs s₁ s₂ (s₃.trans (s₄.trans (s₅.trans sr))) (.inl rfl)) tb
    have lj : S.Lawful E own target m₂ m₃ :=
      .forward hj (w.target_mid e₄ (s₅.trans sr)) (.inl rfl)
    have lb : S.Lawful E own target m₃ m₄ := (hb.lawful h₃ ka
      (w.sub hs e₃ s₄ (s₅.trans sr) (.inl rfl)).hold (w.target_mid e₅ sr)).of_code rfl
    have ld : S.Lawful E own target m₄ m₅ := (hd.lawful h₄ kd
      (w.sub hs e₄ s₅ sr (.inl rfl)).hold (.inl rfl)).of_code rfl
    exact ls.trans (lt.trans (lj.trans (lb.trans (ld.trans
      ((Site.Lawful.instruction hw trivial).trans (.instruction hq trivial))))))
  | .block body, S, a, b, E, own, target, last, _, _, _, _, ⟨inner, t, ho, h⟩, hs, k, w, hl => by
    obtain rfl : last = true := by simpa [Plan.returns] using hl
    obtain ⟨hf, hi, hsc⟩ := hs.openScope ho
    have sp := h.spans hi
    refine (Site.Lawful.withTable a t).trans
      ((h.lawful hi k (w.block hi hsc sp.grows sp.wellFormed) (.inl rfl)).of_code rfl)
  | .loop tested condition body post, S, a, b, E, own, target, last, _, _, _, _, h, hs, k, w,
      hl => by
    obtain rfl : last = true := by simpa [Plan.returns] using hl
    obtain ⟨m₁, m₂, m₃, m₄, m₅, m₆, hc, hx, hb, hq, hp, hk, hn⟩ := h
    obtain ⟨kc, kb, kp, -⟩ := k
    have s₁ := hc.spans hs
    have s₂ := hx.spans (s₁.sees hs)
    have e₂ := s₁.trans s₂
    have h₂ : (S.inLoop m₆.offset m₄.offset).Sees m₂ :=
      ⟨(e₂.sees hs).wellFormed, (e₂.sees hs).known⟩
    have s₃ : S.Spans m₂ m₃ := (hb.spans h₂).of_code rfl
    have e₃ := e₂.trans s₃
    have s₄ := hq.spans (e₃.sees hs)
    have e₄ := e₃.trans s₄
    have s₅ := hp.spans (e₄.sees hs)
    have e₅ := e₄.trans s₅
    have s₆ := hk.spans (e₅.sees hs)
    have e₆ := e₅.trans s₆
    have s₇ := hn.spans (e₆.sees hs)
    have r₅ := s₆.trans s₇
    have r₃ := s₄.trans (s₅.trans r₅)
    -- where a break and a continue of the body lead
    have tx := w.target_mid e₆ s₇
    have tn := w.target_mid e₄ (s₅.trans r₅)
    have lc := hc.lawful hs kc (w.sub hs hs.refl s₁ (s₂.trans (s₃.trans r₃)) (.inl rfl)) (.inl rfl)
    have lb : S.Lawful E own target m₂ m₃ := (hb.lawful h₂ kb
      ((w.sub hs e₂ s₃ r₃ (.inl rfl)).inLoop tx tn) (.inl rfl)).of_code rfl
    have lp := hp.lawful (e₄.sees hs) kp (w.sub hs e₄ s₅ r₅ (.inl rfl)) (.inl rfl)
    have lk : S.Lawful E own target m₅ m₆ := .back hk (w.target_start (e₆.trans s₇))
    exact lc.trans ((Site.Lawful.exitIf hx tx).trans (lb.trans
      ((Site.Lawful.instruction hq trivial).trans (lp.trans (lk.trans (.instruction hn trivial))))))
  | .iterate names bind body, S, a, b, E, own, target, last, _, _, _, _, h, hs, k, w, hl => by
    obtain rfl : last = true := by simpa [Plan.returns] using hl
    obtain ⟨m₁, m₂, m₃, m₄, m₅, m₆, hx, hi, hb, hq, hk, hp, hn⟩ := h
    obtain ⟨-, -, ki, kb⟩ := k
    have s₁ := hx.spans hs
    have s₂ := hi.spans (s₁.sees hs)
    have e₂ := s₁.trans s₂
    have h₂ : (S.inLoop m₅.offset m₄.offset).Sees m₂ :=
      ⟨(e₂.sees hs).wellFormed, (e₂.sees hs).known⟩
    have s₃ : S.Spans m₂ m₃ := (hb.spans h₂).of_code rfl
    have e₃ := e₂.trans s₃
    have s₄ := hq.spans (e₃.sees hs)
    have e₄ := e₃.trans s₄
    have s₅ := hk.spans (e₄.sees hs)
    have e₅ := e₄.trans s₅
    have s₆ := hp.spans (e₅.sees hs)
    have e₆ := e₅.trans s₆
    have s₇ := hn.spans (e₆.sees hs)
    have r₅ := s₆.trans s₇
    have r₃ := s₄.trans (s₅.trans r₅)
    have tx := w.target_mid e₅ r₅
    have tn := w.target_mid e₄ (s₅.trans r₅)
    have li := hi.lawful (s₁.sees hs) ki (w.sub hs s₁ s₂ (s₃.trans r₃) (.inl rfl)) (.inl rfl)
    have lb : S.Lawful E own target m₂ m₃ := (hb.lawful h₂ kb
      ((w.sub hs e₂ s₃ r₃ (.inl rfl)).inLoop tx tn) (.inl rfl)).of_code rfl
    have lk : S.Lawful E own target m₄ m₅ := .back hk (w.target_start (e₆.trans s₇))
    exact (Site.Lawful.advance hx (w.target_mid e₆ s₇)).trans (li.trans (lb.trans
      ((Site.Lawful.instruction hq trivial).trans (lk.trans
        ((Site.Lawful.instruction hp trivial).trans (.instruction hn trivial))))))
  | .func f body, S, a, b, E, own, target, last, _, _, _, _, h, hs, k, w, hl => by
    obtain ⟨-, -, inner, t, he, block, opened, ho, code, m, n, -, hlocals, hsize, hpool, hb, hret,
      hfun, hcells, hi⟩ := h
    obtain ⟨kb, kr, -⟩ := k
    -- the body is code of its own, in a function scope with a block inside; what happens to the
    -- table meanwhile is growth like any other
    obtain ⟨hf, hf', hkind, -⟩ := hs.enter he
    obtain ⟨hf'', hsees, hsc⟩ := Site.Sees.openScope (S := { S with code, scope := inner })
      (a := ⟨0, t, a.count⟩) ⟨hf'.wellFormed, hf'.known⟩ ho
    have sb := hb.spans ⟨hsees.wellFormed, hsees.known⟩
    have htm : t.Grows m.table := hf''.grows.trans sb.grows
    have ham : a.table.Grows m.table := hf.grows.trans htm
    have hm : S.Sees ⟨a.offset, m.table, m.count + 1⟩ :=
      ⟨sb.wellFormed, Nat.lt_of_lt_of_le hs.known ham.size⟩
    have si := hi.spans hm
    have hinner : (m.table.scope inner).kind = .function :=
      (htm.scope inner hf'.known).kind.trans hkind
    have hblock : m.table.functionScope block = inner := by
      have g := sb.grows.scope block hsees.known
      rw [functionScope_of_block sb.wellFormed.toIsTree (p := inner) (by rw [g.kind, hsc])
        (by rw [g.parent, hsc]), functionScope_of_function hinner]
    -- one cell is passed for each free variable that the scope has recorded
    have hlen : E.cells m.count = (m.table.freeVars inner).toList.length := by
      rw [← w.cells, hcells, Array.length_toList]
    have li : S.Lawful E own target _ b := .instantiates hi hm hlen w.inRange
    have hk : m.count < E.functions.size := by
      rw [← w.functions]
      exact (Array.getElem?_eq_some_iff.mp hfun).1
    -- the last instruction is a return, behind which there is no target
    obtain ⟨l, r, hl, sl, hend⟩ : ∃ l r, Site.At { S with code } l .returnValue [r] n ∧
        code.Boundary l.offset ∧
        (m.offset < n.offset ∨ n = m ∧ Block.endsWithReturn f.body = true) := by
      by_cases hend : Block.endsWithReturn f.body = true
      · rw [if_pos hend] at hret
        subst hret
        obtain ⟨l, r, sl, hl⟩ := hb.exists_return (kr hend) ⟨hsees.wellFormed, hsees.known⟩
        exact ⟨l, r, hl, sl.walk, .inr ⟨rfl, hend⟩⟩
      · rw [if_neg hend] at hret
        exact ⟨m, 1, hret, sb.walk, .inl hret.offset_lt⟩
    let inside : Site := { S with code, scope := block, exits := none, inFunction := true }
    have wb : inside.Within E (E.cells m.count) (code.Target (some (E.cells m.count)))
        (!Block.endsWithReturn f.body) ⟨0, opened, a.count⟩ m :=
      w.function inside hs ham sb.wellFormed si.wellFormed si.grows rfl rfl rfl hblock hlocals
        hinner hcells fun x hx hx' hor => by
        refine ⟨hx, .inl ?_⟩
        have := hx'.le
        rcases hend with hlt | ⟨rfl, hend⟩
        · omega
        · simp only [hend, Bool.not_true, Bool.false_eq_true, or_false] at hor
          omega
    have lb := hb.lawful ⟨hsees.wellFormed, hsees.known⟩ kb wb (by
      cases hend : Block.endsWithReturn f.body with
      | true => exact .inr (kr hend)
      | false => exact .inl rfl)
    have ln : Site.Lawful { S with code } E (E.cells m.count) (code.Target (some (E.cells m.count)))
        ⟨0, opened, a.count⟩ n := by
      have lb' : Site.Lawful { S with code } E (E.cells m.count)
          (code.Target (some (E.cells m.count))) ⟨0, opened, a.count⟩ m := lb.of_code rfl
      split at hret
      · rw [hret]
        exact lb'
      · exact lb'.trans (.instruction hret trivial)
    have hsound : code.Sound E (some (E.cells m.count)) :=
      ln.sound rfl hsize ⟨l, r, hl, sl⟩ fun v hv => (hpool v hv).mono (Nat.le_of_lt hk)
    refine ⟨li.walk, fun j hj hj' => ?_⟩
    -- functions inside the body, the function itself, and those made later
    rcases Nat.lt_trichotomy j m.count with hlt | rfl | hlt
    · exact lb.functions j hj hlt
    · exact ⟨_, by rw [← w.functions]; exact hfun, hsound, fun _ => f.isScalar_of_defaults⟩
    · exact li.functions j hlt hj'

/-- The tests of all cases are lawful, if the bodies to which they lead are targets. -/
theorem Arms.TestsLaid.lawful : ∀ {c : Arms} {S : Site} {targets : List Nat} {a b : Point}
    {E : Environment} {own : Nat} {target : Nat → Prop} {strict : Bool} {exit : Option Shape}
    {σ : Shape}, c.TestsLaid S targets a b → S.Sees a → c.Shapes strict exit σ →
    S.Within E own target true a b → (∀ x ∈ targets, target x) → S.Lawful E own target a b
  | .nil, _, _, _, _, _, _, _, _, _, _, ⟨_, h⟩, _, _, _, _ => .of_eq h
  | .arm tests body rest, S, _, a, b, E, own, target, _, _, _, h, hs, k, w, ht => by
    obtain ⟨x, others, m, rfl, h₁, h₂⟩ := h
    obtain ⟨k₁, -, k₂⟩ := k
    have s₁ := h₁.spans hs
    have s₂ := h₂.spans (s₁.sees hs)
    exact (h₁.lawful hs k₁ (w.sub hs hs.refl s₁ s₂ (.inl rfl)) (ht x (List.mem_cons_self ..))).trans
      (h₂.lawful (s₁.sees hs) k₂ (w.rest s₁) fun y hy => ht y (List.mem_cons_of_mem _ hy))

/-- The tests of a case are lawful, if its body is a target. -/
theorem Tests.Laid.lawful : ∀ {t : Tests} {S : Site} {x : Nat} {a b : Point}
    {E : Environment} {own : Nat} {target : Nat → Prop} {strict : Bool} {exit : Option Shape}
    {σ : Shape}, t.Laid S x a b → S.Sees a → t.Shapes strict exit σ →
    S.Within E own target true a b → target x → S.Lawful E own target a b
  | .nil, _, _, _, _, _, _, _, _, _, _, h, _, _, _, _ => .of_eq h
  | .test value rest, S, x, a, b, E, own, target, _, _, _, h, hs, k, w, hx => by
    obtain ⟨m₁, m₂, m₃, m₄, hc, hv, he, hj, hr⟩ := h
    obtain ⟨kv, kr⟩ := k
    have s₁ := hc.spans hs
    have s₂ := hv.spans (s₁.sees hs)
    have e₂ := s₁.trans s₂
    have s₃ := he.spans (e₂.sees hs)
    have e₃ := e₂.trans s₃
    have s₄ := hj.spans (e₃.sees hs)
    have e₄ := e₃.trans s₄
    have s₅ := hr.spans (e₄.sees hs)
    have lv := hv.lawful (s₁.sees hs) kv (w.sub hs s₁ s₂ (s₃.trans (s₄.trans s₅)) (.inl rfl))
      (.inl rfl)
    have lr := hr.lawful (e₄.sees hs) kr (w.rest e₄) hx
    exact (Site.Lawful.instruction hc trivial).trans
      (lv.trans ((Site.Lawful.instruction he rfl).trans
      ((Site.Lawful.forward hj hx (.inr (.inr rfl))).trans lr)))

/-- The bodies of all cases are lawful, if the end of the switch is a target. -/
theorem Arms.BodiesLaid.lawful : ∀ {c : Arms} {S : Site} {targets : List Nat} {done : Nat}
    {a b : Point} {E : Environment} {own : Nat} {target : Nat → Prop} {strict : Bool}
    {exit : Option Shape} {σ : Shape}, c.BodiesLaid S targets done a b → S.Sees a →
    c.Shapes strict exit σ → S.Within E own target true a b → target done →
    S.Lawful E own target a b
  | .nil, _, _, _, _, _, _, _, _, _, _, _, h, _, _, _, _ => .of_eq h
  | .arm tests body rest, S, targets, done, a, b, E, own, target, _, _, _, h, hs, k, w, hd => by
    obtain ⟨others, m₁, m₂, -, hb, hj, hr⟩ := h
    obtain ⟨-, kb, kr⟩ := k
    have s₁ := hb.spans hs
    have s₂ := hj.spans (s₁.sees hs)
    have e₂ := s₁.trans s₂
    have s₃ := hr.spans (e₂.sees hs)
    exact (hb.lawful hs kb (w.sub hs hs.refl s₁ (s₂.trans s₃) (.inl rfl)) (.inl rfl)).trans
      ((Site.Lawful.forward hj hd (.inl rfl)).trans (hr.lawful (e₂.sees hs) kr (w.rest e₂) hd))

end

end ScriptEngine
