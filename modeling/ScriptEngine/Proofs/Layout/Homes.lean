import ScriptEngine.Proofs.Code.Homes
import ScriptEngine.Proofs.Layout.Chains
import ScriptEngine.Proofs.Layout.Frames

/-!
# Layouts and the variables that they refer to

Every instruction of a layout refers to the variables that the open scopes know at its point. What a
function inside has recorded as free is what the names mean outside of it, so the cells that are
pushed for it are those of exactly these variables.

## Main definitions

* `ScriptEngine.Site.Settled`: what lies between two points is at home in the scope.

## Main results

* `ScriptEngine.Site.Made.settled`: whatever is made of pieces is.
-/

namespace ScriptEngine

open ScopeTable Chain

namespace ScopeTable

variable {t t' : ScopeTable} {l : Layer} {C : Chain} {name : String} {r : Resolution}

theorem Declares.lt_slotCount {s : ScopeId} {symbol : Symbol}
    (hd : t.Declares (t.functionScope s) symbol) (h : t.WellFormed) :
    symbol.index.toNat < t.slotCount s := by
  obtain ⟨u, hu, heq⟩ := hd
  have hlt := (h.names u symbol.name symbol hu).2
  unfold slotCount at hlt ⊢
  rwa [heq] at hlt

/-- **The function around a scope** is one of the scopes around it. -/
theorem Mirrors.functionLayer (hw : t.WellFormed) : ∀ {C : Chain} {l : Layer}, t.Mirrors (l :: C) →
    ∃ f D, t.Mirrors (f :: D) ∧ f.scope = t.functionScope l.scope
  | C, l, h => by
    cases hl : l.isFunction with
    | true => exact ⟨l, C, h, (functionScope_of_function (h.1.isFunction.mp hl)).symm⟩
    | false =>
      cases C with
      | nil => exact absurd (isFunction_of_outermost hw h) (by rw [hl]; exact Bool.false_ne_true)
      | cons l' C =>
        obtain ⟨f, D, hf, heq⟩ := functionLayer hw h.2
        exact ⟨f, D, hf,
          heq.trans (functionScope_of_block hw.toIsTree (h.1.isBlock.mp hl) h.1.parent).symm⟩

/-- **A free variable of the function around** is a declared variable further out. -/
theorem Faithful.declares_free (h : t.Faithful (l :: C)) {i : Nat}
    (hr : (t.freeVars (t.functionScope l.scope))[i]? = some r) :
    t.Declares (t.outward r.depth (t.functionScope l.scope)) r.symbol := by
  obtain ⟨f, D, hf, heq⟩ := h.mirrors.functionLayer h.wellFormed
  rw [← heq] at hr ⊢
  obtain ⟨r', hr', hd⟩ := hf.recorded_declares h.wellFormed (h.listed _ i r hr)
  obtain rfl := Option.some.inj (hr'.symm.trans hr)
  exact hd

/-- **What a lookup answers** is the variable of the nearest declaration. -/
theorem Faithful.resolve_variable (h : t.Faithful (l :: C))
    (hr : resolve l.scope name t = .ok (some r) t') {symbol : Symbol}
    (hs : symbol? (l :: C) name = some symbol) (htop : (around (l :: C) name).atTop = false) :
    t'.Faithful (l :: C) ∧ r.symbol = symbol ∧
      ((r.storage = .local ∧ crossed (l :: C) name = []) ∨
        (r.storage = .free ∧ t'.free? (t'.functionScope l.scope) r.freeIndex.toNat =
          some ⟨t'.outward (crossed (l :: C) name).length (t'.functionScope l.scope),
            symbol.index⟩)) := by
  have hlooks := h.looks name
  rw [hr] at hlooks
  generalize hanswer : EStateM.Result.ok (some r) t' = answer at hlooks
  cases hlooks with
  | undeclared hnone => rw [hs] at hnone; cases hnone
  | refused => cases hanswer
  | @found symbol' i u hsymbol _ ht _ hi _ =>
    obtain ⟨hr, rfl⟩ := EStateM.Result.ok.inj hanswer
    obtain rfl := Option.some.inj hr
    obtain rfl := Option.some.inj (hsymbol.symm.trans hs)
    obtain ⟨hstorage, hdepth⟩ := storage_cases htop
    refine ⟨ht, rfl, ?_⟩
    rcases hstorage with hlocal | hfree
    · refine .inl ⟨hlocal, ?_⟩
      unfold storage at hlocal
      rw [htop] at hlocal
      simp only [Bool.false_eq_true, if_false] at hlocal
      split at hlocal
      · rename_i hzero
        exact List.eq_nil_of_length_eq_zero hzero
      · cases hlocal
    · refine .inr ⟨hfree, ?_⟩
      rw [ht.mirrors.functionScope_eq ht.wellFormed, free?, hi hfree, Option.map_some, hdepth]

/-- **What a function inside has recorded** as free is what the name means outside of it. -/
theorem Faithful.recorded {f : Layer} (h : t.Faithful (f :: l :: C)) {i : Nat}
    (hr : (t.freeVars f.scope)[i]? = some r) :
    symbol? (l :: C) r.symbol.name = some r.symbol ∧ (around (l :: C) r.symbol.name).atTop = false ∧
      t.free? f.scope i =
        some ⟨t.outward (crossed (l :: C) r.symbol.name).length l.scope, r.symbol.index⟩ := by
  obtain ⟨symbol, hs, htop, hr', -⟩ := h.mirrors.1.recorded _ i (h.listed _ i r hr)
  obtain ⟨-, -, hkind, -⟩ := h.wellFormed.free _ i r hr
  have heq := Option.some.inj (hr.symm.trans hr')
  have hsymbol : r.symbol = symbol := congrArg Resolution.symbol heq
  have hdepth : r.depth = (crossed (l :: C) r.symbol.name).length + 1 :=
    congrArg Resolution.depth heq
  refine ⟨hs.trans (congrArg some hsymbol.symm), htop, ?_⟩
  rw [free?, hr, Option.map_some, hdepth, outward_function hkind h.mirrors.1.parent]

/-- **Several declarations** in the innermost scope, of variables that are no constants. -/
theorem Faithful.of_declareEach :
    ∀ {names : List String} {symbols : List Symbol} {t t' : ScopeTable} {l : Layer},
    t.Faithful (l :: C) → t.Lexical →
    ScopeTable.declareEach l.scope names t = .ok symbols t' →
    t'.Follows l C ∧ t'.Lexical ∧ t.Grows t' ∧ ∀ symbol ∈ symbols, symbol.constant = false ∧
      t'.Declares (t'.functionScope l.scope) symbol
  | [], symbols, t, t', l, h, hl, hd => by
    obtain ⟨rfl, rfl⟩ := ScopeTable.of_declareEach_nil hd
    exact ⟨⟨[], l, .refl l, h⟩, hl, .refl t, nofun⟩
  | name :: names, symbols, t, t', l, h, hl, hd => by
    obtain ⟨symbol, t₁, rest, h₁, h₂, rfl⟩ := ScopeTable.of_declareEach_cons hd
    have hs := h.mirrors.1.known
    obtain ⟨hw, g, hsymbol, -⟩ := declare_spec h.wellFormed hs h₁
    obtain ⟨l', hext, ht₁⟩ := (Emit.Records.declares name false l C h).1 symbol t₁ h₁
    rw [← hext.scope] at h₂
    obtain ⟨ht, hlex, g', hrest⟩ := of_declareEach ht₁ (hl.declare h.wellFormed hs h₁) h₂
    have hw' : t'.WellFormed := by
      obtain ⟨_, _, -, ht⟩ := ht
      exact ht.wellFormed
    rw [hext.scope] at hrest
    refine ⟨ht.extends hext, hlex, g.trans g', fun other hm => ?_⟩
    rcases List.mem_cons.mp hm with rfl | hm
    · have hget := get?_of_declare h.wellFormed hs h₁ name
      rw [if_pos rfl] at hget
      refine ⟨congrArg Symbol.constant hsymbol, l.scope, g'.get? ?_, rfl⟩
      rw [show other.name = name from congrArg Symbol.name hsymbol]
      exact hget
    · exact hrest other hm

end ScopeTable

namespace Site

variable {S : Site} {a b m : Point} {l : Layer} {C : Chain}

/-- **A cell that is pushed** is that of the variable that its name means. -/
theorem Passes.passed {name : String} (h : S.Passes name a b) (ht : a.table.Faithful (l :: C))
    (hl : l.scope = S.scope) {symbol : Symbol} (hs : symbol? (l :: C) name = some symbol)
    (htop : (around (l :: C) name).atTop = false) :
    b.table.Faithful (l :: C) ∧ ∃ i : Instruction, S.code.Has i ∧ i.op = .makeCell ∧
      i.offset = a.offset ∧ i.stop = b.offset ∧
      b.table.passed? (b.table.functionScope S.scope) i =
        some ⟨b.table.outward (crossed (l :: C) name).length S.scope, symbol.index⟩ := by
  obtain ⟨r, t, hr, h⟩ := h
  rw [← hl] at hr ⊢
  obtain ⟨ht', rfl, hfound⟩ := ht.resolve_variable hr hs htop
  have hlt := ht'.mirrors.1.known
  rcases hfound with ⟨hlocal, hnear⟩ | ⟨hfree, hvariable⟩
  · obtain ⟨-, h⟩ := h.resolve_right fun hx => by rw [hlocal] at hx; cases hx.1
    refine ⟨At.table h ▸ ht', _, At.has h, rfl, rfl, (At.offset h).symm, ?_⟩
    rw [At.table h, hnear]
    rfl
  · obtain ⟨-, h⟩ := h.resolve_left fun hx => by rw [hfree] at hx; cases hx.1
    refine ⟨At.table h ▸ ht', _, At.has h, rfl, rfl, (At.offset h).symm, ?_⟩
    rw [At.table h]
    rw [outward_functionScope ht'.wellFormed.toIsTree hlt] at hvariable
    exact hvariable

/-- **A function is instantiated** with the cells of its free variables, from the one with the given
number on. -/
theorem PassesAll.hands {inner : ScopeId} {g : Nat} {index count : Word} (hl : l.scope = S.scope)
    (hk : S.code.constants[index.toNat]? = some (.function ⟨g⟩)) :
    ∀ {names : List String} {n : Nat} {a : Point}, S.PassesAll names a m →
      S.At m .loadClosure [index, count] b → a.table.Faithful (l :: C) →
      (∀ (k : Nat) name, names[k]? = some name → ∃ symbol, symbol? (l :: C) name = some symbol ∧
        (around (l :: C) name).atTop = false ∧ a.table.free? inner (n + k) =
          some ⟨a.table.outward (crossed (l :: C) name).length S.scope, symbol.index⟩) →
      count.toNat = n + names.length →
      b.table.Faithful (l :: C) ∧
        S.code.Hands b.table (b.table.functionScope S.scope) g inner n a.offset ∧
        ∃ is, S.code.Lists a.offset is b.offset ∧
          ∀ i ∈ is, (i.op = .makeCell ∨ i.op = .loadClosure) ∧
          ∃ n, S.code.Hands b.table (b.table.functionScope S.scope) g inner n i.offset
  | [], n, a, h, hb, ht, _, hcount => by
    obtain rfl := h
    have hands : S.code.Hands b.table (b.table.functionScope S.scope) g inner n m.offset :=
      .bind (At.has hb) hk hcount
    refine ⟨At.table hb ▸ ht, hands, [⟨m.offset, .loadClosure, [index, count]⟩], ?_, fun i hi => ?_⟩
    · rw [At.offset hb]
      exact .single (At.has hb)
    · obtain rfl := List.mem_singleton.mp hi
      exact ⟨.inr rfl, n, hands⟩
  | name :: names, n, a, ⟨m', h, h'⟩, hb, ht, hnames, hcount => by
    have hs : S.Sees a := ⟨ht.wellFormed, hl ▸ ht.mirrors.1.known⟩
    have sp := Passes.spans h hs
    have sa := PassesAll.spans h' (sp.sees hs)
    have sb := At.spans hb (sa.sees (sp.sees hs))
    have hle : a.table.Continues m'.table :=
      .of_grows sp.grows hs.wellFormed.toIsTree sp.wellFormed.toIsTree
    have hle' : m'.table.Continues b.table :=
      .of_grows (sa.grows.trans sb.grows) sp.wellFormed.toIsTree sb.wellFormed.toIsTree
    obtain ⟨symbol, hsymbol, htop, hfree⟩ := hnames 0 name rfl
    obtain ⟨ht', i, hi, hop, hoffset, hstop, hpassed⟩ := Passes.passed h ht hl hsymbol htop
    obtain ⟨ht'', hands, is, hlists, his⟩ :=
      hands hl hk (n := n + 1) h' hb ht' (fun k other hk => by
      obtain ⟨symbol', hs', htop', hfree'⟩ := hnames (k + 1) other hk
      refine ⟨symbol', hs', htop', ?_⟩
      rw [show n + 1 + k = n + (k + 1) by omega, hle.outward _ hs.known]
      exact hle.free? hfree') (by rw [hcount, List.length_cons]; omega)
    have hfunction : b.table.functionScope S.scope = m'.table.functionScope S.scope :=
      hle'.outward 0 (sp.sees hs).known
    rw [hle.outward _ hs.known] at hpassed
    have hhands : S.code.Hands b.table (b.table.functionScope S.scope) g inner n i.offset := by
      refine .pass hi hop ?_ (hle'.free? (hle.free? hfree)) (hstop ▸ hands)
      rw [hfunction]
      exact hle'.passed? hpassed
    refine ⟨ht'', hoffset ▸ hhands, i :: is, .cons hoffset hi (hstop ▸ hlists), fun j hj => ?_⟩
    rcases List.mem_cons.mp hj with rfl | hj
    · exact ⟨.inl hop, n, hhands⟩
    · exact his j hj

/-- **What lies between two points is at home** in the scope, and every function that was compiled
in between in a scope of its own. -/
structure Settled (S : Site) (homes : List ScopeId) (a b : Point) : Prop where
  length : homes.length = b.count
  code : ∃ is, S.code.Settles b.table homes (b.table.functionScope S.scope)
    (a.table.slotCount S.scope)
    a.offset is b.offset
  functions : ∀ (k : Nat) inner, a.count ≤ k → homes[k]? = some inner →
    a.table.scopes.size ≤ inner.index ∧ ∃ f, S.functions[k]? = some f ∧ f.Housed b.table homes inner
  distinct : (homes.drop a.count).Nodup

namespace Settled

variable {homes more : List ScopeId}

/-- Where no function is compiled, it is all about the code. -/
theorem of_count (hlen : homes.length = a.count) (hc : b.count = a.count) (is : List Instruction)
    (h : S.code.Settles b.table homes (b.table.functionScope S.scope) (a.table.slotCount S.scope)
      a.offset is b.offset) : S.Settled homes a b where
  length := hlen.trans hc.symm
  code := ⟨is, h⟩
  functions k inner hk hi := by
    rw [List.getElem?_eq_none (hlen ▸ hk)] at hi
    cases hi
  distinct := by
    rw [← hlen, List.drop_length]
    exact List.nodup_nil

theorem refl (S : Site) (hlen : homes.length = a.count) : S.Settled homes a a :=
  .of_count hlen rfl [] (.nil _)

/-- A single instruction. -/
theorem instruction {op : Opcode} {operands : List Word} (h : S.At a op operands b)
    (hlen : homes.length = a.count)
    (hi : Instruction.AtHome a.table homes S.code (a.table.functionScope S.scope)
      ⟨a.offset, op, operands⟩)
    (hf : ∀ symbol, Instruction.Sets a.table (a.table.functionScope S.scope) symbol
      ⟨a.offset, op, operands⟩ → a.table.slotCount S.scope ≤ symbol.index.toNat) :
    S.Settled homes a b := by
  refine .of_count hlen (At.count h) [⟨a.offset, op, operands⟩] ?_
  rw [At.table h, At.offset h]
  exact .single (At.has h) hi hf

/-- An instruction that has nothing to do with variables. -/
theorem plain {op : Opcode} {operands : List Word} (h : S.At a op operands b)
    (hop : op.isPlain = true) (hlen : homes.length = a.count) : S.Settled homes a b := by
  have hstore : Instruction.isStore ⟨a.offset, op, operands⟩ = false := by
    cases op <;> first | rfl | cases hop
  refine .instruction h hlen (.of_op hstore ?_ ?_) fun symbol hs => ?_
  · rintro rfl
    cases hop
  · rintro rfl
    cases hop
  · rw [Instruction.isStore_of_stored? hs.2.2] at hstore
    cases hstore

/-- **One stretch behind another.** -/
theorem trans (h : S.Settled homes a m) (h' : S.Settled (homes ++ more) m b) (sa : S.Spans a m)
    (hs : S.Sees a) (sm : S.Spans m b) (hl : b.table.Lexical) : S.Settled (homes ++ more) a b := by
  have hg : m.table.Continues b.table :=
    .of_grows sm.grows sa.wellFormed.toIsTree sm.wellFormed.toIsTree
  have hm := sa.sees hs
  have hpre : homes <+: homes ++ more := List.prefix_append ..
  refine ⟨h'.length, ?_, fun k inner hk hi => ?_, ?_⟩
  · obtain ⟨is, hc⟩ := h.code
    obtain ⟨js, hc'⟩ := h'.code
    have howner : m.table.functionScope S.scope = b.table.functionScope S.scope :=
      (hg.outward 0 hm.known).symm
    refine ⟨is ++ js, ((howner ▸ hc).continues hg hl hpre).append hc' ?_ fun i hi symbol hset => ?_⟩
    · exact sa.grows.slotCount hs.wellFormed.toIsTree sa.wellFormed.toIsTree hs.known
    -- what the first stretch stores into was declared before the second one
    · rw [← howner] at hset
      exact ((hc.atHome i hi).sets_of_continues hg hl hset).1.lt_slotCount sa.wellFormed
  · by_cases hkm : k < m.count
    · rw [List.getElem?_append_left (h.length ▸ hkm)] at hi
      obtain ⟨hle, f, hf, hhoused⟩ := h.functions k inner hk hi
      exact ⟨hle, f, hf, hhoused.continues hg hl hpre⟩
    · obtain ⟨hle, hf⟩ := h'.functions k inner (Nat.le_of_not_lt hkm) hi
      exact ⟨Nat.le_trans sa.grows.size hle, hf⟩
  · rw [List.drop_append_of_le_length (h.length ▸ sa.count)]
    have hnew := h'.distinct
    rw [← h.length, List.drop_left] at hnew
    refine h.distinct.append hnew fun inner hi hi' => ?_
    -- what was compiled first has scopes that were known before the rest
    obtain ⟨k, hk⟩ := List.mem_iff_getElem?.mp hi
    obtain ⟨k', hk'⟩ := List.mem_iff_getElem?.mp hi'
    rw [List.getElem?_drop] at hk
    obtain ⟨-, f, -, hhoused⟩ := h.functions _ inner (Nat.le_add_right ..) hk
    obtain ⟨hle, -⟩ := h'.functions (m.count + k') inner (Nat.le_add_right ..) (by
      rw [← h.length, List.getElem?_append_right (Nat.le_add_right ..),
        Nat.add_sub_cancel_left, hk'])
    exact absurd hhoused.known (Nat.not_lt_of_le hle)

/-- **A variable that was looked up before** is assigned to. -/
theorem stores {name : String} {r : Resolution} {t₀ t : ScopeTable} (hw : t₀.WellFormed)
    (hs : S.scope.index < t₀.scopes.size) (hr : resolve S.scope name t₀ = .ok (some r) t)
    (hg : t.Grows a.table) (hc : r.symbol.constant = false) (h : S.Stores r a b)
    (ht : a.table.Faithful (l :: C)) (hl : l.scope = S.scope) (hlex : a.table.Lexical)
    (hlen : homes.length = a.count) : S.Settled homes a b := by
  obtain ⟨hw', g, -⟩ := resolve_spec hw hs hr
  have hfound := (resolve_found hw hs hr).grows hg hw'.toIsTree ht.wellFormed.toIsTree
    (Nat.lt_of_lt_of_le hs g.size)
  have done {op : Opcode} {operands : List Word} {owner : ScopeId} (h : S.At a op operands b)
      (hm : op ≠ .makeCell) (hk : op ≠ .loadClosure) (hd : a.table.Declares owner r.symbol)
      (hv : a.table.stored? (a.table.functionScope S.scope) ⟨a.offset, op, operands⟩ =
        some ⟨owner, r.symbol.index⟩) : S.Settled homes a b := by
    refine .instruction h hlen ⟨fun _ => ⟨owner, r.symbol, hd, hv, fun hx => ?_⟩,
      fun hx => (hx.elim hm hk).elim⟩ fun symbol hset => ?_
    · rw [hc] at hx
      cases hx
    -- the variable is not a constant
    · obtain ⟨hd', hconstant, hv'⟩ := hset
      obtain ⟨rfl, hindex⟩ := Variable.mk.inj (Option.some.inj (hv.symm.trans hv'))
      obtain rfl := hlex.eq_of_slot hd hd' hindex
      rw [hc] at hconstant
      cases hconstant
  unfold Stores at h
  unfold Found at hfound
  cases hstorage : r.storage
  all_goals rw [hstorage] at h hfound
  case global => exact done h nofun nofun hfound rfl
  case «local» => exact done h nofun nofun hfound rfl
  case free =>
    rw [← hl] at hfound
    refine done h nofun nofun (ht.declares_free hfound) ?_
    show a.table.free? _ r.freeIndex.toNat = _
    rw [← hl, free?, hfound, Option.map_some]
  case builtin => exact h.elim

variable (homes) in
/-- **A variable that was declared** in the scope gets its first value. -/
theorem sets {symbol : Symbol} (h : S.Sets symbol a b) (hs : S.Sees a)
    (hd : a.table.Declares (a.table.functionScope S.scope) symbol) :
    ∃ i : Instruction, S.code.Has i ∧ i.offset = a.offset ∧ b.offset = i.stop ∧
      i.AtHome a.table homes S.code (a.table.functionScope S.scope) ∧
      a.table.stored? (a.table.functionScope S.scope) i =
        some ⟨a.table.functionScope S.scope, symbol.index⟩ := by
  unfold Sets at h
  cases hglobal : a.table.isGlobal S.scope with
  | true =>
    rw [hglobal, if_pos rfl] at h
    have hroot := functionScope_of_isGlobal hs.wellFormed.toIsTree hs.known hglobal
    have hv : a.table.stored?
        (a.table.functionScope S.scope) ⟨a.offset, .storeGlobal, [symbol.index]⟩ =
        some ⟨a.table.functionScope S.scope, symbol.index⟩ := by
      rw [hroot]
      rfl
    exact ⟨_, At.has h, rfl, At.offset h,
      ⟨fun _ => ⟨_, symbol, hd, hv, fun _ => ⟨rfl, nofun⟩⟩, by simp⟩, hv⟩
  | false =>
    rw [hglobal, if_neg Bool.false_ne_true] at h
    exact ⟨_, At.has h, rfl, At.offset h,
      ⟨fun _ => ⟨_, symbol, hd, rfl, fun _ => ⟨rfl, nofun⟩⟩, by simp⟩, rfl⟩

/-- **A declaration.** -/
theorem declares {name : String} {constant : Bool} {symbol : Symbol} {t : ScopeTable}
    (hd : declare S.scope name constant a.table = .ok symbol t)
    (h : S.Sets symbol (a.withTable t) b)
    (hs : S.Sees a) (hlen : homes.length = a.count) : S.Settled homes a b := by
  obtain ⟨hw, g, hsymbol, hroom, -, -⟩ := declare_spec hs.wellFormed hs.known hd
  have hget := get?_of_declare hs.wellFormed hs.known hd name
  rw [if_pos rfl] at hget
  have hname : symbol.name = name := congrArg Symbol.name hsymbol
  have hdeclared : t.Declares (t.functionScope S.scope) symbol := ⟨S.scope, hname ▸ hget, rfl⟩
  obtain ⟨i, hi, hoffset, hstop, hhome, hv⟩ := sets homes h ⟨hw, Nat.lt_of_lt_of_le hs.known g.size⟩
    hdeclared
  refine .of_count hlen (At.count (a := a.withTable t) h) [i] ?_
  rw [At.table h, hstop, ← show i.offset = a.offset from hoffset]
  refine .single hi hhome fun symbol' hset => ?_
  obtain ⟨hd', -, hv'⟩ := hset
  obtain ⟨-, hindex⟩ := Variable.mk.inj (Option.some.inj (hv.symm.trans hv'))
  rw [← hindex, hsymbol]
  show _ ≤ (a.table.slotCount S.scope) % 65536
  unfold slotLimit at hroom
  omega

variable (homes) in
/-- **Several declarations**, of variables that are no constants. -/
theorem setsAll : ∀ {symbols : List Symbol} {a : Point}, S.SetsAll symbols a b → S.Sees a →
    a.table.Lexical → (∀ symbol ∈ symbols, symbol.constant = false ∧
      a.table.Declares (a.table.functionScope S.scope) symbol) →
    b.table = a.table ∧ ∃ is, S.code.Lists a.offset is b.offset ∧
      ∀ i ∈ is, i.AtHome a.table homes S.code (a.table.functionScope S.scope) ∧
        ∀ symbol, ¬i.Sets a.table (a.table.functionScope S.scope) symbol
  | [], _, h, _, _, _ => h ▸ ⟨rfl, [], .nil _, nofun⟩
  | symbol :: symbols, a, ⟨m, h, h'⟩, hs, hlex, hsymbols => by
    obtain ⟨hconstant, hd⟩ := hsymbols symbol (List.mem_cons_self ..)
    obtain ⟨i, hi, hoffset, hstop, hhome, hv⟩ := sets homes h hs hd
    have htable := At.table h
    obtain ⟨heq, is, hlists, his⟩ :=
      setsAll h' ⟨htable ▸ hs.wellFormed, htable ▸ hs.known⟩ (htable ▸ hlex)
      (htable ▸ fun symbol hm => hsymbols symbol (List.mem_cons_of_mem _ hm))
    rw [htable] at heq his
    refine ⟨heq, i :: is, .cons hoffset hi (hstop ▸ hlists), fun j hj => ?_⟩
    rcases List.mem_cons.mp hj with rfl | hj
    · refine ⟨hhome, fun symbol' hset => ?_⟩
      obtain ⟨hd', hconstant', hv'⟩ := hset
      obtain ⟨-, hindex⟩ := Variable.mk.inj (Option.some.inj (hv.symm.trans hv'))
      rw [hlex.eq_of_slot hd' hd hindex.symm, hconstant] at hconstant'
      cases hconstant'
    · exact his j hj

/-- **A function is instantiated**, with the cells of what its scope has recorded as free. -/
theorem instantiates {inner : ScopeId} {lf : Layer} (h : S.Instantiates m.count
      (m.table.freeVars inner).toList ⟨a.offset, m.table, m.count + 1⟩ b)
    (ht : m.table.Faithful (lf :: l :: C)) (hlf : lf.scope = inner) (hl : l.scope = S.scope)
    (hkind : (m.table.scope inner).kind = .function) (hinner : homes[m.count]? = some inner) :
    b.table.Faithful (l :: C) ∧ ∃ is, S.code.Lists a.offset is b.offset ∧
      ∀ i ∈ is, i.AtHome b.table homes S.code (b.table.functionScope S.scope) ∧
        ∀ symbol, ¬i.Sets b.table (b.table.functionScope S.scope) symbol := by
  have quiet {t : ScopeTable} {s : ScopeId} {i : Instruction} (hi : i.isStore = false)
      (symbol : Symbol) :
      ¬i.Sets t s symbol := fun hs => by
    rw [Instruction.isStore_of_stored? hs.2.2] at hi
    cases hi
  obtain ⟨index, hconstant, h⟩ := h
  split at h
  · refine ⟨At.table h ▸ ht.tail, [⟨a.offset, .loadConst, [index]⟩], ?_, fun i hi => ?_⟩
    · rw [At.offset h]
      exact .single (At.has h)
    · obtain rfl := List.mem_singleton.mp hi
      exact ⟨.of_op rfl nofun nofun, quiet rfl⟩
  · obtain ⟨hcount, m', hpass, hb⟩ := h
    subst hlf
    have hlength : (m.table.freeVars lf.scope).toList.length.toUInt16.toNat =
        0 + ((m.table.freeVars lf.scope).toList.map (·.symbol.name)).length := by
      rw [Nat.zero_add, List.length_map]
      show _ % 65536 = _
      omega
    obtain ⟨ht', -, is, hlists, his⟩ :=
      PassesAll.hands hl hconstant hpass hb ht.tail (fun k name hk => by
      obtain ⟨r, hr, rfl⟩ := Option.map_eq_some_iff.mp (List.getElem?_map ▸ hk)
      rw [Array.getElem?_toList] at hr
      obtain ⟨hsymbol, htop, hfree⟩ := ht.recorded hr
      rw [hl] at hfree
      exact ⟨r.symbol, hsymbol, htop, by rw [Nat.zero_add]; exact hfree⟩) hlength
    refine ⟨ht', is, hlists, fun i hi => ?_⟩
    obtain ⟨hop, n, hands⟩ := his i hi
    have hstore : i.isStore = false := by
      unfold Instruction.isStore
      rcases hop with hop | hop <;> rw [hop] <;> rfl
    have hs : S.Sees ⟨a.offset, m.table, m.count + 1⟩ := ⟨ht.wellFormed, hl ▸ ht.mirrors.2.1.known⟩
    have sa := hpass.spans hs
    have sb := sa.trans (At.spans hb (sa.sees hs))
    have hg : m.table.Continues b.table :=
      .of_grows sb.grows ht.wellFormed.toIsTree sb.wellFormed.toIsTree
    refine ⟨⟨fun hx => absurd (hstore.symm.trans hx) Bool.false_ne_true,
      fun _ => ⟨m.count, lf.scope, n, hinner,
      Nat.lt_of_lt_of_le ht.mirrors.1.known hg.size, ?_, hands⟩⟩, quiet hstore⟩
    rw [hg.outward 1 ht.mirrors.1.known, outward_function hkind ht.mirrors.1.parent]
    exact (congrArg m.table.functionScope hl).trans (hg.outward 0 hs.known).symm

end Settled

/-- **A function that was compiled** is at home in the scope that was opened for it. -/
theorem Settled.housed {f : Func} {n : Point} {inner block : ScopeId}
    {t opened : ScopeTable} {code : Code}
    {homes : List ScopeId} (hs : S.Sees a) (he : Generate.enter f S.scope a.table = .ok inner t)
    (ho : openScope inner .block t = .ok block opened) (hsize : code.size = n.offset)
    (hlast : n = m ∨ { S with code }.At m .returnValue [1] n) (sb : opened.Grows m.table)
    (hw : m.table.WellFormed)
    (hset : Settled { S with code, scope := block, exits := none, inFunction := true } homes
      ⟨0, opened, a.count⟩ m) :
    Function.Housed m.table homes ⟨f.name, f.paramNames, f.defaults, code⟩ inner := by
  obtain ⟨-, hinner, hkind, hparent⟩ := hs.enter he
  obtain ⟨hparams, -, hself⟩ := enter_slots hs.wellFormed hs.known he
  obtain ⟨hfrom, hsees, hnew⟩ :=
    Sees.openScope (S := { S with code, scope := inner }) (a := ⟨0, t, a.count⟩)
    ⟨hinner.wellFormed, hinner.known⟩ ho
  have hopen := hfrom.grows.trans sb
  have hblock : opened.functionScope block = inner := by
    rw [functionScope_of_block hfrom.wellFormed.toIsTree (by rw [hnew]) (by rw [hnew])]
    exact functionScope_of_function ((hfrom.grows.scope inner hinner.known).kind.trans hkind)
  have howner : m.table.functionScope block = inner :=
    (sb.functionScope hfrom.wellFormed.toIsTree hw.toIsTree _ hsees.known).trans hblock
  have hlength : f.paramNames.length = f.params.length := List.length_map _
  refine ⟨Nat.lt_of_lt_of_le hinner.known hopen.size, ?_,
    (hopen.scope inner hinner.known).kind.trans hkind,
    fun i n hi => hopen.get? (hparams i n hi), fun n hn hnot => ?_, ?_⟩
  · rintro rfl
    have := hinner.wellFormed.parent_lt root S.scope hparent
    exact Nat.not_lt_zero _ this
  · rw [hlength]
    exact hopen.get? (hself n hn hnot).1
  · obtain ⟨is, hcode⟩ := hset.code
    have hfirst : opened.slotCount block = opened.slotCount inner := by
      unfold slotCount
      rw [hblock, functionScope_of_function
        ((hfrom.grows.scope inner hinner.known).kind.trans hkind)]
    have hcount : t.slotCount inner ≤ opened.slotCount inner :=
      hfrom.grows.slotCount hinner.wellFormed.toIsTree hfrom.wellFormed.toIsTree hinner.known
    have hown : ∀ n, f.name = some n → n ∉ f.paramNames →
        f.paramNames.length < opened.slotCount block ∧ f.paramNames.length < 65536 :=
      fun n hn hnot => by
      have hlt := (hself n hn hnot).2
      have hle : t.slotCount inner ≤ slotLimit := hinner.wellFormed.slots_le _
      unfold slotLimit at hle
      omega
    have hcode' : code.Settles m.table homes inner (opened.slotCount block) 0 is m.offset :=
      howner ▸ hcode
    rcases hlast with rfl | hreturn
    · exact ⟨_, is, hsize ▸ hcode', hown⟩
    · have hlists : code.Lists m.offset [⟨m.offset, .returnValue, [1]⟩] n.offset := by
        rw [At.offset hreturn]
        exact .single (At.has hreturn)
      refine ⟨_, is ++ [⟨m.offset, .returnValue, [1]⟩], hsize ▸ hcode'.append_plain hlists ?_, hown⟩
      intro i hi
      obtain rfl := List.mem_singleton.mp hi
      exact ⟨.of_op rfl nofun
        nofun, fun symbol hs => by cases Instruction.isStore_of_stored? hs.2.2⟩

/-- **Whatever is made of pieces is at home** in its scope, with all functions inside. -/
theorem Made.settled (h : S.Made a b) : ∀ {l : Layer} {C : Chain} {homes : List ScopeId}, S.Sees a →
    a.table.Lexical → a.table.Faithful (l :: C) → l.scope = S.scope → homes.length = a.count →
    b.table.Follows l C ∧ ∃ more, S.Settled (homes ++ more) a b := by
  -- pieces that are neither scopes nor functions, and that declare nothing
  have same {S : Site} {a b : Point} {l : Layer} {C : Chain} {homes : List ScopeId}
      (ht : b.table.Faithful (l :: C)) (h : S.Settled homes a b) :
      b.table.Follows l C ∧ ∃ more, S.Settled (homes ++ more) a b :=
    ⟨⟨[], l, .refl l, ht⟩, [], (List.append_nil homes).symm ▸ h⟩
  induction h with
  | refl S a => exact fun _ _ ht _ hlen => same ht (.refl S hlen)
  -- the functions of the second piece come after those of the first
  | @trans S a m b h h' ih ih' =>
    intro l C homes hs hlex ht hl hlen
    have sa := h.spans hs
    have sm := h'.spans (sa.sees hs)
    obtain ⟨⟨ds, l', hext, hm⟩, more, hset⟩ := ih hs hlex ht hl hlen
    obtain ⟨hb, more', hset'⟩ :=
      ih' (sa.sees hs) (sa.lexical hlex) hm (hext.scope.trans hl) hset.length
    refine ⟨hb.extends hext, more ++ more', ?_⟩
    rw [← List.append_assoc]
    exact hset.trans hset' sa hs sm (sm.lexical (sa.lexical hlex))
  | plain h hop => exact fun _ _ ht _ hlen => same (At.table h ▸ ht) (.plain h hop hlen)
  -- a lookup can record a free variable, which changes no scope that is a home
  | @looks S a name r t hr =>
    intro l C homes hs hlex ht hl hlen
    have hfaithful : (after (resolve l.scope name) a.table).Faithful (l :: C) :=
      ScopeSession.faithful_lookup ht
    rw [hl, after, hr] at hfaithful
    exact same hfaithful (.of_count hlen rfl [] (.nil _))
  | stores hw hs hr hg hc h =>
    intro l C homes _ hlex ht hl hlen
    refine same ?_ (.stores hw hs hr hg hc h ht hl hlex hlen)
    unfold Stores at h
    split at h
    case h_4 => exact h.elim
    all_goals exact At.table h ▸ ht
  -- the layer on top has one more name; the store behind it goes to the slot of this name
  | declares hd h =>
    intro l C homes hs hlex ht hl hlen
    have hset := Settled.declares hd h hs hlen
    rw [← hl] at hd
    obtain ⟨l', hext, ht'⟩ := (Emit.Records.declares _ _ l C ht).1 _ _ hd
    exact ⟨⟨_, l', hext, At.table h ▸ ht'⟩, [], (List.append_nil homes).symm ▸ hset⟩
  | @declaresAll S a b names symbols t hd h =>
    intro l C homes hs hlex ht hl hlen
    rw [← hl] at hd
    obtain ⟨hfollows, hlex', g, hsymbols⟩ := ht.of_declareEach hlex hd
    have hw' : t.WellFormed := by
      obtain ⟨_, _, -, ht⟩ := hfollows
      exact ht.wellFormed
    rw [hl] at hsymbols
    obtain ⟨htable, is, hlists, his⟩ := Settled.setsAll homes h
      ⟨hw', Nat.lt_of_lt_of_le hs.known g.size⟩ hlex' fun symbol hm => hsymbols symbol
        (List.mem_reverse.mp hm)
    have htable : b.table = t := htable
    rw [htable]
    refine ⟨hfollows, [], ?_⟩
    rw [List.append_nil]
    refine .of_count hlen (SetsAll.count (a := a.withTable t) h) is ?_
    rw [htable]
    exact .of_lists hlists his
  -- a block has no slots of its own: it shares those of the function around
  | @block S a b inner t ho h ih =>
    intro l C homes hs hlex ht hl hlen
    obtain ⟨hf, hsees, hnew⟩ := hs.openScope ho
    have hfunction : t.functionScope inner = t.functionScope S.scope :=
      functionScope_of_block hf.wellFormed.toIsTree (by rw [hnew]) (by rw [hnew])
    have sb := h.spans hsees
    rw [← hl] at ho
    obtain ⟨⟨ds, l', -, hb⟩, more, hset⟩ := ih hsees (hf.lexical hlex)
      (ScopeSession.faithful_openScope ht ho) rfl hlen
    refine ⟨⟨[], l, .refl l, hb.tail⟩, more, hset.length, ?_, fun k f hk hi => ?_, hset.distinct⟩
    · obtain ⟨is, hcode⟩ := hset.code
      have hslots : t.slotCount inner = t.slotCount S.scope := by
        unfold slotCount
        rw [hfunction]
      have howner : b.table.functionScope inner = b.table.functionScope S.scope := by
        rw [sb.grows.functionScope hf.wellFormed.toIsTree sb.wellFormed.toIsTree _ hsees.known,
          sb.grows.functionScope hf.wellFormed.toIsTree sb.wellFormed.toIsTree _ hf.known]
        exact hfunction
      refine ⟨is, (howner ▸ hcode).weaken ?_⟩
      rw [show (a.withTable t).table.slotCount inner = t.slotCount S.scope from hslots]
      exact hf.grows.slotCount hs.wellFormed.toIsTree hf.wellFormed.toIsTree hs.known
    · obtain ⟨hle, hf'⟩ := hset.functions k f hk hi
      exact ⟨Nat.le_trans hf.grows.size hle, hf'⟩
  | exits _ ih =>
    intro l C homes hs hlex ht hl hlen
    obtain ⟨hb, more, hset⟩ := ih ⟨hs.wellFormed, hs.known⟩ hlex ht hl hlen
    exact ⟨hb, more, hset.length, hset.code, hset.functions, hset.distinct⟩
  -- the scope of the function is the home of its code, and is listed behind those inside it
  | @function S f a m n b inner block t opened code he ho hname hlocals hsize _ hbody hlast hf
    hcells hi ih =>
    intro l C homes hs hlex ht hl hlen
    obtain ⟨hfrom, hinner, hkind, hparent⟩ := hs.enter he
    obtain ⟨hgrows, hopened, hsees⟩ := hs.body code he ho
    have hge : a.table.scopes.size ≤ inner.index :=
      ((ensures_enter f a.table (hs.from : From True _ _ _)).1 _ _ he).2.2.1
    have sb := hbody.spans hsees
    rw [← hl] at he
    obtain ⟨lf, hlf, -, hlayer⟩ := (Emit.Records.enter f ht).1 inner t he
    rw [← hlf] at ho
    obtain ⟨⟨ds, lb, hext, hm⟩, more, hset⟩ := ih hsees (hopened hlex)
      (ScopeSession.faithful_openScope hlayer ho) rfl hlen
    have hopen : t.Grows m.table :=
      (Sees.openScope (S := { S with code, scope := inner }) (a := ⟨0, t, a.count⟩)
      ⟨hinner.wellFormed, hinner.known⟩ (hlf ▸ ho)).1.grows.trans sb.grows
    have hopenlt : inner.index < opened.scopes.size :=
      Nat.lt_of_lt_of_le hinner.known (Sees.openScope (S := { S with code, scope := inner })
        (a := ⟨0, t, a.count⟩) ⟨hinner.wellFormed, hinner.known⟩ (hlf ▸ ho)).1.grows.size
    have hkind' : (m.table.scope inner).kind = .function :=
      (hopen.scope inner hinner.known).kind.trans hkind
    have hlength := hset.length
    have hat : (homes ++ (more ++ [inner]))[m.count]? = some inner := by
      rw [← List.append_assoc, ← show (homes ++ more).length = m.count from hlength,
        List.getElem?_append_right (Nat.le_refl _), Nat.sub_self]
      rfl
    obtain ⟨hb, is, hlists, his⟩ := Settled.instantiates hi hm.tail hlf hl hkind' hat
    refine ⟨⟨[], l, .refl l, hb⟩, more ++ [inner], ?_, ⟨is, .of_lists hlists his⟩,
      fun k g hk hg' => ?_, ?_⟩
    · rw [← List.append_assoc, List.length_append, hlength, Instantiates.count hi]
      rfl
    · have sm : S.Sees ⟨a.offset, m.table, m.count + 1⟩ :=
        ⟨sb.wellFormed, hl ▸ hm.mirrors.2.2.1.known⟩
      have hend : m.table.Continues b.table :=
        .of_grows (hi.spans sm).grows sb.wellFormed.toIsTree (hi.spans sm).wellFormed.toIsTree
      have hlex' : b.table.Lexical := (hi.spans sm).lexical (sb.lexical (hopened hlex))
      have hpre : homes ++ more <+: homes ++ (more ++ [inner]) := ⟨[inner], List.append_assoc ..⟩
      by_cases hkm : k < m.count
      · rw [← List.append_assoc, List.getElem?_append_left (hlength ▸ hkm)] at hg'
        obtain ⟨hle, f', hf', hhoused⟩ := hset.functions k g hk hg'
        exact ⟨Nat.le_trans hgrows.size hle, f', hf', hhoused.continues hend hlex' hpre⟩
      -- the function itself is the last one that was compiled
      · have hlt := (List.getElem?_eq_some_iff.mp hg').1
        rw [← List.append_assoc, List.length_append, hlength] at hlt
        obtain rfl : k = m.count := Nat.le_antisymm (Nat.le_of_lt_succ hlt) (Nat.le_of_not_lt hkm)
        obtain rfl := Option.some.inj (hat.symm.trans hg')
        refine ⟨hge, _, hf, Function.Housed.continues ?_ hend hlex' hpre⟩
        exact hset.housed hs (hl ▸ he) (hlf ▸ ho) hsize hlast sb.grows sb.wellFormed
    · rw [← hlen, List.drop_left]
      have hnodup := hset.distinct
      rw [← show homes.length = (Point.mk 0 opened a.count).count from hlen,
        List.drop_left] at hnodup
      refine hnodup.append (List.nodup_singleton inner) fun g hg hg' => ?_
      -- its scope was opened before those inside it, so it is none of them
      obtain rfl := List.mem_singleton.mp hg'
      obtain ⟨k, hk⟩ := List.mem_iff_getElem?.mp hg
      obtain ⟨hle, -⟩ := hset.functions (a.count + k) g (Nat.le_add_right ..) (by
        rw [← hlen, List.getElem?_append_right (Nat.le_add_right ..), Nat.add_sub_cancel_left, hk])
      exact absurd hopenlt (Nat.not_lt_of_le hle)

end Site

end ScriptEngine
