import ScriptEngine.Proofs.Code.Stores
import ScriptEngine.Proofs.Layout.Spans

/-!
# What the stores of laid out code are for

The stores in the code of a plan are those that its outline lists, one by one, and the functions
that are compiled with it are those whose stores the outline lists apart.

## Main definitions

* `ScriptEngine.Site.Tells`: the stores between two points are those of an outline;
* `ScriptEngine.Site.Follows`: what lies between two points follows the text of a program.

## Main results

* `ScriptEngine.Plan.Laid.follows`: the code of a plan follows its outline.
-/

namespace ScriptEngine

open ScopeTable

/-- **Several declarations**, each of which makes the variable that the text says. -/
theorem ScopeTable.Shows.declareEach {t' : ScopeTable} {s : ScopeId} :
    ∀ {names : List String} {N : Nesting} {t : ScopeTable} {symbols : List Symbol},
      t.Shows N s → t.WellFormed → ScopeTable.declareEach s names t = .ok symbols t' →
        From False t s t' ∧ t'.Shows (N.declareEach names) s ∧
          List.Forall₂ (fun symbol name =>
            t.isGlobal s = true → t'.IsSlot symbol.index (N.place name)) symbols names
  | [], N, t, symbols, h, hw, hd => by
    obtain ⟨rfl, rfl⟩ := ScopeTable.of_declareEach_nil hd
    exact ⟨.refl hw (h.known hw.toIsTree), h, .nil⟩
  | name :: names, N, t, symbols, h, hw, hd => by
    obtain ⟨symbol, t₁, rest, h₁, h₂, rfl⟩ := ScopeTable.of_declareEach_cons hd
    have hs := h.known hw.toIsTree
    obtain ⟨f₁, -⟩ := (ensures_declare id name false t (.refl hw hs)).1 _ _ h₁
    have hw₁ := f₁.wellFormed
    obtain ⟨f₂, h', hslots⟩ := declareEach (h.declare hw h₁) hw₁ h₂
    have hglobal := f₁.grows.isGlobal hw.toIsTree hw₁.toIsTree hs
    have hplace : ∀ other, (N.declare name).place other = N.place other := by
      cases N <;> exact fun _ => rfl
    refine ⟨f₁.trans f₂, h', .cons (fun hg => ?_) (hslots.imp fun symbol other hslot hg => ?_)⟩
    · exact (h.isSlot_of_declare hw h₁ hg).grows f₂.grows hw₁.toIsTree f₂.wellFormed.toIsTree
    · rw [← hplace]
      exact hslot (hglobal.trans hg)

namespace Site

/-- **The stores between two points** are those of an outline, and so are those of the functions
compiled in between. -/
structure Tells (S : Site) (t : ScopeTable) (a b : Point) (o : Outline) : Prop where
  stores : ∃ is, S.code.Lists a.offset is b.offset ∧
    Instruction.AreFor t (is.filter Instruction.isStore) o.stores
  count : b.count = a.count + o.functions.length
  functions : ∀ (k : Nat) (ds : List Destination), o.functions[k]? = some ds →
    ∃ f : Function, S.functions[a.count + k]? = some f ∧
      Instruction.AreFor t (f.code.stores 0) ds

/-- **What lies between two points follows the text**: behind the names that are known at the first
one, it stores and declares what the text does, and nothing is declared further outside. -/
def Follows (S : Site) (t : ScopeTable) (a b : Point) (x : Outlined) : Prop :=
  ∀ N : Nesting, a.table.Shows N S.scope →
    S.Tells t a b (x N).1 ∧ b.table.Shows (x N).2 S.scope ∧ (x N).2.tail = N.tail

/-- What is known between two points, and in the end. -/
structure Reads (S : Site) (t : ScopeTable) (a b : Point) : Prop where
  sees : S.Sees a
  lexical : a.table.Lexical
  grows : b.table.Grows t
  wellFormed : t.WellFormed

variable {S : Site} {t : ScopeTable} {a b m m' : Point} {x y : Outlined}

namespace Reads

/-- What is known between two points in between. -/
theorem sub (h : S.Reads t a b) (h₁ : S.Spans a m) (h₃ : S.Spans m' b) : S.Reads t m m' :=
  ⟨h₁.sees h.sees, h₁.lexical h.lexical, h₃.grows.trans h.grows, h.wellFormed⟩

/-- The exits do not matter. -/
theorem inLoop (h : S.Reads t a b) {exit next : Nat} : (S.inLoop exit next).Reads t a b :=
  ⟨⟨h.sees.wellFormed, h.sees.known⟩, h.lexical, h.grows, h.wellFormed⟩

theorem hold (h : S.Reads t a b) : S.hold.Reads t a b :=
  ⟨⟨h.sees.wellFormed, h.sees.known⟩, h.lexical, h.grows, h.wellFormed⟩

/-- What a slot is for where it is used is what it is for in the end. -/
theorem isSlot (h : S.Reads t a b) (h₁ : S.Spans m b) (hm : m.table.WellFormed) {slot : Word}
    {d : Destination} (hd : m.table.IsSlot slot d) : t.IsSlot slot d :=
  hd.grows (h₁.grows.trans h.grows) hm.toIsTree h.wellFormed.toIsTree

end Reads

namespace Tells

theorem trans {o o' : Outline} (h : S.Tells t a m o) (h' : S.Tells t m b o') :
    S.Tells t a b (o ++ o') where
  stores := by
    obtain ⟨is, hl, hs⟩ := h.stores
    obtain ⟨is', hl', hs'⟩ := h'.stores
    refine ⟨is ++ is', hl.append hl', ?_⟩
    rw [List.filter_append]
    exact List.rel_append hs hs'
  count := by
    rw [h'.count, h.count, Outline.functions_append, List.length_append, Nat.add_assoc]
  functions k ds hk := by
    rw [Outline.functions_append, List.getElem?_append] at hk
    split at hk
    · exact h.functions k ds hk
    · rename_i hge
      obtain ⟨f, hf, hs⟩ := h'.functions _ ds hk
      rw [h.count] at hf
      exact ⟨f, by rwa [show a.count + k = a.count + o.functions.length +
        (k - o.functions.length) by omega], hs⟩

/-- Nothing is emitted. -/
theorem refl (ho : b.offset = a.offset) (hc : b.count = a.count) : S.Tells t a b {} :=
  ⟨⟨[], ho ▸ .nil _, .nil⟩, hc, nofun⟩

/-- **An instruction** that does not store. -/
theorem instruction {op : Opcode} {operands : List Word} (h : S.At a op operands b)
    (hop : Instruction.isStore ⟨a.offset, op, operands⟩ = false) : S.Tells t a b {} := by
  refine ⟨⟨_, h.offset ▸ Code.Lists.single h.has, ?_⟩, h.count, nofun⟩
  rw [List.filter_cons_of_neg (by rw [hop]; exact Bool.false_ne_true)]
  exact .nil

/-- **A store.** -/
theorem store {op : Opcode} {operands : List Word} (h : S.At a op operands b) {d : Destination}
    (hop : Instruction.isStore ⟨a.offset, op, operands⟩ = true)
    (hd : Instruction.IsFor t ⟨a.offset, op, operands⟩ d) : S.Tells t a b ⟨[d], []⟩ := by
  refine ⟨⟨_, h.offset ▸ Code.Lists.single h.has, ?_⟩, h.count, nofun⟩
  rw [List.filter_cons_of_pos hop]
  exact .cons hd .nil

theorem of_code {S' : Site} {o : Outline} (h : S'.Tells t a b o) (hc : S'.code = S.code)
    (hf : S'.functions = S.functions) : S.Tells t a b o :=
  ⟨hc ▸ h.stores, h.count, hf ▸ h.functions⟩

/-- The scopes at a point do not matter. -/
theorem of_table {u : ScopeTable} {o : Outline} (h : S.Tells t (a.withTable u) b o) :
    S.Tells t a b o :=
  ⟨h.stores, h.count, h.functions⟩

end Tells

namespace Follows

theorem trans (h : S.Follows t a m x) (h' : S.Follows t m b y) : S.Follows t a b (x.next y) := by
  intro N hN
  obtain ⟨hx, hN', htail⟩ := h N hN
  obtain ⟨hy, hN'', htail'⟩ := h' _ hN'
  exact ⟨hx.trans hy, hN'', htail'.trans htail⟩

/-- Something comes first that the text does not tell of. -/
theorem after (h : S.Follows t a m .nothing) (h' : S.Follows t m b x) : S.Follows t a b x :=
  h.trans h'

/-- Something comes behind that the text does not tell of. -/
theorem before (h : S.Follows t a m x) (h' : S.Follows t m b .nothing) : S.Follows t a b x := by
  have := h.trans h'
  rwa [Outlined.next_nothing] at this

theorem of_eq (h : b = a) : S.Follows t a b .nothing := by
  subst h
  exact fun N hN => ⟨.refl rfl rfl, hN, rfl⟩

theorem of_code {S' : Site} (h : S'.Follows t a b x) (hc : S'.code = S.code)
    (hf : S'.functions = S.functions) (hs : S'.scope = S.scope) : S.Follows t a b x := by
  intro N hN
  rw [← hs] at hN ⊢
  obtain ⟨ht, hN'⟩ := h N hN
  exact ⟨ht.of_code hc hf, hN'⟩

/-- A step on the scopes that declares nothing. -/
theorem withTable (hs : S.Sees a) {u : ScopeTable} (hf : From True a.table S.scope u) :
    S.Follows t a (a.withTable u) .nothing :=
  fun _ hN => ⟨.refl rfl rfl, hN.quiet hs.wellFormed.toIsTree hf, rfl⟩

/-- **An instruction** that does not store. -/
theorem instruction {op : Opcode} {operands : List Word} (h : S.At a op operands b)
    (hop : Instruction.isStore ⟨a.offset, op, operands⟩ = false) :
    S.Follows t a b .nothing :=
  fun _ hN => ⟨.instruction h hop, h.table ▸ hN, rfl⟩

theorem operation {o : Operation} (h : S.At a o.encode.1 o.encode.2 b) :
    S.Follows t a b .nothing := by
  refine .instruction h ?_
  cases o with
  | pushBool b => cases b <;> rfl
  | unary op => cases op <;> rfl
  | binary op => cases op <;> rfl
  | call bound count => cases bound <;> rfl
  | _ => rfl

theorem forward {op : Opcode} {target : Nat} (h : S.Forward a op target b)
    (hop : op = .jumpForward ∨ op = .popJumpForwardIfFalse ∨ op = .popJumpForwardIfTrue) :
    S.Follows t a b .nothing := by
  obtain ⟨d, h, -⟩ := h
  refine .instruction h ?_
  rcases hop with rfl | rfl | rfl <;> rfl

theorem back {target : Nat} (h : S.Back a target b) : S.Follows t a b .nothing := by
  obtain ⟨d, h, -⟩ := h
  exact .instruction h rfl

theorem advance {target names : Nat} (h : S.Advance a target names b) :
    S.Follows t a b .nothing := by
  obtain ⟨d, h, -⟩ := h
  exact .instruction h rfl

theorem exitIf {tested : Bool} {target : Nat} (h : S.ExitIf tested a target b) :
    S.Follows t a b .nothing := by
  unfold ExitIf at h
  split at h
  · exact forward h (.inr (.inl rfl))
  · exact of_eq h

theorem drops : ∀ {n : Nat} {a b : Point}, S.Drops n a b → S.Follows t a b .nothing
  | 0, _, _, h => of_eq h
  | _ + 1, _, _, ⟨_, h, h'⟩ => (instruction h rfl).after (drops h')

theorem loads {r : Resolution} (h : S.Loads r a b) : S.Follows t a b .nothing := by
  unfold Loads at h
  split at h
  all_goals exact .instruction h rfl

theorem passes {name : String} (h : S.Passes name a b) (hs : S.Sees a) :
    S.Follows t a b .nothing := by
  obtain ⟨r, u, hr, h⟩ := h
  refine (withTable hs (hs.resolve hr).1).after ?_
  rcases h with ⟨-, h⟩ | ⟨-, h⟩
  · exact .instruction h rfl
  · exact .instruction h rfl

theorem passesAll : ∀ {names : List String} {a b : Point}, S.PassesAll names a b → S.Sees a →
    S.Follows t a b .nothing
  | [], _, _, h, _ => of_eq h
  | _ :: _, _, _, ⟨_, h, h'⟩, hs => (passes h hs).after (passesAll h' ((Passes.spans h hs).sees hs))

theorem instantiates {k : Nat} {free : List Resolution} (h : S.Instantiates k free a b)
    (hs : S.Sees a) : S.Follows t a b .nothing := by
  obtain ⟨_, -, h⟩ := h
  split at h
  · exact .instruction h rfl
  · obtain ⟨-, m, h, h'⟩ := h
    exact (passesAll h hs).after (.instruction h' rfl)

/-! ### Names -/

/-- **An assignment** stores into the variable that its name means. -/
theorem stores {r : Resolution} (h : S.Stores r a b) {d : Destination}
    (hr : r.storage = .global → t.IsSlot r.symbol.index d)
    (hinner : r.storage = .local ∨ r.storage = .free → d = .inner) : S.Tells t a b ⟨[d], []⟩ := by
  unfold Stores at h
  cases hst : r.storage with
  | global =>
    rw [hst] at h
    exact .store h rfl (hr hst)
  | «local» =>
    rw [hst] at h
    exact .store h rfl (hinner (.inl hst))
  | free =>
    rw [hst] at h
    exact .store h rfl (hinner (.inr hst))
  | builtin =>
    rw [hst] at h
    exact h.elim

/-- A declaration stores into the variable that it makes. -/
theorem sets {symbol : Symbol} (h : S.Sets symbol a b) {d : Destination}
    (hg : a.table.isGlobal S.scope = true → t.IsSlot symbol.index d)
    (hinner : a.table.isGlobal S.scope = false → d = .inner) : S.Tells t a b ⟨[d], []⟩ := by
  unfold Sets at h
  cases hglobal : a.table.isGlobal S.scope with
  | true =>
    rw [hglobal] at h
    exact .store h rfl (hg hglobal)
  | false =>
    rw [hglobal] at h
    exact .store h rfl (hinner hglobal)

/-- **A declaration.** -/
theorem declare {name : String} {constant : Bool} {symbol : Symbol} {u : ScopeTable}
    (hd : ScopeTable.declare S.scope name constant a.table = .ok symbol u)
    (h : S.Sets symbol (a.withTable u) b) (hr : S.Reads t a b) :
    S.Follows t a b fun N => (⟨[N.place name], []⟩, N.declare name) := by
  intro N hN
  obtain ⟨hf, -⟩ := hr.sees.declare hd
  have hw := hr.sees.wellFormed
  have hglobal := hf.grows.isGlobal hw.toIsTree hf.wellFormed.toIsTree hr.sees.known
  have sb := At.spans h (.of_from hf)
  refine ⟨.of_table (sets h (fun hg => ?_) fun hg => ?_), ?_, by cases N <;> rfl⟩
  · exact hr.isSlot sb hf.wellFormed (hN.isSlot_of_declare hw hd (hglobal.symm.trans hg))
  · exact hN.place_inner hw.toIsTree (hglobal.symm.trans hg) name
  · rw [At.table h]
    exact hN.declare hw hd

/-- Stores for the given destinations, one by one. -/
theorem setsAll : ∀ {symbols : List Symbol} {ds : List Destination} {a b : Point},
    S.SetsAll symbols a b → List.Forall₂ (fun symbol d =>
      (a.table.isGlobal S.scope = true → t.IsSlot symbol.index d) ∧
        (a.table.isGlobal S.scope = false → d = .inner)) symbols ds →
    S.Tells t a b ⟨ds, []⟩ ∧ b.table = a.table
  | [], _, _, _, h, .nil => by
    obtain rfl := h
    exact ⟨.refl rfl rfl, rfl⟩
  | _ :: _, _, a, b, ⟨m, h, h'⟩, .cons hd hds => by
    have ht : m.table = a.table := At.table h
    rw [← ht] at hds
    obtain ⟨hs, ht'⟩ := setsAll h' hds
    exact ⟨(sets h hd.1 hd.2).trans hs, ht'.trans ht⟩

/-- **Several declarations**, the last of which is stored first. -/
theorem declareAll {names : List String} {symbols : List Symbol} {u : ScopeTable}
    (hd : ScopeTable.declareEach S.scope names a.table = .ok symbols u)
    (h : S.SetsAll symbols.reverse (a.withTable u) b) (hr : S.Reads t a b) :
    S.Follows t a b fun N => (⟨(names.map N.place).reverse, []⟩, N.declareEach names) := by
  intro N hN
  have hw := hr.sees.wellFormed
  obtain ⟨hf, hN', hslots⟩ := hN.declareEach hw hd
  have hglobal := hf.grows.isGlobal hw.toIsTree hf.wellFormed.toIsTree hr.sees.known
  have sb := SetsAll.spans h (.of_from hf)
  have hds : List.Forall₂ (fun symbol d =>
      ((a.withTable u).table.isGlobal S.scope = true → t.IsSlot symbol.index d) ∧
        ((a.withTable u).table.isGlobal S.scope = false → d = .inner))
      symbols.reverse (names.map N.place).reverse := by
    rw [List.forall₂_reverse_iff, List.forall₂_map_right_iff]
    refine hslots.imp fun symbol name hslot => ⟨fun hg => ?_, fun hg => ?_⟩
    · exact hr.isSlot sb hf.wellFormed (hslot (hglobal.symm.trans hg))
    · exact hN.place_inner hw.toIsTree (hglobal.symm.trans hg) name
  obtain ⟨htells, htable⟩ := setsAll h hds
  exact ⟨.of_table htells, htable ▸ hN', N.tail_declareEach names⟩

/-- **An assignment.** What its name means is settled before its value is computed. -/
theorem update {name : String} {reads : Bool} {r : Resolution} {u : ScopeTable} {n : Point}
    (hres : ScopeTable.resolve S.scope name a.table = .ok (some r) u)
    (hm : if reads then S.Loads r (a.withTable u) m else m = a.withTable u)
    (hx : S.Follows t m n x) (hs : S.Stores r n b) (hr : S.Reads t a b) (sb : S.Spans a b) :
    S.Follows t a b (x.storing name) := by
  intro N hN
  obtain ⟨hf, -⟩ := hr.sees.resolve hres
  have hload : S.Follows t (a.withTable u) m .nothing := by
    split at hm
    · exact loads hm
    · exact of_eq hm
  obtain ⟨hvalue, hN', htail⟩ := ((withTable hr.sees hf).after hload).after hx N hN
  have hmeaning := hN.resolve hr.lexical hr.sees.wellFormed hres
  have htable : b.table = n.table := by
    unfold Stores at hs
    split at hs
    case h_4 => exact hs.elim
    all_goals exact At.table hs
  refine ⟨hvalue.trans (stores hs (fun hst => ?_) fun hst => ?_), htable ▸ hN', htail⟩
  · rcases hmeaning with hb | ⟨-, hslot⟩ | ⟨hinner, -⟩
    · rw [hst] at hb
      cases hb
    · exact hr.isSlot sb hr.sees.wellFormed hslot
    · rw [hst] at hinner
      rcases hinner with hinner | hinner <;> cases hinner
  · rcases hmeaning with hb | ⟨hglobal, -⟩ | ⟨-, hinner⟩
    · rw [hb] at hst
      rcases hst with hst | hst <;> cases hst
    · rw [hglobal] at hst
      rcases hst with hst | hst <;> cases hst
    · exact hinner

/-- **A block.** -/
theorem block {inner : ScopeId} {u : ScopeTable} (hr : S.Reads t a b)
    (ho : ScopeTable.openScope S.scope .block a.table = .ok inner u) (hg : u.Grows b.table)
    (hb : b.table.WellFormed) (h : Site.Follows { S with scope := inner } t (a.withTable u) b x) :
    S.Follows t a b x.inBlock := by
  intro N hN
  obtain ⟨-, hsees, hsc⟩ := hr.sees.openScope ho
  obtain ⟨htells, hN', htail⟩ := h ([] :: N) (hN.openScope hr.sees.wellFormed ho)
  have hparent : (b.table.scope inner).parent = some S.scope := by
    rw [(hg.scope inner hsees.known).parent, hsc]
  refine ⟨.of_table (htells.of_code rfl rfl), ?_, rfl⟩
  exact hN'.parent hb.toIsTree hparent htail

/-- **A function**, whose stores are those of its body. -/
theorem function {f : Func} {inner blk : ScopeId} {u opened : ScopeTable} {code : Code} {n : Point}
    {returns : Bool} {defaults : List (Option Value)} (hr : S.Reads t a b)
    (he : Generate.enter f S.scope a.table = .ok inner u)
    (ho : ScopeTable.openScope inner .block u = .ok blk opened)
    (hbody : Site.Follows { S with code, scope := blk, exits := none, inFunction := true } t
      ⟨0, opened, a.count⟩ m x)
    (hret : if returns then n = m else Site.At { S with code } m .returnValue [1] n)
    (hsize : code.size = n.offset)
    (hf : S.functions[m.count]? = some ⟨f.name, f.paramNames, defaults, code⟩)
    (hg : opened.Grows m.table) (hm : m.table.WellFormed) :
    S.Follows t a ⟨a.offset, m.table, m.count + 1⟩ (x.inFunction f) := by
  intro N hN
  have hw := hr.sees.wellFormed
  obtain ⟨-, finner, -, hparent⟩ := hr.sees.enter he
  have hinner := hN.enter hw he
  obtain ⟨-, g₁, -, hblk, -⟩ := openScope_spec finner.wellFormed finner.known ho
  obtain ⟨htells, hshows, htail⟩ := hbody (N.inFunction f) (hinner.openScope finner.wellFormed ho)
  refine ⟨⟨⟨[], .nil _, .nil⟩, ?_, fun k ds hk => ?_⟩, ?_, rfl⟩
  · show m.count + 1 = a.count + ((x (N.inFunction f)).1.functions ++ [_]).length
    rw [htells.count, List.length_append, List.length_singleton, Nat.add_assoc]
  · have hk : ((x (N.inFunction f)).1.functions ++ [(x (N.inFunction f)).1.stores])[k]? = some ds :=
      hk
    rw [List.getElem?_append] at hk
    split at hk
    · exact htells.functions k ds hk
    · -- the function itself comes behind those in it
      rename_i hge
      obtain ⟨hlt, rfl⟩ := List.getElem?_eq_some_iff.mp hk
      have hcount : m.count = a.count + k := by
        have heq : m.count = a.count + (x (N.inFunction f)).1.functions.length := htells.count
        rw [List.length_singleton] at hlt
        omega
      refine ⟨_, hcount ▸ hf, ?_⟩
      obtain ⟨is, hlists, hstores⟩ := htells.stores
      have hend : ∃ is', code.Lists 0 is' n.offset ∧
          is'.filter Instruction.isStore = is.filter Instruction.isStore := by
        split at hret
        · exact ⟨is, hret ▸ hlists, rfl⟩
        · refine ⟨_, hlists.append (hret.offset ▸ Code.Lists.single hret.has), ?_⟩
          rw [List.filter_append]
          exact List.append_nil _
      obtain ⟨is', hlists', heq⟩ := hend
      show Instruction.AreFor t (code.stores 0) _
      rw [hlists'.stores hsize.symm, heq, List.getElem_singleton]
      exact hstores
  · have hp₁ : (m.table.scope blk).parent = some inner := by
      rw [(hg.scope blk (lt_of_parent (p := inner) (by rw [hblk]))).parent, hblk]
    have hp₂ : (m.table.scope inner).parent = some S.scope := by
      rw [((g₁.trans hg).scope inner finner.known).parent, hparent]
    exact (hshows.parent hm.toIsTree hp₁ htail).parent hm.toIsTree hp₂ rfl

end Follows

end Site

/-! ### Plans -/

open Outlined

mutual

/-- **The code of a plan follows its outline.** -/
theorem Plan.Laid.follows : ∀ {p : Plan} {S : Site} {t : ScopeTable} {a b : Point},
    p.Laid S a b → S.Reads t a b → S.Follows t a b p.outline
  -- by induction on the plan; the table only grows, so what is read of it later is still there
  | .skip, _, _, _, _, h, _ => .of_eq h
  | .seq x y, S, t, a, b, ⟨m, hx, hy⟩, hr => by
    have s₁ := hx.spans hr.sees
    have s₂ := hy.spans (s₁.sees hr.sees)
    exact (hx.follows (hr.sub hr.sees.refl s₂)).trans
      (hy.follows (hr.sub s₁ ((s₁.trans s₂).sees hr.sees).refl))
  | .instr _, _, _, _, _, h, _ => .operation h
  | .const _ _, _, _, _, _, ⟨_, _, h⟩, _ => .instruction h rfl
  | .attr sets _, _, _, _, _, ⟨_, _, h⟩, _ => .instruction h (by cases sets <;> rfl)
  | .load _, S, t, a, b, ⟨_, u, hres, h⟩, hr =>
    (Site.Follows.withTable hr.sees (hr.sees.resolve hres).1).after (.loads h)
  | .update name reads value, S, t, a, b, h, hr => by
    -- the name is looked up before the value is compiled, and stored to behind it
    have sb := Plan.Laid.spans (p := .update name reads value) h hr.sees
    obtain ⟨r, u, hres, -, m, hm, n, hv, hst⟩ := h
    have hf := (hr.sees.resolve hres).1
    have ht : S.Sees (a.withTable u) := .of_from hf
    have s₁ : S.Spans (a.withTable u) m := by
      split at hm
      · exact Site.Loads.spans hm ht
      · exact hm ▸ ht.refl
    have s₂ := (Site.Spans.of_from hf).trans s₁
    have s₃ := s₂.trans (hv.spans (s₂.sees hr.sees))
    have s₄ := hst.spans (s₃.sees hr.sees)
    exact .update hres hm (hv.follows (hr.sub s₂ s₄)) hst hr sb
  | .declare _ _, _, _, _, _, ⟨_, _, hd, h⟩, hr => .declare hd h hr
  | .declareAll _, _, _, _, _, ⟨_, _, hd, h⟩, hr => .declareAll hd h hr
  | .refuse _, _, _, _, _, h, _ => h.elim
  | .outsidePipe, _, _, _, _, h, _ => .of_eq h
  | .stages body, _, _, _, _, h, hr => Plan.Laid.follows (p := body) h hr
  | .insideFunction, _, _, _, _, ⟨_, h⟩, _ => .of_eq h
  | .leave isBreak, _, _, _, _, ⟨_, _, _, hd, hj⟩, _ =>
    (Site.Follows.drops hd).after (.forward hj (.inl rfl))
  | .branch condition ifTrue ifFalse, S, t, a, b, h, hr => by
    obtain ⟨m₁, m₂, m₃, m₄, hc, hj, ht, hj', hf⟩ := h
    have s₁ := hc.spans hr.sees
    have s₂ := s₁.trans (hj.spans (s₁.sees hr.sees))
    have s₃ := s₂.trans (ht.spans (s₂.sees hr.sees))
    have s₄ := s₃.trans (hj'.spans (s₃.sees hr.sees))
    have r₄ := hf.spans (s₄.sees hr.sees)
    have r₃ := (hj'.spans (s₃.sees hr.sees)).trans r₄
    have r₁ := ((hj.spans (s₁.sees hr.sees)).trans (ht.spans (s₂.sees hr.sees))).trans r₃
    -- jumps store nothing, so the outline is that of the three parts
    refine (hc.follows (hr.sub hr.sees.refl r₁)).trans ?_
    refine (Site.Follows.forward hj (.inr (.inl rfl))).after ?_
    refine (ht.follows (hr.sub s₂ r₃)).trans ?_
    refine (Site.Follows.forward hj' (.inl rfl)).after ?_
    exact hf.follows (hr.sub s₄ (r₄.sees (s₄.sees hr.sees)).refl)
  | .shortCircuit both left right, S, t, a, b, h, hr => by
    obtain ⟨m₁, m₂, m₃, m₄, m₅, hl, hc, hj, hx, ho, hn⟩ := h
    have s₁ := hl.spans hr.sees
    have s₂ := s₁.trans (hc.spans (s₁.sees hr.sees))
    have s₃ := s₂.trans (hj.spans (s₂.sees hr.sees))
    have s₄ := s₃.trans (hx.spans (s₃.sees hr.sees))
    have s₅ := s₄.trans (ho.spans (s₄.sees hr.sees))
    have r₄ := (ho.spans (s₄.sees hr.sees)).trans (hn.spans (s₅.sees hr.sees))
    have r₁ := ((hc.spans (s₁.sees hr.sees)).trans (hj.spans (s₂.sees hr.sees))).trans
      ((hx.spans (s₃.sees hr.sees)).trans r₄)
    refine (hl.follows (hr.sub hr.sees.refl r₁)).trans ?_
    refine (Site.Follows.instruction hc rfl).after ?_
    refine (Site.Follows.forward hj (by cases both <;> simp)).after ?_
    refine (hx.follows (hr.sub s₃ r₄)).before ?_
    exact (Site.Follows.operation ho).after (.instruction hn rfl)
  | .switch subject arms default, S, t, a, b, h, hr => by
    obtain ⟨m₁, m₂, m₃, m₄, m₅, m₆, targets, hp, ht, hj, hb, hd, hw, hq⟩ := h
    have s₁ := hp.spans hr.sees
    have s₂ := s₁.trans (ht.spans (s₁.sees hr.sees))
    have s₃ := s₂.trans (hj.spans (s₂.sees hr.sees))
    -- the bodies run with the subject held back, which changes neither code nor scope
    have held : ∀ {m : Point}, S.Spans a m → S.hold.Sees m := fun s =>
      ⟨(s.sees hr.sees).wellFormed, (s.sees hr.sees).known⟩
    have hbodies : S.Spans m₃ m₄ := (hb.spans (held s₃)).of_code rfl
    have s₄ := s₃.trans hbodies
    have hdefault : S.Spans m₄ m₅ := (hd.spans (held s₄)).of_code rfl
    have s₅ := s₄.trans hdefault
    have s₆ := s₅.trans (hw.spans (s₅.sees hr.sees))
    have r₅ := (hw.spans (s₅.sees hr.sees)).trans (hq.spans (s₆.sees hr.sees))
    have r₄ := hdefault.trans r₅
    have r₂ := (hj.spans (s₂.sees hr.sees)).trans (hbodies.trans r₄)
    have r₁ := (ht.spans (s₁.sees hr.sees)).trans r₂
    refine (hp.follows (hr.sub hr.sees.refl r₁)).trans ?_
    refine (ht.follows (hr.sub s₁ r₂)).trans ?_
    refine (Site.Follows.forward hj (.inl rfl)).after ?_
    refine (Site.Follows.of_code (S := S) (hb.follows (hr.sub s₃ r₄).hold) rfl rfl rfl).trans ?_
    refine (Site.Follows.of_code (S := S) (hd.follows (hr.sub s₄ r₅).hold) rfl rfl rfl).before ?_
    exact (Site.Follows.instruction hw rfl).after (.instruction hq rfl)
  | .block body, S, t, a, b, ⟨inner, u, ho, h⟩, hr => by
    obtain ⟨hf, hsees, -⟩ := hr.sees.openScope ho
    have sb := h.spans hsees
    exact .block hr ho sb.grows sb.wellFormed
      (h.follows ⟨hsees, hf.lexical hr.lexical, hr.grows, hr.wellFormed⟩)
  | .loop tested condition body post, S, t, a, b, h, hr => by
    obtain ⟨m₁, m₂, m₃, m₄, m₅, m₆, hc, hx, hb, hq, hp, hk, hn⟩ := h
    have s₁ := hc.spans hr.sees
    have s₂ := s₁.trans (hx.spans (s₁.sees hr.sees))
    have hbody : S.Spans m₂ m₃ :=
      (hb.spans ⟨(s₂.sees hr.sees).wellFormed, (s₂.sees hr.sees).known⟩).of_code rfl
    have s₃ := s₂.trans hbody
    have s₄ := s₃.trans (hq.spans (s₃.sees hr.sees))
    have s₅ := s₄.trans (hp.spans (s₄.sees hr.sees))
    have s₆ := s₅.trans (hk.spans (s₅.sees hr.sees))
    have r₅ := (hk.spans (s₅.sees hr.sees)).trans (hn.spans (s₆.sees hr.sees))
    have r₃ := (hq.spans (s₃.sees hr.sees)).trans ((hp.spans (s₄.sees hr.sees)).trans r₅)
    have r₁ := (hx.spans (s₁.sees hr.sees)).trans (hbody.trans r₃)
    refine (hc.follows (hr.sub hr.sees.refl r₁)).trans ?_
    refine (Site.Follows.exitIf hx).after ?_
    refine (Site.Follows.of_code (S := S) (hb.follows (hr.sub s₂ r₃).inLoop) rfl rfl rfl).trans ?_
    refine (Site.Follows.instruction hq rfl).after ?_
    refine (hp.follows (hr.sub s₄ r₅)).before ?_
    exact (Site.Follows.back hk).after (.instruction hn rfl)
  | .iterate names bind body, S, t, a, b, h, hr => by
    obtain ⟨m₁, m₂, m₃, m₄, m₅, m₆, hx, hi, hb, hq, hk, hp, hn⟩ := h
    have s₁ := hx.spans hr.sees
    have s₂ := s₁.trans (hi.spans (s₁.sees hr.sees))
    have hbody : S.Spans m₂ m₃ :=
      (hb.spans ⟨(s₂.sees hr.sees).wellFormed, (s₂.sees hr.sees).known⟩).of_code rfl
    have s₃ := s₂.trans hbody
    have s₄ := s₃.trans (hq.spans (s₃.sees hr.sees))
    have s₅ := s₄.trans (hk.spans (s₄.sees hr.sees))
    have s₆ := s₅.trans (hp.spans (s₅.sees hr.sees))
    have r₃ := (hq.spans (s₃.sees hr.sees)).trans ((hk.spans (s₄.sees hr.sees)).trans
      ((hp.spans (s₅.sees hr.sees)).trans (hn.spans (s₆.sees hr.sees))))
    refine (Site.Follows.advance hx).after ?_
    refine (hi.follows (hr.sub s₁ (hbody.trans r₃))).trans ?_
    refine (Site.Follows.of_code (S := S) (hb.follows (hr.sub s₂ r₃).inLoop) rfl rfl rfl).before ?_
    refine (Site.Follows.instruction hq rfl).after ((Site.Follows.back hk).after ?_)
    exact (Site.Follows.instruction hp rfl).after (.instruction hn rfl)
  | .func f body, S, t, a, b, h, hr => by
    have sb := Plan.Laid.spans (p := .func f body) h hr.sees
    obtain ⟨-, -, inner, u, he, blk, opened, ho, code, m, n, -, -, hsize, -, hb, hret, hf, -, hi⟩ :=
      h
    -- the body stores into slots of its own function; what this code stores is the closure, and
    -- the cells passed to it
    obtain ⟨fenter, finner, -⟩ := hr.sees.enter he
    obtain ⟨fblock, hsees, -⟩ := Site.Sees.openScope (S := { S with code, scope := inner })
      (a := ⟨0, u, a.count⟩) ⟨finner.wellFormed, finner.known⟩ ho
    have sbody := hb.spans ⟨hsees.wellFormed, hsees.known⟩
    have hm : S.Sees ⟨a.offset, m.table, m.count + 1⟩ :=
      ⟨sbody.wellFormed, Nat.lt_of_lt_of_le hr.sees.known
        (fenter.grows.trans (fblock.grows.trans sbody.grows)).size⟩
    have hbody := hb.follows (t := t) ⟨⟨hsees.wellFormed, hsees.known⟩,
      fblock.lexical (fenter.lexical hr.lexical), (hi.spans hm).grows.trans hr.grows, hr.wellFormed⟩
    exact (Site.Follows.function hr he ho hbody hret hsize hf sbody.grows sbody.wellFormed).before
      (.instantiates hi hm)

/-- The tests of all cases. -/
theorem Arms.TestsLaid.follows : ∀ {c : Arms} {S : Site} {t : ScopeTable} {targets : List Nat}
    {a b : Point}, c.TestsLaid S targets a b → S.Reads t a b → S.Follows t a b c.outlineTests
  | .nil, _, _, _, _, _, ⟨_, h⟩, _ => .of_eq h
  | .arm _ _ _, S, t, _, a, b, ⟨_, _, _, _, ht, hs⟩, hr => by
    have s₁ := ht.spans hr.sees
    have s₂ := hs.spans (s₁.sees hr.sees)
    exact (ht.follows (hr.sub hr.sees.refl s₂)).trans
      (hs.follows (hr.sub s₁ ((s₁.trans s₂).sees hr.sees).refl))

/-- The tests of a case. -/
theorem Tests.Laid.follows : ∀ {c : Tests} {S : Site} {t : ScopeTable} {target : Nat}
    {a b : Point}, c.Laid S target a b → S.Reads t a b → S.Follows t a b c.outline
  | .nil, _, _, _, _, _, h, _ => .of_eq h
  | .test value rest, S, t, target, a, b, h, hr => by
    obtain ⟨m₁, m₂, m₃, m₄, hc, hv, he, hj, hs⟩ := h
    have s₁ := hc.spans hr.sees
    have s₂ := s₁.trans (hv.spans (s₁.sees hr.sees))
    have s₃ := s₂.trans (he.spans (s₂.sees hr.sees))
    have s₄ := s₃.trans (hj.spans (s₃.sees hr.sees))
    have r₄ := hs.spans (s₄.sees hr.sees)
    have r₂ := (he.spans (s₂.sees hr.sees)).trans ((hj.spans (s₃.sees hr.sees)).trans r₄)
    refine (Site.Follows.instruction hc rfl).after ?_
    refine (hv.follows (hr.sub s₁ r₂)).trans ?_
    refine (Site.Follows.instruction he rfl).after ?_
    refine (Site.Follows.forward hj (.inr (.inr rfl))).after ?_
    exact hs.follows (hr.sub s₄ (r₄.sees (s₄.sees hr.sees)).refl)

/-- The bodies of all cases. -/
theorem Arms.BodiesLaid.follows : ∀ {c : Arms} {S : Site} {t : ScopeTable} {targets : List Nat}
    {done : Nat} {a b : Point}, c.BodiesLaid S targets done a b → S.Reads t a b →
      S.Follows t a b c.outlineBodies
  | .nil, _, _, _, _, _, _, h, _ => .of_eq h
  | .arm _ body rest, S, t, targets, done, a, b, h, hr => by
    obtain ⟨others, m₁, m₂, -, hb, hj, hs⟩ := h
    have s₁ := hb.spans hr.sees
    have s₂ := s₁.trans (hj.spans (s₁.sees hr.sees))
    have r₂ := hs.spans (s₂.sees hr.sees)
    refine (hb.follows (hr.sub hr.sees.refl ((hj.spans (s₁.sees hr.sees)).trans r₂))).trans ?_
    refine (Site.Follows.forward hj (.inl rfl)).after ?_
    exact hs.follows (hr.sub s₂ (r₂.sees (s₂.sees hr.sees)).refl)

end

end ScriptEngine
