import ScriptEngine.Proofs.Evaluation.Bindings
import ScriptEngine.Proofs.Plan.Shape

/-!
# Code that carries out an evaluation

The code between two points carries out an evaluation if from the first point on a run follows the
evaluation, and comes to the second one with the result on top of the operands that were there.
Where a break or a continue leads to is known unless it would lie inside an operand.

## Main definitions

* `ScriptEngine.Ground.Stage`: what surrounds the code between two points;
* `ScriptEngine.Ground.Carries`: the code between two points carries out an evaluation.

## Main results

* `ScriptEngine.Ground.Carries.after`, `ScriptEngine.Ground.Carries.afterBoth`: an instruction after
  its operands;
* `ScriptEngine.Ground.Carries.load`, `ScriptEngine.Ground.Carries.assign`,
  `ScriptEngine.Ground.Carries.declare`: variables;
* `ScriptEngine.Ground.Carries.block`, `ScriptEngine.Ground.Carries.branch`: blocks and branches.
-/

namespace ScriptEngine

open ScopeTable

/-- **A break and a continue lead out** of code that lies inside no operand, with the operands that
their loop has. -/
def Site.Escapes (S : Site) (busy : Bool) (J : Option Escape) (vs : List Value) : Prop :=
  busy = false → ∀ e, S.exits = some e → ∃ dropped left, vs = dropped ++ left ∧
    dropped.length = e.held ∧ J = some ⟨e.exit, e.next, left⟩

namespace Site.Escapes

variable {S : Site} {busy : Bool} {J : Option Escape} {v : Value} {vs : List Value}

theorem of_busy : S.Escapes true J vs :=
  fun h => by cases h

theorem hold (h : S.Escapes busy J vs) : S.hold.Escapes busy J (v :: vs) := by
  intro hbusy e he
  obtain ⟨e, hexits, rfl⟩ := Option.map_eq_some_iff.mp he
  obtain ⟨dropped, left, rfl, hlength, hJ⟩ := h hbusy e hexits
  exact ⟨v :: dropped, left, rfl, congrArg (· + 1) hlength, hJ⟩

theorem inLoop {exit next : Nat} : (S.inLoop exit next).Escapes busy
    (some ⟨exit, next, vs⟩) vs := by
  rintro - e he
  obtain rfl := Option.some.inj he
  exact ⟨[], vs, rfl, rfl, rfl⟩

end Site.Escapes

theorem Site.SetsAll.table {S : Site} : ∀ {symbols : List Symbol} {a b : Point},
    S.SetsAll symbols a b → b.table = a.table
  | [], _, _, hl => congrArg Point.table hl
  | _ :: _, _, _, ⟨_, hset, hl⟩ => (SetsAll.table hl).trans (At.table hset)

namespace Ground

variable {G : Ground} {α β γ : Type} {n N : Nat} {S : Site} {busy : Bool} {C C' C₁ C₂ : Chain}
  {l l' : Layer} {a b m m' : Point} {ν ν' : Names} {J : Option Escape} {v : Value}
  {vs K : List Value}
  {x : Eval α} {y : Eval β} {out : α → List Value} {out₁ : β → List Value} {out₂ : γ → List Value}
  {p q : Plan} {name : String}

theorem Opens.sees (h : G.Opens S.scope C a.table) : S.Sees a := by
  obtain ⟨l, C', rfl, hscope⟩ := h.exists_cons
  exact ⟨h.faithful.wellFormed, hscope ▸ h.faithful.mirrors.1.known⟩

/-- **What surrounds the code between two points**: it is the code that runs, and it is known which
scopes are open at the first point. -/
structure Stage (G : Ground) (S : Site) (C : Chain) (a b : Point) : Prop where
  hosts : G.Hosts S.code
  opens : G.Opens S.scope C a.table
  inside : b.offset ≤ G.code.size
  exits : ∀ e, S.exits = some e → e.exit ≤ G.code.size ∧ e.next ≤ G.code.size

namespace Stage

theorem has (h : G.Stage S C a b) {a' b' : Point} {op : Opcode} {operands : List Word}
    (hat : S.At a' op operands b') : G.code.Has ⟨a'.offset, op, operands⟩ :=
  hat.has.of_words fun _ _ hw => h.hosts.words ▸ hw

/-- The surroundings of the first part of some code. -/
theorem upTo (h : G.Stage S C a b) (hm : m.offset ≤ b.offset) : G.Stage S C a m :=
  ⟨h.hosts, h.opens, Nat.le_trans hm h.inside, h.exits⟩

/-- The surroundings of the last part of some code. -/
theorem onward (h : G.Stage S C a b) (ho : G.Opens S.scope C' m.table) : G.Stage S C' m b :=
  ⟨h.hosts, ho, h.inside, h.exits⟩

/-- The surroundings of the first of two plans. -/
theorem first (h : G.Stage S C a b) (hp : p.Laid S a m) (hq : q.Laid S m b) : G.Stage S C a m :=
  h.upTo (hq.spans ((hp.spans h.opens.sees).sees h.opens.sees)).le

theorem behind_le (h : G.Stage S C a b) {a' b' : Point} {op : Opcode} {operands : List Word}
    (hat : S.At a' op operands b') : b'.offset ≤ G.code.size :=
  hat.offset ▸ (h.has hat).stop_le

/-- The surroundings of code with an instruction behind it. -/
theorem before (h : G.Stage S C a b) {op : Opcode} {operands : List Word}
    (hat : S.At m op operands m') : G.Stage S C a m :=
  ⟨h.hosts, h.opens, Nat.le_of_lt (h.has hat).offset_lt, h.exits⟩

/-- A value is declared under a name. -/
theorem declare (h : G.Stage S (l :: C) a b) {constant : Bool} {symbol : Symbol} {t : ScopeTable}
    (hd : ScopeTable.declare S.scope name constant a.table = .ok symbol t)
    (hset : S.Sets symbol (a.withTable t) m) :
    G.Opens S.scope (l.declare symbol :: C) m.table ∧
      (a.table.visible (l :: C)).Grows (m.table.visible (l.declare symbol :: C)) ∧
      ∀ (J : Option Escape) (K : List Value) (v : Value), Discipline.plain.value () v →
        G.Follows J n (a.table.visible (l :: C)) a.offset (v :: K) (Eval.declare name v)
          (m.table.visible (l.declare symbol :: C)) (Atop K m.offset fun _ => []) := by
  obtain ⟨hopens, hgrows, rfl, hindex, hslots⟩ := h.opens.declared hd
  have hglobal : (a.withTable t).table.isGlobal S.scope = true := hopens.isGlobal
  unfold Site.Sets at hset
  rw [hglobal] at hset
  have hat : S.At (a.withTable t) .storeGlobal [symbol.index] m := hset
  have hhas := h.has hat
  obtain rfl := hat.2.2
  refine ⟨hopens, hgrows, fun J K v hv => Follows.declare hhas (fun x hx => ?_) ?_ hv⟩
  · exact hindex ▸ h.opens.given x hx
  · exact Nat.lt_of_lt_of_eq (hindex ▸ Nat.lt_succ_self _) hslots.symm

/-- The code of a store into a variable that was looked up. -/
theorem stores (hs : G.Stage S C a m') {r : Resolution} {t : ScopeTable}
    (hr : ScopeTable.resolve S.scope name a.table = .ok (some r) t) (hl : S.Stores r m b) :
    (∀ (J : Option Escape) (K : List Value) (slots : Nat) (v : Value), Discipline.plain.value () v →
      (a.table.scope root).slots ≤ slots →
        G.Follows J n ⟨C.symbols, slots⟩ m.offset (v :: K) (Eval.assign name v) ⟨C.symbols, slots⟩
          (Atop K b.offset fun _ => [])) ∧ b.table = m.table ∧ m.offset ≤ G.code.size := by
  obtain ⟨-, -, ⟨hfound, hstorage⟩ | ⟨-, hstorage, -⟩⟩ := hs.opens.resolve hr
  · unfold Site.Stores at hl
    rw [hstorage] at hl
    have hat : S.At m .storeGlobal [r.symbol.index] b := hl
    obtain rfl := hat.2.2
    refine ⟨fun J K slots v hv hslots => ?_, rfl, Nat.le_of_lt (hs.has hat).offset_lt⟩
    refine Follows.assign (hs.has hat) hs.opens.newest hfound ?_ hv
    exact Nat.lt_of_lt_of_le (hs.opens.given _ (List.mem_of_find?_eq_some hfound)) hslots
  · unfold Site.Stores at hl
    rw [hstorage] at hl
    exact hl.elim

end Stage

/-- **The code between two points carries out an evaluation.** The scopes `C` are open before, and
`C'` afterwards. -/
structure Carries (G : Ground) (n : Nat) (S : Site) (busy : Bool) (C C' : Chain) (a b : Point)
    (x : Eval α) (out : α → List Value) : Prop where
  opens : G.Opens S.scope C' b.table
  grows : (a.table.visible C).Grows (b.table.visible C')
  follows : ∀ J K, S.Escapes busy J K →
    G.Follows J n (a.table.visible C) a.offset K x (b.table.visible C') (Atop K b.offset out)

namespace Carries

/-- **What comes after** an evaluation. -/
theorem andThen {f : α → Eval β} {R : β → Nat → List Value → Prop}
    (h : G.Carries n S busy C C₁ a m x out) (he : S.Escapes busy J K)
    (hf : ∀ v, Plain (out v) →
      G.Follows J n (m.table.visible C₁) m.offset (out v ++ K) (f v) ν R)
    (hg : (m.table.visible C₁).Grows ν) :
    G.Follows J n (a.table.visible C) a.offset K (x >>= f) ν R := by
  refine (h.follows J K he).bind (fun v q us hQ => ?_) h.grows hg
  obtain ⟨rfl, rfl, hplain⟩ := hQ
  exact hf v hplain

/-- **An instruction** on its own. -/
theorem single (ho : G.Opens S.scope C a.table) (hb : b.table = a.table)
    (hf : ∀ J K, G.Follows J n (a.table.visible C) a.offset K x (a.table.visible C)
      (Atop K b.offset out)) : G.Carries n S busy C C a b x out :=
  ⟨hb ▸ ho, hb ▸ .refl _, fun J K _ => hb ▸ hf J K⟩

/-- **An instruction after its operand.** -/
theorem after {f : α → Eval β} (h : G.Carries n S busy C C₁ a m x out) (hb : b.table = m.table)
    (hf : ∀ J K v, Plain (out v) → G.Follows J n (m.table.visible C₁) m.offset (out v ++ K) (f v)
      (m.table.visible C₁) (Atop K b.offset out₁)) :
    G.Carries n S busy C C₁ a b (x >>= f) out₁ :=
  ⟨hb ▸ h.opens, hb ▸ h.grows,
    fun J K he => hb ▸ h.andThen he (fun v hv => hf J K v hv) (.refl _)⟩

/-- **One operand above another.** -/
theorem pair (hx : G.Carries n S busy C C₁ a m x out) (hy : G.Carries n S true C₁ C₂ m b y out₁) :
    G.Carries n S busy C C₂ a b (do
      let v ← x
      let u ← y
      return (v, u)) fun r => out₁ r.2 ++ out r.1 := by
  refine ⟨hy.opens, hx.grows.trans hy.grows, fun J K he => ?_⟩
  refine hx.andThen he (fun v hv => ?_) hy.grows
  refine hy.andThen .of_busy (fun u hu => ?_) (.refl _)
  exact .pure _ ⟨rfl, (List.append_assoc ..).symm, Discipline.values_append.mpr ⟨hu, hv⟩⟩

/-- **An instruction after two operands.** -/
theorem afterBoth {f : α → β → Eval γ} (hx : G.Carries n S busy C C₁ a m x out)
    (hy : G.Carries n S true C₁ C₂ m m' y out₁) (hb : b.table = m'.table)
    (hf : ∀ J K v u, Plain (out v) → Plain (out₁ u) →
      G.Follows J n (m'.table.visible C₂) m'.offset (out₁ u ++ (out v ++ K)) (f v u)
        (m'.table.visible C₂) (Atop K b.offset out₂)) :
    G.Carries n S busy C C₂ a b (do
      let v ← x
      let u ← y
      f v u) out₂ := by
  refine ⟨hb ▸ hy.opens, hb ▸ hx.grows.trans hy.grows, fun J K he => hb ▸ ?_⟩
  refine hx.andThen he (fun v hv => ?_) hy.grows
  exact hy.andThen .of_busy (fun u hu => hf J K v u hv hu) (.refl _)

/-- Only that nothing is left counts. -/
theorem discard {o : β} (h : G.Carries n S busy C C' a b x fun _ => []) :
    G.Carries n S busy C C' a b (do
      let _ ← x
      return o) fun _ => [] :=
  h.after rfl fun _ _ _ _ => .pure _ ⟨rfl, rfl, Discipline.values_nil⟩

/-! ### Variables -/

/-- **A variable or a builtin is read.** -/
theorem load (hs : G.Stage S C a m) (hl : (Plan.load name).Laid S a b) :
    G.Carries n S busy C C a b (Eval.load G.setting name) ([·]) := by
  obtain ⟨r, t, hr, hloads⟩ := hl
  obtain ⟨hopens, hgrows, ⟨hfound, hstorage⟩ | ⟨hfound, hstorage, hindex⟩⟩ := hs.opens.resolve hr
  · unfold Site.Loads at hloads
    rw [hstorage] at hloads
    have hat : S.At (a.withTable t) .loadGlobal [r.symbol.index] b := hloads
    obtain rfl := hat.2.2
    exact ⟨hopens, hgrows, fun J K _ => (Follows.load (hs.has hat) hfound).widen hgrows.1⟩
  · unfold Site.Loads at hloads
    rw [hstorage] at hloads
    have hat : S.At (a.withTable t) .loadBuiltin [r.symbol.index] b := hloads
    obtain ⟨hentry, hplain⟩ := hs.opens.builtins _ _ hindex
    obtain rfl := hat.2.2
    exact ⟨hopens, hgrows,
      fun J K _ => (Follows.loadBuiltin (hs.has hat) hfound hentry hplain).widen hgrows.1⟩

/-- **A variable is assigned.** -/
theorem assign {x : Eval Value} (hs : G.Stage S C a b) (hl : (Plan.update name false p).Laid S a b)
    (h : ∀ {a m : Point}, G.Stage S C a m → p.Laid S a m → G.Carries n S busy C C a m x ([·])) :
    G.Carries n S busy C C a b (do Eval.assign name (← x)) fun _ => [] := by
  obtain ⟨r, t, hr, -, m, rfl, m', hp, hstore⟩ := hl
  obtain ⟨hopens, hgrows, -⟩ := hs.opens.resolve hr
  obtain ⟨hassign, htable, hle⟩ := hs.stores hr hstore
  have hx := h ⟨hs.hosts, hopens, hle, hs.exits⟩ hp
  refine ⟨htable ▸ hx.opens, htable ▸ hgrows.trans hx.grows, fun J K he => htable ▸ ?_⟩
  refine .start rfl (hx.andThen he (fun v hv => ?_) (.refl _))
  exact hassign J K _ v (hv v List.mem_cons_self) (Nat.le_trans hgrows.1 hx.grows.1)

/-- **A variable is assigned** what an operator makes of its value and another one. -/
theorem compound {x : Eval Value} {op : InfixOp} (hs : G.Stage S C a b)
    (hl : (Plan.update name true (.seq p (.instr (.binary op)))).Laid S a b)
    (h : ∀ {a m : Point}, G.Stage S C a m → p.Laid S a m → G.Carries n S true C C a m x ([·])) :
    G.Carries n S busy C C a b (do
      let old ← Eval.load G.setting name
      let v ← x
      Eval.assign name (← Eval.onHeap (op.apply · old v))) fun _ => [] := by
  obtain ⟨r, t, hr, -, m, hload, m', ⟨m₁, hp, hat⟩, hstore⟩ := hl
  have hat : S.At m₁ (Generate.operator op).1 [(Generate.operator op).2] m' := hat
  obtain ⟨hassign, htable, -⟩ := hs.stores hr hstore
  have hloaded : G.Carries n S busy C C a m (Eval.load G.setting name) ([·]) :=
    load hs ⟨r, t, hr, hload⟩
  have hx := h ((hs.onward hloaded.opens).before hat) hp
  have hbinary : G.Carries n S busy C C a m' (do
      let old ← Eval.load G.setting name
      let v ← x
      Eval.onHeap (op.apply · old v)) ([·]) := by
    refine hloaded.afterBoth hx hat.table fun J K old v hold hv => ?_
    obtain rfl := hat.2.2
    exact .binary (hs.has hat) (Discipline.values_append.mpr ⟨hv, hold⟩)
  refine ⟨htable ▸ hbinary.opens, htable ▸ hbinary.grows, fun J K he => htable ▸ ?_⟩
  have hfollows := hbinary.andThen he (fun v hv =>
    hassign J K _ v (hv v List.mem_cons_self) hbinary.grows.1) (.refl _)
  rw [bind_assoc] at hfollows
  simp only [bind_assoc] at hfollows
  exact hfollows

/-- **A variable is declared.** -/
theorem declare {x : Eval Value} {constant : Bool} (hs : G.Stage S (l :: C) a b)
    (hl : (Plan.seq p (.declare name constant)).Laid S a b)
    (h : ∀ {m : Point}, G.Stage S (l :: C) a m → p.Laid S a m →
      G.Carries n S busy (l :: C) (l :: C) a m x ([·])) :
    ∃ l', G.Carries n S busy (l :: C) (l' :: C) a b (do Eval.declare name (← x)) fun _ => [] := by
  obtain ⟨m, hp, hq⟩ := hl
  have hx := h (hs.first hp hq) hp
  obtain ⟨symbol, t, hd, hset⟩ := hq
  obtain ⟨hopens, hgrows, hdeclare⟩ := (hs.onward hx.opens).declare hd hset
  refine ⟨l.declare symbol, hopens, hx.grows.trans hgrows, fun J K he => ?_⟩
  exact hx.andThen he (fun v hv => hdeclare J K v (hv v List.mem_cons_self)) hgrows

end Carries

/-- **Values are stored in slots**, one by one, in the newest slot first. -/
theorem Stage.setsAll (hs : G.Stage S C m m') {symbols : List Symbol} :
    ∀ (L : List (Symbol × Value)) {a b : Point} {slots : Nat} {w : World} {k : UInt32},
      a.table.isGlobal S.scope = true → S.SetsAll (L.map Prod.fst) a b →
      Newest (L.map Prod.fst ++ symbols) → (∀ s ∈ L.map Prod.fst, s.index.toNat < slots) →
      Plain (L.map Prod.snd) → G.Fits w →
      G.Comes 0 (fun F' w' => ∃ k', F' = G.fiber b.offset K k' ∧
        w'.store (L.map Prod.fst ++ symbols) = { w.store symbols with
          bindings := L.map (fun x => (x.1.name, x.2)) ++ (w.store symbols).bindings } ∧
        G.Later slots w w') (G.fiber a.offset (L.map Prod.snd ++ K) k) w
  | [], a, b, slots, w, k, _, hl, _, _, _, hw => by
    obtain rfl := hl
    exact .refl ⟨k, rfl, rfl, .refl hw⟩
  | (s, v) :: L, a, b, slots, w, k, hglobal, hl, hn, hslots, hp, hw => by
    obtain ⟨m₁, hset, hl⟩ := hl
    unfold Site.Sets at hset
    rw [hglobal] at hset
    have hat : S.At a .storeGlobal [s.index] m₁ := hset
    have hhas := hs.has hat
    obtain rfl := hat.2.2
    obtain ⟨hnewest, hn⟩ := List.pairwise_cons.mp hn
    obtain ⟨hv, hp⟩ := Discipline.values_cons.mp hp
    have hset := Later.setGlobal hw (hslots s List.mem_cons_self) hv
    -- the other slots are older
    have hrest := Stage.setsAll hs L (a := a.skip 2) (k := k + 1) hglobal hl hn
      (fun x hx => hnewest x (List.mem_append_left _ hx)) hp hset.fits
    have hstep : (G.fiber a.offset (v :: (L.map Prod.snd ++ K)) k).step G.host w =
        (.progress, G.fiber (a.offset + 2) (L.map Prod.snd ++ K) (k + 1),
          w.setGlobal s.index.toNat v) := step_fiber _ k hhas hw.allows
    refine Comes.of_step hstep (hrest.mono (Nat.le_refl 0) fun F' w' => ?_)
    rintro ⟨k', rfl, hstore, hlater⟩
    refine ⟨k', rfl, ?_, hset.trans (hlater.mono (Nat.le_of_lt (hslots s List.mem_cons_self)))
      (Nat.le_refl _)⟩
    have hcontent : w'.content s.index.toNat = v := by
      rw [hlater.spares _ (Nat.le_refl _), World.content_setGlobal, if_pos rfl]
    rw [store_setGlobal fun x hx => hnewest x (List.mem_append_right _ hx)] at hstore
    show ({ w'.store (L.map Prod.fst ++ symbols) with
      bindings := (s.name, w'.content s.index.toNat) ::
        (w'.store (L.map Prod.fst ++ symbols)).bindings } : Store) = _
    rw [hstore, hcontent]
    rfl

namespace Carries

/-- **Several variables are declared** for the items of a list. -/
theorem declareAll {x : Eval Value} {names : List String} (hs : G.Stage S (l :: C) a b)
    (hx : G.Carries n S busy (l :: C) (l :: C) a m x ([·])) (hcount : names.length ≤ 0xffff)
    (hunpack : S.At m .unpack [names.length.toUInt16] m')
    (hl : (Plan.declareAll names).Laid S m' b) :
    ∃ l', G.Carries n S busy (l :: C) (l' :: C) a b (do
      let v ← x
      Eval.declareAll names (← Eval.unpack names.length v)) fun _ => [] := by
  obtain ⟨symbols, t, hd, hl⟩ := hl
  have hm' : m'.table = m.table := hunpack.table
  obtain ⟨l', hopens, hsymbols, hnames, hgrows⟩ := (hm' ▸ hx.opens).declaredEach hd
  have hword : (names.length.toUInt16).toNat = names.length :=
    UInt16.toNat_ofNat_of_lt' (Nat.lt_succ_of_le hcount)
  have hvisible : Chain.symbols (l' :: C) = symbols.reverse ++ Chain.symbols (l :: C) := by
    rw [Chain.symbols_cons, Chain.symbols_cons, hsymbols, List.append_assoc]
  have htable : b.table = t := Site.SetsAll.table hl
  refine ⟨l', htable ▸ hopens, htable ▸ hx.grows.trans (hm' ▸ hgrows), fun J K he => ?_⟩
  refine hx.andThen he (fun v hv => ?_) (htable ▸ hm' ▸ hgrows)
  have hitems := Follows.unpack (J := J) (N := n) (ν := m.table.visible (l :: C)) (K := K) (v := v)
    hword (hs.has hunpack)
  refine hitems.bind (fun items q us hQ => ?_) (.refl _) (htable ▸ hm' ▸ hgrows)
  obtain ⟨⟨rfl, rfl, hplain⟩, hlength⟩ := hQ
  intro k w hw
  have hlength : symbols.length = items.length := by rw [hlength, ← hnames, List.length_map]
  let L := (symbols.zip items).reverse
  have hfirst : L.map Prod.fst = symbols.reverse := by
    rw [List.map_reverse, List.map_fst_zip (Nat.le_of_eq hlength)]
  have hsecond : L.map Prod.snd = items.reverse := by
    rw [List.map_reverse, List.map_snd_zip (Nat.le_of_eq hlength.symm)]
  have hbindings : L.map (fun x => (x.1.name, x.2)) = (names.zip items).reverse := by
    rw [List.map_reverse, ← hnames, List.zip_map_left]
    rfl
  have hnewest : Newest (L.map Prod.fst ++ Chain.symbols (l :: C)) := by
    rw [hfirst, ← hvisible]
    exact hopens.newest
  have hslots : ∀ s ∈ L.map Prod.fst, s.index.toNat < (b.table.scope root).slots := fun s hmem => by
    rw [htable]
    exact hopens.given s (hvisible ▸ List.mem_append_left _ (hfirst ▸ hmem))
  have hset := hs.setsAll (K := K) (k := k) L hopens.isGlobal (hfirst.symm ▸ hl) hnewest hslots
    (hsecond.symm ▸ hplain) hw
  rw [hsecond] at hset
  have hoffset : (m'.withTable t).offset = m.offset + 2 := hunpack.offset
  rw [hoffset] at hset
  refine hset.mono (Nat.le_refl 0) fun F' w' => ?_
  rintro ⟨k', rfl, hstore, hlater⟩
  refine ⟨b.offset, K, k', rfl, ⟨rfl, rfl, Discipline.values_nil⟩, ?_, hlater⟩
  show ({ w.store (Chain.symbols (l :: C)) with bindings := (names.zip items).reverse ++ _ } :
      Store) =
    w'.store (Chain.symbols (l' :: C))
  rw [hvisible, ← hfirst, hstore, hbindings]
  rfl

end Carries

/-! ### Blocks and branches -/

/-- **The code between two points encloses an evaluation**, after which only the variables from
before it are visible, whatever else was declared there. -/
structure Encloses (G : Ground) (n : Nat) (S : Site) (busy : Bool) (C C' : Chain) (a b : Point)
    (x : Eval α) (out : α → List Value) : Prop where
  opens : G.Opens S.scope C' b.table
  slots : (a.table.scope root).slots ≤ (b.table.scope root).slots
  follows : ∀ J K, S.Escapes busy J K →
    G.Follows J n (a.table.visible C) a.offset K x (b.table.visible C) (Atop K b.offset out)

/-- A scope encloses what is declared in it. -/
theorem Carries.encloses (h : G.Carries n S busy C C' a b x out) :
    G.Encloses n S busy C C' a b (Eval.inScope x) out :=
  ⟨h.opens, h.grows.1, fun J K he => (h.follows J K he).inScope h.grows⟩

/-- Where nothing is declared there is nothing to enclose. -/
theorem Encloses.carries (h : G.Encloses n S busy C C a b x out) :
    G.Carries n S busy C C a b x out :=
  ⟨h.opens, .of_slots h.slots, h.follows⟩

/-- **A block.** -/
theorem Carries.block (hs : G.Stage S C a b) (hl : (Plan.block p).Laid S a b)
    (h : ∀ (inner : ScopeId) (a : Point),
      G.Stage { S with scope := inner } (⟨inner, .block, []⟩ :: C) a b →
      p.Laid { S with scope := inner } a b → ∃ l', G.Encloses n { S with scope := inner } busy
        (⟨inner, .block, []⟩ :: C) (l' :: C) a b x out) :
    G.Carries n S busy C C a b x out := by
  obtain ⟨inner, t, ho, hp⟩ := hl
  obtain ⟨hopens, hslots⟩ := hs.opens.openScope ho
  have hvisible : (a.withTable t).table.visible (⟨inner, .block, []⟩ :: C) = a.table.visible C :=
    congrArg (Names.mk C.symbols) hslots
  obtain ⟨l', hx⟩ := h inner (a.withTable t) ⟨hs.hosts, hopens, hs.inside, hs.exits⟩ hp
  refine ⟨hx.opens.close hs.opens.head, .of_slots (hslots ▸ hx.slots), fun J K he => ?_⟩
  exact hvisible ▸ hx.follows J K he

/-- **The code between a point and another asks a question**: it goes on at the second point if the
answer is yes, and elsewhere otherwise. -/
structure Asks (G : Ground) (n : Nat) (S : Site) (busy : Bool) (C : Chain) (a b : Point)
    (target : Nat)
    (x : Eval Bool) : Prop where
  opens : G.Opens S.scope C b.table
  grows : (a.table.visible C).Grows (b.table.visible C)
  follows : ∀ J K, S.Escapes busy J K →
    G.Follows J n (a.table.visible C) a.offset K x (b.table.visible C)
      fun yes q us => q = (if yes then b.offset else target) ∧ us = K

/-- **A condition** and the jump behind it. -/
theorem Carries.asks {x : Eval Value} {target : Nat} (hs : G.Stage S C m m')
    (hx : G.Carries n S busy C C a m x ([·])) (hj : S.Forward m .popJumpForwardIfFalse target b)
    (ht : target ≤ G.code.size) : G.Asks n S busy C a b target (Eval.truth x) := by
  obtain ⟨d, hat, hd, -⟩ := hj
  obtain rfl := hat.2.2
  refine ⟨hx.opens, hx.grows, fun J K he => hx.andThen he (fun v hv => ?_) (.refl _)⟩
  have hjump : G.code.Has ⟨m.offset,
      if false then .popJumpForwardIfTrue else .popJumpForwardIfFalse, [d]⟩ := hs.has hat
  refine (Follows.jumpIf hjump hd ht).mono (Nat.le_refl n) fun yes q us => ?_
  rintro ⟨rfl, rfl⟩
  refine ⟨?_, rfl⟩
  cases yes <;> rfl

/-- **The run goes on** where the result is known. -/
theorem Follows.onward {R : α → Nat → List Value → Prop} {p q : Nat}
    (h : G.Follows J N ν p vs x ν' (Atop K q out)) (hg : ν.Grows ν')
    (hR : ∀ v, Plain (out v) → G.Follows J N ν' q (out v ++ K) (Pure.pure v) ν' R) :
    G.Follows J N ν p vs x ν' R := by
  have hfollows : G.Follows J N ν p vs (x >>= Pure.pure) ν' R := by
    refine h.bind (fun v q us hQ => ?_) hg (.refl ν')
    obtain ⟨rfl, rfl, hplain⟩ := hQ
    exact hR v hplain
  rwa [bind_pure] at hfollows

namespace Carries

/-- **A branch.** -/
theorem branch {y : Eval α} {c : Eval Bool} {a₁ a₂ a₃ : Point} (hs : G.Stage S C m b)
    (hc : G.Asks n S busy C a a₁ a₃.offset c) (hx : G.Carries n S busy C C a₁ a₂ x out)
    (hj : S.Forward a₂ .jumpForward b.offset a₃) (hy : G.Carries n S busy C C a₃ b y out) :
    G.Carries n S busy C C a b (do if ← c then x else y) out := by
  obtain ⟨d, hat, hd, -⟩ := hj
  have htable : a₃.table = a₂.table := hat.table
  have hx' := hx.grows
  have hgrows : (a₂.table.visible C).Grows (b.table.visible C) := htable ▸ hy.grows
  refine ⟨hy.opens, hc.grows.trans (hx.grows.trans hgrows), fun J K he => ?_⟩
  refine (hc.follows J K he).bind (fun yes q us hQ => ?_) hc.grows (hx.grows.trans hgrows)
  obtain ⟨rfl, rfl⟩ := hQ
  cases yes with
  | true =>
    -- what is done if so is followed by a jump to the end
    have hx : G.Follows J n (a₁.table.visible C) a₁.offset us x (b.table.visible C) _ :=
      (hx.follows J us he).widen hgrows.1
    refine hx.onward (hx'.trans hgrows) fun v hv => ?_
    have hend : G.Follows J n (b.table.visible C) b.offset (out v ++ us) (pure v)
      (b.table.visible C) (Atop us b.offset out) := .pure v ⟨rfl, rfl, hv⟩
    exact (Follows.jumpForward (hs.has hat) hd hs.inside hend).mono (Nat.le_succ n) fun _ _ _ h => h
  | false => exact .start rfl (hy.follows J _ he)

end Carries

end Ground

end ScriptEngine
