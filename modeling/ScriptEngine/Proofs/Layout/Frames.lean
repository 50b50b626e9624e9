import ScriptEngine.Proofs.Layout.Made
import ScriptEngine.Proofs.Scope.Lexical

/-!
# The slots of a frame

A function scope gives its first slots to the parameters, in order, and the next one to the function
itself, unless a parameter has its name. So a call that fills the slots by position, without any
names, gives to each parameter what the body finds under its name.

## Main definitions

* `ScriptEngine.Function.Framed`: the slots of a function are those of its scope.

## Main results

* `ScriptEngine.ScopeTable.enter_slots`: the slots of a new function scope;
* `ScriptEngine.Site.Made.framed`: all functions that are compiled between two points are framed.
-/

namespace ScriptEngine

namespace ScopeTable

variable {t t' : ScopeTable} {s inner : ScopeId}

/-- A declaration takes one slot. -/
theorem slotCount_of_declare (hw : t.WellFormed) (hs : s.index < t.scopes.size) {name : String}
    {constant : Bool} {symbol : Symbol} (hd : declare s name constant t = .ok symbol t') :
    t'.slotCount s = t.slotCount s + 1 := by
  obtain ⟨hw', g, -, -, -, rfl⟩ := declare_spec hw hs hd
  show (ScopeTable.scope _ (ScopeTable.functionScope _ s)).slots = _
  rw [g.functionScope hw.toIsTree hw'.toIsTree s hs, scope_declared hw.toIsTree hs]
  exact if_pos rfl

/-- The parameters of a function take the next slots, in order. -/
theorem declareParams_slots : ∀ {params : List Param} {t : ScopeTable}, t.WellFormed →
    s.index < t.scopes.size →
    (params.forM fun p => do let _ ← declare s p.name false) t = .ok () t' →
      t'.WellFormed ∧ t.Grows t' ∧ t'.slotCount s = t.slotCount s + params.length ∧
        (∀ i name, (params.map Param.name)[i]? = some name →
          t'.get? s name = some ⟨name, (t.slotCount s + i).toUInt16, false⟩) ∧
        ∀ name, name ∉ params.map Param.name → t'.get? s name = t.get? s name
  | [], t, hw, hs, hd => by
    obtain ⟨-, rfl⟩ := pure_eq_ok.mp hd
    exact ⟨hw, .refl t, rfl, by simp, fun _ _ => rfl⟩
  | p :: params, t, hw, hs, hd => by
    obtain ⟨_, t₁, hp, hd⟩ := bind_eq_ok.mp hd
    obtain ⟨symbol, t₂, hparam, heq⟩ := bind_eq_ok.mp hp
    obtain ⟨-, rfl⟩ := pure_eq_ok.mp heq
    obtain ⟨hw₁, g, rfl, -⟩ := declare_spec hw hs hparam
    have hcount := slotCount_of_declare hw hs hparam
    have hget := get?_of_declare hw hs hparam
    obtain ⟨hw', g', hslots, hnames, hothers⟩ :=
      declareParams_slots hw₁ (Nat.lt_of_lt_of_le hs g.size) hd
    refine ⟨hw', g.trans g', ?_, fun i name hi => ?_, fun name hname => ?_⟩
    · rw [hslots, hcount, List.length_cons]
      omega
    · cases i with
      | zero =>
        rw [List.map_cons, List.getElem?_cons_zero] at hi
        obtain rfl := Option.some.inj hi
        -- no later parameter has the same name
        exact g'.get? (by rw [hget, if_pos rfl, Nat.add_zero])
      | succ i =>
        rw [List.map_cons, List.getElem?_cons_succ] at hi
        rw [hnames i name hi, hcount, Nat.add_assoc, Nat.add_comm 1]
    · rw [List.map_cons, List.mem_cons, not_or] at hname
      rw [hothers name hname.2, hget, if_neg hname.1]

/-- **The slots of a new function scope**: those of the parameters, and then that of the function
itself. -/
theorem enter_slots (hw : t.WellFormed) (hs : s.index < t.scopes.size) {f : Func}
    (he : Generate.enter f s t = .ok inner t') :
    (∀ (i : Nat) name, f.paramNames[i]? = some name →
      t'.get? inner name = some ⟨name, i.toUInt16, false⟩) ∧
      f.params.length ≤ t'.slotCount inner ∧
      ∀ name, f.name = some name → name ∉ f.paramNames →
        t'.get? inner name = some ⟨name, f.params.length.toUInt16, true⟩ ∧
          f.params.length < t'.slotCount inner := by
  obtain ⟨i, t₁, ho, he⟩ := bind_eq_ok.mp he
  obtain ⟨_, t₂, hp, he⟩ := bind_eq_ok.mp he
  obtain ⟨_, t₃, hself, he⟩ := bind_eq_ok.mp he
  obtain ⟨rfl, rfl⟩ := pure_eq_ok.mp he
  obtain ⟨hw₁, -, hi, hnew, hsize, -⟩ := openScope_spec hw hs ho
  have hs₁ : i.index < t₁.scopes.size := by
    rw [hi, hsize]
    exact Nat.lt_succ_self _
  have hzero : t₁.slotCount i = 0 := by
    unfold slotCount
    rw [functionScope_of_function (by rw [hnew]), hnew]
  have hnone (name : String) : t₁.get? i name = none := by
    unfold get?
    rw [hnew]
    exact Std.HashMap.getElem?_empty
  obtain ⟨hw₂, g, hslots, hnames, hothers⟩ := declareParams_slots hw₁ hs₁ hp
  rw [hzero, Nat.zero_add] at hslots
  simp only [hzero, Nat.zero_add] at hnames
  have hs₂ := Nat.lt_of_lt_of_le hs₁ g.size
  cases hf : f.name with
  | none =>
    rw [hf] at hself
    obtain ⟨-, rfl⟩ := pure_eq_ok.mp hself
    exact ⟨hnames, Nat.le_of_eq hslots.symm, fun name hname => by cases hname⟩
  | some self =>
    rw [hf] at hself
    unfold Generate.declareSelf at hself
    dsimp only at hself
    rw [get_bind] at hself
    split at hself
    · obtain ⟨symbol, t₄, hd, hself⟩ := bind_eq_ok.mp hself
      obtain ⟨-, rfl⟩ := pure_eq_ok.mp hself
      obtain ⟨-, g', rfl, -⟩ := declare_spec hw₂ hs₂ hd
      have hcount := slotCount_of_declare hw₂ hs₂ hd
      refine ⟨fun i name hi => g'.get? (hnames i name hi), by omega, fun name hname _ => ?_⟩
      obtain rfl := Option.some.inj hname
      refine ⟨?_, by omega⟩
      rw [get?_of_declare hw₂ hs₂ hd, if_pos rfl, hslots]
    · rename_i hparam
      obtain ⟨-, rfl⟩ := pure_eq_ok.mp hself
      refine ⟨hnames, Nat.le_of_eq hslots.symm, fun name hname hnot => ?_⟩
      obtain rfl := Option.some.inj hname
      rw [hothers self hnot, hnone] at hparam
      exact absurd rfl hparam

end ScopeTable

open ScopeTable

/-- **The slots of a function are those of its scope**: its parameters have the first ones, and
behind them lies its own, if no parameter has its name. -/
structure Function.Framed (t : ScopeTable) (f : Function) : Prop where
  padded : f.defaults.length = f.parameters.length
  name : f.code.name = f.name
  fits : f.parameters.length ≤ f.code.localCount
  self : ∀ n, f.name = some n → n ∉ f.parameters → f.parameters.length < f.code.localCount
  scope : ∃ s, s.index < t.scopes.size ∧ (t.scope s).kind = .function ∧
    (∀ (i : Nat) n, f.parameters[i]? = some n → t.get? s n = some ⟨n, i.toUInt16, false⟩) ∧
    ∀ n, f.name = some n → n ∉ f.parameters →
      t.get? s n = some ⟨n, f.parameters.length.toUInt16, true⟩

/-- Scopes keep the slots that they gave out. -/
theorem Function.Framed.grows {t t' : ScopeTable} {f : Function} (h : f.Framed t) (g : t.Grows t') :
    f.Framed t' := by
  obtain ⟨s, hs, hkind, hparams, hself⟩ := h.scope
  exact ⟨h.padded, h.name, h.fits, h.self, s, Nat.lt_of_lt_of_le hs g.size,
    (g.scope s hs).kind.trans hkind, fun i n hi => g.get? (hparams i n hi),
    fun n hn hnot => g.get? (hself n hn hnot)⟩

namespace Site

variable {S : Site} {a b : Point}

/-- **Every function that is compiled between two points** is framed. -/
theorem Made.framed (h : S.Made a b) : S.Sees a → ∀ k, a.count ≤ k → k < b.count →
    ∃ f, S.functions[k]? = some f ∧ f.Framed b.table := by
  induction h with
  | refl => exact fun _ k hk hlt => absurd hlt (Nat.not_lt.mpr hk)
  | @trans S a m b h h' ih ih' =>
    intro hs k hk hlt
    have hm := (h.spans hs).sees hs
    by_cases hkm : k < m.count
    · obtain ⟨f, hf, hframed⟩ := ih hs k hk hkm
      exact ⟨f, hf, hframed.grows (h'.spans hm).grows⟩
    · exact ih' hm k (Nat.le_of_not_lt hkm) hlt
  | plain h => exact fun _ k hk hlt => absurd (At.count h ▸ hlt) (Nat.not_lt.mpr hk)
  | looks => exact fun _ k hk hlt => absurd hlt (Nat.not_lt.mpr hk)
  | stores _ _ _ _ _ h => exact fun _ k hk hlt => absurd (Stores.count h ▸ hlt) (Nat.not_lt.mpr hk)
  | declares _ h => exact fun _ k hk hlt => absurd (At.count h ▸ hlt) (Nat.not_lt.mpr hk)
  | declaresAll _ h => exact fun _ k hk hlt => absurd (SetsAll.count h ▸ hlt) (Nat.not_lt.mpr hk)
  | block ho _ ih => exact fun hs => ih (hs.openScope ho).2.1
  | exits _ ih => exact fun hs => ih ⟨hs.wellFormed, hs.known⟩
  | @function S f a m n b inner block t opened code he ho hname hlocals _ _ hbody _ hf _ hi ih =>
    intro hs k hk hlt
    obtain ⟨hg, -, hsees⟩ := hs.body code he ho
    have sb := hbody.spans hsees
    have hm : S.Sees ⟨a.offset, m.table, m.count + 1⟩ :=
      ⟨sb.wellFormed, Nat.lt_of_lt_of_le hs.known (hg.trans sb.grows).size⟩
    have hend : m.table.Grows b.table := (hi.spans hm).grows
    rw [Instantiates.count hi] at hlt
    by_cases hkm : k < m.count
    · obtain ⟨g, hg, hframed⟩ := ih hsees k hk hkm
      exact ⟨g, hg, hframed.grows hend⟩
    -- the function itself is the last one that was compiled
    obtain rfl : k = m.count := Nat.le_antisymm (Nat.le_of_lt_succ hlt) (Nat.le_of_not_lt hkm)
    obtain ⟨hparams, hfits, hself⟩ := enter_slots hs.wellFormed hs.known he
    obtain ⟨-, hinner, hkind, -⟩ := hs.enter he
    have hopen : t.Grows m.table :=
      (Sees.openScope (S := { S with code, scope := inner }) (a := ⟨0, t, a.count⟩)
        ⟨hinner.wellFormed, hinner.known⟩ ho).1.grows.trans sb.grows
    have hcount := hopen.slotCount hinner.wellFormed.toIsTree sb.wellFormed.toIsTree hinner.known
    have hlength : f.paramNames.length = f.params.length := List.length_map _
    refine ⟨_, hf, ?_, hname, ?_, fun n hn hnot => ?_, inner,
      Nat.lt_of_lt_of_le hinner.known (hopen.trans hend).size,
      ((hopen.trans hend).scope inner hinner.known).kind.trans hkind,
      fun i n hi => (hopen.trans hend).get? (hparams i n hi), fun n hn hnot => ?_⟩
    · exact (List.length_map _).trans hlength.symm
    · rw [hlocals, hlength]
      exact Nat.le_trans hfits hcount
    · rw [hlocals, hlength]
      exact Nat.lt_of_lt_of_le (hself n hn hnot).2 hcount
    · rw [hlength]
      exact (hopen.trans hend).get? (hself n hn hnot).1

end Site

end ScriptEngine
