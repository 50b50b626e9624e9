import ScriptEngine.Proofs.Scope.Growth

/-!
# Lookups that end outside of functions

Globals and builtins are the same for all functions, so a lookup that ends at one of them went
outward through scopes that do not declare the name, and left nothing behind on its way.

## Main definitions

* `ScriptEngine.ScopeTable.Outside`: the global or the builtin that a name means in a scope.

## Main results

* `ScriptEngine.ScopeTable.resolve_outside`: what a lookup answers with a global or a builtin;
* `ScriptEngine.ScopeTable.resolveWithin_undeclared`: what it answers for a name that is declared
  nowhere.
-/

namespace ScriptEngine.ScopeTable

/-- **The global or the builtin that a name means in a scope**: the nearest declaration, if that is
at the top level, or the builtin if there is no declaration at all. -/
inductive Outside (t : ScopeTable) (name : String) : ScopeId → Resolution → Prop
  | declared {s : ScopeId} {symbol : Symbol} (h : t.get? s name = some symbol)
    (hg : t.isGlobal s = true) : Outside t name s ⟨symbol, .global, 0, 0⟩
  | builtin {s : ScopeId} {r : Resolution} (h : t.get? s name = none)
    (hp : (t.scope s).parent = none) (hr : t.resolveBuiltin name = some r) : Outside t name s r
  | outward {s p : ScopeId} {r : Resolution} (h : t.get? s name = none)
    (hp : (t.scope s).parent = some p) (ho : Outside t name p r) : Outside t name s r

variable {t t' : ScopeTable} {s : ScopeId} {name : String} {r : Resolution}

theorem get?_of_known?_eq_none (h : t.known? s name = none) : t.get? s name = none := by
  unfold known? at h
  cases hg : t.get? s name with
  | none => rfl
  | some symbol =>
    rw [hg] at h
    cases h

/-- A free variable met before is neither a global nor a builtin. -/
theorem outside_of_known? (h : t.WellFormed) (hk : t.known? s name = some r)
    (hs : r.storage = .global ∨ r.storage = .builtin) : t.Outside name s r := by
  unfold known? at hk
  cases hg : t.get? s name with
  | some symbol =>
    rw [hg] at hk
    obtain rfl := Option.some.inj hk
    cases hglobal : t.isGlobal s with
    | true => exact .declared hg hglobal
    | false =>
      rw [hglobal] at hs
      rcases hs with hs | hs <;> cases hs
  | none =>
    rw [hg] at hk
    obtain ⟨i, -, hi⟩ := Option.bind_eq_some_iff.mp hk
    have hfree := (h.free s i r hi).1
    rcases hs with hs | hs <;> cases hfree.symm.trans hs

/-- What a function makes of an answer is a global or a builtin only if the answer is. -/
theorem inward_outside {kind : ScopeKind} {outer : Resolution}
    (h : inward kind s name (some outer) t = .ok (some r) t')
    (hs : r.storage = .global ∨ r.storage = .builtin) : outer = r := by
  unfold inward at h
  dsimp only at h
  split at h
  · exact Option.some.inj (pure_eq_ok.mp h).1
  · obtain ⟨found, t₁, hc, hp⟩ := bind_eq_ok.mp h
    obtain rfl : found = r := Option.some.inj (pure_eq_ok.mp hp).1
    unfold capture at hc
    rw [get_bind] at hc
    dsimp only at hc
    split at hc
    · obtain ⟨_, _, hthrow, -⟩ := bind_eq_ok.mp hc
      cases hthrow
    · obtain ⟨_, _, -, hc⟩ := bind_eq_ok.mp hc
      obtain ⟨rfl, -⟩ := pure_eq_ok.mp hc
      rcases hs with hs | hs <;> cases hs

theorem resolveWithin_outside : ∀ (n : Nat) {s : ScopeId} {t' : ScopeTable}, t.WellFormed →
    resolveWithin name n s t = .ok (some r) t' →
    (r.storage = .global ∨ r.storage = .builtin) → t.Outside name s r
  | 0, _, _, _, hr, _ => by cases hr
  | n + 1, s, t', h, hr, hs => by
    cases hk : t.known? s name with
    | some found =>
      rw [resolveWithin_known n hk] at hr
      cases hr
      exact outside_of_known? h hk hs
    | none =>
      have hg := get?_of_known?_eq_none hk
      cases hp : (t.scope s).parent with
      | none =>
        rw [resolveWithin_root n hk hp] at hr
        exact .builtin hg hp (EStateM.Result.ok.inj hr).1
      | some p =>
        rw [resolveWithin_parent n hk hp] at hr
        obtain ⟨o, t₁, hres, hin⟩ := bind_eq_ok.mp hr
        cases o with
        | none => cases (pure_eq_ok.mp hin).1
        | some outer =>
          rw [inward_outside hin hs] at hres
          exact .outward hg hp (resolveWithin_outside n h hres hs)

/-- **A lookup that answers with a global or a builtin** answers with what the name means there. -/
theorem resolve_outside (h : t.WellFormed) (hr : resolve s name t = .ok (some r) t')
    (hs : r.storage = .global ∨ r.storage = .builtin) : t.Outside name s r :=
  resolveWithin_outside (s.index + 1) h hr hs

/-- **A builtin is found under its name.** -/
theorem Outside.builtinIndex (h : t.Outside name s r) (hs : r.storage = .builtin) :
    t.builtinIndex[name]? = some r.symbol.index := by
  induction h with
  | declared => cases hs
  | builtin _ _ hr =>
    unfold resolveBuiltin at hr
    obtain ⟨index, hi, rfl⟩ := Option.map_eq_some_iff.mp hr
    exact hi
  | outward _ _ _ ih => exact ih hs

/-- **A name that no scope knows** is that of a builtin, if there is one. -/
theorem resolveWithin_undeclared {w : Word}
    (ht : ∀ s p : ScopeId, (t.scope s).parent = some p → p.index < s.index)
    (hu : ∀ s, t.known? s name = none) (hb : t.builtinIndex[name]? = some w) :
    ∀ (n : Nat) (s : ScopeId), s.index < n →
      resolveWithin name n s t = .ok (some ⟨⟨name, w, true⟩, .builtin, 0, 0⟩) t := by
  intro n
  induction n with
  | zero => exact fun _ hs => absurd hs (Nat.not_lt_zero _)
  | succ n ih =>
    intro s hs
    cases hp : (t.scope s).parent with
    | none =>
      rw [resolveWithin_root n (hu s) hp]
      unfold resolveBuiltin
      rw [hb]
      rfl
    | some p =>
      have hlt := ht s p hp
      rw [resolveWithin_parent n (hu s) hp]
      refine bind_eq_ok.mpr ⟨_, _, ih p (by omega), ?_⟩
      exact congrFun (if_pos (.inr (.inr rfl))) t

end ScriptEngine.ScopeTable
