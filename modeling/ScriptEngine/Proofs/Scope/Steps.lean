import ScriptEngine.Compiler.Generate
import ScriptEngine.Proofs.Scope.Lexical

/-!
# Steps on scopes

The steps that the generator takes on scopes, each of which keeps tables well-formed and names
lexical and lets tables grow, whether it succeeds or fails. Names are declared in one scope at a
time, and lookups declare none.

## Main definitions

* `ScriptEngine.ScopeTable.From`: the well-formed tables that grew from a given one.

## Main results

* `ScriptEngine.ScopeTable.ensures_enter`: entering a function opens a function scope.
-/

namespace ScriptEngine.ScopeTable

/-- **The tables that grew from `t₀`** and know the scope `s`. All other scopes know the names that
they knew, and so does `s` if no name is declared there, which is what `quiet` says. -/
structure From (quiet : Prop) (t₀ : ScopeTable) (s : ScopeId) (t : ScopeTable) : Prop where
  wellFormed : t.WellFormed
  grows : t₀.Grows t
  known : s.index < t.scopes.size
  lexical : t₀.Lexical → t.Lexical
  names : ∀ u : ScopeId, u.index < t₀.scopes.size → (u = s → quiet) →
    (t.scope u).names = (t₀.scope u).names

namespace From

variable {t₀ t t' : ScopeTable} {s u : ScopeId} {quiet quiet' : Prop}

theorem refl (h : t.WellFormed) (hs : s.index < t.scopes.size) : From quiet t s t :=
  ⟨h, .refl t, hs, id, fun _ _ _ => rfl⟩

theorem trans (h : From quiet t₀ s t) (h' : From quiet t s t') : From quiet t₀ s t' where
  wellFormed := h'.wellFormed
  grows := h.grows.trans h'.grows
  known := h'.known
  lexical hl := h'.lexical (h.lexical hl)
  names u hu hq :=
    (h'.names u (Nat.lt_of_lt_of_le hu h.grows.size) hq).trans (h.names u hu hq)

/-- What is done in a scope that is new does not matter to the others. -/
theorem inner (h : From quiet t₀ s t) (h' : From quiet' t u t') (hu : t₀.scopes.size ≤ u.index) :
    From quiet t₀ s t' where
  wellFormed := h'.wellFormed
  grows := h.grows.trans h'.grows
  known := Nat.lt_of_lt_of_le h.known h'.grows.size
  lexical hl := h'.lexical (h.lexical hl)
  names x hx hq := by
    refine (h'.names x (Nat.lt_of_lt_of_le hx h.grows.size) ?_).trans (h.names x hx hq)
    rintro rfl
    exact absurd hx (Nat.not_lt_of_le hu)

end From

variable {quiet : Prop} {t₀ : ScopeTable} {s : ScopeId}

/-- **A declaration**, whose symbol is known afterwards. -/
theorem ensures_declare (hq : ¬quiet) (name : String) (constant : Bool) :
    Ensures (From quiet t₀ s) (declare s name constant)
      (fun symbol t => From quiet t₀ s t ∧ t.get? s name = some symbol)
      (fun _ => From quiet t₀ s) := by
  intro t h
  refine ⟨fun symbol t' hd => ?_, fun e t' hd => ?_⟩
  · obtain ⟨hw, g, -⟩ := declare_spec h.wellFormed h.known hd
    refine ⟨h.trans ⟨hw, g, Nat.lt_of_lt_of_le h.known g.size,
      fun hl => hl.declare h.wellFormed h.known hd, fun u _ hu => ?_⟩, ?_⟩
    · exact names_of_declare h.wellFormed h.known hd fun hus => hq (hu hus)
    · rw [get?_of_declare h.wellFormed h.known hd, if_pos rfl]
  · rw [declare_error hd]
    exact h

/-- **A lookup**, whose answer is in range afterwards. -/
theorem ensures_resolve (name : String) :
    Ensures (From quiet t₀ s) (resolve s name)
      (fun o t => From quiet t₀ s t ∧ ∀ r, o = some r → t.InRange s r ∧ r.symbol.name = name)
      (fun _ => From quiet t₀ s) := by
  intro t h
  have step {t' : ScopeTable} (hw : t'.WellFormed) (g : t.Grows t')
      (hl : t.Lexical → t'.Lexical) (hn : SameNames t t') : From quiet t₀ s t' :=
    h.trans ⟨hw, g, Nat.lt_of_lt_of_le h.known g.size, hl, fun u _ _ => hn u⟩
  refine ⟨fun o t' hr => ?_, fun e t' hr => ?_⟩
  · obtain ⟨hw, g, -, hin⟩ := resolve_spec h.wellFormed h.known hr
    exact ⟨step hw g (fun hl => (hl.resolve h.wellFormed h.known hr).1)
      (sameNames_resolve hr), hin⟩
  · obtain ⟨hw, g⟩ := resolve_error h.wellFormed h.known hr
    exact step hw g (fun hl => hl.resolve_error h.wellFormed h.known hr)
      (sameNames_resolve_error hr)

/-- **A new scope.** -/
theorem ensures_openScope (kind : ScopeKind) :
    Ensures (From quiet t₀ s) (openScope s kind)
      (fun inner t => From quiet t₀ s t ∧ inner.index < t.scopes.size ∧
        t₀.scopes.size ≤ inner.index ∧ t.scope inner = { parent := some s, kind })
      (fun _ => From quiet t₀ s) := by
  intro t h
  refine ⟨fun inner t' ho => ?_, fun e t' ho => ?_⟩
  · obtain ⟨hw, g, rfl, hsc, hsize, -⟩ := openScope_spec h.wellFormed h.known ho
    refine ⟨h.trans ⟨hw, g, Nat.lt_of_lt_of_le h.known g.size,
      fun hl => hl.openScope h.wellFormed h.known ho,
      fun u _ _ => sameNames_openScope h.wellFormed h.known ho u⟩, ?_, h.grows.size, hsc⟩
    rw [hsize]
    exact Nat.lt_succ_self _
  · cases ho

/-- What is declared in a scope that was known does not change its surroundings. -/
theorem ensures_declareSelf (hq : ¬quiet) (name : Option String) :
    Ensures (From quiet t₀ s) (Generate.declareSelf s name) (fun _ => From quiet t₀ s)
      (fun _ => From quiet t₀ s) := by
  cases name with
  | none => exact .pure fun _ h => h
  | some name =>
    refine .get fun t h => ?_
    split
    · refine .bind (.mono (ensures_declare hq name true) (fun _ ht => ht ▸ h)
        (fun _ _ h => h.1) fun _ _ h => h) fun _ => .pure fun _ h => h
    · exact .pure fun _ ht => ht ▸ h

/-- **The scope of a function.** -/
theorem ensures_enter (f : Func) :
    Ensures (From quiet t₀ s) (Generate.enter f s)
      (fun inner t => From quiet t₀ s t ∧ inner.index < t.scopes.size ∧
        t₀.scopes.size ≤ inner.index ∧ (t.scope inner).kind = .function ∧
        (t.scope inner).parent = some s)
      (fun _ => From quiet t₀ s) := by
  refine .bind (ensures_openScope .function) fun inner => ?_
  rintro t ⟨h, hi, hnew, hsc⟩
  -- the declarations happen inside the new scope
  have hbody : Ensures (From False t inner) (do
      f.params.forM fun p => do
        let _ ← declare inner p.name false
      Generate.declareSelf inner f.name
      return inner) (fun i t' => i = inner ∧ From False t inner t')
        (fun _ => From False t inner) := by
    refine .bind (.forM fun p _ => ?_) fun _ => ?_
    · exact .bind (.mono (ensures_declare id p.name false) (fun _ h => h) (fun _ _ h => h.1)
        fun _ _ h => h) fun _ => .pure fun _ h => h
    · exact .bind (ensures_declareSelf id f.name) fun _ => .pure fun _ h => ⟨rfl, h⟩
  obtain ⟨hok, herr⟩ := hbody t (.refl h.wellFormed hi)
  refine ⟨fun i t' he => ?_, fun e t' he => h.inner (herr e t' he) hnew⟩
  obtain ⟨rfl, h'⟩ := hok i t' he
  have g := h'.grows.scope i hi
  exact ⟨h.inner h' hnew, h'.known, hnew, by rw [g.kind, hsc], by rw [g.parent, hsc]⟩

end ScriptEngine.ScopeTable
