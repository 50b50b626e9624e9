import Mathlib.Data.List.Forall2
import ScriptEngine.Proofs.Layout.Steps

/-!
# The layout of emitted code

## Main results

* `ScriptEngine.Plan.isLaid`: the code of a plan, wherever it is emitted, lies in the final code as
  the plan says.
-/

namespace ScriptEngine

open Emit Emission

/-- **A plan whose code is laid out** wherever it is emitted. -/
def Plan.IsLaid (p : Plan) : Prop :=
  ∀ s s', p.emit s = .ok () s' → Tidy s → Emits [] (fun S => p.Laid S s.point s'.point) s s'

namespace Plan.IsLaid

variable {p q r : Plan}

theorem skip : skip.IsLaid := by
  intro s s' h hs
  obtain ⟨-, rfl⟩ := pure_eq_ok.mp h
  exact (Emits.refl hs).mono fun _ _ => rfl

theorem seq (hp : p.IsLaid) (hq : q.IsLaid) : (seq p q).IsLaid := by
  intro s s' h hs
  obtain ⟨_, m, hm, h⟩ := bind_eq_ok.mp h
  have ep := hp s m hm hs
  exact (ep.seq (hq m s' h ep.tidy)).mono fun _ hS => ⟨_, hS.1, hS.2⟩

theorem instr (o : Operation) : (instr o).IsLaid := by
  intro s s' h hs
  obtain rfl := (instruction_eq_ok ..).mp h
  exact .put hs _ _ o.length_encode

theorem const (v : Value) (scalar : v.isScalar = true) : (const v scalar).IsLaid := by
  intro s s' h hs
  obtain ⟨i, m, hm, h⟩ := bind_eq_ok.mp h
  rw [instruction_eq_ok] at h
  subst h
  obtain ⟨e, p⟩ := Emits.constantIndex hs (.of_isScalar _ scalar) hm
  have e' := e.seq (.put e.tidy .loadConst [i] rfl)
  rw [p] at e'
  exact e'.mono fun _ hS => ⟨i, hS⟩

theorem attr (sets : Bool) (name : String) : (attr sets name).IsLaid := by
  intro s s' h hs
  obtain ⟨i, m, hm, h⟩ := bind_eq_ok.mp h
  rw [instruction_eq_ok] at h
  subst h
  obtain ⟨e, p⟩ := Emits.nameIndex hs hm
  have e' := e.seq (.put e.tidy (if sets then .storeAttr else .loadAttr) [i]
    (by cases sets <;> rfl))
  rw [p] at e'
  exact e'.mono fun _ hS => ⟨i, hS⟩

/-! ### Names -/

theorem load (name : String) : (load name).IsLaid := by
  intro s s' h hs
  obtain ⟨found, m, hm, h⟩ := bind_eq_ok.mp h
  obtain ⟨table, ht, rfl⟩ := Emits.resolve_eq_ok.mp hm
  have e := (Emits.withTable hs table).seq (.loads ((Emits.withTable hs table).tidy) h)
  refine (e.and_first (P := fun S => ScopeTable.resolve S.scope name s.table =
    .ok (some found) table)
    fun S lo X hc => by rw [hc.scope]; exact ht).mono ?_
  rintro S ⟨hr, -, hl⟩
  exact ⟨found, table, hr, hl⟩

theorem resolveAssignable_eq_ok {name : String} {r : Resolution} {s s' : Emission}
    (h : resolveAssignable name s = .ok r s') :
    Emit.resolve name s = .ok r s' ∧ r.symbol.constant = false := by
  obtain ⟨found, m, hr, hm⟩ := bind_eq_ok.mp h
  split at hm
  · obtain ⟨_, _, hm, -⟩ := bind_eq_ok.mp hm
    exact (throw_ne_ok.mp hm).elim
  · rename_i hn
    obtain ⟨rfl, rfl⟩ := pure_eq_ok.mp hm
    rw [not_or] at hn
    exact ⟨hr, by simpa using hn.1⟩

theorem update (name : String) (reads : Bool) (hp : p.IsLaid) : (update name reads p).IsLaid := by
  intro s s' h hs
  obtain ⟨found, m, hm, h⟩ := bind_eq_ok.mp h
  obtain ⟨hr, hc⟩ := resolveAssignable_eq_ok hm
  obtain ⟨table, ht, rfl⟩ := Emits.resolve_eq_ok.mp hr
  have et := Emits.withTable hs table
  -- the old value is loaded, if at all, before the new one is computed
  have hload : ∃ n, Emits [] (fun S => if reads then S.Loads found (s.withTable table).point n.point
      else n.point = (s.withTable table).point) (s.withTable table) n ∧
      (do p.emit; Emit.store found : Emit Unit) n = .ok () s' := by
    cases reads with
    | true =>
      obtain ⟨_, n, hn, h⟩ := bind_eq_ok.mp h
      exact ⟨n, (Emits.loads et.tidy hn).mono fun _ h => h, h⟩
    | false => exact ⟨_, (Emits.refl et.tidy).mono fun _ _ => rfl, h⟩
  obtain ⟨n, en, h⟩ := hload
  obtain ⟨_, k, hk, h⟩ := bind_eq_ok.mp h
  have ep := hp n k hk en.tidy
  have es := Emits.stores ep.tidy h
  refine (((et.seq en).seq (ep.seq es)).and_first
    (P := fun S => ScopeTable.resolve S.scope name s.table = .ok (some found) table)
    fun S lo X hc => by rw [hc.scope]; exact ht).mono ?_
  rintro S ⟨hr, ⟨-, hm⟩, hn, hb⟩
  exact ⟨found, table, hr, hc, _, hm, _, hn, hb⟩

theorem declare (name : String) (constant : Bool) : (declare name constant).IsLaid := by
  intro s s' h hs
  obtain ⟨symbol, m, hm, h⟩ := bind_eq_ok.mp h
  obtain ⟨table, ht, rfl⟩ := Emits.newName_eq_ok.mp hm
  obtain ⟨op, m, hm, h⟩ := bind_eq_ok.mp h
  obtain ⟨hop, rfl⟩ := Emits.slotStore_eq_ok.mp hm
  rw [instruction_eq_ok] at h
  subst h
  have et := Emits.withTable hs table
  refine ((et.seq (Emits.sets et.tidy hop)).and_first
    (P := fun S => ScopeTable.declare S.scope name constant s.table = .ok symbol table)
    fun S lo X hc => by rw [hc.scope]; exact ht).mono ?_
  rintro S ⟨hr, -, hl⟩
  exact ⟨symbol, table, hr, hl⟩

theorem declareAll (names : List String) : (declareAll names).IsLaid := by
  intro s s' h hs
  obtain ⟨symbols, m, hm, h⟩ := bind_eq_ok.mp h
  obtain ⟨table, ht, rfl⟩ := Emits.declareEach_eq_ok hm
  obtain ⟨op, m, hm, h⟩ := bind_eq_ok.mp h
  obtain ⟨hop, rfl⟩ := Emits.slotStore_eq_ok.mp hm
  have et := Emits.withTable hs table
  refine ((et.seq (Emits.setsAll op _ et.tidy hop h)).and_first
    (P := fun S => ScopeTable.declareEach S.scope names s.table = .ok symbols table)
    fun S lo X hc => by rw [hc.scope]; exact ht).mono ?_
  rintro S ⟨hr, -, hl⟩
  exact ⟨symbols, table, hr, hl⟩

/-! ### Refusals -/

theorem refuse (e : CompileError) : (refuse e).IsLaid :=
  fun _ _ h _ => (throw_ne_ok.mp h).elim

theorem outsidePipe : outsidePipe.IsLaid := by
  intro s s' h hs
  obtain ⟨_, _, hg, h⟩ := bind_eq_ok.mp h
  obtain ⟨rfl, rfl⟩ := get_eq_ok.mp hg
  split at h
  · exact (throw_ne_ok.mp h).elim
  · obtain ⟨-, rfl⟩ := pure_eq_ok.mp h
    exact (Emits.refl hs).mono fun _ _ => rfl

theorem insideFunction : insideFunction.IsLaid := by
  intro s s' h hs
  obtain ⟨_, _, hg, h⟩ := bind_eq_ok.mp h
  obtain ⟨rfl, rfl⟩ := get_eq_ok.mp hg
  split at h
  · exact (throw_ne_ok.mp h).elim
  · rename_i he
    obtain ⟨-, rfl⟩ := pure_eq_ok.mp h
    refine .of_completes (.refl _ _) hs fun S hc => ⟨?_, rfl⟩
    rw [hc.inFunction]
    simpa using he

/-! ### Jumps -/

theorem leave (isBreak : Bool) : (leave isBreak).IsLaid :=
  fun _ _ h hs => .leaveLoop isBreak hs h

theorem branch (hp : p.IsLaid) (hq : q.IsLaid) (hr : r.IsLaid) : (branch p q r).IsLaid := by
  intro s s' h hs
  obtain ⟨_, s₁, h₁, h⟩ := bind_eq_ok.mp h
  have ep := hp s s₁ h₁ hs
  obtain ⟨_, s₂, h₂, h⟩ := bind_eq_ok.mp h
  obtain ⟨rfl, rfl⟩ := jump_eq_ok.mp h₂
  have e₂ := ep.seq (.jump ep.tidy .popJumpForwardIfFalse [] rfl)
  obtain ⟨_, s₃, h₃, h⟩ := bind_eq_ok.mp h
  have e₃ := e₂.seq (hq _ s₃ h₃ e₂.tidy)
  obtain ⟨_, s₄, h₄, h⟩ := bind_eq_ok.mp h
  obtain ⟨rfl, rfl⟩ := jump_eq_ok.mp h₄
  have e₄ := e₃.seq (.jump e₃.tidy .jumpForward [] rfl)
  obtain ⟨_, s₅, h₅, h⟩ := bind_eq_ok.mp h
  have hlt := (e₃.range s₁.size (by simp)).2
  obtain ⟨e₅, p₅⟩ := e₄.landHere h₅ [s₃.size] (by simp) (by simp; omega)
  obtain ⟨_, s₆, h₆, h⟩ := bind_eq_ok.mp h
  have e₆ := e₅.seq (hr s₅ s₆ h₆ e₅.tidy)
  obtain ⟨e₇, p₇⟩ := e₆.landHere h [] (by simp) (by simp)
  refine e₇.mono ?_
  rintro S ⟨⟨⟨⟨⟨⟨hp, f₁⟩, hq⟩, f₂⟩, j₁⟩, hr⟩, j₂⟩
  rw [p₇]
  rw [show (s₃.put .jumpForward [placeholder]).size = s₅.point.offset from
    (congrArg Point.offset p₅).symm] at j₁
  have f₂ := f₂ _ j₂
  rw [← p₅] at f₂
  exact ⟨_, _, _, _, hp, f₁ _ j₁, hq, f₂, hr⟩

theorem applyOperator_eq (both : Bool) :
    Generate.applyOperator (if both then .and else .or) =
      instruction (Operation.binary (if both then .and else .or)).encode.1
        (Operation.binary (if both then .and else .or)).encode.2 := by
  cases both <;> rfl

theorem shortCircuit (both : Bool) (hp : p.IsLaid) (hq : q.IsLaid) :
    (shortCircuit both p q).IsLaid := by
  intro s s' h hs
  rw [Plan.emit] at h
  unfold Generate.shortCircuit at h
  rw [applyOperator_eq] at h
  obtain ⟨_, s₁, h₁, h⟩ := bind_eq_ok.mp h
  have ep := hp s s₁ h₁ hs
  obtain ⟨_, s₂, h₂, h⟩ := bind_eq_ok.mp h
  have h₂ := instruction_eq_ok.mp h₂
  subst h₂
  have e₂ := ep.seq (.put ep.tidy .copy [0] rfl)
  obtain ⟨_, s₃, h₃, h⟩ := bind_eq_ok.mp h
  obtain ⟨rfl, rfl⟩ := jump_eq_ok.mp h₃
  have e₃ := e₂.seq (.jump e₂.tidy
    (if both then .popJumpForwardIfFalse else .popJumpForwardIfTrue) []
    (by cases both <;> rfl))
  obtain ⟨_, s₄, h₄, h⟩ := bind_eq_ok.mp h
  have e₄ := e₃.seq (hq _ s₄ h₄ e₃.tidy)
  obtain ⟨_, s₅, h₅, h⟩ := bind_eq_ok.mp h
  have h₅ := instruction_eq_ok.mp h₅
  subst h₅
  have e₅ := e₄.seq (.put e₄.tidy _ _
    (Operation.length_encode (.binary (if both then .and else .or))))
  obtain ⟨_, s₆, h₆, h⟩ := bind_eq_ok.mp h
  obtain ⟨e₆, p₆⟩ := e₅.landHere h₆ [] (by simp) (by simp)
  have h := instruction_eq_ok.mp h
  subst h
  refine (e₆.seq (.put e₆.tidy _ _ rfl)).mono ?_
  rintro S ⟨⟨⟨⟨⟨⟨hp, i₁⟩, f⟩, hq⟩, i₄⟩, j⟩, i₅⟩
  rw [p₆] at i₅
  exact ⟨_, _, _, _, (s₄.put ..).point, hp, i₁, f _ j, hq, i₄, i₅⟩

/-! ### Loops -/

theorem loop (tested : Bool) (hp : p.IsLaid) (hq : q.IsLaid) (hr : r.IsLaid) :
    (loop tested p q r).IsLaid := by
  intro s s' h hs
  obtain ⟨_, _, h₀, h⟩ := bind_eq_ok.mp h
  obtain ⟨rfl, rfl⟩ := position_eq_ok.mp h₀
  obtain ⟨_, s₁, h₁, h⟩ := bind_eq_ok.mp h
  have e₁ := hp s s₁ h₁ hs
  obtain ⟨out, s₂, h₂, h⟩ := bind_eq_ok.mp h
  have e₂ := e₁.seq (.exitIf e₁.tidy h₂)
  obtain ⟨l, s₃, h₃, h⟩ := bind_eq_ok.mp h
  obtain ⟨eb, hd⟩ := Emits.loopBody hq h₃ e₂.tidy
  have e₃ := e₂.seq eb
  obtain ⟨_, _, h₀, h⟩ := bind_eq_ok.mp h
  obtain ⟨rfl, rfl⟩ := position_eq_ok.mp h₀
  obtain ⟨_, s₄, h₄, h⟩ := bind_eq_ok.mp h
  have e₄ := e₃.seq (hr s₃ s₄ h₄ e₃.tidy)
  obtain ⟨_, s₅, h₅, h⟩ := bind_eq_ok.mp h
  have e₅ := e₄.seq (.jumpBack e₄.tidy h₅ e₄.grows.size)
  obtain ⟨_, _, h₀, h⟩ := bind_eq_ok.mp h
  obtain ⟨rfl, rfl⟩ := position_eq_ok.mp h₀
  obtain ⟨_, s₆, h₆, h⟩ := bind_eq_ok.mp h
  rw [Emits.option_landAll] at h₆
  -- the jump out of the loop lies before those of the body
  have hout : ∀ j ∈ out.toList, j ∉ l.breaks ++ l.continues := fun j hj hj' => by
    have := (e₂.range j (by simpa using hj)).2
    have := (eb.range j hj').1
    omega
  obtain ⟨e₆, p₆⟩ := e₅.landAll h₆ (l.breaks ++ l.continues) (by simp) hout
  obtain ⟨_, s₇, h₇, h⟩ := bind_eq_ok.mp h
  have h₇ := instruction_eq_ok.mp h₇
  subst h₇
  have e₇ := e₆.seq (.put e₆.tidy .nop [] rfl)
  have hlt : ∀ j ∈ l.breaks ++ l.continues, j ≤ s₃.size := fun j hj => by
    have := (eb.range j hj).2
    omega
  have z₃ : s₃.size ≤ s₅.size :=
    Nat.le_trans (hr s₃ s₄ h₄ e₃.tidy).grows.size
      (Emits.jumpBack e₄.tidy h₅ e₄.grows.size).grows.size
  obtain ⟨e₈, p₈⟩ := e₇.closeLoop h (by simp) hd
    (fun j hj => Nat.le_trans (hlt j (List.mem_append_left _ hj)) z₃)
    (fun j hj => hlt j (List.mem_append_right _ hj))
  refine e₈.mono ?_
  rintro S ⟨⟨⟨⟨⟨⟨⟨hp, x⟩, hb⟩, hr⟩, b⟩, hj⟩, n⟩, hbs, hcs⟩
  obtain ⟨m, hq, i⟩ := hb _ _ hbs hcs
  rw [p₆] at n
  rw [p₈]
  exact ⟨_, _, _, s₃.point, _, s₅.point, hp, x _ hj, hq, i, hr, b, n⟩

theorem iterate (names : Nat) (hp : p.IsLaid) (hq : q.IsLaid) : (iterate names p q).IsLaid := by
  intro s s' h hs
  obtain ⟨_, _, h₀, h⟩ := bind_eq_ok.mp h
  obtain ⟨rfl, rfl⟩ := position_eq_ok.mp h₀
  obtain ⟨_, s₁, h₁, h⟩ := bind_eq_ok.mp h
  obtain ⟨rfl, rfl⟩ := emit_eq_ok.mp h₁
  have e₁ := Emits.jump hs .forIter [names.toUInt16] rfl
  obtain ⟨_, s₂, h₂, h⟩ := bind_eq_ok.mp h
  have e₂ := e₁.seq (hp _ s₂ h₂ e₁.tidy)
  obtain ⟨l, s₃, h₃, h⟩ := bind_eq_ok.mp h
  obtain ⟨eb, hd⟩ := Emits.loopBody hq h₃ e₂.tidy
  have e₃ := e₂.seq eb
  obtain ⟨_, _, h₀, h⟩ := bind_eq_ok.mp h
  obtain ⟨rfl, rfl⟩ := position_eq_ok.mp h₀
  obtain ⟨_, s₄, h₄, h⟩ := bind_eq_ok.mp h
  have ej := Emits.jumpBack e₃.tidy h₄ e₃.grows.size
  have e₄ := e₃.seq ej
  obtain ⟨_, _, h₀, h⟩ := bind_eq_ok.mp h
  obtain ⟨rfl, rfl⟩ := position_eq_ok.mp h₀
  obtain ⟨_, s₅, h₅, h⟩ := bind_eq_ok.mp h
  have h₅ := instruction_eq_ok.mp h₅
  subst h₅
  have e₅ := e₄.seq (.put e₄.tidy .popTop [] rfl)
  obtain ⟨_, s₆, h₆, h⟩ := bind_eq_ok.mp h
  -- the exit of the iteration lies before the jumps of the body
  have hout : s.size ∉ l.breaks ++ l.continues := fun hj => by
    have := (e₂.range s.size (by simp)).2
    have := (eb.range s.size hj).1
    omega
  obtain ⟨e₆, p₆⟩ := e₅.landHere h₆ (l.breaks ++ l.continues) (by simp) hout
  obtain ⟨_, s₇, h₇, h⟩ := bind_eq_ok.mp h
  have h₇ := instruction_eq_ok.mp h₇
  subst h₇
  have e₇ := e₆.seq (.put e₆.tidy .nop [] rfl)
  have hlt : ∀ j ∈ l.breaks ++ l.continues, j ≤ s₃.size := fun j hj => by
    have := (eb.range j hj).2
    omega
  obtain ⟨e₈, p₈⟩ := e₇.closeLoop h (by simp) hd
    (fun j hj => Nat.le_trans (hlt j (List.mem_append_left _ hj)) ej.grows.size)
    (fun j hj => hlt j (List.mem_append_right _ hj))
  refine e₈.mono ?_
  rintro S ⟨⟨⟨⟨⟨⟨⟨f, hp⟩, hb⟩, b⟩, i₅⟩, hj⟩, n⟩, hbs, hcs⟩
  obtain ⟨m, hq, i⟩ := hb _ _ hbs hcs
  rw [p₆] at n
  rw [p₈]
  exact ⟨_, _, _, s₃.point, s₄.point, (s₄.put ..).point, f _ hj, hp, hq, i, b, i₅, n⟩

/-! ### Scopes -/

/-- Steps that are emitted in another scope, or inside a pipe. -/
theorem inside {Q : Site → Point → Point → Prop} {x : Emit Unit} {s s₂ : Emission}
    {inner : ScopeId} {inPipe : Bool}
    (hx : ∀ s s', x s = .ok () s' → Tidy s → Emits [] (fun S => Q S s.point s'.point) s s')
    (h : x { s with body := { s.body with scope := inner, inPipe } } = .ok () s₂) (hs : Tidy s)
    (outer : Bool) :
    Emits [] (fun S => Q { S with scope := inner } s.point s₂.point) s
      { s₂ with body := { s₂.body with scope := s.body.scope, inPipe := outer } } := by
  have t : Tidy { s with body := { s.body with scope := inner, inPipe } } :=
    hs.of_loops rfl (Nat.le_refl _) hs.constants hs.names hs.pool
  have e := hx _ _ h t
  obtain ⟨cells, l⟩ := e.laid
  refine ⟨⟨e.grows.size, e.grows.words, e.grows.constants, e.grows.names, e.grows.functions,
    e.grows.label, rfl, e.grows.enclosing, e.grows.outerLoops, e.grows.held, e.grows.breaks,
    e.grows.continues, e.grows.waiting⟩, ?_, by simp, by simp, cells, fun S hc hn => l _ ?_ hn⟩
  · exact e.tidy.of_loops rfl (Nat.le_refl _) e.tidy.constants e.tidy.names e.tidy.pool
  · exact ⟨hc.words, hc.constants, hc.names, hc.functions, e.grows.scope.symm, hc.inFunction,
      hc.held, hc.breaks, hc.continues⟩

theorem block (hp : p.IsLaid) : (block p).IsLaid := by
  intro s s' h hs
  obtain ⟨_, _, h₀, h⟩ := bind_eq_ok.mp h
  obtain ⟨rfl, rfl⟩ := scope_eq_ok.mp h₀
  obtain ⟨inner, s₁, h₁, h⟩ := bind_eq_ok.mp h
  obtain ⟨table, ht, rfl⟩ := onTable_eq_ok.mp h₁
  obtain ⟨_, s₂, h₂, h⟩ := bind_eq_ok.mp h
  have h₂ := (EStateM.Result.ok.inj h₂).2
  obtain ⟨_, s₃, h₃, h⟩ := bind_eq_ok.mp h
  have h := (EStateM.Result.ok.inj h).2
  subst h h₂
  have et := Emits.withTable hs table
  have e := et.seq (inside hp h₃ et.tidy s₃.body.inPipe)
  refine (e.and_first (P := fun S =>
    ScopeTable.openScope S.scope .block s.table = .ok inner table)
    fun S lo X hc => by rw [hc.scope]; exact ht).mono ?_
  rintro S ⟨hr, -, hp⟩
  exact ⟨inner, table, hr, hp⟩

theorem stages (hp : p.IsLaid) : (stages p).IsLaid := by
  intro s s' h hs
  obtain ⟨_, s₁, h₁, h⟩ := bind_eq_ok.mp h
  have h₁ := (EStateM.Result.ok.inj h₁).2
  obtain ⟨_, s₂, h₂, h⟩ := bind_eq_ok.mp h
  have h := (EStateM.Result.ok.inj h).2
  subst h h₁
  have g := (hp _ _ h₂ (hs.of_loops rfl (Nat.le_refl _) hs.constants hs.names
    hs.pool)).grows.scope
  have e := (inside hp h₂ hs false).and_first (P := fun S => S.scope = s.body.scope)
    fun S lo X hc => hc.scope
  rw [show s.body.scope = s₂.body.scope from g.symm] at e
  refine e.mono ?_
  rintro S ⟨hS, hp⟩
  rw [← hS] at hp
  exact hp

end Plan.IsLaid

/-! ### Switches -/

/-- Tests whose code is laid out wherever they are emitted. -/
def Tests.IsLaid (t : Tests) : Prop :=
  ∀ s s' js, t.emit s = .ok js s' → Tidy s → js.Pairwise (· < ·) ∧
    Emits js (fun S => ∀ target, (∀ j ∈ js, S.LeadsAt j target) →
      t.Laid S target s.point s'.point) s s'

/-- Arms whose code is laid out wherever their tests and their bodies are emitted. -/
structure Arms.IsLaid (c : Arms) : Prop where
  tests : ∀ s s' jss, c.emitTests s = .ok jss s' → Tidy s → jss.flatten.Pairwise (· < ·) ∧
    Emits jss.flatten (fun S => ∀ targets,
      List.Forall₂ (fun js target => ∀ j ∈ js, S.LeadsAt j target) jss targets →
      c.TestsLaid S targets s.point s'.point) s s'
  bodies : ∀ t t' s₀ s s' jss ends js R, c.emitTests t = .ok jss t' →
    c.emitBodies jss s = .ok ends s' → Emits js R s₀ s → jss.flatten.Pairwise (· < ·) →
    (∀ j ∈ jss.flatten, j ∈ js) → (∀ j ∈ ends, s.size ≤ j) ∧ ∃ js',
      (∀ j, j ∈ js' ↔ j ∈ ends ∨ j ∈ js ∧ j ∉ jss.flatten) ∧
      Emits js' (fun S => R S ∧ ∀ done, (∀ j ∈ ends, S.LeadsAt j done) → ∃ targets,
        List.Forall₂ (fun js target => ∀ j ∈ js, S.LeadsAt j target) jss targets ∧
        c.BodiesLaid S targets done s.point s'.point) s₀ s'

namespace Tests.IsLaid

theorem nil : Tests.nil.IsLaid := by
  intro s s' js h hs
  obtain ⟨rfl, rfl⟩ := pure_eq_ok.mp h
  exact ⟨.nil, (Emits.refl hs).mono fun _ _ _ _ => rfl⟩

theorem test {p : Plan} {t : Tests} (hp : p.IsLaid) (ht : t.IsLaid) : (Tests.test p t).IsLaid := by
  intro s s' js h hs
  rw [Tests.emit] at h
  obtain ⟨_, s₁, h₁, h⟩ := bind_eq_ok.mp h
  have h₁ := instruction_eq_ok.mp h₁
  subst h₁
  have e₁ := Emits.put hs .copy [0] rfl
  obtain ⟨_, s₂, h₂, h⟩ := bind_eq_ok.mp h
  have e₂ := e₁.seq (hp _ s₂ h₂ e₁.tidy)
  obtain ⟨_, s₃, h₃, h⟩ := bind_eq_ok.mp h
  have h₃ := instruction_eq_ok.mp h₃
  subst h₃
  have e₃ := e₂.seq (.put e₂.tidy .compareOp [Comparison.equal.word] rfl)
  obtain ⟨_, s₄, h₄, h⟩ := bind_eq_ok.mp h
  obtain ⟨rfl, rfl⟩ := jump_eq_ok.mp h₄
  have e₄ := e₃.seq (.jump e₃.tidy .popJumpForwardIfTrue [] rfl)
  obtain ⟨rest, s₅, h₅, h⟩ := bind_eq_ok.mp h
  obtain ⟨rfl, rfl⟩ := pure_eq_ok.mp h
  obtain ⟨hw, er⟩ := ht _ _ _ h₅ e₄.tidy
  refine ⟨List.pairwise_cons.mpr ⟨fun j hj => ?_, hw⟩, ?_⟩
  · have := (er.range j hj).1
    rw [size_put] at this
    exact Nat.lt_of_lt_of_le (Nat.lt_succ_of_lt (Nat.lt_succ_self _)) this
  · refine (e₄.seq er).mono ?_
    rintro S ⟨⟨⟨⟨i₁, hp⟩, i₃⟩, f⟩, hr⟩ target hj
    exact ⟨_, _, _, _, i₁, hp, i₃, f _ (hj _ (List.mem_cons_self ..)),
      hr target fun j hj' => hj j (List.mem_cons_of_mem _ hj')⟩

end Tests.IsLaid

namespace Arms.IsLaid

theorem nil : Arms.nil.IsLaid where
  tests s s' jss h hs := by
    obtain ⟨rfl, rfl⟩ := pure_eq_ok.mp h
    refine ⟨.nil, (Emits.refl hs).mono fun _ _ targets ht => ?_⟩
    cases ht
    exact ⟨rfl, rfl⟩
  bodies t t' s₀ s s' jss ends js R ht h he _ _ := by
    obtain ⟨rfl, rfl⟩ := pure_eq_ok.mp ht
    obtain ⟨rfl, rfl⟩ := pure_eq_ok.mp (show (pure [] : Emit (List Nat)) s = _ from h)
    exact ⟨by simp, js, by simp, he.mono fun S hS => ⟨hS, fun _ _ => ⟨[], .nil, rfl⟩⟩⟩

theorem emitTests_arm {t : Tests} {p : Plan} {c : Arms} {jss : List (List Nat)} {s s' : Emission}
    (h : (Arms.arm t p c).emitTests s = .ok jss s') :
    ∃ js rest m, jss = js :: rest ∧ t.emit s = .ok js m ∧ c.emitTests m = .ok rest s' := by
  rw [Arms.emitTests] at h
  obtain ⟨js, m, hm, h⟩ := bind_eq_ok.mp h
  obtain ⟨rest, m', hm', h⟩ := bind_eq_ok.mp h
  obtain ⟨rfl, rfl⟩ := pure_eq_ok.mp h
  exact ⟨js, rest, m, rfl, hm, hm'⟩

theorem arm {t : Tests} {p : Plan} {c : Arms} (ht : t.IsLaid) (hp : p.IsLaid) (hc : c.IsLaid) :
    (Arms.arm t p c).IsLaid where
  tests s s' jss h hs := by
    obtain ⟨js, rest, m, rfl, hm, hr⟩ := emitTests_arm h
    obtain ⟨w₁, e₁⟩ := ht s m js hm hs
    obtain ⟨w₂, e₂⟩ := hc.tests m s' rest hr e₁.tidy
    rw [List.flatten_cons]
    refine ⟨List.pairwise_append.mpr ⟨w₁, w₂, fun j hj k hk => ?_⟩, (e₁.seq e₂).mono ?_⟩
    · have := (e₁.range j hj).2
      have := (e₂.range k hk).1
      omega
    · rintro S ⟨h₁, h₂⟩ targets hts
      cases hts with
      | cons htarget hothers =>
        exact ⟨_, _, _, rfl, h₁ _ htarget, h₂ _ hothers⟩
  bodies t₀ t' s₀ s s' jss ends js R hts h he hw hj := by
    obtain ⟨ks, rest, m, rfl, -, hr⟩ := emitTests_arm hts
    rw [List.flatten_cons] at hw hj
    obtain ⟨-, hw₂, hlt⟩ := List.pairwise_append.mp hw
    rw [Arms.emitBodies] at h
    obtain ⟨_, s₁, h₁, h⟩ := bind_eq_ok.mp h
    -- the tests of this case land here
    obtain ⟨e₁, p₁⟩ := he.landAll h₁ (js.filter (· ∉ ks))
      (fun j => by
        by_cases hks : j ∈ ks
        · simp [hks, hj j (List.mem_append_left _ hks)]
        · simp [hks])
      (fun j hks => by simp [hks])
    obtain ⟨_, s₂, h₂, h⟩ := bind_eq_ok.mp h
    have e₂ := e₁.seq (hp _ s₂ h₂ e₁.tidy)
    obtain ⟨_, s₃, h₃, h⟩ := bind_eq_ok.mp h
    obtain ⟨rfl, rfl⟩ := jump_eq_ok.mp h₃
    have e₃ := e₂.seq (.jump e₂.tidy .jumpForward [] rfl)
    obtain ⟨ends', s₄, h₄, h⟩ := bind_eq_ok.mp h
    obtain ⟨rfl, rfl⟩ := pure_eq_ok.mp h
    have z : s.size ≤ s₂.size := by
      have := (hp _ s₂ h₂ e₁.tidy).grows.size
      have := congrArg Point.offset p₁
      change s₁.size = s.size at this
      omega
    obtain ⟨hends, js', hjs', e₄⟩ := hc.bodies m t' s₀ _ s₄ rest ends' _ _ hr h₄ e₃ hw₂ (by
      intro j hr
      have h₁ := hj j (List.mem_append_right _ hr)
      have h₂ : j ∉ ks := fun hks => Nat.lt_irrefl j (hlt j hks j hr)
      simp [h₁, h₂])
    refine ⟨?_, js', fun j => ?_, e₄.mono ?_⟩
    · intro j hj
      rcases List.mem_cons.mp hj with rfl | hj
      · exact z
      · have := hends j hj
        rw [size_put] at this
        omega
    · rw [hjs', List.flatten_cons]
      have hnew : s₂.size ∉ rest.flatten := fun hmem => by
        have := (he.range _ (hj _ (List.mem_append_right _ hmem))).2
        omega
      simp only [List.mem_append, List.mem_filter, List.mem_cons, List.not_mem_nil, or_false,
        decide_not, Bool.not_eq_true', decide_eq_false_iff_not, not_or]
      constructor
      · rintro (h | ⟨⟨h, hn⟩ | rfl, hn'⟩)
        · exact .inl (.inr h)
        · exact .inr ⟨h, hn, hn'⟩
        · exact .inl (.inl rfl)
      · rintro ((rfl | h) | ⟨h, hn, hn'⟩)
        · exact .inr ⟨.inr rfl, hnew⟩
        · exact .inl h
        · exact .inr ⟨.inl ⟨h, hn⟩, hn'⟩
    · rintro S ⟨⟨⟨⟨hR, hks⟩, hp⟩, f⟩, hb⟩
      refine ⟨hR, fun done hdone => ?_⟩
      obtain ⟨targets, hts, hb⟩ := hb done fun j hj => hdone j (List.mem_cons_of_mem _ hj)
      rw [p₁] at hp
      exact ⟨_, .cons hks hts, _, _, _, rfl, hp, f _ (hdone _ (List.mem_cons_self ..)), hb⟩

end Arms.IsLaid

namespace Plan.IsLaid

theorem switch {p d : Plan} {c : Arms} (hp : p.IsLaid) (hc : c.IsLaid) (hd : d.IsLaid) :
    (switch p c d).IsLaid := by
  intro s s' h hs
  obtain ⟨_, s₁, h₁, h⟩ := bind_eq_ok.mp h
  have e₁ := hp s s₁ h₁ hs
  obtain ⟨jss, s₂, h₂, h⟩ := bind_eq_ok.mp h
  obtain ⟨hw, et⟩ := hc.tests s₁ s₂ jss h₂ e₁.tidy
  have e₂ := e₁.seq et
  obtain ⟨_, s₃, h₃, h⟩ := bind_eq_ok.mp h
  obtain ⟨rfl, rfl⟩ := jump_eq_ok.mp h₃
  have e₃ := (e₂.seq (.jump e₂.tidy .jumpForward [] rfl)).hold
  obtain ⟨_, s₄, h₄, h⟩ := bind_eq_ok.mp h
  obtain ⟨m, hm, rfl⟩ := Emits.holding h₄
  obtain ⟨ends, s₅, h₅, hm⟩ := bind_eq_ok.mp hm
  obtain ⟨hends, js', hjs', e₅⟩ := hc.bodies _ _ _ _ s₅ jss ends _ _ h₂ h₅ e₃ hw
    fun j hj => by simp [hj]
  obtain ⟨_, s₆, h₆, hm⟩ := bind_eq_ok.mp hm
  have hlast : ∀ j ∈ ends, s₂.size < j := fun j hj => by
    have := hends j hj
    change (s₂.put .jumpForward [placeholder]).size ≤ j at this
    rw [size_put] at this
    omega
  have hfirst : ∀ j ∈ jss.flatten, j < s₂.size := fun j hj => by
    have := (et.range j hj).2
    omega
  obtain ⟨e₆, p₆⟩ := e₅.landHere h₆ ends
    (fun j => by
      rw [hjs']
      simp only [List.nil_append, List.mem_append, List.mem_singleton]
      constructor
      · rintro (h | ⟨h | rfl, hn⟩)
        · exact .inr h
        · exact (hn h).elim
        · exact .inl rfl
      · rintro (rfl | h)
        · exact .inr ⟨.inr rfl, fun hn => Nat.lt_irrefl _ (hfirst _ hn)⟩
        · exact .inl h)
    (fun hn => Nat.lt_irrefl _ (hlast _ hn))
  obtain ⟨_, s₇, h₇, hm⟩ := bind_eq_ok.mp hm
  have e₇ := e₆.seq (hd _ s₇ h₇ e₆.tidy)
  obtain ⟨e₈, p₈⟩ := e₇.landAll hm [] (by simp) (by simp)
  obtain ⟨_, s₉, h₉, h⟩ := bind_eq_ok.mp h
  have h₉ := instruction_eq_ok.mp h₉
  subst h₉
  have h := instruction_eq_ok.mp h
  subst h
  have e₉ := e₈.release.seq (.put e₈.release.tidy .swap [1] rfl)
  refine (e₉.seq (.put e₉.tidy .popTop [] rfl)).mono ?_
  rintro S ⟨⟨⟨⟨⟨⟨⟨⟨hp, ht⟩, f⟩, hb⟩, j⟩, hd⟩, hends⟩, i₁⟩, i₂⟩
  rw [Site.release_hold] at hp ht f
  obtain ⟨targets, hts, hb⟩ := hb _ hends
  have p₆' : s₆.point = s₅.point := p₆
  have p₈' : m.release.point = s₇.point := p₈
  have f := f s₅.size j
  rw [p₆'] at hd
  rw [p₈'] at i₁
  exact ⟨s₁.point, s₂.point, _, s₅.point, s₇.point, _, targets, hp, ht targets hts, f, hb, hd, i₁,
    i₂⟩

/-! ### Functions -/

theorem defaults_eq_ok : ∀ {ps : List Param} {ds : List (Option Value)} {s s' : Emission},
    ps.mapM Generate.defaultValue s = .ok ds s' → s' = s ∧ ds = ps.map Func.defaultOf ∧
      ∀ p ∈ ps, p.default.isSome → (Func.defaultOf p).isSome
  | [], _, s, _, h => by
    obtain ⟨rfl, rfl⟩ := pure_eq_ok.mp (by simpa using h)
    exact ⟨rfl, rfl, by simp⟩
  | p :: ps, _, s, s', h => by
    rw [List.mapM_cons] at h
    obtain ⟨d, m, hm, h⟩ := bind_eq_ok.mp h
    obtain ⟨ds, m', hm', h⟩ := bind_eq_ok.mp h
    obtain ⟨rfl, rfl⟩ := pure_eq_ok.mp h
    obtain ⟨he, rfl, hall⟩ := defaults_eq_ok hm'
    have hp : m = s ∧ d = Func.defaultOf p ∧ (p.default.isSome → (Func.defaultOf p).isSome) := by
      unfold Generate.defaultValue at hm
      unfold Func.defaultOf
      cases hd : p.default with
      | none =>
        rw [hd] at hm
        obtain ⟨rfl, rfl⟩ := pure_eq_ok.mp hm
        exact ⟨rfl, rfl, by simp⟩
      | some e =>
        rw [hd] at hm
        simp only [Option.bind_some]
        cases hl : Generate.literal? e with
        | none =>
          simp only [hl] at hm
          exact (throw_ne_ok.mp hm).elim
        | some v =>
          simp only [hl] at hm
          obtain ⟨rfl, rfl⟩ := pure_eq_ok.mp hm
          exact ⟨rfl, rfl, by simp⟩
    obtain ⟨rfl, rfl, hp⟩ := hp
    refine ⟨he, rfl, fun q hq => ?_⟩
    rcases List.mem_cons.mp hq with rfl | hq
    · exact hp
    · exact hall q hq

/-- The cell behind a captured name is passed on. -/
theorem passCell {name : String} {s s' : Emission} (hs : Tidy s)
    (h : Generate.passCell s.body.scope name s = .ok () s') :
    Emits [] (fun S => S.Passes name s.point s'.point) s s' := by
  obtain ⟨found, m, hm, h⟩ := bind_eq_ok.mp h
  obtain ⟨table, ht, rfl⟩ := onTable_eq_ok.mp hm
  have et := Emits.withTable hs table
  cases found with
  | none => exact (throw_ne_ok.mp h).elim
  | some r =>
    have hr : ∃ operands, operands.length = 2 ∧ s' = (s.withTable table).put .makeCell operands ∧
        (r.storage = .local ∧ operands = [r.symbol.index, 0] ∨
          r.storage = .free ∧ operands = [r.freeIndex, 1]) := by
      cases hst : r.storage <;> simp only [hst] at h
      case «local» => exact ⟨_, rfl, instruction_eq_ok.mp h, .inl ⟨rfl, rfl⟩⟩
      case free => exact ⟨_, rfl, instruction_eq_ok.mp h, .inr ⟨rfl, rfl⟩⟩
      all_goals exact (throw_ne_ok.mp h).elim
    obtain ⟨operands, hlen, rfl, hop⟩ := hr
    refine ((et.seq (.put et.tidy .makeCell operands hlen)).and_first
      (P := fun S => ScopeTable.resolve S.scope name s.table = .ok (some r) table)
      fun S lo X hc => by rw [hc.scope]; exact ht).mono ?_
    rintro S ⟨hr, -, hat⟩
    refine ⟨r, table, hr, ?_⟩
    rcases hop with ⟨hst, rfl⟩ | ⟨hst, rfl⟩
    · exact .inl ⟨hst, hat⟩
    · exact .inr ⟨hst, hat⟩

theorem passCells {outer : ScopeId} : ∀ {free : List Resolution} {s s' : Emission}, Tidy s →
    outer = s.body.scope →
    free.forM (fun found => Generate.passCell outer found.symbol.name) s = .ok () s' →
    Emits [] (fun S => S.PassesAll (free.map (·.symbol.name)) s.point s'.point) s s'
  | [], s, _, hs, _, h => by
    obtain ⟨-, rfl⟩ := pure_eq_ok.mp h
    exact (Emits.refl hs).mono fun _ _ => rfl
  | found :: free, s, s', hs, ho, h => by
    obtain ⟨_, m, hm, h⟩ := bind_eq_ok.mp h
    have e := passCell hs (ho ▸ hm)
    exact (e.seq (passCells e.tidy (ho.trans e.grows.scope.symm) h)).mono
      fun _ hS => ⟨_, hS.1, hS.2⟩

theorem instantiate {k : Nat} {free : List Resolution} {s s' : Emission} (hs : Tidy s)
    (hk : k < s.functions.size)
    (h : Generate.instantiate s.body.scope ⟨k⟩ free s = .ok () s') :
    Emits [] (fun S => S.Instantiates k free s.point s'.point) s s' := by
  obtain ⟨index, s₁, h₁, h⟩ := bind_eq_ok.mp h
  obtain ⟨e₁, p₁⟩ := Emits.constantIndex hs (v := .function ⟨k⟩) hk h₁
  unfold Site.Instantiates
  cases free with
  | nil =>
    have h := instruction_eq_ok.mp h
    subst h
    refine (e₁.seq (.put e₁.tidy .loadConst [index] rfl)).mono fun S hS => ⟨index, hS.1, ?_⟩
    rw [if_pos rfl, ← p₁]
    exact hS.2
  | cons found free =>
    obtain ⟨_, s₂, h₂, h⟩ := bind_eq_ok.mp h
    have e₂ := e₁.seq (passCells e₁.tidy e₁.grows.scope.symm h₂)
    split at h
    · obtain ⟨_, _, h, -⟩ := bind_eq_ok.mp h
      exact (throw_ne_ok.mp h).elim
    · rename_i hlen
      have h := instruction_eq_ok.mp h
      subst h
      refine (e₂.seq (.put e₂.tidy .loadClosure _ rfl)).mono ?_
      rintro S ⟨⟨hi, hp⟩, hat⟩
      rw [p₁] at hp
      refine ⟨index, hi, ?_⟩
      rw [if_neg (by simp)]
      exact ⟨by omega, _, hp, hat⟩

end Plan.IsLaid

namespace Emission

/-- The state in which the body of a function begins. -/
def entered (s : Emission) (table : ScopeTable) (f : Func) (inner : ScopeId) : Emission :=
  { s with
    table
    enclosing := s.body :: s.enclosing
    body := { code := { name := f.name, source := s.source }, scope := inner } }

/-- The code of a function when its body ends. -/
def closedCode (s : Emission) (inner : ScopeId) : Code :=
  { s.body.code with localCount := s.table.slotCount inner }

/-- The state after the end of the body of a function. -/
def closed (s : Emission) (f : Func) (inner : ScopeId) : Emission :=
  { s with
    body := s.enclosing.headD default
    enclosing := s.enclosing.tail
    functions := s.functions.push ⟨f.name, f.paramNames, f.defaults, s.closedCode inner⟩ }

theorem tidy_entered (s : Emission) (table : ScopeTable) (f : Func) (inner : ScopeId) :
    Tidy (s.entered table f inner) where
  complete j hj := by cases hj
  disjoint j hj := by cases hj
  constants := Nat.zero_le _
  names := Nat.zero_le _
  pool v hv := absurd hv (Array.not_mem_empty v)

/-- When a function is closed, the body around it is open again. -/
theorem body_closed {s s₂ : Emission} (f : Func) (inner : ScopeId)
    (henc : s₂.enclosing = s.body :: s.enclosing) : (s₂.closed f inner).body = s.body := by
  show s₂.enclosing.headD default = _
  rw [henc]
  rfl

theorem functions_closed {s s₂ : Emission} (f : Func) (inner : ScopeId)
    (hfs : s.functions.toList <+: s₂.functions.toList) :
    s.functions.toList <+: (s₂.closed f inner).functions.toList := by
  show _ <+: (s₂.functions.push _).toList
  rw [Array.toList_push]
  exact hfs.trans (List.prefix_append ..)

/-- Around a function that is closed, only the functions have become more. -/
theorem grows_closed {s s₂ : Emission} (f : Func) (inner : ScopeId)
    (henc : s₂.enclosing = s.body :: s.enclosing)
    (hfs : s.functions.toList <+: s₂.functions.toList) :
    Grows s.size s (s₂.closed f inner) := by
  have hb := body_closed f inner henc
  refine ⟨?_, ?_, ?_, ?_, functions_closed f inner hfs, ?_, ?_, ?_, ?_, ?_, ?_, ?_, ?_⟩
  · exact Nat.le_of_eq (by rw [size, size, hb])
  · intro i _
    rw [hb]
  · exact hb ▸ List.prefix_rfl
  · exact hb ▸ List.prefix_rfl
  · rw [hb]
  · rw [hb]
  · show s₂.enclosing.tail = _
    rw [henc]
    rfl
  · rw [hb]
  · rw [hb]
  · unfold breaks
    rw [hb]
    exact fun _ hj => hj
  · unfold continues
    rw [hb]
    exact fun _ hj => hj
  · unfold waiting breaks continues
    rw [hb]
    exact fun _ hj => .inl hj

/-- **The body of a function.** Around it, nothing but the function is new. -/
theorem Emits.function {R : Site → Prop} {s s₁ s₂ : Emission} {table : ScopeTable} {f : Func}
    {inner : ScopeId} (hs : Tidy s) (h₁ : s₁ = s.entered table f inner) (h : Emits [] R s₁ s₂) :
    Emits [] (fun S =>
      R { S with code := s₂.closedCode inner, scope := inner, exits := none, inFunction := true } ∧
        S.functions[s₂.functions.size]? =
          some ⟨f.name, f.paramNames, f.defaults, s₂.closedCode inner⟩ ∧
        S.cells s₂.functions.size = (s₂.table.freeVars inner).size) s (s₂.closed f inner) ∧
      (s₂.closed f inner).point = ⟨s.size, s₂.table, s₂.functions.size + 1⟩ ∧
      (s₂.closed f inner).body = s.body := by
  subst h₁
  have henc : s₂.enclosing = s.body :: s.enclosing := h.grows.enclosing
  have hbody := body_closed f inner henc
  have hloops : s₂.body.loops.head?.map OpenLoop.held = none := h.grows.held
  have hg : Grows s.size s (s₂.closed f inner) := grows_closed f inner henc h.grows.functions
  obtain ⟨cells₁, l⟩ := h.laid
  have hle : s.functions.size ≤ s₂.functions.size := h.grows.functions_le
  -- the functions inside are counted first, this one behind them
  obtain ⟨cells, hcells⟩ := Site.exists_counts cells₁ (fun _ => (s₂.table.freeVars inner).size)
    hle (Nat.le_succ s₂.functions.size)
  have hsize : (s₂.closed f inner).functions.size = s₂.functions.size + 1 := Array.size_push ..
  refine ⟨⟨hg, ?_, by simp, by simp, cells, fun S hc hn => ?_⟩, ?_, hbody⟩
  · refine hs.of_loops (by rw [hbody]) hg.size ?_ ?_ ?_
    · rw [hbody]
      exact hs.constants
    · rw [hbody]
      exact hs.names
    · rw [hbody]
      exact fun v hv => (hs.pool v hv).mono hg.functions_le
  · rw [hsize] at hn
    obtain ⟨hn₁, hn₂⟩ := hcells S hn
    refine ⟨l _ ?_ hn₁, ?_, hn₂ _ (Nat.le_refl _) (Nat.lt_succ_self _)⟩
    · exact { words := fun _ _ _ _ _ => rfl
              constants := List.prefix_rfl
              names := List.prefix_rfl
              functions := (functions_closed f inner List.prefix_rfl).trans hc.functions
              scope := h.grows.scope.symm
              inFunction := by
                rw [henc]
                rfl
              held := hloops.symm
              breaks := by simp
              continues := by simp }
    · refine hc.function ?_
      show (s₂.functions.push _)[s₂.functions.size]? = _
      simp
  · unfold point size
    rw [hbody, hsize]
    rfl

end Emission

namespace Plan.IsLaid

variable {p : Plan}

/-- Nothing follows a return at the end of the body of a function. -/
theorem return_spec {f : Func} {s s' : Emission} {k : Emit Unit} (hs : Tidy s)
    (h : (if (!Block.endsWithReturn f.body) = true then do
        let _ ← instruction .returnValue [1]
        k
      else k) s = .ok () s') :
    ∃ m, Emits [] (fun S => if Block.endsWithReturn f.body then m.point = s.point
      else S.At s.point .returnValue [1] m.point) s m ∧ k m = .ok () s' := by
  by_cases hb : Block.endsWithReturn f.body = true
  · rw [if_neg (by simp [hb])] at h
    simp only [if_pos hb]
    exact ⟨s, (Emits.refl hs).mono fun _ _ => rfl, h⟩
  · rw [if_pos (by simpa using hb)] at h
    simp only [if_neg hb]
    obtain ⟨_, m, hm, h⟩ := bind_eq_ok.mp h
    have hm := instruction_eq_ok.mp hm
    subst hm
    exact ⟨_, Emits.put hs .returnValue [1] rfl, h⟩

theorem func (f : Func) (hp : p.IsLaid) : (func f p).IsLaid := by
  intro s s' h hs
  rw [Plan.emit] at h
  unfold Generate.function at h
  split at h
  · obtain ⟨_, _, h, -⟩ := bind_eq_ok.mp h
    exact (throw_ne_ok.mp h).elim
  rename_i hparams
  obtain ⟨ds, m, hm, h⟩ := bind_eq_ok.mp h
  obtain ⟨rfl, rfl, hds⟩ := defaults_eq_ok hm
  obtain ⟨outer, m', hm', h⟩ := bind_eq_ok.mp h
  obtain ⟨rfl, rfl⟩ := scope_eq_ok.mp hm'
  obtain ⟨inner, s₁, h₁, h⟩ := bind_eq_ok.mp h
  obtain ⟨table, ht, rfl⟩ := onTable_eq_ok.mp h₁
  obtain ⟨_, s₁, h₁, h⟩ := bind_eq_ok.mp h
  have h₁ : m.entered table f inner = s₁ := (EStateM.Result.ok.inj h₁).2
  obtain ⟨_, s₂, h₂, h⟩ := bind_eq_ok.mp h
  have e₂ := block hp s₁ s₂ h₂ (h₁ ▸ tidy_entered m table f inner)
  obtain ⟨s₃, e₃, h⟩ := return_spec e₂.tidy h
  obtain ⟨r, s₄, h₄, h⟩ := bind_eq_ok.mp h
  obtain ⟨rfl, rfl⟩ : (⟨s₃.functions.size⟩ : Ref .function) = r ∧ s₃.closed f inner = s₄ :=
    EStateM.Result.ok.inj h₄
  obtain ⟨e₄, p₄, b₄⟩ := Emits.function hs h₁.symm (e₂.seq e₃)
  obtain ⟨t, _, hg, h⟩ := bind_eq_ok.mp h
  obtain ⟨rfl, rfl⟩ := get_eq_ok.mp hg
  have e₅ := instantiate e₄.tidy (by
    rw [show (s₃.closed f inner).functions.size = _ from Array.size_push ..]
    exact Nat.lt_succ_self _) (by rw [b₄]; exact h)
  refine ((e₄.seq e₅).and_first
    (P := fun S => Generate.enter f S.scope m.table = .ok inner table)
    fun S lo X hc => by rw [hc.scope]; exact ht).mono ?_
  rintro S ⟨he, ⟨⟨⟨block, opened, ho, hp⟩, hret⟩, hf, hcells⟩, hi⟩
  subst h₁
  rw [p₄, show (s₃.closed f inner).table = s₃.table from rfl] at hi
  -- a return at the end changes neither the scopes nor the functions
  have hpoint : s₃.table = s₂.table ∧ s₃.functions.size = s₂.functions.size := by
    split at hret
    · exact ⟨congrArg Point.table hret, congrArg Point.count hret⟩
    · obtain ⟨-, -, h⟩ := hret
      exact ⟨congrArg Point.table h, congrArg Point.count h⟩
  obtain ⟨htab, hcount⟩ := hpoint
  have hlabel : s₃.body.code.name = f.name := congrArg Prod.fst (e₂.seq e₃).grows.label
  rw [hcount] at hf hcells hi
  rw [htab] at hcells hi
  refine ⟨by omega, hds, inner, table, he, block, opened, ho, s₃.closedCode inner, s₂.point,
    s₃.point, hlabel, ?_, rfl, ?_, hp, ?_, hf, hcells, hi⟩
  · show s₃.table.slotCount inner = s₂.table.slotCount inner
    rw [htab]
  · show ∀ v ∈ s₃.body.code.constants, v.IsConstant s₂.functions.size
    rw [← hcount]
    exact (e₂.seq e₃).tidy.pool
  · exact hret

end Plan.IsLaid

mutual

/-- **The code of a plan is laid out** wherever it is emitted. -/
theorem Plan.isLaid : (p : Plan) → p.IsLaid
  | .skip => .skip
  | .seq p q => .seq p.isLaid q.isLaid
  | .instr o => .instr o
  | .const v scalar => .const v scalar
  | .attr sets name => .attr sets name
  | .load name => .load name
  | .update name reads value => .update name reads value.isLaid
  | .declare name constant => .declare name constant
  | .declareAll names => .declareAll names
  | .refuse e => .refuse e
  | .outsidePipe => .outsidePipe
  | .stages body => .stages body.isLaid
  | .insideFunction => .insideFunction
  | .leave isBreak => .leave isBreak
  | .branch condition ifTrue ifFalse => .branch condition.isLaid ifTrue.isLaid ifFalse.isLaid
  | .shortCircuit both left right => .shortCircuit both left.isLaid right.isLaid
  | .switch subject arms default => .switch subject.isLaid arms.isLaid default.isLaid
  | .block body => .block body.isLaid
  | .loop tested condition body post => .loop tested condition.isLaid body.isLaid post.isLaid
  | .iterate names bind body => .iterate names bind.isLaid body.isLaid
  | .func f body => .func f body.isLaid

theorem Arms.isLaid : (c : Arms) → c.IsLaid
  | .nil => .nil
  | .arm tests body rest => .arm tests.isLaid body.isLaid rest.isLaid

theorem Tests.isLaid : (t : Tests) → t.IsLaid
  | .nil => .nil
  | .test value rest => .test value.isLaid rest.isLaid

end

end ScriptEngine
