import ScriptEngine.Proofs.Layout.Emission

/-!
# Steps that emit code

The steps from which the code of every plan is put together, each with what it says about the final
code. Steps are composed with the jumps that they leave open, and a jump that lands is open no more.

## Main definitions

* `ScriptEngine.Emission.Emits`: steps that leave some jumps open, and what the final code says when
  it is a completion of what they emitted.

## Main results

* `ScriptEngine.Emission.Emits.seq`, `ScriptEngine.Emission.Emits.complete`: consecutive steps, and
  steps whose jumps are completed;
* `ScriptEngine.Emission.Emits.hold`, `ScriptEngine.Emission.Emits.release`: steps during which a
  loop holds one more value.
-/

namespace ScriptEngine

open Emit Emission

/-- The functions in a range have the given numbers of cells. -/
def Site.Counts (S : Site) (cells : Nat → Nat) (first stop : Nat) : Prop :=
  ∀ k, first ≤ k → k < stop → S.cells k = cells k

/-- The numbers of cells in two consecutive ranges. -/
theorem Site.exists_counts (cells₁ cells₂ : Nat → Nat) {a b c : Nat} (hab : a ≤ b) (hbc : b ≤ c) :
    ∃ cells, ∀ S : Site, S.Counts cells a c → S.Counts cells₁ a b ∧ S.Counts cells₂ b c := by
  refine ⟨fun k => if k < b then cells₁ k else cells₂ k, fun S h => ⟨?_, ?_⟩⟩
  · intro k hk hk'
    exact (h k hk (by omega)).trans (if_pos hk')
  · intro k hk hk'
    exact (h k (by omega) hk').trans (if_neg (by omega))

/-- **Steps that emit code** and leave the jumps `js` open. What `R` says about a site holds of
every completion of what they emitted. -/
structure Emission.Emits (js : List Nat) (R : Site → Prop) (s s' : Emission) : Prop where
  grows : Grows s.size s s'
  tidy : Tidy s'
  range : ∀ j ∈ js, s.size ≤ j ∧ j + 2 ≤ s'.size
  apart : ∀ j ∈ js, j ∉ s'.waiting
  laid : ∃ cells, ∀ S, S.Completes s.size (js.map (· + 1)) s' →
    S.Counts cells s.functions.size s'.functions.size → R S

namespace Emission.Emits

variable {js js' ks : List Nat} {R R' : Site → Prop} {s s₁ s₂ s' : Emission}

/-- A completion of all of the code completes what was there before. -/
theorem back (h : Emits js R s s') {S : Site} {lo : Nat} {X : List Nat}
    (hc : S.Completes lo (js.map (· + 1) ++ X) s') : S.Completes lo X s := by
  refine (hc.of_grows h.grows (Nat.le_refl _)).narrow (Nat.le_refl _) fun x hx _ hlt => ?_
  rcases List.mem_append.mp hx with hx | hx
  · obtain ⟨j, hj, rfl⟩ := List.mem_map.mp hx
    have := (h.range j hj).1
    omega
  · exact hx

/-- Steps that compile no function and leave no jump open. -/
theorem of_completes (hg : Grows s.size s s') (ht : Tidy s')
    (h : ∀ S, S.Completes s.size [] s' → R S) : Emits [] R s s' :=
  ⟨hg, ht, by simp, by simp, fun _ => 0, fun S hc _ => h S hc⟩

theorem mono (h : Emits js R s s') (hR : ∀ S, R S → R' S) : Emits js R' s s' := by
  obtain ⟨hg, ht, hr, ha, cells, hl⟩ := h
  exact ⟨hg, ht, hr, ha, cells, fun S hc hn => hR S (hl S hc hn)⟩

/-- What a completion says about the first state holds of it. -/
theorem and_first {P : Site → Prop} (h : Emits js R s s')
    (hP : ∀ S lo X, S.Completes lo X s → P S) : Emits js (fun S => P S ∧ R S) s s' := by
  have hb : ∀ (S : Site) (lo : Nat) (X : List Nat),
      S.Completes lo (js.map (· + 1) ++ X) s' → S.Completes lo X s := fun _ _ _ => h.back
  obtain ⟨hg, ht, hr, ha, cells, hl⟩ := h
  refine ⟨hg, ht, hr, ha, cells, fun S hc hn => ⟨hP S s.size [] ?_, hl S hc hn⟩⟩
  exact hb S _ _ (by simpa using hc)

/-- What a completion says about the last state holds of it. -/
theorem and_last {P : Site → Prop} (h : Emits js R s s')
    (hP : ∀ S lo X, S.Completes lo X s' → P S) : Emits js (fun S => P S ∧ R S) s s' := by
  obtain ⟨hg, ht, hr, ha, cells, hl⟩ := h
  exact ⟨hg, ht, hr, ha, cells, fun S hc hn => ⟨hP S _ _ hc, hl S hc hn⟩⟩

/-- **Consecutive steps.** -/
theorem seq (h₁ : Emits js R s s₁) (h₂ : Emits js' R' s₁ s₂) :
    Emits (js ++ js') (fun S => R S ∧ R' S) s s₂ := by
  have z₁ := h₁.grows.size
  have z₂ := h₂.grows.size
  obtain ⟨cells₁, l₁⟩ := h₁.laid
  obtain ⟨cells₂, l₂⟩ := h₂.laid
  obtain ⟨cells, hcells⟩ := Site.exists_counts cells₁ cells₂ h₁.grows.functions_le
    h₂.grows.functions_le
  refine ⟨h₁.grows.trans h₂.grows z₁, h₂.tidy, ?_, ?_, cells, fun S hc hn => ?_⟩
  · intro j hj
    rcases List.mem_append.mp hj with hj | hj
    · have := h₁.range j hj
      omega
    · have := h₂.range j hj
      omega
  · intro j hj
    rcases List.mem_append.mp hj with hj | hj
    · have := h₁.range j hj
      exact h₂.grows.not_waiting (h₁.apart j hj) (by omega)
    · exact h₂.apart j hj
  · obtain ⟨hn₁, hn₂⟩ := hcells S hn
    have hc₂ : S.Completes s₁.size (js'.map (· + 1)) s₂ := by
      refine hc.narrow z₁ fun x hx hle _ => ?_
      obtain ⟨j, hj, rfl⟩ := List.mem_map.mp hx
      rcases List.mem_append.mp hj with hj | hj
      · have := (h₁.range j hj).2
        omega
      · exact List.mem_map_of_mem hj
    have hc₁ : S.Completes s.size (js.map (· + 1)) s₁ := by
      refine h₂.back (hc.narrow (Nat.le_refl _) fun x hx _ _ => ?_)
      simpa only [List.map_append, List.mem_append, or_comm] using hx
    exact ⟨l₁ S hc₁ hn₁, l₂ S hc₂ hn₂⟩

theorem refl (hs : Tidy s) : Emits [] (fun _ => True) s s :=
  of_completes (.refl _ s) hs fun _ _ => trivial

/-- **An instruction.** -/
theorem put (hs : Tidy s) (op : Opcode) (operands : List Word)
    (hn : operands.length = op.operandCount) :
    Emits [] (fun S => S.At s.point op operands (s.put op operands).point) s
      (s.put op operands) :=
  of_completes (.put s op operands) (hs.put op operands) fun _ hc =>
    (hc.put hs (Nat.le_refl _) (by simp) hn).1

/-- **A jump that is completed later.** -/
theorem jump (hs : Tidy s) (op : Opcode) (operands : List Word)
    (hn : operands.length + 1 = op.operandCount) :
    Emits [s.size] (fun S => ∀ target, S.LeadsAt s.size target →
      ∃ d, S.At s.point op (d :: operands) (s.put op (placeholder :: operands)).point ∧
        Site.Leads s.size target d) s (s.put op (placeholder :: operands)) := by
  refine ⟨.put .., hs.put .., ?_, ?_, fun _ => 0, fun S hc _ target ht => ?_⟩
  · simp [size_put]
    omega
  · intro j hj
    rw [List.mem_singleton.mp hj, waiting_put]
    exact hs.not_waiting (Nat.le_refl _)
  · exact (hc.jump hs (Nat.le_refl _) (by simp) hn ht).1

/-- A step on the scopes. -/
theorem withTable (hs : Tidy s) (table : ScopeTable) :
    Emits [] (fun _ => True) s (s.withTable table) :=
  of_completes (.withTable _ s table) (hs.of_loops rfl (Nat.le_refl _) hs.constants hs.names
    hs.pool)
    fun _ _ => trivial

/-! ### Completed jumps -/

/-- **Completed jumps** are open no more. -/
theorem complete {target : Nat} (h : Emits js R s s₁)
    (hk : ks.forM (completeJump · target) s₁ = .ok () s') (js' : List Nat)
    (ht : ∀ j ∈ ks, j ≤ target) (hmem : ∀ j, j ∈ js ↔ j ∈ ks ∨ j ∈ js') (hd : ∀ j ∈ ks, j ∉ js') :
    Emits js' (fun S => R S ∧ ∀ j ∈ ks, S.LeadsAt j target) s s' ∧ s'.point = s₁.point := by
  have hr : ∀ j ∈ ks, s.size ≤ j ∧ j + 2 ≤ s₁.size := fun j hj =>
    h.range j ((hmem j).mpr (.inl hj))
  have l := lands_completeAll hk fun j hj => (hr j hj).1
  obtain ⟨cells, hl⟩ := h.laid
  refine ⟨⟨h.grows.trans l.grows (Nat.le_refl _), l.tidy h.tidy, ?_, ?_, cells,
    fun S hc hn => ?_⟩, l.point⟩
  · intro j hj
    rw [l.size]
    exact h.range j ((hmem j).mpr (.inr hj))
  · intro j hj
    rw [l.waiting]
    exact h.apart j ((hmem j).mpr (.inr hj))
  · obtain ⟨hj, hc⟩ := hc.of_completeAll hk fun j hj => by
      obtain ⟨h₁, h₂⟩ := hr j hj
      refine ⟨h₁, h₂, ht j hj, fun hx => ?_, h.apart j ((hmem j).mpr (.inl hj))⟩
      obtain ⟨k, hk, hkj⟩ := List.mem_map.mp hx
      exact hd j hj (by rwa [show j = k by omega])
    refine ⟨hl S (hc.narrow (Nat.le_refl _) fun x hx _ _ => ?_) ?_, hj⟩
    · rw [← List.map_append] at hx
      obtain ⟨j, hj, rfl⟩ := List.mem_map.mp hx
      exact List.mem_map_of_mem ((hmem j).mpr (List.mem_append.mp hj))
    · rwa [show s₁.functions.size = s'.functions.size from (congrArg Point.count l.point).symm]

/-- Jumps that land are open no more. -/
theorem landAll (h : Emits js R s s₁) (hk : ks.forM landHere s₁ = .ok () s')
    (js' : List Nat) (hmem : ∀ j, j ∈ js ↔ j ∈ ks ∨ j ∈ js') (hd : ∀ j ∈ ks, j ∉ js') :
    Emits js' (fun S => R S ∧ ∀ j ∈ ks, S.LeadsAt j s₁.size) s s' ∧ s'.point = s₁.point := by
  rw [landAll_eq] at hk
  refine h.complete hk js' (fun j hj => ?_) hmem hd
  have := (h.range j ((hmem j).mpr (.inl hj))).2
  omega

theorem landHere {j : Nat} (h : Emits js R s s₁) (hk : landHere j s₁ = .ok () s')
    (js' : List Nat) (hmem : ∀ k, k ∈ js ↔ k = j ∨ k ∈ js') (hd : j ∉ js') :
    Emits js' (fun S => R S ∧ S.LeadsAt j s₁.size) s s' ∧ s'.point = s₁.point := by
  rw [landHere_eq] at hk
  obtain ⟨h, hp⟩ := h.landAll hk js' (by simpa using hmem) (by simpa using hd)
  exact ⟨h.mono fun S hS => ⟨hS.1, hS.2 j (by simp)⟩, hp⟩

end Emission.Emits

/-! ### Primitive steps -/

namespace Emit

variable {α : Type} {s s' : Emission}

theorem position_eq_ok {p : Nat} : position s = .ok p s' ↔ s.size = p ∧ s = s' := by
  show EStateM.Result.ok s.size s = _ ↔ _
  simp

theorem scope_eq_ok {c : ScopeId} : scope s = .ok c s' ↔ s.body.scope = c ∧ s = s' := by
  show EStateM.Result.ok s.body.scope s = _ ↔ _
  simp

theorem instruction_eq_ok {op : Opcode} {operands : List Word} {u : Unit} :
    instruction op operands s = .ok u s' ↔ s' = s.put op operands := by
  show EStateM.Result.ok () (s.put op operands) = _ ↔ _
  simp [eq_comm]

theorem emit_eq_ok {op : Opcode} {operands : List Word} {p : Nat} :
    Emit.emit op operands s = .ok p s' ↔ p = s.size ∧ s' = s.put op operands := by
  show EStateM.Result.ok s.size (s.put op operands) = _ ↔ _
  simp [eq_comm]

theorem jump_eq_ok {op : Opcode} {p : Nat} :
    jump op s = .ok p s' ↔ p = s.size ∧ s' = s.put op [placeholder] :=
  emit_eq_ok

theorem onTable_of_ok {step : Scoped α} {a : α} {table : ScopeTable}
    (h : step s.table = .ok a table) : onTable step s = .ok a (s.withTable table) := by
  obtain ⟨t, body, enclosing, source, fs⟩ := s
  unfold onTable
  dsimp only at h ⊢
  rw [h]
  rfl

theorem onTable_of_error {step : Scoped α} {e : CompileError} {table : ScopeTable}
    (h : step s.table = .error e table) : onTable step s = .error e (s.withTable table) := by
  obtain ⟨t, body, enclosing, source, fs⟩ := s
  unfold onTable
  dsimp only at h ⊢
  rw [h]
  rfl

theorem onTable_eq_ok {step : Scoped α} {a : α} :
    onTable step s = .ok a s' ↔ ∃ table, step s.table = .ok a table ∧ s' = s.withTable table := by
  cases h : step s.table with
  | ok b table =>
    rw [onTable_of_ok h]
    constructor
    · rintro ⟨⟩
      exact ⟨table, rfl, rfl⟩
    · rintro ⟨_, ⟨⟩, rfl⟩
      rfl
  | error e table =>
    rw [onTable_of_error h]
    simp

theorem jumpBack_eq_ok {target : Nat} :
    jumpBack target s = .ok () s' ↔
      s.size - target ≤ 0xffff ∧ s' = s.put .jumpBackward [(s.size - target).toUInt16] := by
  unfold jumpBack
  show (if s.size - target ≤ 0xffff then
    instruction .jumpBackward [(s.size - target).toUInt16] else throw .jumpTooFar : Emit Unit) s
      = _ ↔ _
  split
  · rename_i h
    rw [instruction_eq_ok, and_iff_right h]
  · rename_i h
    rw [throw_ne_ok, false_iff]
    exact fun h' => h h'.1

/-- The state with another innermost loop. -/
def mapLoop (s : Emission) (f : OpenLoop → OpenLoop) : Emission :=
  s.withLoops (match s.body.loops with
    | [] => []
    | l :: loops => f l :: loops)

theorem onLoop_eq_ok {f : OpenLoop → OpenLoop} {u : Unit} :
    onLoop f s = .ok u s' ↔ s' = mapLoop s f := by
  obtain ⟨table, ⟨code, scope, loops, inPipe⟩, enclosing, source, functions⟩ := s
  cases loops with
  | nil =>
    show EStateM.Result.ok _ _ = _ ↔ _
    simp [eq_comm]
    rfl
  | cons l loops =>
    show EStateM.Result.ok _ _ = _ ↔ _
    simp [eq_comm]
    rfl

end Emit

/-! ### Pools -/

namespace Code

theorem addConstant?_spec {c c' : Code} {v : Value} {i : Word}
    (h : c.addConstant? v = some (i, c')) :
    c'.words = c.words ∧ c'.header = c.header ∧ c.constants.toList <+: c'.constants.toList ∧
      c.names.toList <+: c'.names.toList ∧
      (c.constants.size ≤ Code.poolLimit → c'.constants.size ≤ Code.poolLimit) ∧
      (c.names.size ≤ Code.poolLimit → c'.names.size ≤ Code.poolLimit) := by
  unfold Code.addConstant? at h
  split at h
  · obtain ⟨-, rfl⟩ : _ ∧ c = c' := by simpa using h
    exact ⟨rfl, rfl, List.prefix_rfl, List.prefix_rfl, id, id⟩
  · split at h
    · rename_i hlt
      obtain ⟨-, rfl⟩ : _ ∧ _ = c' := by simpa using h
      refine ⟨rfl, rfl, by simp, List.prefix_rfl, fun _ => ?_, id⟩
      rw [Array.size_push]
      exact hlt
    · simp at h

/-- A new constant is the only new entry. -/
theorem addConstant?_pool {c c' : Code} {v : Value} {i : Word} {P : Value → Prop} (hv : P v)
    (h : c.addConstant? v = some (i, c')) (hc : ∀ w ∈ c.constants, P w) :
    ∀ w ∈ c'.constants, P w := by
  unfold Code.addConstant? at h
  split at h
  · obtain ⟨-, rfl⟩ : _ ∧ c = c' := by simpa using h
    exact hc
  · split at h
    · obtain ⟨-, rfl⟩ : _ ∧ _ = c' := by simpa using h
      intro w hw
      rcases Array.mem_push.mp hw with hw | rfl
      · exact hc w hw
      · exact hv
    · simp at h

theorem addName?_spec {c c' : Code} {name : String} {i : Word}
    (h : c.addName? name = some (i, c')) :
    c'.words = c.words ∧ c'.header = c.header ∧ c.constants.toList <+: c'.constants.toList ∧
      c.names.toList <+: c'.names.toList ∧
      (c.constants.size ≤ Code.poolLimit → c'.constants.size ≤ Code.poolLimit) ∧
      (c.names.size ≤ Code.poolLimit → c'.names.size ≤ Code.poolLimit) := by
  unfold Code.addName? at h
  split at h
  · obtain ⟨-, rfl⟩ : _ ∧ c = c' := by simpa using h
    exact ⟨rfl, rfl, List.prefix_rfl, List.prefix_rfl, id, id⟩
  · split at h
    · rename_i hlt
      obtain ⟨-, rfl⟩ : _ ∧ _ = c' := by simpa using h
      refine ⟨rfl, rfl, List.prefix_rfl, by simp, id, fun _ => ?_⟩
      rw [Array.size_push]
      exact hlt
    · simp at h

theorem addName?_pool {c c' : Code} {name : String} {i : Word} {P : Value → Prop}
    (h : c.addName? name = some (i, c')) (hc : ∀ w ∈ c.constants, P w) :
    ∀ w ∈ c'.constants, P w := by
  unfold Code.addName? at h
  split at h
  · obtain ⟨-, rfl⟩ : _ ∧ c = c' := by simpa using h
    exact hc
  · split at h
    · obtain ⟨-, rfl⟩ : _ ∧ _ = c' := by simpa using h
      exact hc
    · simp at h

theorem toNat_toUInt16 {n : Nat} (h : n < 0x10000) : n.toUInt16.toNat = n :=
  Nat.mod_eq_of_lt h

/-- Scalars that may share an entry are equal. -/
theorem eq_of_sameScalar {v w : Value} (h : v.sameScalar w = true) : v = w := by
  cases v <;> cases w <;> simp_all [Value.sameScalar]

/-- A constant is found where its index says. -/
theorem addConstant?_entry {c c' : Code} {v : Value} {i : Word}
    (hc : c.constants.size ≤ Code.poolLimit) (h : c.addConstant? v = some (i, c')) :
    c'.constants[i.toNat]? = some v := by
  unfold Code.addConstant? at h
  split at h
  · rename_i k hk
    obtain ⟨rfl, rfl⟩ : k.toUInt16 = i ∧ c = c' := by simpa using h
    obtain ⟨hlt, hv, -⟩ := Array.findIdx?_eq_some_iff_getElem.mp hk
    rw [toNat_toUInt16 (Nat.lt_of_lt_of_le hlt hc), Array.getElem?_eq_getElem hlt,
      eq_of_sameScalar hv]
  · split at h
    · rename_i hlt
      obtain ⟨rfl, rfl⟩ : c.constants.size.toUInt16 = i ∧ _ = c' := by simpa using h
      rw [toNat_toUInt16 hlt]
      simp
    · simp at h

/-- A name is found where its index says. -/
theorem addName?_entry {c c' : Code} {name : String} {i : Word}
    (hc : c.names.size ≤ Code.poolLimit) (h : c.addName? name = some (i, c')) :
    c'.names[i.toNat]? = some name := by
  unfold Code.addName? at h
  split at h
  · rename_i k hk
    obtain ⟨rfl, rfl⟩ : k.toUInt16 = i ∧ c = c' := by simpa using h
    obtain ⟨hlt, hv, -⟩ := Array.findIdx?_eq_some_iff_getElem.mp hk
    rw [toNat_toUInt16 (Nat.lt_of_lt_of_le hlt hc), Array.getElem?_eq_getElem hlt]
    exact congrArg some (eq_of_beq hv)
  · split at h
    · rename_i hlt
      obtain ⟨rfl, rfl⟩ : c.names.size.toUInt16 = i ∧ _ = c' := by simpa using h
      rw [toNat_toUInt16 hlt]
      simp
    · simp at h

end Code

namespace Emission.Emits

variable {js : List Nat} {R : Site → Prop} {s s₁ s' : Emission}

/-- A step on the pools, which adds an entry if it has to. -/
theorem pool {add : Code → Option (Word × Code)} {i : Word} (hs : Tidy s)
    (h : fromPool add s = .ok i s')
    (hv : ∀ {c c' : Code} {i : Word}, add c = some (i, c') →
      (∀ v ∈ c.constants, v.IsConstant s.functions.size) →
      ∀ v ∈ c'.constants, v.IsConstant s.functions.size)
    (ha : ∀ {c c' : Code} {i : Word}, add c = some (i, c') → c'.words = c.words ∧
      c'.header = c.header ∧
      c.constants.toList <+: c'.constants.toList ∧ c.names.toList <+: c'.names.toList ∧
      (c.constants.size ≤ Code.poolLimit → c'.constants.size ≤ Code.poolLimit) ∧
      (c.names.size ≤ Code.poolLimit → c'.names.size ≤ Code.poolLimit)) :
    Emits [] (fun _ => True) s s' ∧ s'.point = s.point ∧
      add s.body.code = some (i, s'.body.code) := by
  unfold fromPool at h
  split at h
  · rename_i index code hadd
    obtain ⟨rfl, rfl⟩ : index = i ∧ s.withCode code = s' := EStateM.Result.ok.inj h
    obtain ⟨hw, hn, hc, hm, hcl, hml⟩ := ha hadd
    refine ⟨of_completes (.withCode _ s code hw hn hc hm) ?_ fun _ _ => trivial, ?_, hadd⟩
    · exact hs.of_loops rfl (Grows.withCode 0 s code hw hn hc hm).size (hcl hs.constants)
        (hml hs.names) (hv hadd hs.pool)
    · show (⟨code.size, _, _⟩ : Point) = ⟨s.body.code.size, _, _⟩
      rw [Code.size, hw]
      rfl
  · simp at h

/-- The index of a constant, which is known from then on. -/
theorem constantIndex (hs : Tidy s) {v : Value} {i : Word} (hv : v.IsConstant s.functions.size)
    (h : constantIndex v s = .ok i s') :
    Emits [] (fun S => S.code.constants[i.toNat]? = some v) s s' ∧ s'.point = s.point := by
  obtain ⟨he, hp, hadd⟩ := pool hs h (Code.addConstant?_pool hv) Code.addConstant?_spec
  exact ⟨(he.and_last fun S lo X hc => hc.constant (Code.addConstant?_entry hs.constants hadd)).mono
    fun _ hS => hS.1, hp⟩

/-- The index of a name, which is known from then on. -/
theorem nameIndex (hs : Tidy s) {name : String} {i : Word} (h : nameIndex name s = .ok i s') :
    Emits [] (fun S => S.code.names[i.toNat]? = some name) s s' ∧ s'.point = s.point := by
  obtain ⟨he, hp, hadd⟩ := pool hs h Code.addName?_pool Code.addName?_spec
  exact ⟨(he.and_last fun S lo X hc => hc.name (Code.addName?_entry hs.names hadd)).mono
    fun _ hS => hS.1, hp⟩

/-! ### Names -/

theorem resolve_eq_ok {name : String} {r : Resolution} :
    Emit.resolve name s = .ok r s' ↔
      ∃ table, ScopeTable.resolve s.body.scope name s.table = .ok (some r) table ∧
        s' = s.withTable table := by
  unfold Emit.resolve
  rw [bind_eq_ok]
  constructor
  · rintro ⟨_, _, hc, h⟩
    obtain ⟨rfl, rfl⟩ := scope_eq_ok.mp hc
    obtain ⟨found, m, hm, h⟩ := bind_eq_ok.mp h
    obtain ⟨table, ht, rfl⟩ := onTable_eq_ok.mp hm
    cases found with
    | none => exact (throw_ne_ok.mp h).elim
    | some found =>
      obtain ⟨rfl, rfl⟩ := pure_eq_ok.mp h
      exact ⟨table, ht, rfl⟩
  · rintro ⟨table, ht, rfl⟩
    exact ⟨_, _, scope_eq_ok.mpr ⟨rfl, rfl⟩,
      bind_eq_ok.mpr ⟨_, _, onTable_eq_ok.mpr ⟨table, ht, rfl⟩, rfl⟩⟩

theorem newName_eq_ok {name : String} {constant : Bool} {symbol : Symbol} :
    newName name constant s = .ok symbol s' ↔
      ∃ table, ScopeTable.declare s.body.scope name constant s.table = .ok symbol table ∧
        s' = s.withTable table :=
  onTable_eq_ok

/-- A value is loaded from where it was found. -/
theorem loads (hs : Tidy s) {r : Resolution} (h : Emit.load r s = .ok () s') :
    Emits [] (fun S => S.Loads r s.point s'.point) s s' := by
  unfold Emit.load at h
  unfold Site.Loads
  cases hr : r.storage <;> simp only [hr] at h ⊢ <;> rw [instruction_eq_ok] at h <;> subst h <;>
    exact put hs _ _ rfl

/-- A value is stored where a variable was found. -/
theorem stores (hs : Tidy s) {r : Resolution} (h : Emit.store r s = .ok () s') :
    Emits [] (fun S => S.Stores r s.point s'.point) s s' := by
  unfold Emit.store at h
  unfold Site.Stores
  cases hr : r.storage <;> simp only [hr] at h ⊢
  case builtin => exact (throw_ne_ok.mp h).elim
  all_goals
    rw [instruction_eq_ok] at h
    subst h
    exact put hs _ _ rfl

theorem slotStore_eq_ok {op : Opcode} :
    slotStore s = .ok op s' ↔
      op = (if s.table.isGlobal s.body.scope then .storeGlobal else .storeFast) ∧ s' = s := by
  constructor
  · intro h
    obtain ⟨rfl, rfl⟩ := EStateM.Result.ok.inj (show EStateM.Result.ok
      (if s.table.isGlobal s.body.scope then .storeGlobal else .storeFast) s = .ok op s' from h)
    exact ⟨rfl, rfl⟩
  · rintro ⟨rfl, rfl⟩
    rfl

/-- A value is stored in a slot of the scope. -/
theorem sets (hs : Tidy s) {symbol : Symbol} {op : Opcode}
    (hop : op = if s.table.isGlobal s.body.scope then .storeGlobal else .storeFast) :
    Emits [] (fun S => S.Sets symbol s.point (s.put op [symbol.index]).point) s
      (s.put op [symbol.index]) := by
  refine of_completes (.put ..) (hs.put ..) fun S hc => ?_
  unfold Site.Sets
  rw [show S.scope = s.body.scope from hc.scope, show s.point.table = s.table from rfl, ← hop]
  exact (hc.put hs (Nat.le_refl _) (by simp) (by rw [hop]; split <;> rfl)).1

theorem setsAll (op : Opcode) : ∀ (symbols : List Symbol) {s s' : Emission}, Tidy s →
    op = (if s.table.isGlobal s.body.scope then .storeGlobal else .storeFast) →
    symbols.forM (fun symbol => instruction op [symbol.index]) s = .ok () s' →
    Emits [] (fun S => S.SetsAll symbols s.point s'.point) s s'
  | [], s, _, hs, _, h => by
    obtain ⟨-, rfl⟩ := pure_eq_ok.mp h
    exact (refl hs).mono fun _ _ => rfl
  | symbol :: symbols, s, s', hs, hop, h => by
    obtain ⟨_, m, hm, h⟩ := bind_eq_ok.mp h
    have hm := instruction_eq_ok.mp hm
    subst hm
    exact ((sets hs hop).seq (setsAll op symbols (hs.put ..) hop h)).mono
      fun _ hS => ⟨_, hS.1, hS.2⟩

theorem declareEach_eq_ok : ∀ {names : List String} {s s' : Emission} {symbols : List Symbol},
    (names.mapM fun name => newName name false) s = .ok symbols s' →
      ∃ table, ScopeTable.declareEach s.body.scope names s.table = .ok symbols table ∧
        s' = s.withTable table
  | [], s, _, _, h => by
    obtain ⟨rfl, rfl⟩ := pure_eq_ok.mp (by simpa using h)
    exact ⟨s.table, rfl, rfl⟩
  | name :: names, s, s', symbols, h => by
    rw [List.mapM_cons] at h
    obtain ⟨symbol, m, hm, h⟩ := bind_eq_ok.mp h
    obtain ⟨table, ht, rfl⟩ := newName_eq_ok.mp hm
    obtain ⟨others, m, hm, h⟩ := bind_eq_ok.mp h
    obtain ⟨rfl, rfl⟩ := pure_eq_ok.mp h
    obtain ⟨table', ht', rfl⟩ := declareEach_eq_ok hm
    refine ⟨table', ?_, rfl⟩
    unfold ScopeTable.declareEach at ht' ⊢
    rw [List.mapM_cons]
    show EStateM.bind _ _ _ = _
    unfold EStateM.bind
    rw [ht]
    show EStateM.bind _ _ _ = _
    unfold EStateM.bind
    rw [show (s.withTable table).body.scope = s.body.scope from rfl,
      show (s.withTable table).table = table from rfl] at ht'
    rw [ht']
    rfl

/-! ### Loops -/

theorem dropAll : ∀ (n : Nat) {s s' : Emission}, Tidy s →
    (List.replicate n ()).forM (fun _ => instruction .popTop) s = .ok () s' →
    Emits [] (fun S => S.Drops n s.point s'.point) s s'
  | 0, _, _, hs, h => by
    obtain ⟨-, rfl⟩ := pure_eq_ok.mp h
    exact (refl hs).mono fun _ _ => rfl
  | n + 1, s, s', hs, h => by
    rw [List.replicate_succ] at h
    obtain ⟨_, m, hm, h⟩ := bind_eq_ok.mp h
    have hm := instruction_eq_ok.mp hm
    subst hm
    exact ((put hs _ _ rfl).seq (dropAll n (hs.put ..) h)).mono fun _ hS => ⟨_, hS.1, hS.2⟩

/-- A loop for whose exit, or next round, one more jump waits. -/
def await (isBreak : Bool) (j : Nat) (l : OpenLoop) : OpenLoop :=
  if isBreak then { l with breaks := l.breaks ++ [j] }
  else { l with continues := l.continues ++ [j] }

theorem held_await (isBreak : Bool) (j : Nat) (l : OpenLoop) :
    (await isBreak j l).held = l.held := by
  cases isBreak <;> rfl

theorem mem_breaks_await {isBreak : Bool} {j k : Nat} {l : OpenLoop} :
    k ∈ (await isBreak j l).breaks ↔ k ∈ l.breaks ∨ isBreak = true ∧ k = j := by
  cases isBreak <;> simp [await]

theorem mem_continues_await {isBreak : Bool} {j k : Nat} {l : OpenLoop} :
    k ∈ (await isBreak j l).continues ↔ k ∈ l.continues ∨ isBreak = false ∧ k = j := by
  cases isBreak <;> simp [await]

theorem mapLoop_of_loops {s : Emission} {l : OpenLoop} {loops : List OpenLoop}
    (hl : s.body.loops = l :: loops) (f : OpenLoop → OpenLoop) :
    mapLoop s f = s.withLoops (f l :: loops) := by
  unfold mapLoop
  rw [hl]

/-- A jump that waits for the innermost loop leads to its exit or to its next round. -/
theorem await_leads {S : Site} {lo j : Nat} {s : Emission} {l : OpenLoop} {loops : List OpenLoop}
    {isBreak : Bool} (hl : s.body.loops = l :: loops)
    (hc : S.Completes lo [] (s.withLoops (await isBreak j l :: loops))) (hj : lo ≤ j) :
    (∃ e, S.exits = some e ∧ e.held = l.held ∧
      S.LeadsAt j (if isBreak then e.exit else e.next)) ∧ S.Completes lo [j + 1] s := by
  have hb : ∀ k, k ∈ s.breaks ↔ k ∈ l.breaks := fun k => by
    simp only [Emission.breaks, hl, List.headD_cons]
  have hk : ∀ k, k ∈ s.continues ↔ k ∈ l.continues := fun k => by
    simp only [Emission.continues, hl, List.headD_cons]
  have hb' : ∀ k, k ∈ (s.withLoops (await isBreak j l :: loops)).breaks ↔
      k ∈ l.breaks ∨ isBreak = true ∧ k = j := fun _ => mem_breaks_await
  have hk' : ∀ k, k ∈ (s.withLoops (await isBreak j l :: loops)).continues ↔
      k ∈ l.continues ∨ isBreak = false ∧ k = j := fun _ => mem_continues_await
  constructor
  · have hh := hc.held
    rw [show (s.withLoops (await isBreak j l :: loops)).body.loops = await isBreak j l :: loops
      from rfl, List.head?_cons, Option.map_some, held_await] at hh
    obtain ⟨e, he, hel⟩ := Option.map_eq_some_iff.mp hh
    refine ⟨e, he, hel, ?_⟩
    cases isBreak with
    | true => exact hc.breaks e he j ((hb' j).mpr (.inr ⟨rfl, rfl⟩)) hj
    | false => exact hc.continues e he j ((hk' j).mpr (.inr ⟨rfl, rfl⟩)) hj
  · refine ⟨fun i hlo hi hX hw => ?_, hc.constants, hc.names, hc.functions, hc.scope,
      hc.inFunction, ?_, ?_, ?_⟩
    · refine hc.words i hlo hi (by simp) fun k hk₁ => ?_
      simp only [waiting, List.mem_append, hb, hk] at hw
      simp only [waiting, List.mem_append, hb', hk'] at hk₁
      rw [List.mem_singleton] at hX
      rcases hk₁ with (h | ⟨-, rfl⟩) | (h | ⟨-, rfl⟩)
      · exact hw k (.inl h)
      · exact hX
      · exact hw k (.inr h)
      · exact hX
    · rw [hc.held, hl]
      exact congrArg some (held_await ..)
    · exact fun e he k hk₁ => hc.breaks e he k ((hb' k).mpr (.inl ((hb k).mp hk₁)))
    · exact fun e he k hk₁ => hc.continues e he k ((hk' k).mpr (.inl ((hk k).mp hk₁)))

theorem grows_await {s : Emission} {l : OpenLoop} {loops : List OpenLoop} {isBreak : Bool}
    {b j : Nat} (hl : s.body.loops = l :: loops) (hj : b ≤ j) :
    Grows b s (s.withLoops (await isBreak j l :: loops)) := by
  refine { Grows.refl b s with
    outerLoops := ?_
    held := ?_
    breaks := ?_
    continues := ?_
    waiting := ?_ }
  · rw [hl]
    rfl
  · rw [hl]
    exact congrArg some (held_await ..)
  · intro k hk
    simp only [Emission.breaks, hl, List.headD_cons] at hk
    exact mem_breaks_await.mpr (.inl hk)
  · intro k hk
    simp only [Emission.continues, hl, List.headD_cons] at hk
    exact mem_continues_await.mpr (.inl hk)
  · intro k hk
    simp only [waiting, Emission.breaks, Emission.continues, hl, List.headD_cons,
      List.mem_append] at hk ⊢
    change k ∈ (await isBreak j l).breaks ∨ k ∈ (await isBreak j l).continues at hk
    rw [mem_breaks_await, mem_continues_await] at hk
    rcases hk with (h | ⟨-, rfl⟩) | (h | ⟨-, rfl⟩)
    · exact .inl (.inl h)
    · exact .inr hj
    · exact .inl (.inr h)
    · exact .inr hj

theorem tidy_await {s : Emission} {l : OpenLoop} {loops : List OpenLoop} {isBreak : Bool}
    {j : Nat} (hs : Tidy s) (hl : s.body.loops = l :: loops) (hj : j ∉ s.waiting)
    (hz : j + 2 ≤ s.size) : Tidy (s.withLoops (await isBreak j l :: loops)) where
  complete k hk := by
    rcases (grows_await (b := j) hl (Nat.le_refl j)).waiting k hk with h | h
    · exact hs.complete k h
    · change k ∈ (await isBreak j l).breaks ++ (await isBreak j l).continues at hk
      rw [List.mem_append, mem_breaks_await, mem_continues_await] at hk
      rcases hk with (h | ⟨-, rfl⟩) | (h | ⟨-, rfl⟩)
      · exact hs.complete k (by simp [waiting, Emission.breaks, hl, h])
      · exact hz
      · exact hs.complete k (by simp [waiting, Emission.continues, hl, h])
      · exact hz
  disjoint k hb hc := by
    change k ∈ (await isBreak j l).breaks at hb
    change k ∈ (await isBreak j l).continues at hc
    rw [mem_breaks_await] at hb
    rw [mem_continues_await] at hc
    have hd := hs.disjoint k
    simp only [waiting, Emission.breaks, Emission.continues, hl, List.headD_cons,
      List.mem_append, not_or] at hj hd
    rcases hb with h | ⟨hb, h⟩ <;> rcases hc with h' | ⟨hc, h'⟩
    · exact hd h h'
    · exact hj.1 (h' ▸ h)
    · exact hj.2 (h ▸ h')
    · rw [hb] at hc
      cases hc
  constants := hs.constants
  names := hs.names
  pool := hs.pool

/-- **A break or a continue** waits for the innermost loop. -/
theorem leaveLoop (isBreak : Bool) (hs : Tidy s) (h : leaveLoop isBreak s = .ok () s') :
    Emits [] (fun S => ∃ e, S.exits = some e ∧ ∃ m, S.Drops e.held s.point m ∧
      S.Forward m .jumpForward (if isBreak then e.exit else e.next) s'.point) s s' := by
  unfold Emit.leaveLoop at h
  obtain ⟨_, _, hg, h⟩ := bind_eq_ok.mp h
  obtain ⟨rfl, rfl⟩ := get_eq_ok.mp hg
  rcases hl : s.body.loops with _ | ⟨l, loops⟩ <;> simp only [hl] at h
  · exact (throw_ne_ok.mp h).elim
  obtain ⟨_, s₁, h₁, h⟩ := bind_eq_ok.mp h
  have e₁ := dropAll l.held hs h₁
  obtain ⟨_, s₂, h₂, h⟩ := bind_eq_ok.mp h
  obtain ⟨rfl, rfl⟩ := jump_eq_ok.mp h₂
  -- the loops are still open, and the innermost holds as many values
  obtain ⟨l', loops', hl', hh⟩ : ∃ l' loops', s₁.body.loops = l' :: loops' ∧ l'.held = l.held := by
    have := e₁.grows.held
    rw [hl, List.head?_cons, Option.map_some] at this
    rcases hl' : s₁.body.loops with _ | ⟨l', loops'⟩
    · simp [hl'] at this
    · exact ⟨l', loops', rfl, by simpa [hl'] using this⟩
  have hs' := onLoop_eq_ok.mp h
  rw [mapLoop_of_loops (s := s₁.put .jumpForward [placeholder]) hl'] at hs'
  change s' = (s₁.put .jumpForward [placeholder]).withLoops (await isBreak s₁.size l' :: loops')
    at hs'
  subst hs'
  have z₁ := e₁.grows.size
  have e₂ := e₁.seq (jump e₁.tidy .jumpForward [] rfl)
  obtain ⟨cells, l₂⟩ := e₂.laid
  refine ⟨e₂.grows.trans (grows_await hl' z₁) (Nat.le_refl _), ?_, by simp, by simp, cells,
    fun S hc hn => ?_⟩
  · exact tidy_await e₂.tidy hl' (e₂.apart _ (by simp))
      (Nat.le_of_eq (size_put _ _ [placeholder]).symm)
  · obtain ⟨⟨e, he, hel, hj⟩, hc⟩ :=
      await_leads (s := s₁.put .jumpForward [placeholder]) hl' hc z₁
    obtain ⟨hd, hf⟩ := l₂ S hc hn
    exact ⟨e, he, _, by rwa [hel, hh], hf _ hj⟩

theorem loopBody_eq_ok {x : Emit Unit} {s s' : Emission} {l : OpenLoop} :
    loopBody x s = .ok l s' ↔ ∃ m, x (s.withLoops ({} :: s.body.loops)) = .ok () m ∧
      l = m.body.loops.headD {} ∧ s' = (m.withLoops m.body.loops.tail).put .popTop [] := by
  unfold loopBody
  rw [bind_eq_ok]
  constructor
  · rintro ⟨_, t, ht, h⟩
    obtain ⟨-, rfl⟩ : _ ∧ s.withLoops ({} :: s.body.loops) = t := EStateM.Result.ok.inj ht
    obtain ⟨_, m, hm, h⟩ := bind_eq_ok.mp h
    obtain ⟨_, t, ht, h⟩ := bind_eq_ok.mp h
    obtain ⟨rfl, rfl⟩ : m.body.loops.headD {} = _ ∧ m.withLoops m.body.loops.tail = t :=
      EStateM.Result.ok.inj ht
    obtain ⟨_, t, ht, h⟩ := bind_eq_ok.mp h
    have ht := instruction_eq_ok.mp ht
    obtain ⟨rfl, rfl⟩ := pure_eq_ok.mp h
    exact ⟨m, hm, rfl, ht⟩
  · rintro ⟨m, hm, rfl, rfl⟩
    exact ⟨_, s.withLoops ({} :: s.body.loops), rfl, bind_eq_ok.mpr ⟨_, m, hm, rfl⟩⟩

/-- **The body of a loop**, whose breaks and continues are left open. -/
theorem loopBody {x : Emit Unit} {Q : Site → Point → Point → Prop} {l : OpenLoop}
    (hx : ∀ s s', x s = .ok () s' → Tidy s → Emits [] (fun S => Q S s.point s'.point) s s')
    (h : loopBody x s = .ok l s') (hs : Tidy s) :
    Emits (l.breaks ++ l.continues) (fun S => ∀ exit next, (∀ j ∈ l.breaks, S.LeadsAt j exit) →
      (∀ j ∈ l.continues, S.LeadsAt j next) →
      ∃ m, Q (S.inLoop exit next) s.point m ∧ S.At m .popTop [] s'.point) s s' ∧
      ∀ j ∈ l.breaks, j ∉ l.continues := by
  obtain ⟨m, hm, rfl, rfl⟩ := loopBody_eq_ok.mp h
  have ts : Tidy (s.withLoops ({} :: s.body.loops)) := by
    refine ⟨?_, ?_, hs.constants, hs.names, hs.pool⟩
    · intro j hj
      cases hj
    · intro j hj
      cases hj
  have ep := hx _ m hm ts
  have ht : m.body.loops.tail = s.body.loops := ep.grows.outerLoops
  rw [ht]
  have hz : s.size ≤ m.size := ep.grows.size
  have tm : Tidy (m.withLoops s.body.loops) :=
    hs.of_loops rfl hz ep.tidy.constants ep.tidy.names ep.tidy.pool
  have gm : Grows s.size s (m.withLoops s.body.loops) :=
    { size := hz
      words := ep.grows.words
      constants := ep.grows.constants
      names := ep.grows.names
      functions := ep.grows.functions
      label := ep.grows.label
      scope := ep.grows.scope
      enclosing := ep.grows.enclosing
      outerLoops := rfl
      held := rfl
      breaks := fun _ h => h
      continues := fun _ h => h
      waiting := fun _ h => .inl h }
  have hr : ∀ j ∈ m.waiting, s.size ≤ j ∧ j + 2 ≤ m.size := by
    intro j hj
    have hc := ep.tidy.complete j hj
    rcases ep.grows.waiting j hj with h | h
    · cases h
    · exact ⟨h, hc⟩
  obtain ⟨cells, lp⟩ := ep.laid
  have em : Emits m.waiting (fun S => ∀ exit next, (∀ j ∈ m.breaks, S.LeadsAt j exit) →
      (∀ j ∈ m.continues, S.LeadsAt j next) → Q (S.inLoop exit next) s.point m.point) s
      (m.withLoops s.body.loops) := by
    refine ⟨gm, tm, hr, fun j hj => hs.not_waiting (hr j hj).1, cells,
      fun S hc hn exit next hb hk => lp (S.inLoop exit next) ?_ hn⟩
    -- seen from inside, the breaks and continues are those of the innermost loop
    exact { words := fun i hl hi _ hw => by
              refine hc.words i hl hi ?_ fun j hj => hs.ne_operand hj hl
              intro hx
              obtain ⟨j, hj, rfl⟩ := List.mem_map.mp hx
              exact hw j hj rfl
            constants := hc.constants
            names := hc.names
            functions := hc.functions
            scope := hc.scope.trans rfl
            inFunction := hc.inFunction
            held := ep.grows.held.symm
            breaks := by
              rintro e ⟨⟩ j hj -
              exact hb j hj
            continues := by
              rintro e ⟨⟩ j hj -
              exact hk j hj }
  refine ⟨?_, ep.tidy.disjoint⟩
  have e : Emits (m.waiting ++ []) (fun S => ∀ exit next, (∀ j ∈ m.breaks, S.LeadsAt j exit) →
      (∀ j ∈ m.continues, S.LeadsAt j next) → ∃ n, Q (S.inLoop exit next) s.point n ∧
        S.At n .popTop [] ((m.withLoops s.body.loops).put .popTop []).point) s _ :=
    (em.seq (put tm .popTop [] rfl)).mono
      fun S hS exit next hb hk => ⟨_, hS.1 exit next hb hk, hS.2⟩
  rwa [List.append_nil] at e

/-- **The end of a loop**: its breaks and continues are open no more. -/
theorem closeLoop {exit next : Nat} {l : OpenLoop} (h : Emits js R s s₁)
    (hk : closeLoop l exit next s₁ = .ok () s')
    (hmem : ∀ j, j ∈ js ↔ j ∈ l.breaks ∨ j ∈ l.continues) (hd : ∀ j ∈ l.breaks, j ∉ l.continues)
    (hb : ∀ j ∈ l.breaks, j ≤ exit) (hc : ∀ j ∈ l.continues, j ≤ next) :
    Emits [] (fun S => R S ∧ (∀ j ∈ l.breaks, S.LeadsAt j exit) ∧
      ∀ j ∈ l.continues, S.LeadsAt j next) s s' ∧ s'.point = s₁.point := by
  obtain ⟨_, m, hm, hk⟩ := bind_eq_ok.mp hk
  obtain ⟨h₁, p₁⟩ := h.complete hm l.continues hb hmem hd
  obtain ⟨h₂, p₂⟩ := h₁.complete hk [] hc (by simp) (by simp)
  exact ⟨h₂.mono fun S hS => ⟨hS.1.1, hS.1.2, hS.2⟩, p₂.trans p₁⟩

/-- A jump back. -/
theorem jumpBack {target : Nat} (hs : Tidy s) (h : jumpBack target s = .ok () s')
    (ht : target ≤ s.size) : Emits [] (fun S => S.Back s.point target s'.point) s s' := by
  obtain ⟨hd, rfl⟩ := jumpBack_eq_ok.mp h
  refine (put hs _ _ rfl).mono fun S hS => ⟨_, hS, ?_⟩
  rw [Code.toNat_toUInt16 (by omega)]
  show target + (s.size - target) = s.size
  omega

theorem exitIf_eq_ok {tested : Bool} {s s' : Emission} {j : Option Nat} :
    exitIf tested s = .ok j s' ↔
      if tested then j = some s.size ∧ s' = s.put .popJumpForwardIfFalse [placeholder]
      else j = none ∧ s' = s := by
  unfold exitIf
  cases tested with
  | true =>
    constructor
    · intro h
      obtain ⟨_, m, hm, h⟩ := bind_eq_ok.mp h
      obtain ⟨rfl, rfl⟩ := jump_eq_ok.mp hm
      obtain ⟨rfl, rfl⟩ := pure_eq_ok.mp h
      exact ⟨rfl, rfl⟩
    · rintro ⟨rfl, rfl⟩
      rfl
  | false =>
    constructor
    · intro h
      obtain ⟨rfl, rfl⟩ := pure_eq_ok.mp h
      exact ⟨rfl, rfl⟩
    · rintro ⟨rfl, rfl⟩
      rfl

/-- The jump out of a loop, if there is one, is left open. -/
theorem exitIf {tested : Bool} {out : Option Nat} (hs : Tidy s)
    (h : exitIf tested s = .ok out s') :
    Emits out.toList (fun S => ∀ target, (∀ j ∈ out.toList, S.LeadsAt j target) →
      S.ExitIf tested s.point target s'.point) s s' := by
  have h := exitIf_eq_ok.mp h
  unfold Site.ExitIf
  cases tested with
  | true =>
    obtain ⟨rfl, rfl⟩ := h
    exact (jump hs _ _ rfl).mono fun S hS target hj => hS target (hj _ (by simp))
  | false =>
    obtain ⟨rfl, rfl⟩ := h
    exact (refl hs).mono fun S _ target _ => rfl

theorem option_landAll (j : Option Nat) : j.forM Emit.landHere = j.toList.forM Emit.landHere := by
  cases j with
  | none => rfl
  | some j =>
    funext s
    exact landHere_eq j s

end Emission.Emits

/-! ### Held values -/

namespace Emission

/-- The state whose innermost loop holds another number of values. -/
def mapHeld (g : Nat → Nat) (s : Emission) : Emission :=
  mapLoop s fun l => { l with held := g l.held }

/-- The state whose innermost loop holds one more value. -/
def hold (s : Emission) : Emission :=
  s.mapHeld (· + 1)

/-- The state whose innermost loop holds one value less. -/
def release (s : Emission) : Emission :=
  s.mapHeld (· - 1)

variable (g : Nat → Nat) (s : Emission)

theorem breaks_mapHeld : (s.mapHeld g).breaks = s.breaks := by
  unfold mapHeld mapLoop breaks withLoops
  cases s.body.loops <;> rfl

theorem continues_mapHeld : (s.mapHeld g).continues = s.continues := by
  unfold mapHeld mapLoop continues withLoops
  cases s.body.loops <;> rfl

theorem waiting_mapHeld : (s.mapHeld g).waiting = s.waiting := by
  unfold waiting
  rw [breaks_mapHeld, continues_mapHeld]

theorem outerLoops_mapHeld : (s.mapHeld g).body.loops.tail = s.body.loops.tail := by
  unfold mapHeld mapLoop withLoops
  cases s.body.loops <;> rfl

theorem held_mapHeld : (s.mapHeld g).body.loops.head?.map OpenLoop.held =
    (s.body.loops.head?.map OpenLoop.held).map g := by
  unfold mapHeld mapLoop withLoops
  cases s.body.loops <;> rfl

theorem Tidy.mapHeld {s : Emission} (hs : Tidy s) : Tidy (s.mapHeld g) := by
  refine ⟨?_, ?_, hs.constants, hs.names, hs.pool⟩
  · rw [waiting_mapHeld]
    exact hs.complete
  · rw [breaks_mapHeld, continues_mapHeld]
    exact hs.disjoint

/-- Growth does not depend on how many values are held, if it is the same number before and
after. -/
theorem Grows.mapHeld {b : Nat} {s s' : Emission} {g g' : Nat → Nat} (h : Grows b s s')
    (hh : (s'.body.loops.head?.map OpenLoop.held).map g' =
      (s.body.loops.head?.map OpenLoop.held).map g) :
    Grows b (s.mapHeld g) (s'.mapHeld g') := by
  refine ⟨h.size, h.words, h.constants, h.names, h.functions, h.label, h.scope, h.enclosing,
    ?_, ?_, ?_, ?_, ?_⟩
  · rw [outerLoops_mapHeld, outerLoops_mapHeld]
    exact h.outerLoops
  · rw [held_mapHeld, held_mapHeld, hh]
  · rw [breaks_mapHeld, breaks_mapHeld]
    exact h.breaks
  · rw [continues_mapHeld, continues_mapHeld]
    exact h.continues
  · rw [waiting_mapHeld, waiting_mapHeld]
    exact h.waiting

theorem release_hold : s.hold.release = s := by
  unfold hold release mapHeld mapLoop withLoops
  obtain ⟨table, ⟨code, scope, loops, inPipe⟩, enclosing, source, functions⟩ := s
  cases loops <;> rfl

end Emission

namespace Site

/-- The same site where another number of values is held. -/
def mapHeld (g : Nat → Nat) (S : Site) : Site :=
  { S with exits := S.exits.map fun e => { e with held := g e.held } }

/-- The same site outside the body of a switch. -/
def release (S : Site) : Site :=
  S.mapHeld (· - 1)

/-- The value that the body of a switch holds is released at its end. -/
theorem release_hold (S : Site) : S.hold.release = S := by
  obtain ⟨functions, cells, code, scope, exits, inFunction⟩ := S
  cases exits <;> rfl

/-- A completion does not depend on how many values are held, if it is the right number. -/
theorem Completes.mapHeld {S : Site} {lo : Nat} {X : List Nat} {s : Emission} {f g : Nat → Nat}
    (h : S.Completes lo X (s.mapHeld f))
    (hh : (S.exits.map Exits.held).map g = s.body.loops.head?.map OpenLoop.held) :
    (S.mapHeld g).Completes lo X s := by
  refine ⟨?_, h.constants, h.names, h.functions, h.scope, h.inFunction, ?_, ?_, ?_⟩
  · have := h.words
    rwa [waiting_mapHeld] at this
  · rw [← hh]
    unfold Site.mapHeld
    rw [Option.map_map, Option.map_map]
    rfl
  · intro e hm j hj hl
    obtain ⟨e', he', rfl⟩ := Option.map_eq_some_iff.mp hm
    exact h.breaks e' he' j (by rwa [breaks_mapHeld]) hl
  · intro e hm j hj hl
    obtain ⟨e', he', rfl⟩ := Option.map_eq_some_iff.mp hm
    exact h.continues e' he' j (by rwa [continues_mapHeld]) hl

end Site

namespace Emission.Emits

variable {js : List Nat} {R : Site → Prop} {s s' : Emission}

/-- Steps emit the same code where one more value is held. -/
theorem hold (h : Emits js R s s') : Emits js (fun S => R S.release) s.hold s'.hold := by
  obtain ⟨cells, hl⟩ := h.laid
  refine ⟨h.grows.mapHeld (by rw [h.grows.held]), h.tidy.mapHeld _, h.range, ?_, cells,
    fun S hc hn => hl S.release (hc.mapHeld ?_) hn⟩
  · intro j hj
    rw [Emission.hold, waiting_mapHeld]
    exact h.apart j hj
  · rw [hc.held, Emission.hold, held_mapHeld, Option.map_map]
    exact Option.map_id'

/-- Steps during which one more value was held. -/
theorem release (h : Emits js R s.hold s') : Emits js (fun S => R S.hold) s s'.release := by
  obtain ⟨cells, hl⟩ := h.laid
  have g : Grows s.size s.hold.release s'.release :=
    h.grows.mapHeld (by rw [h.grows.held])
  rw [release_hold] at g
  refine ⟨g, h.tidy.mapHeld _, h.range, ?_, cells, fun S hc hn => hl S.hold (hc.mapHeld ?_) hn⟩
  · intro j hj
    rw [Emission.release, waiting_mapHeld]
    exact h.apart j hj
  · -- what is held at the end was held at the beginning, and that is one value at least
    rw [hc.held, Emission.release, held_mapHeld, h.grows.held, Emission.hold, held_mapHeld,
      Option.map_map, Option.map_map]
    rfl

theorem holding {x : Emit Unit} (h : holding x s = .ok () s') :
    ∃ m, x s.hold = .ok () m ∧ s' = m.release := by
  obtain ⟨_, t, ht, h⟩ := bind_eq_ok.mp h
  have ht := onLoop_eq_ok.mp ht
  obtain ⟨_, m, hm, h⟩ := bind_eq_ok.mp h
  have h := onLoop_eq_ok.mp h
  exact ⟨m, by rw [← hm, ht]; rfl, h⟩

end Emission.Emits

end ScriptEngine
