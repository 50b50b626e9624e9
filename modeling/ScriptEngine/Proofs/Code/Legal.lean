import ScriptEngine.Proofs.Code.Walk

/-!
# Well-formed code

Code that refers only to what exists: each of its instructions is complete, leads to another one of
them, and names entries of pools, slots, cells and builtins that are there. What is there outside
the code itself is its environment.

## Main definitions

* `ScriptEngine.Environment`: what code refers to outside itself;
* `ScriptEngine.Instruction.Legal`: an instruction refers only to what exists;
* `ScriptEngine.Code.WellFormed`: all of the instructions of a code do so;
* `ScriptEngine.Environment.WellFormed`: the codes of all functions are well-formed;
* `ScriptEngine.Environment.Le`: an environment in which more exists;
* `ScriptEngine.Code.Sound`: the same as well-formedness, by a walk through the code;
* `ScriptEngine.Environment.Sound`: all functions are sound.

## Main results

* `ScriptEngine.Code.Sound.wellFormed`: sound code is well-formed;
* `ScriptEngine.Code.Sound.instruction`: at each boundary inside sound code lies a legal
  instruction.
-/

namespace ScriptEngine

/-- **What code refers to outside itself**: the functions, the number of cells with which each of
them is instantiated, and the numbers of globals and of builtins. -/
structure Environment where
  functions : Array Function
  cells : Nat → Nat
  globals : Nat
  builtins : Nat

/-- **An instruction refers only to what exists**: to a target, to entries of the pools of the code
`c`, to its slots, to cells of which there are `own`, and to globals and builtins. -/
def Instruction.Legal (E : Environment) (c : Code) (own : Nat) (target : Nat → Prop)
    (i : Instruction) : Prop :=
  match i.op with
  | .jumpForward | .popJumpForwardIfFalse | .popJumpForwardIfTrue | .forIter =>
    i.first ≠ placeholder ∧ target (i.offset + i.first.toNat)
  | .jumpBackward => i.first.toNat ≤ i.offset ∧ target (i.offset - i.first.toNat)
  | .loadConst =>
    ∃ v, c.constants[i.first.toNat]? = some v ∧ ∀ r, v = .function r → E.cells r.index = 0
  | .loadClosure =>
    ∃ r, c.constants[i.first.toNat]? = some (.function r) ∧ E.cells r.index = i.second.toNat
  | .loadAttr | .storeAttr => i.first.toNat < c.names.size
  | .loadFast | .storeFast => i.first.toNat < c.localCount
  | .loadFree | .storeFree => i.first.toNat < own
  | .makeCell =>
    i.second = 0 ∧ i.first.toNat < c.localCount ∨ i.second = 1 ∧ i.first.toNat < own
  | .loadGlobal | .storeGlobal => i.first.toNat < E.globals
  | .loadBuiltin => i.first.toNat < E.builtins
  | .binaryOp => (BinaryOperator.ofWord? i.first).isSome
  | .compareOp => (Comparison.ofWord? i.first).isSome
  -- only a host writes code that halts
  | .halt => False
  | _ => True

namespace Code

/-- **Well-formed code.** Its words are complete instructions, all of them legal. A jump leads to
one of them or, in the code of a program, to the end; the code of a function, which has `own` cells,
ends with a return. The functions among the constants exist. -/
structure WellFormed (E : Environment) (own : Option Nat) (c : Code) : Prop where
  decode : ∃ is, c.decode = .ok is ∧
    (∀ i ∈ is, i.operands.length = i.op.operandCount ∧
      i.Legal E c (own.getD 0) fun target =>
        (∃ j ∈ is, j.offset = target) ∨ own = none ∧ target = c.size) ∧
    (own.isSome → ∃ i, is.getLast? = some i ∧ i.op = .returnValue)
  constants : ∀ v ∈ c.constants, v.IsConstant E.functions.size

end Code

/-- **All functions are well-formed.** -/
def Environment.WellFormed (E : Environment) : Prop :=
  ∀ (k : Nat) (f : Function), E.functions[k]? = some f → f.code.WellFormed E (some (E.cells k))

/-- **An environment that knows more**: more functions, globals and builtins, and the old functions
with their numbers of cells. -/
structure Environment.Le (E E' : Environment) : Prop where
  functions : E.functions.toList <+: E'.functions.toList
  cells : ∀ k < E.functions.size, E'.cells k = E.cells k
  globals : E.globals ≤ E'.globals
  builtins : E.builtins ≤ E'.builtins

namespace Environment.Le

variable {E E' E'' : Environment}

theorem refl (E : Environment) : E.Le E :=
  ⟨List.prefix_rfl, fun _ _ => rfl, Nat.le_refl _, Nat.le_refl _⟩

theorem functions_le (h : E.Le E') : E.functions.size ≤ E'.functions.size := by
  have := h.functions.length_le
  rwa [Array.length_toList, Array.length_toList] at this

theorem trans (h : E.Le E') (h' : E'.Le E'') : E.Le E'' where
  functions := h.functions.trans h'.functions
  cells k hk := (h'.cells k (Nat.lt_of_lt_of_le hk h.functions_le)).trans (h.cells k hk)
  globals := Nat.le_trans h.globals h'.globals
  builtins := Nat.le_trans h.builtins h'.builtins

/-- A function that was there before is the same. -/
theorem getElem? (h : E.Le E') {k : Nat} (hk : k < E.functions.size) :
    E'.functions[k]? = E.functions[k]? := by
  obtain ⟨rest, hrest⟩ := h.functions
  rw [← Array.getElem?_toList, ← Array.getElem?_toList, ← hrest,
    List.getElem?_append_left (by rwa [Array.length_toList])]

end Environment.Le

/-! ### Legal instructions -/

namespace Instruction.Legal

variable {E E' : Environment} {c c' : Code} {own : Nat} {target target' : Nat → Prop}
  {i : Instruction}

/-- What exists still exists when there is more. -/
theorem mono (h : i.Legal E c own target)
    (hc : ∀ (k : Nat) (v : Value), c.constants[k]? = some v → c'.constants[k]? = some v)
    (hn : c.names.size ≤ c'.names.size) (hl : c.localCount ≤ c'.localCount)
    (hcells : ∀ (k : Nat) (r : Ref .function), c.constants[k]? = some (.function r) →
      E'.cells r.index = E.cells r.index)
    (hg : E.globals ≤ E'.globals) (hb : E.builtins ≤ E'.builtins)
    (ht : ∀ x, target x → target' x) : i.Legal E' c' own target' := by
  unfold Legal at h ⊢
  split
  case h_1 | h_2 | h_3 | h_4 =>
    rename_i hop
    simp only [hop] at h
    exact ⟨h.1, ht _ h.2⟩
  case h_5 =>
    rename_i hop
    simp only [hop] at h
    exact ⟨h.1, ht _ h.2⟩
  case h_6 =>
    rename_i hop
    simp only [hop] at h
    obtain ⟨v, hv, hr⟩ := h
    refine ⟨v, hc _ v hv, fun r hvr => ?_⟩
    subst hvr
    rw [hcells _ r hv, hr r rfl]
  case h_7 =>
    rename_i hop
    simp only [hop] at h
    obtain ⟨r, hr, hcount⟩ := h
    exact ⟨r, hc _ _ hr, by rw [hcells _ r hr, hcount]⟩
  case h_14 =>
    rename_i hop
    simp only [hop] at h
    exact h.imp (fun h => ⟨h.1, Nat.lt_of_lt_of_le h.2 hl⟩) id
  case h_20 =>
    rename_i hop
    simp only [hop] at h
  all_goals
    rename_i hop
    simp only [hop] at h
    first
      | exact Nat.lt_of_lt_of_le h hn
      | exact Nat.lt_of_lt_of_le h hl
      | exact Nat.lt_of_lt_of_le h hg
      | exact Nat.lt_of_lt_of_le h hb
      | exact h

end Instruction.Legal

/-! ### Sound code -/

namespace Code

/-- The targets of jumps in a code: the boundaries of its instructions and, in the code of a
program, its end. -/
def Target (c : Code) (own : Option Nat) (x : Nat) : Prop :=
  c.Boundary x ∧ (x < c.size ∨ own = none ∧ x = c.size)

/-- **Sound code**: a walk through all of it meets only legal instructions. -/
structure Sound (E : Environment) (own : Option Nat) (c : Code) : Prop where
  walk : c.Walks (Instruction.Legal E c (own.getD 0) (c.Target own)) 0 c.size
  last : own.isSome → ∃ i, c.Has i ∧ c.Boundary i.offset ∧ i.op = .returnValue ∧ i.stop = c.size
  constants : ∀ v ∈ c.constants, v.IsConstant E.functions.size

end Code

/-- **A sound function**: its code is sound for the given number of cells, and its defaults are
literals. -/
structure Function.Sound (E : Environment) (own : Nat) (f : Function) : Prop where
  code : f.code.Sound E (some own)
  defaults : ∀ v, some v ∈ f.defaults → v.isScalar = true

/-- All functions are sound. -/
def Environment.Sound (E : Environment) : Prop :=
  ∀ (k : Nat) (f : Function), E.functions[k]? = some f → f.Sound E (E.cells k)

namespace Code

namespace Sound

variable {E : Environment} {own : Option Nat} {c : Code}

/-- The functions that an instruction of sound code instantiates exist. -/
theorem constant_lt (h : c.Sound E own) {k : Nat} {r : Ref .function}
    (hk : c.constants[k]? = some (.function r)) : r.index < E.functions.size := by
  obtain ⟨hlt, he⟩ := Array.getElem?_eq_some_iff.mp hk
  exact h.constants (.function r) (he ▸ Array.getElem_mem hlt)

/-- Sound code stays sound when more exists around it. -/
theorem mono {E' : Environment} (h : c.Sound E own) (hE : E.Le E') : c.Sound E' own where
  walk := h.walk.mono fun _ _ _ _ hi => hi.mono (fun _ _ h => h) (Nat.le_refl _) (Nat.le_refl _)
    (fun _ r hr => hE.cells r.index (h.constant_lt hr)) hE.globals hE.builtins fun _ hx => hx
  last := h.last
  constants v hv := (h.constants v hv).mono hE.functions_le

/-- **At a boundary inside sound code** lies a legal instruction, behind which is a boundary,
too. -/
theorem instruction (h : c.Sound E own) {p : Nat} (hp : c.Boundary p) (hlt : p < c.size) :
    ∃ i, c.fetch p = .ok i ∧ i.offset = p ∧ c.Has i ∧
      i.Legal E c (own.getD 0) (c.Target own) ∧ c.Boundary i.stop := by
  obtain ⟨i, rfl, hi, hl, -⟩ := h.walk.instruction hp hlt
  exact ⟨i, hi.fetch, rfl, hi, hl, hp.trans (.single hi trivial)⟩

/-- Two instructions that end at the same place are the same. -/
theorem eq_of_stop {i j : Instruction} (hi : c.Has i) (hj : c.Has j) (bi : c.Boundary i.offset)
    (bj : c.Boundary j.offset) (h : i.stop = j.stop) : i = j := by
  have aux : ∀ {i j : Instruction}, c.Has i → c.Has j → c.Boundary i.offset →
      c.Boundary j.offset → i.stop = j.stop → i.offset ≤ j.offset → i = j := by
    intro i j hi hj bi bj h hle
    rcases Nat.eq_or_lt_of_le hle with he | hlt
    · exact hi.unique hj he
    · obtain ⟨k, hk, has, -, rest⟩ := bj.instruction bi hlt
      obtain rfl := hi.unique has hk.symm
      have := rest.le
      have := Has.offset_lt_stop j
      omega
  rcases Nat.le_total i.offset j.offset with hle | hle
  · exact aux hi hj bi bj h hle
  · exact (aux hj hi bj bi h.symm hle).symm

/-- **Control never runs past the end of a function**: its last instruction is a return. -/
theorem stop_lt (h : c.Sound E own) (ho : own.isSome) {i : Instruction} (hi : c.Has i)
    (bi : c.Boundary i.offset) (hop : i.op ≠ .returnValue) : i.stop < c.size := by
  obtain ⟨j, hj, bj, hr, hs⟩ := h.last ho
  refine Nat.lt_of_le_of_ne hi.stop_le fun he => hop ?_
  rw [eq_of_stop hi hj bi bj (he.trans hs.symm), hr]

/-- **Sound code is well-formed.** -/
theorem wellFormed (h : c.Sound E own) : c.WellFormed E own := by
  obtain ⟨is, hd, hall, hb, hlast⟩ := (h.walk.boundaries (.refl 0)).decodeFrom rfl
  refine ⟨⟨is, hd, fun i hi => ?_, fun ho => ?_⟩, h.constants⟩
  · obtain ⟨hi, hl, -⟩ := hall i hi
    refine ⟨hi.2, hl.mono (fun _ _ h => h) (Nat.le_refl _) (Nat.le_refl _) (fun _ _ _ => rfl)
      (Nat.le_refl _) (Nat.le_refl _) fun x hx => ?_⟩
    -- inside the code a boundary is where an instruction starts
    rcases hx.2 with hlt | hend
    · exact .inl (hb x hlt hx.1)
    · exact .inr hend
  · obtain ⟨j, hj, bj, hr, hs⟩ := h.last ho
    obtain ⟨k, hk, hkj⟩ := hb j.offset hj.offset_lt bj
    cases hl : is.getLast? with
    | none =>
      rw [List.getLast?_eq_none_iff.mp hl] at hk
      cases hk
    | some i =>
      obtain ⟨hi, -, bi⟩ := hall i (List.mem_of_getLast? hl)
      exact ⟨i, rfl, by rw [eq_of_stop hi hj bi bj ((hlast i hl).trans hs.symm), hr]⟩

end Sound

end Code

/-- A sound function stays sound when more exists around it. -/
theorem Function.Sound.mono {E E' : Environment} {own : Nat} {f : Function} (h : f.Sound E own)
    (hE : E.Le E') : f.Sound E' own :=
  ⟨h.code.mono hE, h.defaults⟩

theorem Environment.Sound.wellFormed {E : Environment} (h : E.Sound) : E.WellFormed :=
  fun k f hf => (h k f hf).code.wellFormed

end ScriptEngine
