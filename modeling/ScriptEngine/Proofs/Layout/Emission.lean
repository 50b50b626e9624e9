import ScriptEngine.Proofs.Layout.Basic
import ScriptEngine.Proofs.Step

/-!
# Growing code

What a step of the emission changes. Code only grows, apart from the operands of jumps that were
waiting for their targets. So the final code agrees with the code at any earlier moment except at
the jumps that are waiting at that moment, and the proofs about emitted code go backward: from the
end, where no jump waits any more, each step gives up what it completed.

## Main definitions

* `ScriptEngine.Emission.Grows`: what steps on the innermost code leave as it is;
* `ScriptEngine.Emission.Tidy`: the pending jumps of the innermost loop lie in the code and apart;
* `ScriptEngine.Site.Completes`: the code at a site is a completion of the code emitted so far.

## Main results

* `ScriptEngine.Site.Completes.of_grows`: a completion completes what was there before;
* `ScriptEngine.Site.Completes.put`: a completion contains an instruction where it was emitted;
* `ScriptEngine.Site.Completes.of_completeAll`: a completion contains the distances of jumps that
  were completed.
-/

namespace ScriptEngine

open Emit

/-- What emitting leaves as it is. -/
def Code.header (c : Code) : Option String × Nat :=
  (c.name, c.localCount)

namespace Emission

/-- The length of the innermost code. -/
def size (s : Emission) : Nat :=
  s.body.code.size

/-- The point at which the next instruction lies. -/
def point (s : Emission) : Point :=
  ⟨s.size, s.table, s.functions.size⟩

/-- The breaks that wait for the exit of the innermost loop. -/
def breaks (s : Emission) : List Nat :=
  (s.body.loops.headD {}).breaks

/-- The continues that wait for the next round of the innermost loop. -/
def continues (s : Emission) : List Nat :=
  (s.body.loops.headD {}).continues

/-- The jumps that wait for the innermost loop. -/
def waiting (s : Emission) : List Nat :=
  s.breaks ++ s.continues

/-- The state with one more instruction. -/
def put (s : Emission) (op : Opcode) (operands : List Word) : Emission :=
  { s with body := { s.body with code := s.body.code.emit op operands } }

/-- The state with another word in the innermost code. -/
def patch (s : Emission) (position : Nat) (word : Word) : Emission :=
  { s with body := { s.body with code := s.body.code.patch position word } }

/-- The state with other scopes. -/
def withTable (s : Emission) (table : ScopeTable) : Emission :=
  { s with table }

/-- The state with other pools. -/
def withCode (s : Emission) (code : Code) : Emission :=
  { s with body := { s.body with code } }

/-- The state with other open loops. -/
def withLoops (s : Emission) (loops : List OpenLoop) : Emission :=
  { s with body := { s.body with loops } }

@[simp] theorem size_put (s : Emission) (op : Opcode) (operands : List Word) :
    (s.put op operands).size = s.size + 1 + operands.length :=
  Code.size_emit ..

@[simp] theorem size_patch (s : Emission) (position : Nat) (word : Word) :
    (s.patch position word).size = s.size :=
  Code.size_patch ..

@[simp] theorem waiting_patch (s : Emission) (position : Nat) (word : Word) :
    (s.patch position word).waiting = s.waiting := rfl

@[simp] theorem waiting_put (s : Emission) (op : Opcode) (operands : List Word) :
    (s.put op operands).waiting = s.waiting := rfl

theorem point_put (s : Emission) (op : Opcode) (operands : List Word) :
    (s.put op operands).point = s.point.skip (1 + operands.length) := by
  show (⟨(s.put op operands).size, s.table, s.functions.size⟩ : Point) = _
  rw [size_put, Nat.add_assoc]
  rfl

theorem words_put_of_lt (s : Emission) (op : Opcode) (operands : List Word) {i : Nat}
    (hi : i < s.size) :
    (s.put op operands).body.code.words[i]? = s.body.code.words[i]? := by
  have hi' : i < s.body.code.words.size := hi
  show (s.body.code.words.push op.word ++ operands.toArray)[i]? = _
  rw [Array.getElem?_append_left (by rw [Array.size_push]; omega),
    Array.getElem?_push_lt hi', Array.getElem?_eq_getElem hi']

theorem words_put_at (s : Emission) (op : Opcode) (operands : List Word) (i : Nat) :
    (s.put op operands).body.code.words[s.size + i]? = (op.word :: operands)[i]? := by
  show (s.body.code.words.push op.word ++ operands.toArray)[s.body.code.words.size + i]? = _
  cases i with
  | zero =>
    rw [Array.getElem?_append_left (by rw [Array.size_push]; omega)]
    simp
  | succ i =>
    rw [Array.getElem?_append_right (by rw [Array.size_push]; omega), Array.size_push,
      List.getElem?_cons_succ, show s.body.code.words.size + (i + 1)
        - (s.body.code.words.size + 1) = i by omega]
    simp

theorem words_patch_of_ne (s : Emission) (position : Nat) (word : Word) {i : Nat}
    (hi : i ≠ position) :
    (s.patch position word).body.code.words[i]? = s.body.code.words[i]? := by
  show (s.body.code.words.setIfInBounds position word)[i]? = _
  rw [Array.getElem?_setIfInBounds_ne (Ne.symm hi)]

theorem words_patch_at (s : Emission) (position : Nat) (word : Word) (h : position < s.size) :
    (s.patch position word).body.code.words[position]? = some word := by
  show (s.body.code.words.setIfInBounds position word)[position]? = _
  rw [Array.getElem?_setIfInBounds_self_of_lt h]

/-! ### What steps leave as it is -/

/-- **Growth.** The words below `base` stay, and so do the entries of the pools, the surroundings of
the innermost code, and the jumps that wait. New ones wait at `base` or later. -/
structure Grows (base : Nat) (s s' : Emission) : Prop where
  size : s.size ≤ s'.size
  words : ∀ i < base, s'.body.code.words[i]? = s.body.code.words[i]?
  constants : s.body.code.constants.toList <+: s'.body.code.constants.toList
  names : s.body.code.names.toList <+: s'.body.code.names.toList
  functions : s.functions.toList <+: s'.functions.toList
  label : s'.body.code.header = s.body.code.header
  scope : s'.body.scope = s.body.scope
  enclosing : s'.enclosing = s.enclosing
  outerLoops : s'.body.loops.tail = s.body.loops.tail
  held : s'.body.loops.head?.map OpenLoop.held = s.body.loops.head?.map OpenLoop.held
  breaks : ∀ j ∈ s.breaks, j ∈ s'.breaks
  continues : ∀ j ∈ s.continues, j ∈ s'.continues
  waiting : ∀ j ∈ s'.waiting, j ∈ s.waiting ∨ base ≤ j

/-- The jumps that wait for the innermost loop have their operands, and none waits for both of its
exits. A word can tell the entries of each pool apart, and the functions among the constants are
compiled. -/
structure Tidy (s : Emission) : Prop where
  complete : ∀ j ∈ s.waiting, j + 2 ≤ s.size
  disjoint : ∀ j ∈ s.breaks, j ∉ s.continues
  constants : s.body.code.constants.size ≤ Code.poolLimit
  names : s.body.code.names.size ≤ Code.poolLimit
  pool : ∀ v ∈ s.body.code.constants, v.IsConstant s.functions.size

namespace Grows

variable {b b' : Nat} {s s₁ s₂ s' : Emission}

theorem refl (b : Nat) (s : Emission) : Grows b s s where
  size := Nat.le_refl _
  words _ _ := rfl
  constants := List.prefix_rfl
  names := List.prefix_rfl
  functions := List.prefix_rfl
  label := rfl
  scope := rfl
  enclosing := rfl
  outerLoops := rfl
  held := rfl
  breaks _ h := h
  continues _ h := h
  waiting _ h := .inl h

theorem trans (h₁ : Grows b s s₁) (h₂ : Grows b' s₁ s₂) (hb : b ≤ b') : Grows b s s₂ where
  size := Nat.le_trans h₁.size h₂.size
  words i hi := (h₂.words i (by omega)).trans (h₁.words i hi)
  constants := h₁.constants.trans h₂.constants
  names := h₁.names.trans h₂.names
  functions := h₁.functions.trans h₂.functions
  label := h₂.label.trans h₁.label
  scope := h₂.scope.trans h₁.scope
  enclosing := h₂.enclosing.trans h₁.enclosing
  outerLoops := h₂.outerLoops.trans h₁.outerLoops
  held := h₂.held.trans h₁.held
  breaks j hj := h₂.breaks j (h₁.breaks j hj)
  continues j hj := h₂.continues j (h₁.continues j hj)
  waiting j hj := by
    rcases h₂.waiting j hj with h | h
    · exact h₁.waiting j h
    · exact .inr (Nat.le_trans hb h)

theorem functions_le (h : Grows b s s') : s.functions.size ≤ s'.functions.size := by
  have := h.functions.length_le
  simpa using this

theorem put (s : Emission) (op : Opcode) (operands : List Word) :
    Grows s.size s (s.put op operands) where
  size := by rw [size_put]; omega
  words _ hi := words_put_of_lt s op operands hi
  constants := List.prefix_rfl
  names := List.prefix_rfl
  functions := List.prefix_rfl
  label := rfl
  scope := rfl
  enclosing := rfl
  outerLoops := rfl
  held := rfl
  breaks _ h := h
  continues _ h := h
  waiting _ h := .inl h

theorem patch (s : Emission) {position : Nat} (word : Word) (h : b ≤ position) :
    Grows b s (s.patch position word) where
  size := Nat.le_of_eq (size_patch ..).symm
  words _ hi := words_patch_of_ne s position word (by omega)
  constants := List.prefix_rfl
  names := List.prefix_rfl
  functions := List.prefix_rfl
  label := rfl
  scope := rfl
  enclosing := rfl
  outerLoops := rfl
  held := rfl
  breaks _ h := h
  continues _ h := h
  waiting _ h := .inl h

theorem withTable (b : Nat) (s : Emission) (table : ScopeTable) : Grows b s (s.withTable table) :=
  { refl b s with }

/-- A change of the pools that only adds entries. -/
theorem withCode (b : Nat) (s : Emission) (code : Code)
    (hw : code.words = s.body.code.words) (hn : code.header = s.body.code.header)
    (hc : s.body.code.constants.toList <+: code.constants.toList)
    (hs : s.body.code.names.toList <+: code.names.toList) : Grows b s (s.withCode code) :=
  { refl b s with
    size := Nat.le_of_eq (by
      show s.body.code.words.size = code.words.size
      rw [hw])
    words := fun i _ => by
      show code.words[i]? = _
      rw [hw]
    constants := hc
    names := hs
    label := hn }

end Grows

namespace Tidy

theorem of_loops {s s' : Emission} (h : Tidy s) (hl : s'.body.loops = s.body.loops)
    (hs : s.size ≤ s'.size) (hc : s'.body.code.constants.size ≤ Code.poolLimit)
    (hn : s'.body.code.names.size ≤ Code.poolLimit)
    (hp : ∀ v ∈ s'.body.code.constants, v.IsConstant s'.functions.size) : Tidy s' where
  complete j hj := by
    have := h.complete j (by simpa only [waiting, breaks, continues, hl] using hj)
    omega
  disjoint := by simpa only [breaks, continues, hl] using h.disjoint
  constants := hc
  names := hn
  pool := hp

theorem put {s : Emission} (h : Tidy s) (op : Opcode) (operands : List Word) :
    Tidy (s.put op operands) :=
  h.of_loops rfl (by rw [size_put]; omega) h.constants h.names h.pool

/-- No instruction of later code is the operand of a jump that was waiting. -/
theorem ne_operand {s : Emission} (h : Tidy s) {i j : Nat} (hj : j ∈ s.waiting)
    (hi : s.size ≤ i) : i ≠ j + 1 := by
  have := h.complete j hj
  omega

end Tidy

end Emission

open Emission

/-! ### Completions -/

/-- The jump at an offset leads forward to a target. -/
def Site.LeadsAt (S : Site) (jump target : Nat) : Prop :=
  ∃ d, S.code.words[jump + 1]? = some d ∧ Site.Leads jump target d

/-- **A completion** of the code from `lo` on. Apart from the operands in `X` and those of the jumps
that wait for the innermost loop, which lead to its exits, the words are the final ones. -/
structure Site.Completes (S : Site) (lo : Nat) (X : List Nat) (s : Emission) : Prop where
  words : ∀ i, lo ≤ i → i < s.size → i ∉ X → (∀ j ∈ s.waiting, i ≠ j + 1) →
    S.code.words[i]? = s.body.code.words[i]?
  constants : s.body.code.constants.toList <+: S.code.constants.toList
  names : s.body.code.names.toList <+: S.code.names.toList
  functions : s.functions.toList <+: S.functions.toList
  scope : S.scope = s.body.scope
  inFunction : S.inFunction = !s.enclosing.isEmpty
  held : S.exits.map Exits.held = s.body.loops.head?.map OpenLoop.held
  breaks : ∀ e, S.exits = some e → ∀ j ∈ s.breaks, lo ≤ j → S.LeadsAt j e.exit
  continues : ∀ e, S.exits = some e → ∀ j ∈ s.continues, lo ≤ j → S.LeadsAt j e.next

namespace Site.Completes

variable {S : Site} {lo b : Nat} {X : List Nat} {s s' : Emission}

/-- A completion completes what was there before. -/
theorem of_grows (h : S.Completes lo X s') (g : Grows b s s') (hb : s.size ≤ b) :
    S.Completes lo X s where
  words i hl hi hX hw := by
    have hi' : i < s'.size := Nat.lt_of_lt_of_le hi g.size
    rw [h.words i hl hi' hX ?_, g.words i (by omega)]
    intro j hj
    rcases g.waiting j hj with hj | hj
    · exact hw j hj
    · omega
  constants := g.constants.trans h.constants
  names := g.names.trans h.names
  functions := g.functions.trans h.functions
  scope := h.scope.trans g.scope
  inFunction := by rw [h.inFunction, g.enclosing]
  held := h.held.trans g.held
  breaks e he j hj := h.breaks e he j (g.breaks j hj)
  continues e he j hj := h.continues e he j (g.continues j hj)

/-- The operands of jumps before `lo` do not matter. -/
theorem narrow {lo' : Nat} {X' : List Nat} (h : S.Completes lo X s) (hlo : lo ≤ lo')
    (hX : ∀ x ∈ X, lo' ≤ x → x < s.size → x ∈ X') : S.Completes lo' X' s where
  words i hl hi hX' hw := h.words i (Nat.le_trans hlo hl) hi (fun hx => hX' (hX i hx hl hi)) hw
  constants := h.constants
  names := h.names
  functions := h.functions
  scope := h.scope
  inFunction := h.inFunction
  held := h.held
  breaks e he j hj hl := h.breaks e he j hj (Nat.le_trans hlo hl)
  continues e he j hj hl := h.continues e he j hj (Nat.le_trans hlo hl)

theorem entry_of_prefix {α : Type} {xs ys : Array α} (h : xs.toList <+: ys.toList) {i : Nat}
    {x : α} (hi : xs[i]? = some x) : ys[i]? = some x := by
  rw [← Array.getElem?_toList] at hi ⊢
  obtain ⟨zs, hz⟩ := h
  rw [← hz, List.getElem?_append_left (List.getElem?_eq_some_iff.mp hi).1, hi]

theorem constant (h : S.Completes lo X s) {i : Nat} {v : Value}
    (hi : s.body.code.constants[i]? = some v) : S.code.constants[i]? = some v :=
  entry_of_prefix h.constants hi

theorem name (h : S.Completes lo X s) {i : Nat} {v : String}
    (hi : s.body.code.names[i]? = some v) : S.code.names[i]? = some v :=
  entry_of_prefix h.names hi

theorem function (h : S.Completes lo X s) {i : Nat} {f : Function}
    (hi : s.functions[i]? = some f) : S.functions[i]? = some f :=
  entry_of_prefix h.functions hi

/-- The words of an instruction that was emitted are the final ones, apart from those in `X`. -/
theorem word_put (h : S.Completes lo X (s.put op operands)) (hs : Tidy s) (hlo : lo ≤ s.size)
    {i : Nat} {w : Word} (hi : (op.word :: operands)[i]? = some w) (hX : s.size + i ∉ X) :
    S.code.words[s.size + i]? = some w := by
  have hlt : i < (op.word :: operands).length := (List.getElem?_eq_some_iff.mp hi).1
  rw [h.words (s.size + i) (by omega) ?_ hX ?_, words_put_at, hi]
  · rw [size_put]
    simp only [List.length_cons] at hlt
    omega
  · exact fun j hj => hs.ne_operand hj (by omega)

theorem holds (h : S.Completes lo X (s.put op operands)) (hs : Tidy s) (hlo : lo ≤ s.size)
    (hX : ∀ x ∈ X, x < s.size) : ∀ (i : Nat) (ws : List Word),
      (op.word :: operands).drop i = ws → S.code.Holds (s.size + i) ws
  | _, [], _ => trivial
  | i, w :: ws, hw => by
    have hi : (op.word :: operands)[i]? = some w := by
      rw [← List.head?_drop, hw, List.head?_cons]
    refine ⟨h.word_put hs hlo hi fun hx => ?_, ?_⟩
    · have := hX _ hx
      omega
    · refine holds h hs hlo hX (i + 1) ws ?_
      rw [← List.tail_drop, hw, List.tail_cons]

/-- **An instruction** lies in a completion where it was emitted. -/
theorem put (h : S.Completes lo X (s.put op operands)) (hs : Tidy s) (hlo : lo ≤ s.size)
    (hX : ∀ x ∈ X, x < s.size) (hn : operands.length = op.operandCount) :
    S.At s.point op operands (s.put op operands).point ∧ S.Completes lo X s := by
  refine ⟨⟨?_, hn, point_put s op operands⟩, h.of_grows (.put s op operands) (Nat.le_refl _)⟩
  exact h.holds hs hlo hX 0 _ rfl

/-- A jump that is completed later leads to its target in the end. -/
theorem jump {target : Nat} (h : S.Completes lo X (s.put op (placeholder :: operands)))
    (hs : Tidy s) (hlo : lo ≤ s.size) (hX : ∀ x ∈ X, x < s.size ∨ x = s.size + 1)
    (hn : operands.length + 1 = op.operandCount) (ht : S.LeadsAt s.size target) :
    (∃ d, S.At s.point op (d :: operands) (s.put op (placeholder :: operands)).point ∧
      Site.Leads s.size target d) ∧ S.Completes lo X s := by
  obtain ⟨d, hd, hl⟩ := ht
  refine ⟨⟨d, ⟨⟨?_, hd, ?_⟩, hn, point_put ..⟩, hl⟩,
    h.of_grows (.put s op _) (Nat.le_refl _)⟩
  · refine h.word_put (i := 0) hs hlo rfl fun hx => ?_
    rcases hX _ hx with hx | hx <;> omega
  · have aux : ∀ (i : Nat) (ws : List Word), operands.drop i = ws →
        S.code.Holds (s.size + (i + 2)) ws := by
      intro i ws
      induction ws generalizing i with
      | nil => exact fun _ => trivial
      | cons w ws ih =>
        intro hw
        have hi : (op.word :: placeholder :: operands)[i + 2]? = some w := by
          rw [List.getElem?_cons_succ, List.getElem?_cons_succ, ← List.head?_drop, hw,
            List.head?_cons]
        refine ⟨h.word_put hs hlo hi fun hx => ?_, ih (i + 1) ?_⟩
        · rcases hX _ hx with hx | hx <;> omega
        · rw [← List.tail_drop, hw, List.tail_cons]
    exact aux 0 operands rfl

/-! ### Completed jumps -/

theorem completeJump_eq_ok {j target : Nat} :
    completeJump j target s = .ok () s' ↔
      target - j < placeholder.toNat ∧ s' = s.patch (j + 1) (target - j).toUInt16 := by
  unfold completeJump
  show (if target - j < placeholder.toNat then _ else _ : Emit Unit) s = _ ↔ _
  split
  · rename_i h
    show EStateM.Result.ok () (s.patch (j + 1) (target - j).toUInt16) = _ ↔ _
    simp [h, eq_comm]
  · rename_i h
    show EStateM.Result.error _ _ = _ ↔ _
    simp [h]

theorem leads_sub {j target : Nat} (hj : j ≤ target) (h : target - j < placeholder.toNat) :
    Site.Leads j target (target - j).toUInt16 := by
  have hp : placeholder.toNat = 65535 := rfl
  have he : ((target - j).toUInt16).toNat = target - j := by
    show (target - j) % 65536 = _
    omega
  exact ⟨by rw [he]; omega, by rw [he]; exact h⟩

/-- A completion agrees with the code before a jump was completed, apart from its distance. -/
theorem of_patch {p : Nat} {w : Word} (h : S.Completes lo X (s.patch p w)) :
    S.Completes lo (p :: X) s where
  words i hl hi hX hw := by
    rw [List.mem_cons, not_or] at hX
    rw [h.words i hl (by rwa [size_patch]) hX.2 hw, words_patch_of_ne s p w hX.1]
  constants := h.constants
  names := h.names
  functions := h.functions
  scope := h.scope
  inFunction := h.inFunction
  held := h.held
  breaks := h.breaks
  continues := h.continues

/-- **Completed jumps** lead to their target in a completion. -/
theorem of_completeAll {target : Nat} : ∀ {js : List Nat} {s s' : Emission},
    js.forM (completeJump · target) s = .ok () s' → S.Completes lo X s' →
      (∀ j ∈ js, lo ≤ j ∧ j + 2 ≤ s.size ∧ j ≤ target ∧ j + 1 ∉ X ∧ j ∉ s.waiting) →
      (∀ j ∈ js, S.LeadsAt j target) ∧ S.Completes lo (js.map (· + 1) ++ X) s
  | [], _, _, hs, h, _ => by
    obtain ⟨-, rfl⟩ := pure_eq_ok.mp hs
    exact ⟨by simp, h⟩
  | j :: js, s, s', hs, h, hj => by
    obtain ⟨_, m, hm, hs⟩ := bind_eq_ok.mp hs
    obtain ⟨hd, rfl⟩ := completeJump_eq_ok.mp hm
    obtain ⟨hjs, hc⟩ := of_completeAll hs h
      fun k hk => by simpa using hj k (List.mem_cons_of_mem _ hk)
    refine ⟨?_, by simpa using hc.of_patch⟩
    intro k hk
    rcases List.mem_cons.mp hk with rfl | hk
    · by_cases hmem : k ∈ js
      · exact hjs k hmem
      · obtain ⟨hl, hsz, ht, hX, hw⟩ := hj k hk
        refine ⟨_, ?_, leads_sub ht hd⟩
        rw [hc.words (k + 1) (by omega) (by rw [size_patch]; omega) ?_ ?_,
          words_patch_at _ _ _ (by omega)]
        · simp only [List.mem_append, List.mem_map]
          rintro (⟨x, hx, hxk⟩ | hx)
          · exact hmem (by rwa [show k = x by omega])
          · exact hX hx
        · intro x hx hxk
          exact hw (by rwa [show k = x by omega])
    · exact hjs k hk

end Site.Completes

namespace Emission

/-- Jumps were completed, all of them at `base` or later, and nothing else changed. -/
structure Lands (base : Nat) (s s' : Emission) : Prop where
  grows : Grows base s s'
  size : s'.size = s.size
  loops : s'.body.loops = s.body.loops
  point : s'.point = s.point
  constants : s'.body.code.constants = s.body.code.constants
  names : s'.body.code.names = s.body.code.names

theorem Lands.waiting {base : Nat} {s s' : Emission} (h : Lands base s s') :
    s'.waiting = s.waiting := by
  simp only [Emission.waiting, breaks, continues, h.loops]

theorem Lands.tidy {base : Nat} {s s' : Emission} (h : Lands base s s') (hs : Tidy s) : Tidy s' :=
  hs.of_loops h.loops (Nat.le_of_eq h.size.symm) (by rw [h.constants]; exact hs.constants)
    (by rw [h.names]; exact hs.names) (by
      rw [h.constants, show s'.functions.size = s.functions.size from congrArg Point.count h.point]
      exact hs.pool)

theorem lands_completeAll {base target : Nat} : ∀ {js : List Nat} {s s' : Emission},
    js.forM (completeJump · target) s = .ok () s' → (∀ j ∈ js, base ≤ j) → Lands base s s'
  | [], s, _, hs, _ => by
    obtain ⟨-, rfl⟩ := pure_eq_ok.mp hs
    exact ⟨.refl base s, rfl, rfl, rfl, rfl, rfl⟩
  | j :: js, s, s', hs, hj => by
    obtain ⟨_, m, hm, hs⟩ := bind_eq_ok.mp hs
    obtain ⟨-, rfl⟩ := Site.Completes.completeJump_eq_ok.mp hm
    have h := lands_completeAll hs fun k hk => hj k (List.mem_cons_of_mem _ hk)
    have hb : base ≤ j + 1 := Nat.le_succ_of_le (hj j (List.mem_cons_self ..))
    refine ⟨(Grows.patch s _ hb).trans h.grows (Nat.le_refl _), by rw [h.size, size_patch],
      h.loops, ?_, h.constants, h.names⟩
    rw [h.point]
    show (⟨(s.patch _ _).size, s.table, s.functions.size⟩ : Point) = _
    rw [size_patch]
    rfl

/-- Jumps that land together are completed with one target. -/
theorem landAll_eq : ∀ (js : List Nat) (s : Emission),
    js.forM landHere s = js.forM (completeJump · s.size) s
  | [], _ => rfl
  | j :: js, s => by
    show EStateM.bind (completeJump j s.size) _ s = EStateM.bind (completeJump j s.size) _ s
    unfold EStateM.bind
    cases hm : completeJump j s.size s with
    | error e m => rfl
    | ok _ m =>
      obtain ⟨-, rfl⟩ := Site.Completes.completeJump_eq_ok.mp hm
      have := landAll_eq js (s.patch (j + 1) (s.size - j).toUInt16)
      rw [size_patch] at this
      exact this

theorem landHere_eq (j : Nat) (s : Emission) :
    landHere j s = [j].forM landHere s := by
  show _ = EStateM.bind (landHere j) _ s
  unfold EStateM.bind
  cases landHere j s <;> rfl

/-- A jump that did not wait for the innermost loop does not do so later. -/
theorem Grows.not_waiting {b j : Nat} {s s' : Emission} (h : Grows b s s') (hj : j ∉ s.waiting)
    (hb : j < b) : j ∉ s'.waiting := by
  intro hj'
  rcases h.waiting j hj' with h | h
  · exact hj h
  · omega

theorem Tidy.not_waiting {s : Emission} (h : Tidy s) {j : Nat} (hj : s.size ≤ j) :
    j ∉ s.waiting := by
  intro hj'
  have := h.complete j hj'
  omega

end Emission

end ScriptEngine
