import Mathlib.Data.List.Forall2
import ScriptEngine.Proofs.Code.Parallel
import ScriptEngine.Proofs.Layout.Steps
import ScriptEngine.Proofs.Plan.Trees
import ScriptEngine.Proofs.Scope.Shift

/-!
# Emitting code twice

The same plan, emitted from two states that differ by a shift of scopes and slots and in the code
that lies before, leads to the same instructions or to the same refusal. On the way nothing changes
in the code that was there, so a refused batch can be taken back.

## Main definitions

* `ScriptEngine.Pairing`: what two emissions have in common;
* `ScriptEngine.Pairing.Alike`: two states of emission that differ by nothing else;
* `ScriptEngine.Pairing.Matched`: steps that run in lockstep from such states.

## Main results

* `ScriptEngine.Pairing.Matched.bind`: one step after another;
* `ScriptEngine.Pairing.Matched.completeJump`: a jump that waits on both sides is completed with the
  same distance.

## Implementation notes

A jump that was returned by one step and is completed by a later one has to wait on both sides in
between. Such facts about a pair of states are closed under evolution, and `Pairing.Matched.bind`
carries them along.
-/

namespace ScriptEngine

open ScopeTable Emit

/-- The innermost body lies in one that goes on where `old` ends, inside the bodies around `s`. -/
def Emission.Retains (old : Code) (s s' : Emission) : Prop :=
  ∃ inner b, s'.body :: s'.enclosing = inner ++ b :: s.enclosing ∧ old.Extends b.code

/-- The same function, up to the slots of globals. -/
structure Shift.Functions (θ : Shift) (f g : Function) : Prop where
  same : g = { f with code := g.code }
  code : g.code = { f.code with words := g.code.words, globalCount := g.code.globalCount }
  parallel : Code.Parallel θ.slot f.code g.code 0 0 f.code.size g.code.size

/-- **What two emissions have in common**: the shift between their scopes, the code behind which the
first one goes on, the offset from which the second one does, and the number of functions before. -/
structure Pairing extends Shift where
  old : Code
  start : Nat
  count : Nat

namespace Pairing

variable (φ : Pairing)

/-- A jump waits on both sides. -/
def Waits (a b : Code) (p p' : Nat) : Prop :=
  Code.Pending φ.slot φ.old.size φ.start a b p p'

/-- The same loop, with the same jumps that wait for it. -/
structure Loops (a b : Code) (l l' : OpenLoop) : Prop where
  breaks : List.Forall₂ (φ.Waits a b) l.breaks l'.breaks
  continues : List.Forall₂ (φ.Waits a b) l.continues l'.continues
  held : l'.held = l.held

/-- **Two states of emission that differ by a pairing only.** -/
structure Alike (s t : Emission) : Prop where
  tables : φ.Tables s.table t.table
  visible : φ.Visible s.body.scope
  known : s.body.scope.index < s.table.scopes.size
  scope : t.body.scope = φ.scope s.body.scope
  extends_old : φ.old.Extends s.body.code
  code : t.body.code =
    { s.body.code with words := t.body.code.words, globalCount := t.body.code.globalCount }
  parallel : Code.Parallel φ.slot s.body.code t.body.code φ.old.size φ.start s.body.code.size
    t.body.code.size
  loops : List.Forall₂ (φ.Loops s.body.code t.body.code) s.body.loops t.body.loops
  inPipe : t.body.inPipe = s.body.inPipe
  nested : t.enclosing.isEmpty = s.enclosing.isEmpty
  source : t.source = s.source
  functions_size : t.functions.size = s.functions.size
  functions : ∀ i f, φ.count ≤ i → s.functions[i]? = some f →
    ∃ g, t.functions[i]? = some g ∧ φ.Functions f g

/-- **What steps leave as it is**: jumps go on waiting, scopes only grow, and the innermost body
stays where it is. -/
structure Evolves (s t s' t' : Emission) : Prop where
  waits : ∀ p p', φ.Waits s.body.code t.body.code p p' → φ.Waits s'.body.code t'.body.code p p'
  grows : s.table.Grows s'.table
  scope : s'.body.scope = s.body.scope
  left : s'.enclosing = s.enclosing
  right : t'.enclosing = t.enclosing

/-- **What remains of a refusal**: the bodies as they were and scopes that differ by the shift. -/
structure Refused (s s' t' : Emission) : Prop where
  retains : s.Retains φ.old s'
  tables : φ.Tables s'.table t'.table

/-- A fact about two states that survives all steps. -/
structure Fact where
  holds : Emission → Emission → Prop
  stays : ∀ {s t s' t' : Emission}, φ.Evolves s t s' t' → holds s t → holds s' t'

variable {φ}

theorem Evolves.refl (s t : Emission) : φ.Evolves s t s t :=
  ⟨fun _ _ h => h, .refl _, rfl, rfl, rfl⟩

theorem Evolves.trans {s t s₁ t₁ s₂ t₂ : Emission} (h : φ.Evolves s t s₁ t₁)
    (h' : φ.Evolves s₁ t₁ s₂ t₂) : φ.Evolves s t s₂ t₂ :=
  ⟨fun p p' hp => h'.waits p p' (h.waits p p' hp), h.grows.trans h'.grows,
    h'.scope.trans h.scope, h'.left.trans h.left, h'.right.trans h.right⟩

/-- A refusal after some steps leaves the same code alone as one before them. -/
theorem Evolves.refused {s t s' t' s'' t'' : Emission} (he : φ.Evolves s t s' t')
    (h : φ.Refused s' s'' t'') : φ.Refused s s'' t'' := by
  obtain ⟨h, ht⟩ := h
  unfold Emission.Retains at h
  rw [he.left] at h
  exact ⟨h, ht⟩

theorem Loops.mono {a b a' b' : Code} (h : ∀ p p', φ.Waits a b p p' → φ.Waits a' b' p p')
    {l l' : OpenLoop} (hl : φ.Loops a b l l') : φ.Loops a' b' l l' :=
  ⟨hl.breaks.imp h, hl.continues.imp h, hl.held⟩

namespace Fact

/-- Nothing to remember. -/
def always : φ.Fact :=
  ⟨fun _ _ => True, fun _ _ => trivial⟩

def and (P Q : φ.Fact) : φ.Fact :=
  ⟨fun s t => P.holds s t ∧ Q.holds s t, fun h hp => ⟨P.stays h hp.1, Q.stays h hp.2⟩⟩

/-- A fact about values. -/
def that (p : Prop) : φ.Fact :=
  ⟨fun _ _ => p, fun _ hp => hp⟩

/-- The same offset on both sides. -/
def offset (p p' : Nat) : φ.Fact :=
  that (p + φ.start = p' + φ.old.size)

def waits (p p' : Nat) : φ.Fact :=
  ⟨fun s t => φ.Waits s.body.code t.body.code p p', fun h => h.waits p p'⟩

def waitAll (l l' : List Nat) : φ.Fact :=
  ⟨fun s t => List.Forall₂ (φ.Waits s.body.code t.body.code) l l', fun h hl => hl.imp h.waits⟩

def waitEach (l l' : List (List Nat)) : φ.Fact :=
  ⟨fun s t => List.Forall₂ (List.Forall₂ (φ.Waits s.body.code t.body.code)) l l',
    fun h hl => hl.imp fun _ _ hl => hl.imp h.waits⟩

def loops (l l' : OpenLoop) : φ.Fact :=
  ⟨fun s t => φ.Loops s.body.code t.body.code l l', fun h hl => hl.mono h.waits⟩

end Fact

variable (φ) in
/-- **Steps that run in lockstep** from states that are alike and have a fact in common. -/
def Matched {α β : Type} (P : φ.Fact) (x : Emit α) (y : Emit β) (Q : α → β → φ.Fact) : Prop :=
  ∀ s t, φ.Alike s t → P.holds s t →
    Lockstep (fun a b s' t' => φ.Alike s' t' ∧ φ.Evolves s t s' t' ∧ (Q a b).holds s' t')
      (fun _ s' t' => φ.Refused s s' t') (fun e t' => φ.Exhausted e t'.table) (x s) (y t)

namespace Alike

variable {s t : Emission}

/-- A refusal that left the innermost body alone. -/
theorem refused (h : φ.Alike s t) {s' t' : Emission} (hb : s'.body = s.body)
    (he : s'.enclosing = s.enclosing) (ht : φ.Tables s'.table t'.table) : φ.Refused s s' t' :=
  ⟨⟨[], s.body, by rw [hb, he]; rfl, h.extends_old⟩, ht⟩

/-- Other code, in which the same jumps wait. -/
theorem withCode (h : φ.Alike s t) {a b : Code} (hext : φ.old.Extends a)
    (hcode : b = { a with words := b.words, globalCount := b.globalCount })
    (hpar : Code.Parallel φ.slot a b φ.old.size φ.start a.size b.size)
    (hw : ∀ p p', φ.Waits s.body.code t.body.code p p' → φ.Waits a b p p') :
    φ.Alike (s.withCode a) (t.withCode b) ∧ φ.Evolves s t (s.withCode a) (t.withCode b) :=
  ⟨⟨h.tables, h.visible, h.known, h.scope, hext, hcode, hpar, h.loops.imp fun _ _ hl => hl.mono hw,
    h.inPipe, h.nested, h.source, h.functions_size, h.functions⟩, hw, .refl _, rfl, rfl, rfl⟩

/-- Other scopes. -/
theorem withTable (h : φ.Alike s t) {u u' : ScopeTable} (ht : φ.Tables u u')
    (hs : s.table.Grows u) :
    φ.Alike (s.withTable u) (t.withTable u') ∧ φ.Evolves s t (s.withTable u) (t.withTable u') :=
  ⟨{ h with tables := ht, known := Nat.lt_of_lt_of_le h.known hs.size },
    fun _ _ hp => hp, hs, rfl, rfl, rfl⟩

end Alike

namespace Matched

variable {α β γ δ : Type} {P P' : φ.Fact} {Q Q' : α → β → φ.Fact} {R : γ → δ → φ.Fact}
  {x : Emit α} {y : Emit β}

theorem mono (h : φ.Matched P x y Q) (hP : ∀ s t, P'.holds s t → P.holds s t)
    (hQ : ∀ a b s t, (Q a b).holds s t → (Q' a b).holds s t) : φ.Matched P' x y Q' :=
  fun s t hst hp => (h s t hst (hP s t hp)).mono
    (fun a b s' t' h => ⟨h.1, h.2.1, hQ a b s' t' h.2.2⟩)
    fun _ _ _ h => h

/-- **One step after another**, which knows what the first one leads to. -/
theorem bind {f : α → Emit γ} {g : β → Emit δ} (hx : φ.Matched P x y Q)
    (hf : ∀ a b, φ.Matched (P.and (Q a b)) (f a) (g b) R) : φ.Matched P (x >>= f) (y >>= g) R := by
  intro s t hst hp
  refine Lockstep.bind (hx s t hst hp) (fun a b s' t' h => ?_) fun _ _ _ h => h
  obtain ⟨hst', he, hq⟩ := h
  refine (hf a b s' t' hst' ⟨P.stays he hp, hq⟩).mono
    (fun _ _ s'' t'' h => ⟨h.1, he.trans h.2.1, h.2.2⟩) fun _ _ _ h => he.refused h

/-- One step after another that leads to nothing in particular. -/
theorem seq {f : α → Emit γ} {g : β → Emit δ} (hx : φ.Matched P x y fun _ _ => .always)
    (hf : ∀ a b, φ.Matched P (f a) (g b) R) : φ.Matched P (x >>= f) (y >>= g) R :=
  bind hx fun a b => (hf a b).mono (fun _ _ h => h.1) fun _ _ _ _ h => h

/-- One step after another, with a fact about the values between them. -/
theorem bindThat {q : α → β → Prop} {f : α → Emit γ} {g : β → Emit δ}
    (hx : φ.Matched P x y fun a b => .that (q a b))
    (hf : ∀ a b, q a b → φ.Matched P (f a) (g b) R) : φ.Matched P (x >>= f) (y >>= g) R :=
  bind hx fun a b s t hst hp => hf a b hp.2 s t hst hp.1

theorem pure {a : α} {b : β} (h : ∀ s t, P.holds s t → (Q a b).holds s t) :
    φ.Matched P (pure a) (pure b) Q :=
  fun s t hst hp => .ok ⟨hst, .refl s t, h s t hp⟩

theorem throw (e : CompileError) : φ.Matched P (throw e) (throw e) Q :=
  fun _ _ hst _ => .error (hst.refused rfl rfl hst.tables)

/-- A look at the states. -/
theorem look {f : Emission → Emit γ} {g : Emission → Emit δ}
    (h : ∀ s t, φ.Alike s t → P.holds s t → Lockstep
      (fun a b s' t' => φ.Alike s' t' ∧ φ.Evolves s t s' t' ∧ (R a b).holds s' t')
      (fun _ s' t' => φ.Refused s s' t') (fun e t' => φ.Exhausted e t'.table) (f s s) (g t t)) :
    φ.Matched P (get >>= f) (get >>= g) R :=
  fun s t hst hp => h s t hst hp

theorem ite {p : Prop} [Decidable p] {x' : Emit α} {y' : Emit β} (hx : p → φ.Matched P x y Q)
    (hy : ¬p → φ.Matched P x' y' Q) :
    φ.Matched P (if p then x else x') (if p then y else y') Q := by
  by_cases hp : p
  · rw [if_pos hp, if_pos hp]
    exact hx hp
  · rw [if_neg hp, if_neg hp]
    exact hy hp

/-- The same step for each item of a list. -/
theorem each {f g : γ → Emit PUnit} : ∀ {l : List γ},
    (∀ c ∈ l, φ.Matched P (f c) (g c) fun _ _ => .always) →
      φ.Matched P (l.forM f) (l.forM g) fun _ _ => .always
  | [], _ => pure fun _ _ _ => trivial
  | c :: _, h => seq (h c (List.mem_cons_self ..)) fun _ _ =>
      each fun d hd => h d (List.mem_cons_of_mem c hd)

/-- A step for each of the jumps that wait on both sides. -/
theorem forM {f g : Nat → Emit PUnit} (hf : ∀ (j j' : Nat) (P : φ.Fact),
      (∀ s t, P.holds s t → φ.Waits s.body.code t.body.code j j') →
      φ.Matched P (f j) (g j') fun _ _ => .always) :
    ∀ (l l' : List Nat) (P : φ.Fact),
      (∀ s t, P.holds s t → List.Forall₂ (φ.Waits s.body.code t.body.code) l l') →
      φ.Matched P (l.forM f) (l'.forM g) fun _ _ => .always
  | [], [], _, _ => pure fun _ _ _ => trivial
  | [], _ :: _, _, h => fun s t _ hp => by cases h s t hp
  | _ :: _, [], _, h => fun s t _ hp => by cases h s t hp
  | j :: l, j' :: l', P, h =>
    seq (hf j j' P fun s t hp => (List.forall₂_cons.mp (h s t hp)).1) fun _ _ =>
      forM hf l l' P fun s t hp => (List.forall₂_cons.mp (h s t hp)).2

/-! ### Code -/

/-- An instruction at the end. -/
theorem emitted {s t : Emission} (h : φ.Alike s t) (op : Opcode) {operands : List Word}
    (hl : operands.length = op.operandCount) :
    φ.Alike (s.put op operands) (t.put op (op.renumber φ.slot operands)) ∧
      φ.Evolves s t (s.put op operands) (t.put op (op.renumber φ.slot operands)) := by
  refine h.withCode (h.extends_old.emit op operands) ?_ (h.parallel.emit hl)
    fun p p' hp => Code.Pending.emit hp _ _ _ _
  unfold Code.emit
  rw [h.code]

theorem emit (op : Opcode) {operands : List Word} (hl : operands.length = op.operandCount) :
    φ.Matched P (Emit.emit op operands) (Emit.emit op (op.renumber φ.slot operands))
      fun p p' => .offset p p' := by
  intro s t h _
  rw [emit_eq_ok.mpr ⟨rfl, rfl⟩, emit_eq_ok.mpr ⟨rfl, rfl⟩]
  obtain ⟨h', he⟩ := emitted h op hl
  exact .ok ⟨h', he, h.parallel.shift⟩

/-- A jump that waits for its target. -/
theorem waiting (op : Opcode) {operands : List Word} (hl : operands.length = op.operandCount)
    (hop : op.namesGlobal = false) (hpos : 0 < operands.length) :
    φ.Matched P (Emit.emit op operands) (Emit.emit op operands) fun p p' => .waits p p' := by
  intro s t h _
  rw [emit_eq_ok.mpr ⟨rfl, rfl⟩, emit_eq_ok.mpr ⟨rfl, rfl⟩]
  obtain ⟨h', he⟩ := emitted h op hl
  rw [Opcode.renumber_eq hop] at h' he
  have hbefore := h.parallel.emit_before (Nat.le_refl _) (Nat.le_refl _) op operands op operands
  exact .ok ⟨h', he, hbefore, ⟨s.body.code.size, op, operands⟩, rfl, Code.has_emit _ hl,
    Code.has_emit _ hl, hop, hpos⟩

theorem jump {op : Opcode} (hl : op.operandCount = 1) (hop : op.namesGlobal = false) :
    φ.Matched P (jump op) (jump op) fun p p' => .waits p p' :=
  waiting op hl.symm hop Nat.one_pos

theorem renumbered (op : Opcode) {operands : List Word} (hl : operands.length = op.operandCount) :
    φ.Matched P (instruction op operands) (instruction op (op.renumber φ.slot operands))
      fun _ _ => .always :=
  bind (emit op hl) fun _ _ => pure fun _ _ _ => trivial

theorem instruction (op : Opcode) {operands : List Word} (hl : operands.length = op.operandCount)
    (hop : op.namesGlobal = false) :
    φ.Matched P (instruction op operands) (instruction op operands) fun _ _ => .always := by
  have := renumbered (P := P) op hl
  rwa [Opcode.renumber_eq hop] at this

theorem position : φ.Matched P position position fun p p' => .offset p p' :=
  look fun s t h _ => .ok ⟨h, .refl s t, h.parallel.shift⟩

theorem fromPool {add : Code → Option (Word × Code)}
    (hext : ∀ {c c' : Code} {index : Word}, φ.old.Extends c → add c = some (index, c') →
      φ.old.Extends c')
    (hadd : ∀ (c : Code) (words : Array Word) (globalCount : Nat),
      add { c with words, globalCount } =
        (add c).map fun (index, c') => (index, { c' with words, globalCount }))
    (hwords : ∀ {c c' : Code} {index : Word}, add c = some (index, c') → c'.words = c.words) :
    φ.Matched P (fromPool add) (fromPool add) fun i j => .that (j = i) := by
  intro s t h _
  have hcode := hadd s.body.code t.body.code.words t.body.code.globalCount
  rw [← h.code] at hcode
  unfold Emit.fromPool
  rw [hcode]
  cases ha : add s.body.code with
  | none => exact .error (h.refused rfl rfl h.tables)
  | some r =>
    obtain ⟨index, c⟩ := r
    have hw := hwords ha
    have same : ∀ {x : Nat} {w : Word}, s.body.code.words[x]? = some w → c.words[x]? = some w :=
      fun hx => hw ▸ hx
    have hsize : c.size = s.body.code.size := congrArg Array.size hw
    obtain ⟨h', he⟩ := h.withCode (a := c)
      (b := { c with words := t.body.code.words, globalCount := t.body.code.globalCount })
      (hext h.extends_old ha) rfl
      (by
        rw [hsize]
        exact h.parallel.of_words (fun _ _ _ _ => same) fun _ _ _ _ hx => hx)
      fun p p' hp => by
        refine ⟨hp.before.of_words (fun _ _ _ _ => same) fun _ _ _ _ hx => hx, ?_⟩
        obtain ⟨i, hi, hl, hr, hop, hpos⟩ := hp.jump
        exact ⟨i, hi, hl.of_words fun _ _ => same, Code.Has.of_words (c := t.body.code)
          (fun _ _ hx => hx) hr, hop, hpos⟩
    exact .ok ⟨h', he, rfl⟩

theorem constantIndex (v : Value) :
    φ.Matched P (constantIndex v) (constantIndex v) fun i j => .that (j = i) := by
  refine fromPool (fun h ha => h.addConstant ha) (fun c words globalCount => ?_)
    fun ha => (Code.addConstant?_spec ha).1
  unfold Code.addConstant?
  dsimp only
  cases c.constants.findIdx? (·.sameScalar v) with
  | some i => rfl
  | none =>
    dsimp only
    split
    · rfl
    · rfl

theorem nameIndex (name : String) :
    φ.Matched P (nameIndex name) (nameIndex name) fun i j => .that (j = i) := by
  refine fromPool (fun h ha => h.addName ha) (fun c words globalCount => ?_)
    fun ha => (Code.addName?_spec ha).1
  unfold Code.addName?
  dsimp only
  cases c.names.findIdx? (· == name) with
  | some i => rfl
  | none =>
    dsimp only
    split
    · rfl
    · rfl

theorem constant (v : Value) : φ.Matched P (constant v) (constant v) fun _ _ => .always :=
  bindThat (constantIndex v) fun i j hij => by
    subst hij
    exact instruction _ rfl rfl

/-! ### Jumps -/

/-- A jump that waits on both sides is completed with the same distance. -/
theorem completeJump {j j' target target' : Nat}
    (hj : ∀ s t, P.holds s t → φ.Waits s.body.code t.body.code j j')
    (ht : target + φ.start = target' + φ.old.size) :
    φ.Matched P (completeJump j target) (completeJump j' target') fun _ _ => .always := by
  intro s t h hp
  have hw := hj s t hp
  have hshift := hw.shift
  have hle := hw.le
  have hdistance : target' - j' = target - j := by omega
  unfold Emit.completeJump
  rw [hdistance]
  dsimp only
  split
  · obtain ⟨h', he⟩ := h.withCode (a := s.body.code.patch (j + 1) (target - j).toUInt16)
      (b := t.body.code.patch (j' + 1) (target - j).toUInt16)
      (h.extends_old.patch (Nat.le_succ_of_le hle) _)
      (by
        unfold Code.patch
        rw [h.code])
      (by
        have := hw.patch (target - j).toUInt16 h.parallel
        rwa [← Code.size_patch s.body.code (j + 1) (target - j).toUInt16,
          ← Code.size_patch t.body.code (j' + 1) (target - j).toUInt16] at this)
      fun p p' hp => hw.stays _ hp
    exact .ok ⟨h', he, trivial⟩
  · exact .error (h.refused rfl rfl h.tables)

theorem landHere {j j' : Nat} (hj : ∀ s t, P.holds s t → φ.Waits s.body.code t.body.code j j') :
    φ.Matched P (landHere j) (landHere j') fun _ _ => .always :=
  bindThat position fun _ _ ht => completeJump hj ht

theorem landAll {l l' : List Nat}
    (h : ∀ s t, P.holds s t → List.Forall₂ (φ.Waits s.body.code t.body.code) l l') :
    φ.Matched P (l.forM Emit.landHere) (l'.forM Emit.landHere) fun _ _ => .always :=
  forM (fun _ _ _ hj => landHere hj) l l' P h

theorem jumpBack {target target' : Nat} (ht : target + φ.start = target' + φ.old.size) :
    φ.Matched P (jumpBack target) (jumpBack target') fun _ _ => .always := by
  refine bindThat position fun p p' hp => ?_
  have hdistance : p' - target' = p - target := by omega
  rw [hdistance]
  exact ite (fun _ => instruction _ rfl rfl) fun _ => throw _

/-! ### Loops -/

/-- A change of the innermost body that leaves its code and its scope alone. -/
theorem onBody {f : Body → α × Body} {g : Body → β × Body}
    (h : ∀ s t, φ.Alike s t → P.holds s t → ∃ ls ls' b, (f s.body).2 =
        { s.body with loops := ls, inPipe := b } ∧
      (g t.body).2 = { t.body with loops := ls', inPipe := b } ∧
      List.Forall₂ (φ.Loops s.body.code t.body.code) ls ls' ∧
      (Q (f s.body).1 (g t.body).1).holds s t) :
    φ.Matched P (onBody f) (onBody g) Q := by
  rintro ⟨table, body, enclosing, source, functions⟩
    ⟨table', body', enclosing', source', functions'⟩
    hst hp
  obtain ⟨ls, ls', b, hf, hg, hl, hq⟩ := h _ _ hst hp
  unfold Emit.onBody
  dsimp only at hf hg hq ⊢
  rw [hf, hg]
  have he : φ.Evolves ⟨table, body, enclosing, source, functions⟩
      ⟨table', body', enclosing', source', functions'⟩
      ⟨table, { body with loops := ls, inPipe := b }, enclosing, source, functions⟩
      ⟨table', { body' with loops := ls', inPipe := b }, enclosing', source', functions'⟩ :=
    ⟨fun _ _ hp => hp, .refl _, rfl, rfl, rfl⟩
  exact .ok ⟨{ hst with loops := hl, inPipe := rfl }, he, (Q _ _).stays he hq⟩

theorem onLoop {f g : OpenLoop → OpenLoop} (h : ∀ s t l l', φ.Alike s t → P.holds s t →
      φ.Loops s.body.code t.body.code l l' → φ.Loops s.body.code t.body.code (f l) (g l')) :
    φ.Matched P (onLoop f) (onLoop g) fun _ _ => .always := by
  refine onBody fun s t hst hp => ?_
  obtain ⟨stable, ⟨scode, sscope, sloops, spipe⟩, senclosing, ssource, sfunctions⟩ := s
  obtain ⟨ttable, ⟨tcode, tscope, tloops, tpipe⟩, tenclosing, tsource, tfunctions⟩ := t
  have hl := hst.loops
  obtain rfl : tpipe = spipe := hst.inPipe
  dsimp only at hl ⊢
  cases hl with
  | nil => exact ⟨[], [], _, rfl, rfl, .nil, trivial⟩
  | cons hl hls => exact ⟨_, _, _, rfl, rfl, .cons (h _ _ _ _ hst hp hl) hls, trivial⟩

theorem loopBody {x y : Emit Unit} (h : φ.Matched P x y fun _ _ => .always) :
    φ.Matched P (loopBody x) (loopBody y) fun l l' => .loops l l' := by
  refine seq (onBody fun s t hst _ =>
    ⟨_, _, s.body.inPipe, rfl, ?_, .cons ⟨.nil, .nil, rfl⟩ hst.loops, trivial⟩) fun _ _ =>
    seq h fun _ _ => bind (Q := fun l l' => .loops l l')
      (onBody fun s t hst _ =>
        ⟨s.body.loops.tail, t.body.loops.tail, s.body.inPipe, rfl, ?_, ?_, ?_⟩) fun l l' =>
      seq (instruction _ rfl rfl) fun _ _ => pure fun _ _ h => h.2
  · rw [← hst.inPipe]
  · rw [← hst.inPipe]
  · have hl := hst.loops
    generalize s.body.loops = ls, t.body.loops = ls' at hl
    cases hl with
    | nil => exact .nil
    | cons _ hl => exact hl
  · have hl := hst.loops
    show φ.Loops s.body.code t.body.code (s.body.loops.headD {}) (t.body.loops.headD {})
    generalize s.body.loops = ls, t.body.loops = ls' at hl
    cases hl with
    | nil => exact ⟨.nil, .nil, rfl⟩
    | cons hl _ => exact hl

theorem closeLoop {l l' : OpenLoop} {exit exit' next next' : Nat}
    (hl : ∀ s t, P.holds s t → φ.Loops s.body.code t.body.code l l')
    (he : exit + φ.start = exit' + φ.old.size) (hn : next + φ.start = next' + φ.old.size) :
    φ.Matched P (closeLoop l exit next) (closeLoop l' exit' next') fun _ _ => .always :=
  seq (forM (fun _ _ _ hj => completeJump hj he) _ _ P fun s t hp => (hl s t hp).breaks) fun _ _ =>
    forM (fun _ _ _ hj => completeJump hj hn) _ _ P fun s t hp => (hl s t hp).continues

theorem leaveLoop (isBreak : Bool) :
    φ.Matched P (leaveLoop isBreak) (leaveLoop isBreak) fun _ _ => .always := by
  refine look fun s t hst hp => ?_
  have hl := hst.loops
  generalize s.body.loops = ls, t.body.loops = ls' at hl
  cases hl with
  | nil => exact throw _ s t hst hp
  | cons hl hls =>
    rename_i l l' _ _
    refine seq (P := P) (f := fun _ => _) (g := fun _ => _) ?_ (fun _ _ => bind
      (jump rfl rfl) fun j j' => onLoop fun s t l l' _ hp hl => ?_) s t hst hp
    · rw [hl.held]
      exact each fun _ _ => instruction _ rfl rfl
    · have hj : φ.Waits s.body.code t.body.code j j' := hp.2
      cases isBreak with
      | true => exact ⟨List.rel_append hl.breaks (.cons hj .nil), hl.continues, hl.held⟩
      | false => exact ⟨hl.breaks, List.rel_append hl.continues (.cons hj .nil), hl.held⟩

theorem holding {x y : Emit Unit} (h : φ.Matched P x y fun _ _ => .always) :
    φ.Matched P (holding x) (holding y) fun _ _ => .always :=
  seq (onLoop fun _ _ _ _ _ _ hl => ⟨hl.breaks, hl.continues, by rw [hl.held]⟩) fun _ _ =>
    seq h fun _ _ => onLoop fun _ _ _ _ _ _ hl => ⟨hl.breaks, hl.continues, by rw [hl.held]⟩

end Matched

end Pairing

end ScriptEngine
