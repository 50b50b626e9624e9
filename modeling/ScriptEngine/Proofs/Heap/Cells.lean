import ScriptEngine.Builtin.Behavior
import ScriptEngine.Machine.System

/-!
# Captured variables are left alone

Cells hold the content of captured variables. They are made and written by the instructions for
variables only. No operation of the language touches them, and neither does a method, an operation
that waits, or the report of a worker.

## Main definitions

* `ScriptEngine.Heap.Spares`: a step on the heap that leaves all cells alone;
* `ScriptEngine.Activity.Spares`, `ScriptEngine.Host.Spares`: activities and hosts whose steps do.

## Main results

* `ScriptEngine.Builtin.spares_activity`: the activities of builtins leave all cells alone.
-/

namespace ScriptEngine

/-- **A step on the heap that leaves all cells alone.** -/
def Heap.Spares {α : Type} (f : Heap → α × Heap) : Prop :=
  ∀ h : Heap, (f h).2.cells = h.cells

namespace Heap

theorem spares_customOperate (op : BinaryOperator) (left : CustomObject) (right : Value) :
    Spares (·.customOperate op left right) := by
  intro h
  dsimp only
  unfold customOperate
  split
  · rfl
  · split
    · rfl
    · split <;> rfl
    · rfl

theorem spares_operate (op : BinaryOperator) (left right : Value) :
    Spares (·.operate op left right) := by
  intro h
  dsimp only
  unfold operate
  split
  · rfl
  · exact spares_customOperate _ _ _ h
  · rfl

theorem spares_binary (op : BinaryOperator) (left right : Value) :
    Spares (·.binary op left right) := by
  intro h
  dsimp only
  unfold binary
  split
  · rfl
  · rfl
  · exact spares_operate _ _ _ h

theorem spares_setItem (object index v : Value) : Spares (·.setItem object index v) := by
  intro h
  dsimp only
  unfold setItem
  split
  · split <;> rfl
  all_goals rfl

theorem spares_slice (object start stop : Value) : Spares (·.slice object start stop) := by
  intro h
  dsimp only
  unfold slice
  split
  · dsimp only
    split <;> rfl
  · dsimp only
    split <;> rfl
  · rfl

theorem spares_iterate (v : Value) : Spares (·.iterate v) := by
  intro h
  dsimp only
  unfold iterate
  split
  · rfl
  · split <;> rfl

theorem spares_next (r : Ref .iterator) : Spares (·.next r) := by
  intro h
  dsimp only
  unfold next
  dsimp only
  split <;> rfl

theorem spares_buildList (items : List Value) : Spares (·.buildList items) :=
  fun _ => rfl

theorem spares_buildMap (entries : List (String × Value)) : Spares (·.buildMap entries) :=
  fun _ => rfl

theorem spares_buildSet (items : List Value) : Spares (·.buildSet items) := by
  intro h
  dsimp only
  unfold buildSet
  split <;> rfl

theorem spares_getAttr (object : Value) (name : String) : Spares (·.getAttr object name) := by
  intro h
  dsimp only
  unfold getAttr
  split
  · split <;> rfl
  · split <;> rfl

theorem spares_setAttr (object : Value) (name : String) (v : Value) :
    Spares (·.setAttr object name v) := by
  intro h
  dsimp only
  unfold setAttr
  split <;> (try split) <;> (try split) <;> rfl

theorem spares_popList (r : Ref .list) : Spares (popList r) := by
  intro h
  unfold popList
  split <;> rfl

theorem spares_withString (method : String) (v : Value) {f : String → Heap → Value × Heap}
    (hf : ∀ s, Spares (f s)) : Spares (·.withString method v f) := by
  intro h
  dsimp only
  unfold withString
  split
  · exact hf _ h
  · rfl

end Heap

/-! ### Operations that wait -/

namespace Blocking

theorem spares_step (check : Except Interrupt Unit) (b : Blocking) :
    Heap.Spares fun h => b.step check h := by
  intro h
  cases b with
  | send chan v phase =>
    show (sendStep check h chan v phase).2.cells = _
    cases phase <;> unfold sendStep <;> (try dsimp only) <;> (try split) <;> (try split) <;> rfl
  | receive chan phase =>
    show (receiveStep check h chan phase).2.cells = _
    cases phase <;> unfold receiveStep <;> (try dsimp only) <;> (try split) <;> rfl
  | join thread phase =>
    show (joinStep check h thread phase).2.cells = _
    cases phase <;> unfold joinStep <;> (try dsimp only) <;> (try split) <;> (try split) <;> rfl

theorem spares_phases (check : Except Interrupt Unit) : ∀ (n : Nat) (b : Blocking),
    Heap.Spares fun h => phases check n h b
  | 0, _, _ => rfl
  | n + 1, b, h => by
    have hs := spares_step check b h
    dsimp only at hs ⊢
    unfold phases
    split
    · rename_i heq
      rw [heq] at hs
      exact (spares_phases check n _ _).trans hs
    · exact hs

/-- **A round of an operation that waits** leaves all cells alone. -/
theorem spares_round (check : Except Interrupt Unit) (b : Blocking) :
    Heap.Spares fun h => b.round check h :=
  spares_phases check 6 b

end Blocking

/-! ### Activities -/

/-- **An activity whose steps on the heap leave all cells alone**, whatever the answers are. -/
def Activity.Spares : Activity → Prop
  | .finish _ => True
  | .heap act next => Heap.Spares act ∧ ∀ v, (next v).Spares
  | .limit _ next => ∀ answer, (next answer).Spares
  | .cancel next => next.Spares
  | .call _ _ next => ∀ o, (next o).Spares
  | .spawn _ _ next => ∀ v, (next v).Spares
  | .block _ next => ∀ o, (next o).Spares

/-- **A host that leaves captured variables alone.** -/
def Host.Spares (host : Host) : Prop :=
  ∀ (key : String) (captured args : List Value), (host.behave key captured args).Spares

namespace Activity.Spares

theorem effect {act : Heap → Value × Heap} (h : Heap.Spares act) : (Activity.effect act).Spares :=
  ⟨h, fun _ => trivial⟩

theorem read (look : Heap → Value) : (Activity.read look).Spares :=
  effect fun _ => rfl

theorem takes {callable : String} {expected : Nat} {args : List Value} {a : Activity}
    (ha : a.Spares) : (Activity.takes callable expected args a).Spares := by
  unfold Activity.takes
  split
  · exact ha
  · exact trivial

end Activity.Spares

/-- **Methods leave all cells alone.** -/
theorem Method.spares_activity (m : Method) (args : List Value) : (m.activity args).Spares := by
  cases m with
  | append r => exact .effect fun _ => rfl
  | pop r => exact .takes (.effect (Heap.spares_popList r))
  | listLength r => exact .takes (.read _)
  | keys r => exact .takes (.effect fun _ => rfl)
  | values r => exact .takes (.effect fun _ => rfl)
  | get r =>
    show (Method.getActivity r args).Spares
    unfold Method.getActivity
    split
    · exact .effect (Heap.spares_withString _ _ fun _ _ => rfl)
    · exact .effect (Heap.spares_withString _ _ fun _ _ => rfl)
    · exact trivial
  | delete r => exact .takes (.effect (Heap.spares_withString _ _ fun _ _ => rfl))
  | upper s | lower s => exact .takes trivial
  | split s => exact .takes (.effect (Heap.spares_withString _ _ fun _ _ => rfl))
  | contains s => exact .takes (.effect (Heap.spares_withString _ _ fun _ _ => rfl))
  | message e => exact .takes trivial
  | wait r => exact .takes fun _ => trivial
  | send r => exact .takes fun _ => trivial
  | receive r => exact .takes fun _ => trivial
  | close r => exact .takes (.effect fun _ => rfl)
  | chanLength r => exact .takes (.read _)

/-- **Builtins leave all cells alone**, if the functions of the host do. -/
theorem Builtin.spares_activity {host : Host} (hh : host.Spares) (b : Builtin) (args : List Value) :
    (b.activity host args).Spares := by
  unfold Builtin.activity
  split
  · exact Method.spares_activity _ args
  · cases args with
    | nil => exact trivial
    | cons callee args =>
      simp only [spawnActivity]
      split
      · exact fun _ => trivial
      · exact .read _
  · unfold channelActivity
    dsimp only
    split
    · exact .effect fun _ => rfl
    · split
      · split
        · exact .effect fun _ => rfl
        · exact .read _
      · exact .read _
    · exact trivial
  · exact hh _ _ args

end ScriptEngine
