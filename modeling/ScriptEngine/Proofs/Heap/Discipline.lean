import ScriptEngine.Value.Heap

/-!
# Disciplines

What may be said of every value that a machine ever handles. A discipline tells the values apart
that may lie anywhere from those that may not, at each stage of an execution, and the errors with
which a run may end. Values only become better known: what holds of a value at one stage holds of it
at all later ones.

A heap is sound if all values in it obey the discipline. Each operation on a heap moves values that
it was given or has found there, and makes no others but plain data; so it keeps a heap sound, for
whatever discipline. The operations of the language follow in
`ScriptEngine.Proofs.Heap.Operations`.

## Main definitions

* `ScriptEngine.Discipline`: the disciplines;
* `ScriptEngine.Heap.Sound`: all values in a heap obey a discipline;
* `ScriptEngine.Discipline.Yields`: a value that obeys a discipline, with a sound heap.
-/

namespace ScriptEngine

/-- The values that carry no code and are no part of the machine itself. -/
def Value.isData : Value → Bool
  | .function _ | .closure _ | .cell _ | .iter _ => false
  | _ => true

/-- The errors that do not speak of the machine itself. A worker can be lost for reasons of its
own. -/
def RuntimeError.IsOrdinary : RuntimeError → Prop
  | .unknownOpcode _ | .stackUnderflow => False
  | .internal fault => fault = .workerLost
  | _ => True

/-- **A discipline.** -/
structure Discipline where
  /-- What is known of an execution so far. -/
  Stage : Type
  le : Stage → Stage → Prop
  refl : ∀ w, le w w
  trans : ∀ {w₁ w₂ w₃}, le w₁ w₂ → le w₂ w₃ → le w₁ w₃
  /-- The values that may lie anywhere. -/
  value : Stage → Value → Prop
  mono : ∀ {w w' v}, le w w' → value w v → value w' v
  data : ∀ {w v}, v.isData = true → value w v
  /-- The errors that may end a run. -/
  error : RuntimeError → Prop
  ordinary : ∀ {e}, e.IsOrdinary → error e
  /-- The functions and the closures of a heap. -/
  stores : Stage → Array Function → Array Closure → Prop

namespace Discipline

variable (D : Discipline) (w : D.Stage)

/-- Values that may lie anywhere. -/
def values (vs : List Value) : Prop :=
  ∀ v ∈ vs, D.value w v

/-- What a call or a run may end with. -/
def outcome : Outcome → Prop
  | .ok v => D.value w v
  | .error e => D.error e

/-! ### Objects -/

def entries (m : Entries) : Prop :=
  ∀ (k : String) (v : Value), m[k]? = some v → D.value w v

def builtin (b : Builtin) : Prop :=
  ∀ key captured, b.body = .host key captured → D.values w captured

def partialCall (p : PartialCall) : Prop :=
  D.value w p.callee ∧ D.values w p.args

def iterator (i : Iterator) : Prop :=
  ∀ e ∈ i.entries, D.value w e.1 ∧ D.value w e.2

def channel (c : Channel) : Prop :=
  D.values w c.buffer ∧ ∀ o ∈ c.offers, D.value w o.2

def thread (t : Thread) : Prop :=
  (∀ o, t.mailbox = some o → D.outcome w o) ∧ ∀ o, t.outcome = some o → D.outcome w o

variable {D w}

theorem values.mono {w' : D.Stage} {vs : List Value} (h : D.values w vs) (hw : D.le w w') :
    D.values w' vs :=
  fun v hv => D.mono hw (h v hv)

theorem outcome.mono {w' : D.Stage} {o : Outcome} (h : D.outcome w o) (hw : D.le w w') :
    D.outcome w' o := by
  cases o with
  | ok v => exact D.mono hw h
  | error e => exact h

@[simp] theorem values_nil : D.values w [] :=
  fun _ h => by cases h

theorem values_cons {v : Value} {vs : List Value} :
    D.values w (v :: vs) ↔ D.value w v ∧ D.values w vs :=
  List.forall_mem_cons

theorem values_append {vs us : List Value} :
    D.values w (vs ++ us) ↔ D.values w vs ∧ D.values w us :=
  List.forall_mem_append

theorem values.reverse {vs : List Value} (h : D.values w vs) : D.values w vs.reverse :=
  fun v hv => h v (List.mem_reverse.mp hv)

theorem values.take {vs : List Value} (h : D.values w vs) (n : Nat) : D.values w (vs.take n) :=
  fun v hv => h v (List.mem_of_mem_take hv)

theorem channel_empty (capacity : Nat) : D.channel w { capacity } :=
  ⟨values_nil, fun _ ho => by cases ho⟩

theorem thread_empty : D.thread w {} :=
  ⟨fun _ ho => (by cases ho), fun _ ho => (by cases ho)⟩

/-- The first of values, or nil if there are none. -/
theorem values.headD {vs : List Value} (h : D.values w vs) : D.value w (vs.headD .nil) := by
  cases vs with
  | nil => exact D.data rfl
  | cons v vs => exact h v (List.mem_cons_self ..)

end Discipline

/-- **Sound heaps**: all values in them obey a discipline. -/
structure Heap.Sound (D : Discipline) (w : D.Stage) (h : Heap) : Prop where
  code : D.stores w h.functions h.closures
  lists : ∀ xs ∈ h.lists, D.values w xs.toList
  maps : ∀ m ∈ h.maps, D.entries w m
  builtins : ∀ b ∈ h.builtins, D.builtin w b
  partialCalls : ∀ p ∈ h.partialCalls, D.partialCall w p
  cells : ∀ v ∈ h.cells, D.value w v
  iterators : ∀ i ∈ h.iterators, D.iterator w i
  channels : ∀ c ∈ h.channels, D.channel w c
  threads : ∀ t ∈ h.threads, D.thread w t

/-- A value that obeys a discipline, with a sound heap. -/
def Discipline.Yields (D : Discipline) (w : D.Stage) (r : Value × Heap) : Prop :=
  D.value w r.1 ∧ r.2.Sound D w

/-! ### Stores -/

section Stores

variable {α : Type} {P : α → Prop} {xs : Array α}

theorem forall_mem_push (h : ∀ x ∈ xs, P x) {y : α} (hy : P y) : ∀ x ∈ xs.push y, P x := by
  intro x hx
  rcases Array.mem_push.mp hx with hx | rfl
  · exact h x hx
  · exact hy

theorem forall_mem_modify (h : ∀ x ∈ xs, P x) {f : α → α} (hf : ∀ x, P x → P (f x)) (i : Nat) :
    ∀ x ∈ xs.modify i f, P x := by
  intro x hx
  obtain ⟨k, hk, rfl⟩ := Array.getElem_of_mem hx
  rw [Array.getElem_modify]
  split
  · exact hf _ (h _ (Array.getElem_mem _))
  · exact h _ (Array.getElem_mem _)

theorem forall_mem_setIfInBounds (h : ∀ x ∈ xs, P x) {y : α} (hy : P y) (i : Nat) :
    ∀ x ∈ xs.setIfInBounds i y, P x := by
  intro x hx
  rcases Array.mem_or_eq_of_mem_setIfInBounds hx with hx | rfl
  · exact h x hx
  · exact hy

theorem getD_of_forall_mem (h : ∀ x ∈ xs, P x) {d : α} (hd : P d) (i : Nat) : P (xs.getD i d) := by
  rw [Array.getD_eq_getD_getElem?]
  cases hx : xs[i]? with
  | none => exact hd
  | some x => exact h x (Array.mem_of_getElem? hx)

end Stores

namespace Heap.Sound

variable {D : Discipline} {w w' : D.Stage} {h : Heap}

/-- A sound heap stays sound at later stages, with functions and closures that are right then. -/
theorem mono (hs : h.Sound D w) (hw : D.le w w') {fs : Array Function} {cs : Array Closure}
    (hc : D.stores w' fs cs) : { h with functions := fs, closures := cs }.Sound D w' where
  code := hc
  lists xs hx := (hs.lists xs hx).mono hw
  maps m hm k v hv := D.mono hw (hs.maps m hm k v hv)
  builtins b hb key captured he := (hs.builtins b hb key captured he).mono hw
  partialCalls p hp := ⟨D.mono hw (hs.partialCalls p hp).1, (hs.partialCalls p hp).2.mono hw⟩
  cells v hv := D.mono hw (hs.cells v hv)
  iterators i hi e he :=
    ⟨D.mono hw (hs.iterators i hi e he).1, D.mono hw (hs.iterators i hi e he).2⟩
  channels c hc := ⟨(hs.channels c hc).1.mono hw, fun o ho => D.mono hw ((hs.channels c hc).2 o ho)⟩
  threads t ht := ⟨fun o ho => ((hs.threads t ht).1 o ho).mono hw,
    fun o ho => ((hs.threads t ht).2 o ho).mono hw⟩

/-! ### Reading -/

section Reading

variable (hs : h.Sound D w)
include hs

theorem list (r : Ref .list) : D.values w (h.list r).toList :=
  getD_of_forall_mem (P := fun xs : Array Value => D.values w xs.toList) hs.lists (by simp) _

theorem map (r : Ref .map) : D.entries w (h.map r) :=
  getD_of_forall_mem hs.maps (fun k v hv => by simp at hv) _

/-- The value under a key, or one that stands in for it. -/
theorem map_getD (r : Ref .map) (k : String) {v : Value} (hv : D.value w v) :
    D.value w ((h.map r).getD k v) := by
  rw [Std.TreeMap.getD_eq_getD_getElem?]
  cases hk : (h.map r)[k]? with
  | none => exact hv
  | some u => exact hs.map r k u hk

/-- The values of a map. -/
theorem map_toList (r : Ref .map) {k : String} {v : Value} (hv : (k, v) ∈ (h.map r).toList) :
    D.value w v :=
  hs.map r k v (Std.TreeMap.mem_toList_iff_getElem?_eq_some.mp hv)

theorem builtin (r : Ref .builtin) : D.builtin w (h.builtin r) :=
  getD_of_forall_mem hs.builtins (fun _ _ he => by cases he) _

theorem partialCall (r : Ref .partialCall) : D.partialCall w (h.partialCall r) :=
  getD_of_forall_mem hs.partialCalls ⟨D.data rfl, Discipline.values_nil⟩ _

theorem cell (r : Ref .cell) : D.value w (h.cell r) :=
  getD_of_forall_mem hs.cells (D.data rfl) _

theorem iterator (r : Ref .iterator) : D.iterator w (h.iterator r) :=
  getD_of_forall_mem hs.iterators (fun e he => absurd he (Array.not_mem_empty e)) _

theorem channel (r : Ref .channel) : D.channel w (h.channel r) :=
  getD_of_forall_mem hs.channels (Discipline.channel_empty 0) _

theorem thread (r : Ref .thread) : D.thread w (h.thread r) :=
  getD_of_forall_mem hs.threads Discipline.thread_empty _

end Reading

/-! ### Writing -/

section Writing

variable (hs : h.Sound D w)
include hs

theorem newList {items : Array Value} (hi : D.values w items.toList) :
    (h.newList items).2.Sound D w :=
  { hs with lists := forall_mem_push hs.lists hi }

theorem newMap {m : Entries} (hm : D.entries w m) : (h.newMap m).2.Sound D w :=
  { hs with maps := forall_mem_push hs.maps hm }

theorem newSet (m : Members) : (h.newSet m).2.Sound D w :=
  { hs with }

theorem newBuiltin {b : Builtin} (hb : D.builtin w b) : (h.newBuiltin b).2.Sound D w :=
  { hs with builtins := forall_mem_push hs.builtins hb }

theorem newPartialCall {p : PartialCall} (hp : D.partialCall w p) :
    (h.newPartialCall p).2.Sound D w :=
  { hs with partialCalls := forall_mem_push hs.partialCalls hp }

theorem newCell {v : Value} (hv : D.value w v) : (h.newCell v).2.Sound D w :=
  { hs with cells := forall_mem_push hs.cells hv }

theorem newIterator {i : Iterator} (hi : D.iterator w i) : (h.newIterator i).2.Sound D w :=
  { hs with iterators := forall_mem_push hs.iterators hi }

theorem newCustom (o : CustomObject) : (h.newCustom o).2.Sound D w :=
  { hs with }

theorem newChannel (capacity : Nat) : (h.newChannel capacity).2.Sound D w :=
  { hs with channels := forall_mem_push hs.channels (Discipline.channel_empty capacity) }

theorem newThread : h.newThread.2.Sound D w :=
  { hs with threads := forall_mem_push hs.threads Discipline.thread_empty }

theorem modifyList (r : Ref .list) {f : Array Value → Array Value}
    (hf : ∀ xs : Array Value, D.values w xs.toList → D.values w (f xs).toList) :
    (h.modifyList r f).Sound D w :=
  { hs with lists := forall_mem_modify hs.lists hf _ }

theorem modifyMap (r : Ref .map) {f : Entries → Entries}
    (hf : ∀ m, D.entries w m → D.entries w (f m)) : (h.modifyMap r f).Sound D w :=
  { hs with maps := forall_mem_modify hs.maps hf _ }

theorem setCell (r : Ref .cell) {v : Value} (hv : D.value w v) : (h.setCell r v).Sound D w :=
  { hs with cells := forall_mem_setIfInBounds hs.cells hv _ }

theorem setIterator (r : Ref .iterator) {i : Iterator} (hi : D.iterator w i) :
    (h.setIterator r i).Sound D w :=
  { hs with iterators := forall_mem_setIfInBounds hs.iterators hi _ }

theorem setCustom (r : Ref .custom) (o : CustomObject) : (h.setCustom r o).Sound D w :=
  { hs with }

theorem setChannel (r : Ref .channel) {c : Channel} (hc : D.channel w c) :
    (h.setChannel r c).Sound D w :=
  { hs with channels := forall_mem_setIfInBounds hs.channels hc _ }

theorem setThread (r : Ref .thread) {t : Thread} (ht : D.thread w t) :
    (h.setThread r t).Sound D w :=
  { hs with threads := forall_mem_setIfInBounds hs.threads ht _ }

end Writing

end Heap.Sound

end ScriptEngine
