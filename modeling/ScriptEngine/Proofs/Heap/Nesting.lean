import Mathlib.Data.Finset.Card
import Mathlib.Data.Finset.Image
import Mathlib.Logic.Relation
import ScriptEngine.Value.Heap

/-!
# Values inside values

A list shows its items, a map the values of its entries, a partial call its callee and a cell its
content. Containers are shared and can be changed, so a value may come to lie inside itself. The
values that do not are as shallow as a heap has objects that can show others: on a chain from a
value to what it shows, every such object stands at most once.

## Main definitions

* `ScriptEngine.Heap.Part`: one value is shown inside another;
* `ScriptEngine.Heap.Acyclic`: values in which no value lies inside itself;
* `ScriptEngine.Heap.containers`: the objects of a heap that can show others;
* `ScriptEngine.Heap.Extends`: a heap with new objects besides those of another;
* `ScriptEngine.Heap.Owns`: the values whose objects are in a heap.

## Main results

* `ScriptEngine.Heap.acyclic_iff`: a value is acyclic exactly if its parts are;
* `ScriptEngine.Heap.Acyclic.chain_length_le`: how deep acyclic values are;
* `ScriptEngine.Heap.Acyclic.induct`: induction from the parts of a value to the value.
-/

namespace ScriptEngine

namespace Heap

variable {h h' h'' : Heap} {v w : Value}

/-- The values that the text of a value shows inside it. -/
def parts (h : Heap) : Value → List Value
  | .list r => (h.list r).toList
  | .map r => (h.map r).toList.map Prod.snd
  | .partialCall r => [(h.partialCall r).callee]
  | .cell r => [h.cell r]
  | _ => []

/-- One value is shown inside another. -/
def Part (h : Heap) (v w : Value) : Prop :=
  w ∈ h.parts v

/-- **Acyclic values**: neither the value nor anything inside it lies inside itself. -/
def Acyclic (h : Heap) (v : Value) : Prop :=
  ∀ w, Relation.ReflTransGen h.Part v w → ¬ Relation.TransGen h.Part w w

theorem Acyclic.of_reaches (hv : h.Acyclic v) (hw : Relation.ReflTransGen h.Part v w) :
    h.Acyclic w :=
  fun u hu => hv u (hw.trans hu)

theorem Acyclic.part (hv : h.Acyclic v) (hw : w ∈ h.parts v) : h.Acyclic w :=
  hv.of_reaches (.single hw)

/-- **A value is acyclic** exactly if its parts are: whatever lies inside itself and shows a value
is shown by that value too. -/
theorem acyclic_iff : h.Acyclic v ↔ ∀ w ∈ h.parts v, h.Acyclic w := by
  refine ⟨fun hv w hw => hv.part hw, fun hparts u hu hloop => ?_⟩
  rcases hu.cases_head with rfl | ⟨w, hw, hwu⟩
  · obtain ⟨w, hw, hwv⟩ := Relation.TransGen.head'_iff.mp hloop
    exact hparts w hw v hwv hloop
  · exact hparts w hw u hwu hloop

theorem acyclic_of_parts_eq_nil (hv : h.parts v = []) : h.Acyclic v := by
  rw [acyclic_iff, hv]
  exact fun _ hw => absurd hw List.not_mem_nil

/-! ### How deep values are -/

/-- **The objects that can show others.** -/
def containers (h : Heap) : Finset Value :=
  (Finset.range h.lists.size).image (.list ⟨·⟩) ∪ (Finset.range h.maps.size).image (.map ⟨·⟩) ∪
    (Finset.range h.partialCalls.size).image (.partialCall ⟨·⟩) ∪
    (Finset.range h.cells.size).image (.cell ⟨·⟩)

theorem card_containers_le (h : Heap) :
    h.containers.card ≤ h.lists.size + h.maps.size + h.partialCalls.size + h.cells.size := by
  have bound (n : ℕ) (f : ℕ → Value) : ((Finset.range n).image f).card ≤ n :=
    Finset.card_image_le.trans_eq (Finset.card_range n)
  unfold containers
  refine (Finset.card_union_le _ _).trans (Nat.add_le_add ?_ (bound _ _))
  refine (Finset.card_union_le _ _).trans (Nat.add_le_add ?_ (bound _ _))
  exact (Finset.card_union_le _ _).trans (Nat.add_le_add (bound _ _) (bound _ _))

/-- A reference that belongs to no object shows nil at most. -/
theorem eq_nil_of_not_mem_containers (hv : v ∉ h.containers) (hw : w ∈ h.parts v) : w = .nil := by
  simp only [containers, Finset.mem_union, Finset.mem_image, Finset.mem_range, not_or, not_exists,
    not_and] at hv
  obtain ⟨⟨⟨hlist, hmap⟩, hpartial⟩, hcell⟩ := hv
  cases v with
  | list r =>
    have hout : h.lists.size ≤ r.index := Nat.not_lt.mp fun hlt => hlist _ hlt rfl
    simp [parts, list, Array.getD_eq_getD_getElem?, Array.getElem?_eq_none hout] at hw
  | map r =>
    have hout : h.maps.size ≤ r.index := Nat.not_lt.mp fun hlt => hmap _ hlt rfl
    simp [parts, map, Array.getD_eq_getD_getElem?, Array.getElem?_eq_none hout] at hw
  | partialCall r =>
    have hout : h.partialCalls.size ≤ r.index := Nat.not_lt.mp fun hlt => hpartial _ hlt rfl
    have hnone : h.partialCall r = default := by
      simp [partialCall, Array.getD_eq_getD_getElem?, Array.getElem?_eq_none hout]
    have hw : w ∈ [(h.partialCall r).callee] := hw
    rw [hnone] at hw
    exact List.mem_singleton.mp hw
  | cell r =>
    have hout : h.cells.size ≤ r.index := Nat.not_lt.mp fun hlt => hcell _ hlt rfl
    simpa [parts, cell, Array.getD_eq_getD_getElem?, Array.getElem?_eq_none hout] using hw
  | _ => simp [parts] at hw

open scoped Classical in
/-- The number of objects that lie inside a value or are the value, and one more for a value that
shows something. -/
noncomputable def depth (h : Heap) (v : Value) : ℕ :=
  (h.containers.filter fun w => Relation.ReflTransGen h.Part v w).card +
    if h.parts v = [] then 0 else 1

theorem depth_le (h : Heap) (v : Value) : h.depth v ≤ h.containers.card + 1 := by
  classical
  unfold depth
  refine Nat.add_le_add (Finset.card_filter_le _ _) ?_
  split <;> omega

/-- **A part of an acyclic value is less deep**, as the value does not lie inside it. -/
theorem Acyclic.depth_lt (hv : h.Acyclic v) (hw : w ∈ h.parts v) : h.depth w < h.depth v := by
  classical
  have hparts : h.parts v ≠ [] := List.ne_nil_of_mem hw
  unfold depth
  rw [if_neg hparts]
  by_cases hin : v ∈ h.containers
  · -- the value itself is counted for the value, and not for its part
    have hsub : (h.containers.filter fun u => Relation.ReflTransGen h.Part w u) ⊂
        h.containers.filter fun u => Relation.ReflTransGen h.Part v u := by
      refine Finset.ssubset_iff_of_subset (fun u hu => ?_) |>.mpr ⟨v, ?_, fun hback => ?_⟩
      · rw [Finset.mem_filter] at hu ⊢
        exact ⟨hu.1, hu.2.head hw⟩
      · exact Finset.mem_filter.mpr ⟨hin, .refl⟩
      · exact hv v .refl (.head' hw (Finset.mem_filter.mp hback).2)
    have hcard := Finset.card_lt_card hsub
    split <;> omega
  · obtain rfl := eq_nil_of_not_mem_containers hin hw
    have hnone : h.containers.filter (fun u => Relation.ReflTransGen h.Part .nil u) = ∅ := by
      refine Finset.filter_eq_empty_iff.mpr fun u hu hreach => ?_
      rcases hreach.cases_head with rfl | ⟨x, hx, -⟩
      · simp [containers] at hu
      · exact absurd hx List.not_mem_nil
    rw [hnone, if_pos (show h.parts .nil = [] from rfl), Finset.card_empty]
    omega

/-- **Induction** from the parts of a value to the value. -/
theorem Acyclic.induct {P : Value → Prop}
    (step : ∀ v, h.Acyclic v → (∀ w ∈ h.parts v, P w) → P v) (hv : h.Acyclic v) : P v := by
  induction hd : h.depth v using Nat.strong_induction_on generalizing v with
  | _ d ih =>
    subst hd
    exact step v hv fun w hw => ih _ (hv.depth_lt hw) (hv.part hw) rfl

/-- **How deep acyclic values are**: below a value there are at most one more values in a chain,
each a part of the one before, than the heap has objects that can show others. -/
theorem Acyclic.chain_length_le (hv : h.Acyclic v) {chain : List Value}
    (hc : (v :: chain).IsChain h.Part) : chain.length ≤ h.containers.card + 1 := by
  have hdepth : chain.length ≤ h.depth v := by
    induction chain generalizing v with
    | nil => exact Nat.zero_le _
    | cons w chain ih =>
      rw [List.isChain_cons_cons] at hc
      exact Nat.succ_le_of_lt ((ih (hv.part hc.1) hc.2).trans_lt (hv.depth_lt hc.1))
  exact hdepth.trans (h.depth_le v)

/-! ### Heaps that grow -/

/-- **A heap with new objects** besides the lists and maps of another. -/
structure Extends (h h' : Heap) : Prop where
  lists : ∀ i < h.lists.size, h'.lists[i]? = h.lists[i]?
  maps : ∀ i < h.maps.size, h'.maps[i]? = h.maps[i]?

namespace Extends

theorem refl (h : Heap) : h.Extends h :=
  ⟨fun _ _ => rfl, fun _ _ => rfl⟩

theorem trans (hh : h.Extends h') (hh' : h'.Extends h'') : h.Extends h'' where
  lists i hi := by
    have hget := hh.lists i hi
    rw [hh'.lists i ?_, hget]
    rw [Array.getElem?_eq_getElem hi] at hget
    exact (Array.getElem?_eq_some_iff.mp hget).1
  maps i hi := by
    have hget := hh.maps i hi
    rw [hh'.maps i ?_, hget]
    rw [Array.getElem?_eq_getElem hi] at hget
    exact (Array.getElem?_eq_some_iff.mp hget).1

theorem newList (h : Heap) (items : Array Value) : h.Extends (h.newList items).2 where
  lists _ hi := Array.getElem?_push_lt hi ▸ (Array.getElem?_eq_getElem hi).symm
  maps _ _ := rfl

theorem newMap (h : Heap) (entries : Entries) : h.Extends (h.newMap entries).2 where
  lists _ _ := rfl
  maps _ hi := Array.getElem?_push_lt hi ▸ (Array.getElem?_eq_getElem hi).symm

theorem list (hh : h.Extends h') {r : Ref .list} (hr : r.index < h.lists.size) :
    h'.list r = h.list r := by
  unfold Heap.list
  rw [Array.getD_eq_getD_getElem?, Array.getD_eq_getD_getElem?, hh.lists _ hr]

theorem map (hh : h.Extends h') {r : Ref .map} (hr : r.index < h.maps.size) :
    h'.map r = h.map r := by
  unfold Heap.map
  rw [Array.getD_eq_getD_getElem?, Array.getD_eq_getD_getElem?, hh.maps _ hr]

end Extends

/-- The object behind a list or a map is in the heap. -/
def Holds (h : Heap) : Value → Prop
  | .list r => r.index < h.lists.size
  | .map r => r.index < h.maps.size
  | _ => True

theorem Extends.holds (hh : h.Extends h') (hv : h.Holds v) : h'.Holds v := by
  cases v with
  | list r =>
    have hget := hh.lists r.index hv
    rw [Array.getElem?_eq_getElem hv] at hget
    exact (Array.getElem?_eq_some_iff.mp hget).1
  | map r =>
    have hget := hh.maps r.index hv
    rw [Array.getElem?_eq_getElem hv] at hget
    exact (Array.getElem?_eq_some_iff.mp hget).1
  | _ => trivial

/-- **A value of a heap**: all lists and maps in it are objects of the heap. -/
def Owns (h : Heap) (v : Value) : Prop :=
  ∀ w, Relation.ReflTransGen h.Part v w → h.Holds w

theorem Owns.part (hv : h.Owns v) (hw : w ∈ h.parts v) : h.Owns w :=
  fun u hu => hv u (hu.head hw)

end Heap

end ScriptEngine
