import Mathlib.Data.List.Forall2
import Mathlib.Data.List.Nodup
import ScriptEngine.Proofs.Heap.Termination
import ScriptEngine.Value.Sequence

/-!
# Values of the same structure

Equality looks at the content of lists, maps and sets and at the messages of errors, and takes
everything else as an atom. On values that contain neither floats nor objects of the host it finds
out whether both unfold into the same tree. The tests for one and the same object that cut a
comparison short make no difference there.

## Main definitions

* `ScriptEngine.Heap.Same`: values that unfold into the same tree;
* `ScriptEngine.Heap.Plain`: values without floats and objects of the host;
* `ScriptEngine.Heap.Interchangeable`: values that no comparison tells apart.

## Main results

* `ScriptEngine.Heap.equals?_eq_some_true_iff`: equality is having the same structure;
* `ScriptEngine.Heap.Same.interchangeable`: no comparison tells such values apart.
-/

namespace ScriptEngine

section Lists

variable {α β γ δ : Type} {xs : List α} {ys : List β}

/-- Loops whose rounds answer alike. -/
theorem allM_congr {p : α → Option Bool} {q : β → Option Bool}
    (h : List.Forall₂ (fun x y => p x = q y) xs ys) : xs.allM p = ys.allM q := by
  induction h with
  | nil => rfl
  | cons hxy _ ih => rw [List.allM, List.allM, hxy, ih]

theorem allM_eq_true {p : α → Option Bool} :
    xs.allM p = some true ↔ ∀ x ∈ xs, p x = some true := by
  induction xs with
  | nil => simp [List.allM]
  | cons x xs ih =>
    rw [List.forall_mem_cons, ← ih, List.allM]
    cases hp : p x with
    | none => simp
    | some b => cases b <;> simp

/-- Pairs of related items. -/
theorem forall₂_zip {R : α → β → Prop} {S : γ → δ → Prop} {us : List γ} {vs : List δ}
    (hx : List.Forall₂ R xs ys) (hu : List.Forall₂ S us vs) :
    List.Forall₂ (fun p q => R p.1 q.1 ∧ S p.2 q.2) (xs.zip us) (ys.zip vs) := by
  induction hx generalizing us vs with
  | nil => exact .nil
  | cons hxy _ ih =>
    cases hu with
    | nil => exact .nil
    | cons huv hu => exact .cons ⟨hxy, huv⟩ (ih hu)

/-- Lists of keys and values with the same keys and related values. -/
theorem forall₂_of_keys {κ : Type} {R : α → β → Prop} {l : List (κ × α)} {m : List (κ × β)}
    (hk : l.map Prod.fst = m.map Prod.fst)
    (hv : List.Forall₂ R (l.map Prod.snd) (m.map Prod.snd)) :
    List.Forall₂ (fun e f => e.1 = f.1 ∧ R e.2 f.2) l m := by
  induction l generalizing m with
  | nil =>
    cases m with
    | nil => exact .nil
    | cons f m => cases hk
  | cons e l ih =>
    cases m with
    | nil => cases hk
    | cons f m =>
      rw [List.map_cons, List.map_cons, List.cons.injEq] at hk
      rw [List.map_cons, List.map_cons, List.forall₂_cons] at hv
      exact .cons ⟨hk.1, hv.1⟩ (ih hk.2 hv.2)

theorem exists_of_forall₂ {R : α → β → Prop} (h : List.Forall₂ R xs ys) {x : α} (hx : x ∈ xs) :
    ∃ y ∈ ys, R x y := by
  induction h with
  | nil => cases hx
  | cons hxy _ ih =>
    rcases List.mem_cons.mp hx with rfl | hx
    · exact ⟨_, List.mem_cons_self, hxy⟩
    · obtain ⟨y, hy, hR⟩ := ih hx
      exact ⟨y, List.mem_cons_of_mem _ hy, hR⟩

end Lists

/-- Maps and sets with the same keys have the same size. -/
theorem size_eq_of_keys_eq {κ β : Type} {cmp : κ → κ → Ordering} {m n : Std.TreeMap κ β cmp}
    (hkeys : m.keys = n.keys) : m.size = n.size := by
  rw [← Std.TreeMap.length_toList, ← Std.TreeMap.length_toList, ← List.length_map (f := Prod.fst),
    ← List.length_map (f := Prod.fst), Std.TreeMap.map_fst_toList_eq_keys,
    Std.TreeMap.map_fst_toList_eq_keys, hkeys]

namespace Entries

variable {m n : Entries}

/-- Maps of the same size have the same keys if one has all keys of the other. -/
theorem keys_eq_of_subset (hsize : m.size = n.size) (hsub : ∀ k ∈ m, k ∈ n) : m.keys = n.keys := by
  have hperm : m.keys.Perm n.keys := by
    refine (Std.TreeMap.nodup_keys.subperm fun k hk => ?_).perm_of_length_le ?_
    · exact Std.TreeMap.mem_keys.mpr (hsub k (Std.TreeMap.mem_keys.mp hk))
    · rw [Std.TreeMap.length_keys, Std.TreeMap.length_keys, hsize]
  refine hperm.eq_of_pairwise (fun k l _ _ hkl hlk => ?_) Std.TreeMap.ordered_keys
    Std.TreeMap.ordered_keys
  exact absurd (Std.TransCmp.lt_trans hkl hlk) (by simp [Std.ReflCmp.compare_self])

/-- The entries of maps with the same keys. -/
theorem forall₂_of_keys_eq (hkeys : m.keys = n.keys) :
    List.Forall₂ (fun e f => e.1 = f.1) m.toList n.toList := by
  suffices List.Forall₂ Eq (m.toList.map Prod.fst) (n.toList.map Prod.fst) from
    List.forall₂_map_left_iff.mp (List.forall₂_map_right_iff.mp this)
  rw [Std.TreeMap.map_fst_toList_eq_keys, Std.TreeMap.map_fst_toList_eq_keys, hkeys]
  exact List.forall₂_refl _

/-- Related entries under every key. -/
theorem exists_of_forall₂ {R : Value → Value → Prop} {k : String} {v : Value}
    (h : List.Forall₂ (fun e f => e.1 = f.1 ∧ R e.2 f.2) m.toList n.toList) (hv : m[k]? = some v) :
    ∃ w, n[k]? = some w ∧ R v w := by
  obtain ⟨⟨l, w⟩, hmem, hkey, hR⟩ :=
    ScriptEngine.exists_of_forall₂ h (Std.TreeMap.mem_toList_iff_getElem?_eq_some.mpr hv)
  obtain rfl : k = l := hkey
  exact ⟨w, Std.TreeMap.mem_toList_iff_getElem?_eq_some.mp hmem, hR⟩

end Entries

/-- Floats and objects of the host are equal by rules of their own. -/
def Value.isPlain : Value → Bool
  | .float _ | .custom _ => false
  | _ => true

namespace Heap

variable {h : Heap} {a b c v w : Value}

/-! ### The equations of equality -/

theorem equals?_list (h : Heap) (r s : Ref .list) : h.equals? (.list r) (.list s) =
    if r = s then some true
    else if (h.list r).toList.length = (h.list s).toList.length then
      ((h.list r).toList.zip (h.list s).toList).allM fun (x, y) => h.equals? x y
    else some false := by
  rw [equals?.eq_def]

/-- The comparison of an entry with the one under the same key of another map. -/
def equalsUnder? (h : Heap) (others : Entries) (entry : String × Value) : Option Bool :=
  match others[entry.1]? with
  | some other => h.equals? entry.2 other
  | none => some false

theorem equals?_map (h : Heap) (r s : Ref .map) : h.equals? (.map r) (.map s) =
    if r = s then some true
    else if (h.map r).size = (h.map s).size then
      (h.map r).toList.allM (h.equalsUnder? (h.map s))
    else some false := by
  rw [equals?.eq_def]
  rfl

/-- Two sets are equal exactly if they have the same members. -/
theorem equals?_set (h : Heap) (r s : Ref .set) :
    h.equals? (.set r) (.set s) = some ((h.set r).keys == (h.set s).keys) := by
  rw [equals?.eq_def]
  dsimp only
  by_cases hrs : r = s
  · simp [hrs]
  · rw [beq_false_of_ne hrs, Bool.false_or]

/-- An object of the host equals no value that is none. -/
theorem customEquals_eq_false (o : CustomObject) (hv : ∀ r, v ≠ .custom r) :
    h.customEquals o v = false := by
  unfold customEquals
  split
  · exact absurd rfl (hv _)
  · rfl

/-! ### Structure -/

/-- What a value is without the items of lists and the values of maps. -/
inductive Frame where
  | atom (v : Value)
  | error (message : String)
  | list (size : Nat)
  | map (keys : List String)
  | set (members : List Key)

/-- The number of values in a frame. -/
def Frame.width : Frame → Nat
  | list size => size
  | map keys => keys.length
  | _ => 0

/-- The frame of a value. -/
def frame (h : Heap) : Value → Frame
  | .error e => .error e.message
  | .list r => .list (h.list r).size
  | .map r => .map (h.map r).keys
  | .set r => .set (h.set r).keys
  | v => .atom v

/-- The values in the frame of a value. -/
def branches (h : Heap) : Value → List Value
  | .list r => (h.list r).toList
  | .map r => (h.map r).toList.map Prod.snd
  | _ => []

theorem length_branches (h : Heap) (v : Value) : (h.branches v).length = (h.frame v).width := by
  cases v with
  | map r =>
    show ((h.map r).toList.map Prod.snd).length = (h.map r).keys.length
    rw [List.length_map, Std.TreeMap.length_toList, Std.TreeMap.length_keys]
  | _ => rfl

theorem branches_subset (h : Heap) (v : Value) : h.branches v ⊆ h.parts v := by
  cases v with
  | list r | map r => exact List.Subset.refl _
  | _ => exact List.nil_subset _

/-- **Values that unfold into the same tree.** -/
inductive Same (h : Heap) : Value → Value → Prop
  | intro {a b : Value} (frame : h.frame a = h.frame b)
      (branches : ∀ (i : Nat) (v w : Value), (h.branches a)[i]? = some v →
        (h.branches b)[i]? = some w → Same h v w) : Same h a b

/-- **The kinds of values of the same frame**, and how their branches are related. -/
theorem cases_of_frame {R : Value → Value → Prop} (hframe : h.frame a = h.frame b)
    (hbranches : List.Forall₂ R (h.branches a) (h.branches b)) :
    (a = b ∧ h.frame a = .atom a) ∨
      (∃ e f, a = .error e ∧ b = .error f ∧ e.message = f.message) ∨
      (∃ r s, a = .list r ∧ b = .list s ∧ List.Forall₂ R (h.list r).toList (h.list s).toList) ∨
      (∃ r s, a = .map r ∧ b = .map s ∧ (h.map r).keys = (h.map s).keys ∧
        List.Forall₂ (fun e f => e.1 = f.1 ∧ R e.2 f.2) (h.map r).toList (h.map s).toList) ∨
      ∃ r s, a = .set r ∧ b = .set s ∧ (h.set r).keys = (h.set s).keys := by
  cases a with
  | map r =>
    cases b with
    | map s =>
      have hkeys := Frame.map.inj hframe
      refine .inr (.inr (.inr (.inl ⟨r, s, rfl, rfl, hkeys, forall₂_of_keys ?_ hbranches⟩)))
      rwa [Std.TreeMap.map_fst_toList_eq_keys, Std.TreeMap.map_fst_toList_eq_keys]
    | _ => cases hframe
  | list r =>
    cases b with
    | list s => exact .inr (.inr (.inl ⟨r, s, rfl, rfl, hbranches⟩))
    | _ => cases hframe
  | _ => cases b <;> simp_all [frame]

namespace Same

theorem branches_related (hab : h.Same a b) : List.Forall₂ h.Same (h.branches a)
    (h.branches b) := by
  obtain ⟨hframe, hbranches⟩ := hab
  refine List.forall₂_iff_get.mpr ⟨?_, fun i hi hj => ?_⟩
  · rw [length_branches, length_branches, hframe]
  · exact hbranches i _ _ (List.getElem?_eq_getElem hi) (List.getElem?_eq_getElem hj)

theorem of_related (hframe : h.frame a = h.frame b)
    (hbranches : List.Forall₂ h.Same (h.branches a) (h.branches b)) : h.Same a b := by
  refine ⟨hframe, fun i v w hv hw => ?_⟩
  obtain ⟨hi, rfl⟩ := List.getElem?_eq_some_iff.mp hv
  obtain ⟨hj, rfl⟩ := List.getElem?_eq_some_iff.mp hw
  exact (List.forall₂_iff_get.mp hbranches).2 i hi hj

theorem frame_eq (hab : h.Same a b) : h.frame a = h.frame b :=
  hab.casesOn fun hframe _ => hframe

/-- **Induction** from the branches of two values to the values. -/
theorem induct {P : Value → Value → Prop}
    (step : ∀ a b, h.frame a = h.frame b →
      List.Forall₂ (fun v w => h.Same v w ∧ P v w) (h.branches a) (h.branches b) → P a b)
    (hab : h.Same a b) : P a b := by
  induction hab with
  | @intro a b hframe hbranches ih =>
    refine step a b hframe (List.forall₂_iff_get.mpr ⟨?_, fun i hi hj => ?_⟩)
    · rw [length_branches, length_branches, hframe]
    · have hv := List.getElem?_eq_getElem hi
      have hw := List.getElem?_eq_getElem hj
      exact ⟨hbranches i _ _ hv hw, ih i _ _ hv hw⟩

theorem symm (hab : h.Same a b) : h.Same b a := by
  refine hab.induct (P := fun a b => h.Same b a) fun a b hframe hbranches => ?_
  exact of_related hframe.symm (hbranches.imp fun _ _ hvw => hvw.2).flip

theorem trans (hab : h.Same a b) (hbc : h.Same b c) : h.Same a c := by
  induction hab generalizing c with
  | @intro a b hframe hbranches ih =>
    have hab : h.Same a b := ⟨hframe, hbranches⟩
    refine ⟨hframe.trans hbc.frame_eq, fun i v w hv hw => ?_⟩
    -- the branch of the middle value at the same place
    obtain ⟨hi, -⟩ := List.getElem?_eq_some_iff.mp hv
    have hmiddle := List.getElem?_eq_getElem (hab.branches_related.length_eq ▸ hi)
    obtain ⟨_, hbranches'⟩ := hbc
    exact ih i v _ hv hmiddle (hbranches' i _ w hmiddle hw)

end Same

/-- An acyclic value unfolds into the same tree as itself. -/
theorem Acyclic.same (ha : h.Acyclic a) : h.Same a a :=
  ha.induct (P := fun a => h.Same a a) fun v _ ih =>
    .of_related rfl (List.forall₂_same.mpr fun w hw => ih w (h.branches_subset v hw))

/-! ### Plain values -/

/-- **Plain values** contain neither floats nor objects of the host. -/
def Plain (h : Heap) (v : Value) : Prop :=
  ∀ w, Relation.ReflTransGen h.Part v w → w.isPlain = true

theorem Plain.isPlain (hv : h.Plain v) : v.isPlain = true :=
  hv v .refl

theorem Plain.part (hv : h.Plain v) (hw : w ∈ h.parts v) : h.Plain w :=
  fun u hu => hv u (hu.head hw)

theorem Plain.branch (hv : h.Plain v) (hw : w ∈ h.branches v) : h.Plain w :=
  hv.part (h.branches_subset v hw)

/-! ### Values of the same structure are equal -/

theorem equals?_atom (ha : a.isPlain = true) (hframe : h.frame a = .atom a) :
    h.equals? a a = some true := by
  rw [equals?.eq_def]
  cases a <;> simp_all [Value.isPlain, frame]

/-- Lists of equal items are equal. -/
theorem equals?_of_items {r s : Ref .list} (hitems : List.Forall₂
      (fun v w => h.equals? v w = some true) (h.list r).toList (h.list s).toList) :
    h.equals? (.list r) (.list s) = some true := by
  rw [equals?_list, if_pos hitems.length_eq, ite_eq_left_iff]
  refine fun _ => allM_eq_true.mpr fun ⟨x, y⟩ hmem => ?_
  exact (List.forall₂_iff_zip.mp hitems).2 hmem

/-- Maps of equal values under the same keys are equal. -/
theorem equals?_of_entries {r s : Ref .map} (hentries : List.Forall₂
      (fun e f => e.1 = f.1 ∧ h.equals? e.2 f.2 = some true) (h.map r).toList (h.map s).toList) :
    h.equals? (.map r) (.map s) = some true := by
  have hsize : (h.map r).size = (h.map s).size := by
    rw [← Std.TreeMap.length_toList, hentries.length_eq, Std.TreeMap.length_toList]
  rw [equals?_map, if_pos hsize, ite_eq_left_iff]
  refine fun _ => allM_eq_true.mpr fun ⟨k, v⟩ hmem => ?_
  obtain ⟨w, hw, heq⟩ := Entries.exists_of_forall₂ (R := fun v w => h.equals? v w = some true)
    hentries (Std.TreeMap.mem_toList_iff_getElem?_eq_some.mp hmem)
  simp only [equalsUnder?, hw, heq]

/-- Plain values of the same structure are equal. -/
theorem Same.equals? (hab : h.Same a b) (ha : h.Plain a) : h.equals? a b = some true := by
  revert ha
  refine hab.induct (P := fun a b => h.Plain a → h.equals? a b = some true)
    fun a b hframe hbranches ha => ?_
  have hrelated : List.Forall₂ (fun v w => h.equals? v w = some true)
      (h.branches a) (h.branches b) := by
    refine ((List.forall₂_and_left _ _).mpr ⟨fun v hv => ha.branch hv, hbranches⟩).imp ?_
    exact fun v w hvw => hvw.2.2 hvw.1
  rcases cases_of_frame hframe hrelated with ⟨rfl, hatom⟩ | ⟨e, f, rfl, rfl, hmessage⟩ |
    ⟨r, s, rfl, rfl, hitems⟩ | ⟨r, s, rfl, rfl, -, hentries⟩ | ⟨r, s, rfl, rfl, hkeys⟩
  · exact equals?_atom ha.isPlain hatom
  · simp [equals?.eq_def, hmessage]
  · exact equals?_of_items hitems
  · exact equals?_of_entries hentries
  · simp [equals?.eq_def, hkeys]

/-! ### Equal values have the same structure -/

theorem items_of_equals? {r s : Ref .list} (heq : h.equals? (.list r) (.list s) = some true) :
    r = s ∨
      List.Forall₂ (fun v w => h.equals? v w = some true) (h.list r).toList (h.list s).toList := by
  rw [equals?_list] at heq
  split at heq
  · exact .inl ‹_›
  · split at heq
    · exact .inr (List.forall₂_iff_zip.mpr ⟨‹_›, fun hmem => allM_eq_true.mp heq _ hmem⟩)
    · cases heq

theorem entries_of_equals? {r s : Ref .map} (heq : h.equals? (.map r) (.map s) = some true) :
    r = s ∨ (h.map r).keys = (h.map s).keys ∧
      List.Forall₂ (fun v w => h.equals? v w = some true) ((h.map r).toList.map Prod.snd)
        ((h.map s).toList.map Prod.snd) := by
  rw [equals?_map] at heq
  split at heq
  · exact .inl ‹_›
  split at heq
  case isFalse => cases heq
  rename_i hsize
  refine .inr ?_
  have hunder := allM_eq_true.mp heq
  have hkeys : (h.map r).keys = (h.map s).keys := by
    refine Entries.keys_eq_of_subset hsize fun k hk => ?_
    obtain ⟨v, hv⟩ := Std.TreeMap.mem_iff_isSome_getElem?.mp hk |> Option.isSome_iff_exists.mp
    have hfound := hunder _ (Std.TreeMap.mem_toList_iff_getElem?_eq_some.mpr hv)
    rw [Std.TreeMap.mem_iff_isSome_getElem?]
    cases hother : (h.map s)[k]? with
    | none => simp [equalsUnder?, hother] at hfound
    | some other => rfl
  refine ⟨hkeys, List.forall₂_map_left_iff.mpr (List.forall₂_map_right_iff.mpr ?_)⟩
  have hsame := Entries.forall₂_of_keys_eq hkeys
  refine List.forall₂_iff_zip.mpr ⟨hsame.length_eq, fun {e f} hmem => ?_⟩
  have hkey : e.1 = f.1 := (List.forall₂_iff_zip.mp hsame).2 hmem
  have hother : (h.map s)[e.1]? = some f.2 :=
    Std.TreeMap.mem_toList_iff_getElem?_eq_some.mp (hkey ▸ (List.of_mem_zip hmem).2)
  have hfound := hunder _ (List.of_mem_zip hmem).1
  rwa [equalsUnder?, hother] at hfound

/-- The frames of equal plain values are the same. -/
theorem frame_eq_of_equals? (ha : a.isPlain = true) (hb : b.isPlain = true)
    (heq : h.equals? a b = some true) : h.frame a = h.frame b := by
  cases a with
  | list r =>
    cases b with
    | list s =>
      rcases items_of_equals? heq with rfl | hitems
      · rfl
      · exact congrArg Frame.list hitems.length_eq
    | _ => simp [equals?.eq_def] at heq
  | map r =>
    cases b with
    | map s =>
      rcases entries_of_equals? heq with rfl | ⟨hkeys, -⟩
      · rfl
      · exact congrArg Frame.map hkeys
    | _ => simp [equals?.eq_def] at heq
  | set r =>
    cases b with
    | set s =>
      rw [equals?.eq_def] at heq
      simp only [Option.some.injEq, Bool.or_eq_true, beq_iff_eq] at heq
      rcases heq with rfl | hkeys
      · rfl
      · exact congrArg Frame.set hkeys
    | _ => simp [equals?.eq_def] at heq
  | float f | custom r => cases ha
  | _ => cases b <;> simp_all [equals?.eq_def, frame, Value.isPlain]

theorem branches_of_equals? (ha : a.isPlain = true) (hb : b.isPlain = true)
    (heq : h.equals? a b = some true) :
    a = b ∨
      List.Forall₂ (fun v w => h.equals? v w = some true) (h.branches a) (h.branches b) := by
  cases a with
  | list r =>
    cases b with
    | list s => exact (items_of_equals? heq).imp_left (congrArg Value.list)
    | _ => simp [equals?.eq_def] at heq
  | map r =>
    cases b with
    | map s => exact (entries_of_equals? heq).imp (congrArg Value.map) And.right
    | _ => simp [equals?.eq_def] at heq
  | _ =>
    have hwidth := length_branches h b
    rw [← frame_eq_of_equals? ha hb heq] at hwidth
    rw [List.eq_nil_of_length_eq_zero hwidth]
    exact .inr .nil

/-- **Equal plain values have the same structure.** -/
theorem same_of_equals? (hacyclic : h.Acyclic a) (ha : h.Plain a) (hb : h.Plain b)
    (heq : h.equals? a b = some true) : h.Same a b := by
  refine hacyclic.induct (P := fun a => h.Plain a → ∀ b, h.Plain b → h.equals? a b = some true →
    h.Same a b) (fun a hacyclic ih ha b hb heq => ?_) ha b hb heq
  rcases branches_of_equals? ha.isPlain hb.isPlain heq with rfl | hbranches
  · exact hacyclic.same
  · refine .of_related (frame_eq_of_equals? ha.isPlain hb.isPlain heq) ?_
    refine List.forall₂_iff_zip.mpr ⟨hbranches.length_eq, fun {v w} hmem => ?_⟩
    have hv := (List.of_mem_zip hmem).1
    exact ih v (h.branches_subset a hv) (ha.branch hv) w (hb.branch (List.of_mem_zip hmem).2)
      ((List.forall₂_iff_zip.mp hbranches).2 hmem)

/-- **Equality of plain values** is having the same structure. -/
theorem equals?_eq_some_true_iff (hacyclic : h.Acyclic a) (ha : h.Plain a) (hb : h.Plain b) :
    h.equals? a b = some true ↔ h.Same a b :=
  ⟨same_of_equals? hacyclic ha hb, fun hab => hab.equals? ha⟩

/-! ### Values that no comparison tells apart -/

/-- **Interchangeable values**: every comparison with them has the same answer for both. -/
def Interchangeable (h : Heap) (a b : Value) : Prop :=
  ∀ v, h.equals? a v = h.equals? b v ∧ h.equals? v a = h.equals? v b

theorem Interchangeable.refl (h : Heap) (a : Value) : h.Interchangeable a a :=
  fun _ => ⟨rfl, rfl⟩

theorem Interchangeable.symm (hab : h.Interchangeable a b) : h.Interchangeable b a :=
  fun v => ⟨(hab v).1.symm, (hab v).2.symm⟩

/-- The kind of a list, a map or a set. -/
def container? : Value → Option ObjectKind
  | .list _ => some .list
  | .map _ => some .map
  | .set _ => some .set
  | _ => none

/-- A list, a map or a set equals nothing of another kind. -/
theorem equals?_other (h : Heap) (ha : (container? a).isSome)
    (hv : container? v ≠ container? a) :
    h.equals? a v = some false ∧ h.equals? v a = some false := by
  rw [equals?.eq_def, equals?.eq_def h v]
  cases a <;> cases ha
  all_goals
    cases v with
    | custom c => exact ⟨rfl, congrArg some (customEquals_eq_false _ fun _ => Value.noConfusion)⟩
    | _ => first | exact absurd rfl hv | exact ⟨rfl, rfl⟩

/-- Two containers of one kind are interchangeable if no container of this kind tells them apart. -/
theorem interchangeable_of_container {b : Value} (ha : (container? a).isSome)
    (hab : container? a = container? b)
    (hsame : ∀ v, container? v = container? a →
      h.equals? a v = h.equals? b v ∧ h.equals? v a = h.equals? v b) : h.Interchangeable a b := by
  intro v
  by_cases hv : container? v = container? a
  · exact hsame v hv
  · have hleft := equals?_other h ha hv
    have hright := equals?_other h (hab ▸ ha) (hab ▸ hv)
    exact ⟨hleft.1.trans hright.1.symm, hleft.2.trans hright.2.symm⟩

/-- Lists of interchangeable items, if they equal each other. -/
theorem interchangeable_list {r s : Ref .list}
    (hitems : List.Forall₂ h.Interchangeable (h.list r).toList (h.list s).toList)
    (hrs : h.equals? (.list r) (.list s) = some true)
    (hsr : h.equals? (.list s) (.list r) = some true) :
    h.Interchangeable (.list r) (.list s) := by
  refine interchangeable_of_container rfl rfl fun v hv => ?_
  obtain ⟨u, rfl⟩ : ∃ u, v = .list u := by cases v <;> simp_all [container?]
  have hself (q : Ref .list) : h.equals? (.list q) (.list q) = some true := by
    rw [equals?_list, if_pos rfl]
  -- one and the same list is found equal without a look at its items
  by_cases hur : r = u
  · subst hur
    exact ⟨(hself r).trans hsr.symm, (hself r).trans hrs.symm⟩
  by_cases hus : s = u
  · subst hus
    exact ⟨hrs.trans (hself s).symm, hsr.trans (hself s).symm⟩
  rw [equals?_list, equals?_list, equals?_list, equals?_list, if_neg hur, if_neg hus,
    if_neg (Ne.symm hur), if_neg (Ne.symm hus), hitems.length_eq]
  have hsame : List.Forall₂ Eq (h.list u).toList (h.list u).toList := List.forall₂_refl _
  constructor
  · rw [allM_congr ((forall₂_zip hitems hsame).imp ?_)]
    rintro ⟨x, y⟩ ⟨x', y'⟩ ⟨hx, rfl⟩
    exact (hx y).1
  · rw [allM_congr ((forall₂_zip hsame hitems).imp ?_)]
    rintro ⟨y, x⟩ ⟨y', x'⟩ ⟨rfl, hx⟩
    exact (hx y).2

/-- Maps of interchangeable values under the same keys, if they equal each other. -/
theorem interchangeable_map {r s : Ref .map} (hkeys : (h.map r).keys = (h.map s).keys)
    (hentries : List.Forall₂ (fun e f => e.1 = f.1 ∧ h.Interchangeable e.2 f.2) (h.map r).toList
      (h.map s).toList)
    (hrs : h.equals? (.map r) (.map s) = some true)
    (hsr : h.equals? (.map s) (.map r) = some true) :
    h.Interchangeable (.map r) (.map s) := by
  refine interchangeable_of_container rfl rfl fun v hv => ?_
  obtain ⟨u, rfl⟩ : ∃ u, v = .map u := by cases v <;> simp_all [container?]
  have hself (q : Ref .map) : h.equals? (.map q) (.map q) = some true := by
    rw [equals?_map, if_pos rfl]
  by_cases hur : r = u
  · subst hur
    exact ⟨(hself r).trans hsr.symm, (hself r).trans hrs.symm⟩
  by_cases hus : s = u
  · subst hus
    exact ⟨hrs.trans (hself s).symm, hsr.trans (hself s).symm⟩
  have hsize : (h.map r).size = (h.map s).size := size_eq_of_keys_eq hkeys
  rw [equals?_map, equals?_map, equals?_map, equals?_map, if_neg hur, if_neg hus,
    if_neg (Ne.symm hur), if_neg (Ne.symm hus), hsize]
  constructor
  · rw [allM_congr (hentries.imp ?_)]
    rintro ⟨k, x⟩ ⟨l, y⟩ ⟨rfl, hxy⟩
    unfold equalsUnder?
    dsimp only
    split
    · exact (hxy _).1
    · rfl
  · rw [allM_congr (List.forall₂_same.mpr ?_)]
    rintro ⟨k, x⟩ -
    unfold equalsUnder?
    dsimp only
    cases hy : (h.map r)[k]? with
    | none =>
      have hmem : k ∉ h.map s := by
        rw [← Std.TreeMap.mem_keys, ← hkeys, Std.TreeMap.mem_keys,
          Std.TreeMap.mem_iff_isSome_getElem?, hy]
        exact Bool.false_ne_true
      rw [Std.TreeMap.getElem?_eq_none hmem]
    | some y =>
      obtain ⟨z, hz, hyz⟩ := Entries.exists_of_forall₂ (R := h.Interchangeable) hentries hy
      rw [hz]
      exact (hyz x).2

/-- **No comparison tells plain values of the same structure apart.** -/
theorem Same.interchangeable (hab : h.Same a b) (ha : h.Plain a) (hb : h.Plain b) :
    h.Interchangeable a b := by
  refine hab.induct (P := fun a b => h.Plain a → h.Plain b → h.Interchangeable a b)
    (fun a b hframe hbranches ha hb => ?_) ha hb
  have hab : h.Same a b := .of_related hframe (hbranches.imp fun _ _ hvw => hvw.1)
  have hrelated : List.Forall₂ h.Interchangeable (h.branches a) (h.branches b) := by
    refine List.forall₂_iff_zip.mpr ⟨hbranches.length_eq, fun {v w} hmem => ?_⟩
    have hin := List.of_mem_zip hmem
    exact ((List.forall₂_iff_zip.mp hbranches).2 hmem).2 (ha.branch hin.1) (hb.branch hin.2)
  rcases cases_of_frame hframe hrelated with ⟨rfl, hatom⟩ | ⟨e, f, rfl, rfl, hmessage⟩ |
    ⟨r, s, rfl, rfl, hitems⟩ | ⟨r, s, rfl, rfl, hkeys, hentries⟩ | ⟨r, s, rfl, rfl, hkeys⟩
  · exact .refl h a
  · intro v
    rw [equals?.eq_def, equals?.eq_def h (.error f), equals?.eq_def h v,
      equals?.eq_def h v (.error f)]
    cases v <;> simp [hmessage, customEquals_eq_false]
  · exact interchangeable_list hitems (hab.equals? ha) (hab.symm.equals? hb)
  · exact interchangeable_map hkeys hentries (hab.equals? ha) (hab.symm.equals? hb)
  · refine interchangeable_of_container rfl rfl fun v hv => ?_
    obtain ⟨u, rfl⟩ : ∃ u, v = .set u := by cases v <;> simp_all [container?]
    rw [equals?_set, equals?_set, equals?_set, equals?_set, hkeys]
    exact ⟨rfl, rfl⟩

end Heap

end ScriptEngine
