import ScriptEngine.Proofs.Heap.Equality

/-!
# Equal values in place of each other

Equal values that are acyclic and contain neither floats nor objects of the host look alike from
outside: they have the same text, truth and length, are items of the same containers, and one can be
put in place of the other inside a list or a map without a change to what is equal there.

## Main definitions

* `ScriptEngine.Heap.Revises`: a heap whose lists and maps hold related values in place of those of
  another heap;
* `ScriptEngine.Heap.EqualityLaws`: the laws of equality.

## Main results

* `ScriptEngine.Heap.Revises.equals?_eq`: a heap with interchangeable values in place of some has
  the same equal values;
* `ScriptEngine.Heap.equality_laws`: equality is an equivalence and a congruence.
-/

namespace ScriptEngine

namespace Heap

variable {h h' : Heap} {a b v w : Value}

/-! ### What does not tell equal values apart -/

section Loops

variable {α β γ δ : Type} {xs : List α} {ys : List β}

theorem mapM_congr {f : α → Option γ} {g : β → Option γ}
    (h : List.Forall₂ (fun x y => f x = g y) xs ys) : xs.mapM f = ys.mapM g := by
  induction h with
  | nil => rfl
  | cons hxy _ ih => rw [List.mapM_cons, List.mapM_cons, hxy, ih]

/-- A loop that ends still ends when its rounds are replaced by others that end whenever they do. -/
theorem allM_of_forall₂ {p : α → Option Bool} {q : β → Option Bool} {answer : Bool}
    (h : List.Forall₂ (fun x y => ∀ b, p x = some b → q y = some b) xs ys)
    (hp : xs.allM p = some answer) : ys.allM q = some answer := by
  induction h with
  | nil => exact hp
  | @cons x y xs ys hxy _ ih =>
    rw [List.allM] at hp ⊢
    cases hx : p x with
    | none => simp [hx] at hp
    | some b =>
      rw [hxy b hx]
      rw [hx] at hp
      cases b with
      | false => exact hp
      | true => exact ih hp

end Loops

namespace Same

theorem inspect?_eq (hab : h.Same a b) : h.inspect? a = h.inspect? b := by
  refine hab.induct (P := fun a b => h.inspect? a = h.inspect? b) fun a b hframe hbranches => ?_
  have hrelated := hbranches.imp fun _ _ hvw => hvw.2
  rcases cases_of_frame hframe hrelated with ⟨rfl, -⟩ | ⟨e, f, rfl, rfl, hmessage⟩ |
    ⟨r, s, rfl, rfl, hitems⟩ | ⟨r, s, rfl, rfl, -, hentries⟩ | ⟨r, s, rfl, rfl, hkeys⟩
  · rfl
  · rw [inspect?.eq_def, inspect?.eq_def]
    simp only [hmessage]
  · rw [inspect?.eq_def, inspect?.eq_def]
    dsimp only
    rw [mapM_congr hitems]
  · rw [inspect?.eq_def, inspect?.eq_def]
    dsimp only
    rw [mapM_congr (hentries.imp ?_)]
    rintro ⟨k, x⟩ ⟨l, y⟩ ⟨rfl, hxy⟩
    dsimp only at hxy ⊢
    rw [hxy]
  · rw [inspect?.eq_def, inspect?.eq_def]
    simp only [hkeys]

/-- What else values of the same structure have in common. -/
theorem agree (hab : h.Same a b) :
    a.toStr? = b.toStr? ∧ Key.ofValue? a = Key.ofValue? b ∧ h.render? a = h.render? b ∧
      h.isTruthy a = h.isTruthy b ∧ h.length a = h.length b := by
  have htext := hab.inspect?_eq
  rcases cases_of_frame hab.frame_eq hab.branches_related with ⟨rfl, -⟩ |
    ⟨e, f, rfl, rfl, hmessage⟩ | ⟨r, s, rfl, rfl, hitems⟩ | ⟨r, s, rfl, rfl, hkeys, hentries⟩ |
    ⟨r, s, rfl, rfl, hkeys⟩
  · exact ⟨rfl, rfl, rfl, rfl, rfl⟩
  · exact ⟨rfl, rfl, congrArg some hmessage, rfl, rfl⟩
  · have hsize : (h.list r).size = (h.list s).size := hitems.length_eq
    refine ⟨rfl, rfl, htext, ?_, ?_⟩
    · simp [isTruthy, isTruthyWithin, Array.isEmpty, hsize]
    · simp [length, hsize]
  · have hsize : (h.map r).size = (h.map s).size := size_eq_of_keys_eq hkeys
    refine ⟨rfl, rfl, htext, ?_, ?_⟩
    · simp [isTruthy, isTruthyWithin, Std.TreeMap.isEmpty_eq_size_eq_zero, hsize]
    · simp [length, hsize]
  · have hsize : (h.set r).size = (h.set s).size := size_eq_of_keys_eq hkeys
    refine ⟨rfl, rfl, htext, ?_, ?_⟩
    · simp [isTruthy, isTruthyWithin, Std.TreeMap.isEmpty_eq_size_eq_zero, hsize]
    · simp [length, hsize]

end Same

/-! ### Other values in the lists and maps of a heap -/

/-- **A revised heap**: its lists and maps hold related values in place of those of another heap. -/
structure Revises (R : Value → Value → Prop) (h h' : Heap) : Prop where
  lists : ∀ r, List.Forall₂ R (h.list r).toList (h'.list r).toList
  keys : ∀ r, (h.map r).keys = (h'.map r).keys
  maps : ∀ r, List.Forall₂ (fun e f => e.1 = f.1 ∧ R e.2 f.2) (h.map r).toList (h'.map r).toList
  sets : ∀ r, h'.set r = h.set r
  customs : ∀ r, h'.custom r = h.custom r

namespace Revises

theorem customEquals_eq {R : Value → Value → Prop} (hrev : Revises R h h') (o : CustomObject)
    (v : Value) : h'.customEquals o v = h.customEquals o v := by
  unfold customEquals
  split
  · rw [hrev.customs]
  · rfl

/-- A comparison that ends has the same answer after a revision with interchangeable values. -/
theorem equals?_of_some (hrev : Revises h'.Interchangeable h h') {answer : Bool}
    (heq : h.equals? a b = some answer) : h'.equals? a b = some answer := by
  refine equals?.partial_correctness h (fun a b answer => h'.equals? a b = some answer)
    (fun compare hcompare a b answer hstep => ?_) a b answer heq
  -- the items and entries that the comparison goes on to
  have hpair {v w v' w' : Value} (hv : h'.Interchangeable v v') (hw : h'.Interchangeable w w')
      (answer : Bool) (heq : compare v w = some answer) : h'.equals? v' w' = some answer := by
    rw [← (hv w').1, ← (hw v).2]
    exact hcompare v w answer heq
  cases a with
  | list r =>
    cases b with
    | list s =>
      dsimp only at hstep
      rw [equals?_list, ← (hrev.lists r).length_eq, ← (hrev.lists s).length_eq]
      split at hstep
      · rw [if_pos ‹_›, hstep]
      rw [if_neg ‹_›]
      split at hstep
      · rw [if_pos ‹_›]
        refine allM_of_forall₂ ((forall₂_zip (hrev.lists r) (hrev.lists s)).imp ?_) hstep
        exact fun _ _ hvw answer heq => hpair hvw.1 hvw.2 answer heq
      · rw [if_neg ‹_›, hstep]
    | _ => rw [equals?.eq_def]; exact hstep
  | map r =>
    cases b with
    | map s =>
      dsimp only at hstep
      rw [equals?_map, ← size_eq_of_keys_eq (hrev.keys r), ← size_eq_of_keys_eq (hrev.keys s)]
      split at hstep
      · rw [if_pos ‹_›, hstep]
      rw [if_neg ‹_›]
      split at hstep
      · rw [if_pos ‹_›]
        refine allM_of_forall₂ ((hrev.maps r).imp ?_) hstep
        rintro ⟨k, v⟩ ⟨l, v'⟩ ⟨rfl, hv⟩ answer heq
        dsimp only at heq
        unfold equalsUnder?
        dsimp only
        split at heq
        · rename_i w hw
          obtain ⟨w', hw', hww⟩ := Entries.exists_of_forall₂ (hrev.maps s) hw
          rw [hw']
          exact hpair hv hww answer heq
        · rw [Std.TreeMap.getElem?_eq_none]
          · exact heq
          · rw [← Std.TreeMap.mem_keys, ← hrev.keys, Std.TreeMap.mem_keys,
              Std.TreeMap.mem_iff_isSome_getElem?]
            simp [*]
      · rw [if_neg ‹_›, hstep]
    | _ => rw [equals?.eq_def]; exact hstep
  | set r =>
    cases b with
    | set s =>
      rw [equals?.eq_def]
      dsimp only at hstep ⊢
      rw [hrev.sets, hrev.sets, hstep]
    | _ => rw [equals?.eq_def]; exact hstep
  | custom r =>
    rw [equals?.eq_def]
    dsimp only at hstep ⊢
    rw [hrev.customs, hrev.customEquals_eq, hstep]
  | _ => cases b <;> (rw [equals?.eq_def]; exact hstep)

/-- **A revision with interchangeable values** changes no answer, if the values are so before and
after it. -/
theorem equals?_eq (hrev : Revises h'.Interchangeable h h') (hback : Revises h.Interchangeable h' h)
    (a b : Value) : h'.equals? a b = h.equals? a b := by
  cases heq : h.equals? a b with
  | some answer => exact hrev.equals?_of_some heq
  | none =>
    cases heq' : h'.equals? a b with
    | none => rfl
    | some answer => exact absurd (hback.equals?_of_some heq') (heq ▸ nofun)

end Revises

/-! ### One value in place of another -/

/-- The same value, or the second of two in place of the first. -/
def Swaps (a b v w : Value) : Prop :=
  v = w ∨ v = a ∧ w = b

theorem Swaps.interchangeable (hab : h.Interchangeable a b) (hvw : Swaps a b v w) :
    h.Interchangeable v w := by
  rcases hvw with rfl | ⟨rfl, rfl⟩
  · exact .refl h v
  · exact hab

theorem Revises.imp {R S : Value → Value → Prop} (hRS : ∀ v w, R v w → S v w)
    (hrev : Revises R h h') : Revises S h h' where
  lists r := (hrev.lists r).imp hRS
  keys := hrev.keys
  maps r := (hrev.maps r).imp fun _ _ he => ⟨he.1, hRS _ _ he.2⟩
  sets := hrev.sets
  customs := hrev.customs

theorem Revises.flip {R : Value → Value → Prop} (hrev : Revises R h h') :
    Revises (fun v w => R w v) h' h where
  lists r := (hrev.lists r).flip
  keys r := (hrev.keys r).symm
  maps r := ((hrev.maps r).imp fun _ _ he => (⟨he.1.symm, he.2⟩ : _ = _ ∧ _)).flip
  sets r := (hrev.sets r).symm
  customs r := (hrev.customs r).symm

theorem lt_of_item {r : Ref .list} {i : Nat} (hv : (h.list r)[i]? = some v) :
    r.index < h.lists.size := by
  by_contra hout
  simp [list, Array.getD_eq_getD_getElem?, Array.getElem?_eq_none (Nat.not_lt.mp hout)] at hv

theorem lt_of_entry {r : Ref .map} {k : String} (hv : (h.map r)[k]? = some v) :
    r.index < h.maps.size := by
  by_contra hout
  simp [map, Array.getD_eq_getD_getElem?, Array.getElem?_eq_none (Nat.not_lt.mp hout)] at hv

theorem list_modifyList {r : Ref .list} (hr : r.index < h.lists.size)
    (f : Array Value → Array Value)
    (q : Ref .list) : (h.modifyList r f).list q = if q = r then f (h.list r) else h.list q := by
  unfold list modifyList
  rw [Array.getD_eq_getD_getElem?, Array.getElem?_modify]
  by_cases hq : q = r
  · subst hq
    simp [hr, Array.getD_eq_getD_getElem?]
  · rw [if_neg hq, if_neg fun he => hq (congrArg Ref.mk he.symm), Array.getD_eq_getD_getElem?]

theorem map_modifyMap {r : Ref .map} (hr : r.index < h.maps.size) (f : Entries → Entries)
    (q : Ref .map) : (h.modifyMap r f).map q = if q = r then f (h.map r) else h.map q := by
  unfold map modifyMap
  rw [Array.getD_eq_getD_getElem?, Array.getElem?_modify]
  by_cases hq : q = r
  · subst hq
    simp [hr, Array.getD_eq_getD_getElem?]
  · rw [if_neg hq, if_neg fun he => hq (congrArg Ref.mk he.symm), Array.getD_eq_getD_getElem?]

/-- The items of a list with another one in one place. -/
theorem forall₂_setIfInBounds {xs : Array Value} {i : Nat} (hi : xs[i]? = some a) (b : Value) :
    List.Forall₂ (Swaps a b) xs.toList (xs.setIfInBounds i b).toList := by
  obtain ⟨hlt, hget⟩ := Array.getElem?_eq_some_iff.mp hi
  refine List.forall₂_iff_get.mpr ⟨by simp, fun j hj hj' => ?_⟩
  simp only [List.get_eq_getElem, Array.getElem_toList]
  rw [Array.getElem_setIfInBounds (by simpa using hj)]
  split
  · subst i
    exact .inr ⟨hget, rfl⟩
  · exact .inl rfl

/-- The keys of a map with another value under one of them. -/
theorem keys_insert {m : Entries} {k : String} (hk : m[k]? = some a) (b : Value) :
    m.keys = (m.insert k b).keys := by
  have hmem : k ∈ m := by
    rw [Std.TreeMap.mem_iff_isSome_getElem?, hk]
    rfl
  refine Entries.keys_eq_of_subset ?_ fun l hl => Std.TreeMap.mem_insert.mpr (.inr hl)
  rw [Std.TreeMap.size_insert, if_pos (Std.TreeMap.mem_iff_contains.mp hmem)]

/-- The entries of a map with another value under one key. -/
theorem forall₂_insert {m : Entries} {k : String} (hk : m[k]? = some a) (b : Value) :
    List.Forall₂ (fun e f => e.1 = f.1 ∧ Swaps a b e.2 f.2) m.toList (m.insert k b).toList := by
  have hsame := Entries.forall₂_of_keys_eq (keys_insert hk b)
  refine List.forall₂_iff_zip.mpr ⟨hsame.length_eq, fun {e f} hmem => ?_⟩
  have hkey : e.1 = f.1 := (List.forall₂_iff_zip.mp hsame).2 hmem
  have hold := Std.TreeMap.mem_toList_iff_getElem?_eq_some.mp (List.of_mem_zip hmem).1
  have hnew := Std.TreeMap.mem_toList_iff_getElem?_eq_some.mp (List.of_mem_zip hmem).2
  rw [Std.TreeMap.getElem?_insert, ← hkey] at hnew
  refine ⟨hkey, ?_⟩
  split at hnew
  · rename_i heq
    rw [Std.LawfulEqCmp.eq_of_compare heq] at hk
    exact .inr ⟨Option.some.inj (hold.symm.trans hk), (Option.some.inj hnew).symm⟩
  · exact .inl (Option.some.inj (hold.symm.trans hnew))

/-- **A list with another item** in one place. -/
theorem revises_list {r : Ref .list} {i : Nat} (hi : (h.list r)[i]? = some a) (b : Value) :
    Revises (Swaps a b) h (h.modifyList r (·.setIfInBounds i b)) where
  lists q := by
    rw [list_modifyList (lt_of_item hi)]
    split
    · exact ‹q = r› ▸ forall₂_setIfInBounds hi b
    · exact List.forall₂_same.mpr fun _ _ => .inl rfl
  keys _ := rfl
  maps _ := List.forall₂_same.mpr fun _ _ => ⟨rfl, .inl rfl⟩
  sets _ := rfl
  customs _ := rfl

/-- **A map with another value** under one key. -/
theorem revises_map {r : Ref .map} {k : String} (hk : (h.map r)[k]? = some a) (b : Value) :
    Revises (Swaps a b) h (h.modifyMap r (·.insert k b)) where
  lists _ := List.forall₂_same.mpr fun _ _ => .inl rfl
  keys q := by
    rw [map_modifyMap (lt_of_entry hk)]
    split
    · exact ‹q = r› ▸ keys_insert hk b
    · rfl
  maps q := by
    rw [map_modifyMap (lt_of_entry hk)]
    split
    · exact ‹q = r› ▸ forall₂_insert hk b
    · exact List.forall₂_same.mpr fun _ _ => ⟨rfl, .inl rfl⟩
  sets _ := rfl
  customs _ := rfl

/-! ### Values that the replaced one lies in -/

/-- No value of the structure of an acyclic value lies inside it. -/
theorem Acyclic.not_same_inside (ha : h.Acyclic a) (hb : Relation.TransGen h.Part a b) :
    ¬ h.Same a b := by
  refine ha.induct (P := fun a => ∀ b, Relation.TransGen h.Part a b → ¬ h.Same a b)
    (fun a ha ih b hb hab => ?_) b hb
  obtain ⟨c, hac, hcb⟩ := Relation.TransGen.head'_iff.mp hb
  by_cases hc : c ∈ h.branches a
  · obtain ⟨d, hbd, hcd⟩ := exists_of_forall₂ hab.branches_related hc
    exact ih c hac d (.tail' hcb (h.branches_subset b hbd)) hcd
  · -- a value that shows others elsewhere has its structure in common with itself only
    rcases cases_of_frame hab.frame_eq hab.branches_related with ⟨rfl, -⟩ | ⟨_, _, rfl, -⟩ |
      ⟨_, _, rfl, -⟩ | ⟨_, _, rfl, -⟩ | ⟨_, _, rfl, -⟩
    · exact ha a .refl hb
    · exact absurd hac List.not_mem_nil
    · exact hc hac
    · exact hc hac
    · exact absurd hac List.not_mem_nil

/-- A container of an acyclic value lies in no acyclic value that equals it. -/
theorem not_reaches_container {c : Value} (ha : h.Acyclic a) (hb : h.Acyclic b) (hab : h.Same a b)
    (hc : a ∈ h.parts c) :
    ¬ Relation.ReflTransGen h.Part a c ∧ ¬ Relation.ReflTransGen h.Part b c :=
  ⟨fun hac => ha a .refl (.tail' hac hc), fun hbc => hb.not_same_inside (.tail' hbc hc) hab.symm⟩

/-- **Two heaps agree on a value** if they agree on all that lies in it. -/
def AgreesOn (h h' : Heap) (v : Value) : Prop :=
  ∀ w, Relation.ReflTransGen h.Part v w → h'.frame w = h.frame w ∧
    h'.branches w = h.branches w ∧ h'.parts w = h.parts w

theorem AgreesOn.part (hv : h.AgreesOn h' v) (hw : w ∈ h.parts v) : h.AgreesOn h' w :=
  fun u hu => hv u (hu.head hw)

theorem AgreesOn.reaches (hv : h.AgreesOn h' v) (hw : Relation.ReflTransGen h'.Part v w) :
    Relation.ReflTransGen h.Part v w := by
  induction hw with
  | refl => exact .refl
  | tail _ hstep ih => exact ih.tail (show _ ∈ h.parts _ from (hv _ ih).2.2 ▸ hstep)

theorem Plain.of_agreesOn (hv : h.Plain v) (hagree : h.AgreesOn h' v) : h'.Plain v :=
  fun w hw => hv w (hagree.reaches hw)

/-- Values have the same structure in every heap that agrees on them. -/
theorem Same.of_agreesOn (hab : h.Same a b) (ha : h.AgreesOn h' a) (hb : h.AgreesOn h' b) :
    h'.Same a b := by
  refine hab.induct (P := fun a b => h.AgreesOn h' a → h.AgreesOn h' b → h'.Same a b)
    (fun a b hframe hbranches ha hb => .of_related ?_ ?_) ha hb
  · rw [(ha a .refl).1, (hb b .refl).1, hframe]
  · rw [(ha a .refl).2.1, (hb b .refl).2.1]
    refine List.forall₂_iff_zip.mpr ⟨hbranches.length_eq, fun {v w} hmem => ?_⟩
    have hin := List.of_mem_zip hmem
    exact ((List.forall₂_iff_zip.mp hbranches).2 hmem).2 (ha.part (h.branches_subset a hin.1))
      (hb.part (h.branches_subset b hin.2))

/-- A change of a list is noticed only by values that it lies in. -/
theorem agreesOn_modifyList {r : Ref .list} (hr : r.index < h.lists.size)
    (f : Array Value → Array Value) (hv : ¬ Relation.ReflTransGen h.Part v (.list r)) :
    h.AgreesOn (h.modifyList r f) v := by
  intro w hw
  cases w with
  | list q =>
    have hq : (h.modifyList r f).list q = h.list q := by
      rw [list_modifyList hr, if_neg]
      rintro rfl
      exact hv hw
    refine ⟨?_, ?_, ?_⟩ <;> simp only [frame, branches, parts, hq]
  | _ => exact ⟨rfl, rfl, rfl⟩

/-- A change of a map is noticed only by values that it lies in. -/
theorem agreesOn_modifyMap {r : Ref .map} (hr : r.index < h.maps.size) (f : Entries → Entries)
    (hv : ¬ Relation.ReflTransGen h.Part v (.map r)) : h.AgreesOn (h.modifyMap r f) v := by
  intro w hw
  cases w with
  | map q =>
    have hq : (h.modifyMap r f).map q = h.map q := by
      rw [map_modifyMap hr, if_neg]
      rintro rfl
      exact hv hw
    refine ⟨?_, ?_, ?_⟩ <;> simp only [frame, branches, parts, hq]
  | _ => exact ⟨rfl, rfl, rfl⟩

/-- **Equal values in place of each other**: no comparison has another answer in a heap where one of
two acyclic plain values of the same structure stands in place of the other, if the container of the
other is all that changed. -/
theorem Revises.equals?_eq_of_same {c : Value} (hrev : Revises (Swaps a b) h h')
    (hagree : ∀ v, ¬ Relation.ReflTransGen h.Part v c → h.AgreesOn h' v) (hc : a ∈ h.parts c)
    (ha : h.Acyclic a) (hb : h.Acyclic b) (hpa : h.Plain a) (hpb : h.Plain b) (hab : h.Same a b)
    (v w : Value) : h'.equals? v w = h.equals? v w := by
  have hout := not_reaches_container ha hb hab hc
  have haa := hagree a hout.1
  have hbb := hagree b hout.2
  have hnew := (hab.of_agreesOn haa hbb).interchangeable (hpa.of_agreesOn haa) (hpb.of_agreesOn hbb)
  have hold := hab.interchangeable hpa hpb
  refine Revises.equals?_eq (hrev.imp fun _ _ => Swaps.interchangeable hnew)
    (hrev.flip.imp fun _ _ hvw => ?_) v w
  exact (Swaps.interchangeable hold hvw).symm

/-! ### The laws of equality -/

/-- The values that the laws speak about: acyclic ones without floats and objects of the host. -/
structure Regular (h : Heap) (v : Value) : Prop where
  acyclic : h.Acyclic v
  plain : h.Plain v

/-- **The laws of equality.** -/
structure EqualityLaws (h : Heap) : Prop where
  /-- Comparisons end. -/
  ends : ∀ {a b}, h.Regular a → h.Regular b → (h.equals? a b).isSome
  refl : ∀ {a}, h.Regular a → h.equals? a a = some true
  symm : ∀ {a b}, h.Regular a → h.Regular b → h.equals? a b = h.equals? b a
  trans : ∀ {a b c}, h.Regular a → h.Regular b → h.Regular c → h.equals? a b = some true →
    h.equals? b c = some true → h.equals? a c = some true
  /-- Lists are compared item by item, also a list with itself. -/
  lists : ∀ {r s}, h.Regular (.list r) → h.Regular (.list s) → h.equals? (.list r) (.list s) =
    if (h.list r).toList.length = (h.list s).toList.length then
      ((h.list r).toList.zip (h.list s).toList).allM fun (x, y) => h.equals? x y
    else some false
  /-- Maps are compared entry by entry, also a map with itself. -/
  maps : ∀ {r s}, h.Regular (.map r) → h.Regular (.map s) → h.equals? (.map r) (.map s) =
    if (h.map r).size = (h.map s).size then (h.map r).toList.allM (h.equalsUnder? (h.map s))
    else some false
  /-- Sets are compared member by member, also a set with itself. -/
  sets : ∀ r s, h.equals? (.set r) (.set s) = some ((h.set r).keys == (h.set s).keys)
  /-- Equal values have the same texts, truth and length. -/
  looks : ∀ {a b}, h.Regular a → h.Regular b → h.equals? a b = some true →
    h.inspect? a = h.inspect? b ∧ h.render? a = h.render? b ∧ h.isTruthy a = h.isTruthy b ∧
      h.length a = h.length b
  /-- Equal values are found in the same containers. -/
  contains : ∀ {a b}, h.Regular a → h.Regular b → h.equals? a b = some true →
    ∀ container, h.contains container a = h.contains container b
  /-- A list in which one stands in place of the other changes no comparison. -/
  items : ∀ {a b}, h.Regular a → h.Regular b → h.equals? a b = some true →
    ∀ {r : Ref .list} {i : Nat}, (h.list r)[i]? = some a →
      ∀ v w, (h.modifyList r (·.setIfInBounds i b)).equals? v w = h.equals? v w
  /-- A map in which one stands in place of the other changes no comparison. -/
  entries : ∀ {a b}, h.Regular a → h.Regular b → h.equals? a b = some true →
    ∀ {r : Ref .map} {k : String}, (h.map r)[k]? = some a →
      ∀ v w, (h.modifyMap r (·.insert k b)).equals? v w = h.equals? v w
  /-- A list that has one in place of the other equals the list. -/
  listsWith : ∀ {a b}, h.Regular a → h.Regular b → h.equals? a b = some true →
    ∀ {r s : Ref .list} {i : Nat}, h.Regular (.list r) → (h.list r)[i]? = some a →
      h.list s = (h.list r).setIfInBounds i b → ∀ v, h.equals? (.list s) v = h.equals? (.list r) v
  /-- A map that has one in place of the other equals the map. -/
  mapsWith : ∀ {a b}, h.Regular a → h.Regular b → h.equals? a b = some true →
    ∀ {r s : Ref .map} {k : String}, h.Regular (.map r) → (h.map r)[k]? = some a →
      (h.map s).toList = ((h.map r).insert k b).toList →
        ∀ v, h.equals? (.map s) v = h.equals? (.map r) v

/-- A value is regular if it is plain itself and its parts are regular. -/
theorem regular_of_parts (hv : v.isPlain = true) (hparts : ∀ w ∈ h.parts v, h.Regular w) :
    h.Regular v where
  acyclic := acyclic_iff.mpr fun w hw => (hparts w hw).acyclic
  plain w hw := by
    rcases hw.cases_head with rfl | ⟨u, hu, huw⟩
    · exact hv
    · exact (hparts u hu).plain w huw

namespace Regular

theorem part (hv : h.Regular v) (hw : w ∈ h.parts v) : h.Regular w :=
  ⟨hv.acyclic.part hw, hv.plain.part hw⟩

theorem equals?_self (hv : h.Regular v) : h.equals? v v = some true :=
  hv.acyclic.same.equals? hv.plain

theorem same (ha : h.Regular a) (hb : h.Regular b) (heq : h.equals? a b = some true) :
    h.Same a b :=
  same_of_equals? ha.acyclic ha.plain hb.plain heq

theorem interchangeable (ha : h.Regular a) (hb : h.Regular b) (heq : h.equals? a b = some true) :
    h.Interchangeable a b :=
  (ha.same hb heq).interchangeable ha.plain hb.plain

theorem equals?_comm (ha : h.Regular a) (hb : h.Regular b) : h.equals? a b = h.equals? b a := by
  have hiff : h.equals? a b = some true ↔ h.equals? b a = some true :=
    ⟨fun heq => (ha.same hb heq).symm.equals? hb.plain,
      fun heq => (hb.same ha heq).symm.equals? ha.plain⟩
  obtain ⟨x, hx⟩ := Option.isSome_iff_exists.mp (isSome_equals? (a := a) (b := b) (.inl ha.acyclic))
  obtain ⟨y, hy⟩ := Option.isSome_iff_exists.mp (isSome_equals? (a := b) (b := a) (.inl hb.acyclic))
  rw [hx, hy] at hiff ⊢
  cases x <;> cases y <;> simp_all

/-- The values that stand in a regular value with one of two equal values in place of the other. -/
theorem of_swaps (hb : h.Regular b) {vs ws : List Value} (hvs : ∀ v ∈ vs, h.Regular v)
    (hswaps : List.Forall₂ (Swaps a b) vs ws) : ∀ w ∈ ws, h.Regular w := by
  intro w hw
  obtain ⟨v, hv, rfl | ⟨-, rfl⟩⟩ := exists_of_forall₂ hswaps.flip hw
  · exact hvs v hv
  · exact hb

theorem same_of_swaps (ha : h.Regular a) (hb : h.Regular b) (heq : h.equals? a b = some true)
    {vs ws : List Value} (hvs : ∀ v ∈ vs, h.Regular v) (hswaps : List.Forall₂ (Swaps a b) vs ws) :
    List.Forall₂ h.Same vs ws := by
  refine ((List.forall₂_and_left _ _).mpr ⟨hvs, hswaps⟩).imp ?_
  rintro v w ⟨hv, rfl | ⟨rfl, rfl⟩⟩
  · exact hv.acyclic.same
  · exact ha.same hb heq

/-- A list is compared item by item also with itself, where the comparison stops at the
reference. -/
theorem equals?_list {r s : Ref .list} (hr : h.Regular (.list r)) :
    h.equals? (.list r) (.list s) =
      if (h.list r).toList.length = (h.list s).toList.length then
        ((h.list r).toList.zip (h.list s).toList).allM fun (x, y) => h.equals? x y
      else some false := by
  rw [Heap.equals?_list]
  split
  · subst s
    rw [if_pos rfl, eq_comm]
    refine allM_eq_true.mpr fun ⟨x, y⟩ hmem => ?_
    obtain rfl : x = y := List.forall₂_iff_zip.mp (List.forall₂_refl (h.list r).toList) |>.2 hmem
    exact (hr.part (List.of_mem_zip hmem).1).equals?_self
  · rfl

/-- A map is compared entry by entry also with itself. -/
theorem equals?_map {r s : Ref .map} (hr : h.Regular (.map r)) :
    h.equals? (.map r) (.map s) =
      if (h.map r).size = (h.map s).size then (h.map r).toList.allM (h.equalsUnder? (h.map s))
      else some false := by
  rw [Heap.equals?_map]
  split
  · subst s
    rw [if_pos rfl, eq_comm]
    refine allM_eq_true.mpr fun ⟨k, v⟩ hmem => ?_
    have hv := Std.TreeMap.mem_toList_iff_getElem?_eq_some.mp hmem
    simp only [equalsUnder?, hv]
    exact (hr.part (mem_parts_map hv)).equals?_self
  · rfl

/-- **A container with one of two equal values in place of the other** has the structure of the
container, so no comparison tells them apart. -/
theorem equals?_of_swaps (ha : h.Regular a) (hb : h.Regular b) (heq : h.equals? a b = some true)
    (hv : h.Regular v) (hw : w.isPlain = true) (hparts : h.parts w = h.branches w)
    (hframe : h.frame v = h.frame w)
    (hswaps : List.Forall₂ (Swaps a b) (h.branches v) (h.branches w)) (u : Value) :
    h.equals? w u = h.equals? v u := by
  have hvs : ∀ x ∈ h.branches v, h.Regular x := fun x hx => hv.part (h.branches_subset v hx)
  have hsame : h.Same v w := .of_related hframe (ha.same_of_swaps hb heq hvs hswaps)
  have hreg : h.Regular w := regular_of_parts hw (hparts ▸ hb.of_swaps hvs hswaps)
  exact (hsame.interchangeable hv.plain hreg.plain u).1.symm

end Regular

/-- **Equality is an equivalence and a congruence.** -/
theorem equality_laws (h : Heap) : h.EqualityLaws where
  ends ha _ := isSome_equals? (.inl ha.acyclic)
  refl ha := ha.equals?_self
  symm ha hb := ha.equals?_comm hb
  trans ha hb hc hab hbc := ((ha.same hb hab).trans (hb.same hc hbc)).equals? ha.plain
  lists hr _ := hr.equals?_list
  maps hr _ := hr.equals?_map
  sets := equals?_set h
  looks ha hb heq := by
    have hsame := ha.same hb heq
    obtain ⟨-, -, hrender, htruthy, hlength⟩ := hsame.agree
    exact ⟨hsame.inspect?_eq, hrender, htruthy, hlength⟩
  contains {a b} ha hb heq container := by
    obtain ⟨hstr, hkey, -⟩ := (ha.same hb heq).agree
    unfold contains equals
    simp only [hstr, hkey, (ha.interchangeable hb heq _).2]
  items {a b} ha hb heq r i hi := by
    have hpart : a ∈ h.parts (.list r) := (Array.mem_of_getElem? hi).val
    exact (revises_list hi b).equals?_eq_of_same
      (fun _ hv => agreesOn_modifyList (lt_of_item hi) _ hv) hpart ha.acyclic hb.acyclic ha.plain
      hb.plain (ha.same hb heq)
  entries {a b} ha hb heq r k hk :=
    (revises_map hk b).equals?_eq_of_same (fun _ hv => agreesOn_modifyMap (lt_of_entry hk) _ hv)
      (mem_parts_map hk) ha.acyclic hb.acyclic ha.plain hb.plain (ha.same hb heq)
  listsWith {a b} ha hb heq r s i hr hi hs := by
    have hswaps : List.Forall₂ (Swaps a b) (h.list r).toList (h.list s).toList :=
      hs ▸ forall₂_setIfInBounds hi b
    exact ha.equals?_of_swaps hb heq hr rfl rfl (congrArg Frame.list hswaps.length_eq) hswaps
  mapsWith {a b} ha hb heq r s k hr hk hs := by
    have hentries : List.Forall₂ (fun e f => e.1 = f.1 ∧ Swaps a b e.2 f.2) (h.map r).toList
        (h.map s).toList := hs ▸ forall₂_insert hk b
    have hswaps : List.Forall₂ (Swaps a b) (h.branches (.map r)) (h.branches (.map s)) :=
      List.forall₂_map_left_iff.mpr
        (List.forall₂_map_right_iff.mpr (hentries.imp fun _ _ he => he.2))
    have hkeys : (h.map r).keys = (h.map s).keys := by
      rw [← Std.TreeMap.map_fst_toList_eq_keys (t := h.map s), hs,
        Std.TreeMap.map_fst_toList_eq_keys, keys_insert hk b]
    exact ha.equals?_of_swaps hb heq hr rfl rfl (congrArg Frame.map hkeys) hswaps

end Heap

end ScriptEngine
