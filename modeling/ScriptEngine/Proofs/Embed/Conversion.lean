import ScriptEngine.Embed.Conversion
import ScriptEngine.Proofs.Heap.Equality

/-!
# There and back again

A value of the host that is handed to a script and taken back is the same one, unless a size in it
is larger than every integer: such a size comes back as the largest integer. A value of a script
that is taken by the host and handed back equals the old one. Taking a value fails exactly if a part
of it is of the wrong kind, or out of range, for the part of the type that it stands at.

## Main definitions

* `ScriptEngine.HostType.Faithful`: the types without fractions whose options are told from nil;
* `ScriptEngine.HostType.capped`: what comes back of a value of the host;
* `ScriptEngine.HostType.Meets`: the parts of a value and the parts of the type that they stand at.

## Main results

* `ScriptEngine.HostType.stands_toValue`: what the value made for a value of the host is worth;
* `ScriptEngine.HostType.fromValue_fails_iff`: when taking a value fails;
* `ScriptEngine.HostType.conversions_agree`: both conversions together.
-/

namespace ScriptEngine

section Loops

variable {α β ε : Type} {f : α → Except ε β} {xs : List α} {ys : List β}

theorem mapM_eq_ok_iff : xs.mapM f = .ok ys ↔ List.Forall₂ (fun x y => f x = .ok y) xs ys := by
  induction xs generalizing ys with
  | nil => cases ys <;> simp [pure, Except.pure]
  | cons x xs ih =>
    rw [List.mapM_cons]
    cases hx : f x with
    | error e => cases ys <;> simp [bind, Except.bind, hx]
    | ok y =>
      cases hxs : xs.mapM f with
      | error e => cases ys <;> simp [bind, Except.bind, hx, ← ih, hxs]
      | ok rest => cases ys <;> simp [bind, Except.bind, pure, Except.pure, hx, ← ih, hxs]

/-- A loop fails if one of its rounds does. -/
theorem mapM_error_iff : (∃ e, xs.mapM f = .error e) ↔ ∃ x ∈ xs, ∃ e, f x = .error e := by
  induction xs with
  | nil => simp [pure, Except.pure]
  | cons x xs ih =>
    rw [List.mapM_cons, List.exists_mem_cons_iff, ← ih]
    cases hx : f x with
    | error e => simp [bind, Except.bind]
    | ok y => cases hxs : xs.mapM f <;> simp [bind, Except.bind, pure, Except.pure]

end Loops

/-- Lists that are related to a third one item by item. -/
theorem forall₂_of_middle {α β γ : Type} {R : α → β → Prop} {S : γ → α → Prop} {T : β → γ → Prop}
    {xs : List α} {ys : List β} {zs : List γ} (hR : List.Forall₂ R xs ys)
    (hS : List.Forall₂ S zs xs) (hT : ∀ x y z, z ∈ zs → R x y → S z x → T y z) :
    List.Forall₂ T ys zs := by
  refine List.forall₂_iff_get.mpr ⟨hR.length_eq.symm.trans hS.length_eq.symm, fun i hi hj => ?_⟩
  have hx := hR.length_eq.symm ▸ hi
  exact hT _ _ _ (List.get_mem zs ⟨i, hj⟩) ((List.forall₂_iff_get.mp hR).2 i hx hi)
    ((List.forall₂_iff_get.mp hS).2 i hj hx)

/-! ### Entries in order -/

section Ordered

variable {α : Type} {l m : List (String × α)} {k : String} {x : α}

/-- The keys of entries are in order. -/
def Ordered (l : List (String × α)) : Prop :=
  l.Pairwise fun e f => compare e.1 f.1 = .lt

theorem Ordered.distinct (hl : Ordered l) : l.Pairwise fun e f => ¬ compare e.1 f.1 = .eq :=
  hl.imp fun hlt heq => by simp [hlt] at heq

theorem Ordered.nodup (hl : Ordered l) : l.Nodup :=
  hl.distinct.imp fun hne heq => hne (by rw [heq]; exact Std.ReflCmp.compare_self)

/-- Entries in order are told by what they are. -/
theorem Ordered.eq (hl : Ordered l) (hm : Ordered m) (hmem : ∀ e, e ∈ l ↔ e ∈ m) : l = m := by
  refine ((List.perm_ext_iff_of_nodup hl.nodup hm.nodup).mpr hmem).eq_of_pairwise
    (fun e f _ _ hef hfe => ?_) hl hm
  exact absurd (Std.TransCmp.lt_trans hef hfe) (by simp [Std.ReflCmp.compare_self])

theorem Ordered.of_keys {β : Type} {m : List (String × β)} {R : String × α → String × β → Prop}
    (hl : Ordered l) (h : List.Forall₂ R l m) (hR : ∀ e f, R e f → e.1 = f.1) : Ordered m := by
  have hkeys : l.map Prod.fst = m.map Prod.fst := by
    rw [← List.forall₂_eq_eq_eq, List.forall₂_map_left_iff, List.forall₂_map_right_iff]
    exact h.imp hR
  have hl : (l.map Prod.fst).Pairwise fun k k' => compare k k' = .lt := List.pairwise_map.mpr hl
  rw [hkeys] at hl
  exact List.pairwise_map.mp hl

/-- A lookup that finds what is listed and nothing else. -/
theorem lookup_eq_some_iff {look : String → Option α}
    (hget : ∀ {x}, (k, x) ∈ l → look k = some x)
    (hnone : (l.map Prod.fst).contains k = false → look k = none) :
    look k = some x ↔ (k, x) ∈ l := by
  refine ⟨fun hx => ?_, hget⟩
  cases hk : (l.map Prod.fst).contains k with
  | false => simp [hnone hk] at hx
  | true =>
    obtain ⟨⟨k', y⟩, hy, rfl⟩ := List.mem_map.mp (List.contains_iff_mem.mp hk)
    rwa [← Option.some.inj ((hget hy).symm.trans hx)]

/-- The entries of a map of the host that was made of entries in order. -/
theorem toList_extOfList (hl : Ordered l) : (Std.ExtTreeMap.ofList l).toList = l := by
  refine Ordered.eq Std.ExtTreeMap.ordered_keys_toList hl fun ⟨k, x⟩ => ?_
  rw [Std.ExtTreeMap.mem_toList_iff_getElem?_eq_some]
  exact lookup_eq_some_iff
    (Std.ExtTreeMap.getElem?_ofList_of_mem Std.ReflCmp.compare_self hl.distinct)
    Std.ExtTreeMap.getElem?_ofList_of_contains_eq_false

theorem Entries.ofList_eq (l : List (String × Value)) :
    Entries.ofList l = Std.TreeMap.ofList l := by
  rw [Std.TreeMap.ofList_eq_insertMany_empty]
  unfold Entries.ofList
  generalize (∅ : Entries) = m
  induction l generalizing m with
  | nil => rw [Std.TreeMap.insertMany_nil, List.foldl_nil]
  | cons e l ih => rw [List.foldl_cons, ih, ← Std.TreeMap.insertMany_cons]

/-- The entries of a map that was made of entries in order. -/
theorem Entries.toList_ofList {l : List (String × Value)} (hl : Ordered l) :
    (Entries.ofList l).toList = l := by
  rw [Entries.ofList_eq]
  refine Ordered.eq Std.TreeMap.ordered_keys_toList hl fun ⟨k, x⟩ => ?_
  rw [Std.TreeMap.mem_toList_iff_getElem?_eq_some]
  exact lookup_eq_some_iff
    (Std.TreeMap.getElem?_ofList_of_mem Std.ReflCmp.compare_self hl.distinct)
    Std.TreeMap.getElem?_ofList_of_contains_eq_false

end Ordered

namespace Heap

variable {h h' h'' : Heap} {v w : Value}

/-- **Loops that make new objects**: what a round establishes is not lost later. -/
theorem mapM_extends {α β : Type} {f : α → StateM Heap β} {P : α → β → Heap → Prop}
    (mono : ∀ {x y h h'}, P x y h → h.Extends h' → P x y h') {h₀ : Heap} (xs : List α)
    (step : ∀ x ∈ xs, ∀ h, h₀.Extends h → h.Extends (f x h).2 ∧ P x (f x h).1 (f x h).2)
    (hh : h₀.Extends h) : h.Extends (xs.mapM f h).2 ∧
      List.Forall₂ (fun x y => P x y (xs.mapM f h).2) xs (xs.mapM f h).1 := by
  induction xs generalizing h with
  | nil => exact ⟨.refl h, .nil⟩
  | cons x xs ih =>
    rw [List.forall_mem_cons] at step
    obtain ⟨hx, hP⟩ := step.1 h hh
    obtain ⟨hxs, hrest⟩ := ih step.2 (hh.trans hx)
    have hcons : ((x :: xs).mapM f) h =
        ((f x h).1 :: (xs.mapM f (f x h).2).1, (xs.mapM f (f x h).2).2) := by
      rw [List.mapM_cons]
      rfl
    rw [hcons]
    exact ⟨hx.trans hxs, .cons (mono hP hxs) hrest⟩

end Heap

namespace HostType

/-! ### Sizes and integers of 32 bits -/

/-- The largest integer, as a size. -/
def largest : UInt64 := 0x7fffffffffffffff

/-- A size, or the largest integer in place of a larger one. -/
def cap (n : UInt64) : UInt64 :=
  if n ≤ largest then n else largest

theorem toInt_toInt64 {n : UInt64} (hn : n < 0x8000000000000000) : n.toInt64.toInt = n.toNat :=
  BitVec.toInt_eq_toNat_of_lt (by
    have hn : n.toNat < 0x8000000000000000 := UInt64.lt_iff_toNat_lt.mp hn
    have htoNat : n.toInt64.toBitVec.toNat = n.toNat := rfl
    omega)

/-- **A size comes back** as it was, unless it is larger than every integer. -/
theorem toSize_ofSize (n : UInt64) : toSize (ofSize n) = .ok (cap n) := by
  unfold toSize ofSize cap
  split
  · rename_i hn
    have hpos : 0 ≤ n.toInt64 := by
      rw [Int64.le_iff_toInt_le, toInt_toInt64 hn]
      exact Int.natCast_nonneg _
    have hle : n ≤ largest := by
      rw [UInt64.le_iff_toNat_le]
      exact Nat.le_of_lt_succ (UInt64.lt_iff_toNat_lt.mp hn)
    rw [if_pos hpos, UInt64.toUInt64_toInt64, if_pos hle]
  · rename_i hn
    have hlt : ¬ n ≤ largest := by
      rw [UInt64.le_iff_toNat_le]
      rw [UInt64.lt_iff_toNat_lt] at hn
      exact fun hle => hn (Nat.lt_succ_of_le hle)
    rw [if_pos (by decide), if_neg hlt]
    rfl

theorem ofSize_of_toSize {n : Int64} {x : UInt64} (hx : toSize n = .ok x) : ofSize x = n := by
  unfold toSize at hx
  split at hx
  · rename_i hn
    obtain rfl := Except.ok.inj hx
    have hlt : n.toUInt64 < 0x8000000000000000 := by
      rw [UInt64.lt_iff_toNat_lt, Int64.toNat_toUInt64_of_le hn]
      have := n.toInt_lt
      show n.toInt.toNat < 2 ^ 63
      omega
    rw [ofSize, if_pos hlt, Int64.toInt64_toUInt64]
  · cases hx

/-- An integer has no sign exactly if it is a size. -/
theorem toSize_error_iff {n : Int64} : (∃ e, toSize n = .error e) ↔ n.toInt < 0 := by
  have hsign : 0 ≤ n ↔ 0 ≤ n.toInt := Int64.le_iff_toInt_le
  unfold toSize
  split
  · rename_i hn
    rw [hsign] at hn
    simp only [reduceCtorEq, exists_false, false_iff]
    omega
  · rename_i hn
    rw [hsign] at hn
    simp only [Except.error.injEq, exists_eq', true_iff]
    omega

/-- An integer of 32 bits comes back as it was. -/
theorem toInt32_toInt64 (n : Int32) : toInt32 n.toInt64 = .ok n := by
  simp [toInt32]

theorem toInt64_of_toInt32 {n : Int64} {x : Int32} (hx : toInt32 n = .ok x) : x.toInt64 = n := by
  unfold toInt32 at hx
  split at hx
  · rwa [← Except.ok.inj hx]
  · cases hx

/-- The integers that are none of 32 bits. -/
theorem toInt32_error_iff {n : Int64} :
    (∃ e, toInt32 n = .error e) ↔
      n.toInt < Int32.minValue.toInt ∨ Int32.maxValue.toInt < n.toInt := by
  rw [Int32.toInt_minValue, Int32.toInt_maxValue]
  have hfits : n.toInt32.toInt64 = n ↔ -2 ^ 31 ≤ n.toInt ∧ n.toInt < 2 ^ 31 := by
    rw [← Int64.toInt_inj, Int32.toInt_toInt64, Int64.toInt_toInt32, Int.bmod_def]
    omega
  unfold toInt32
  split
  · rename_i hn
    rw [hfits] at hn
    simp only [reduceCtorEq, exists_false, false_iff]
    omega
  · rename_i hn
    rw [hfits] at hn
    simp only [Except.error.injEq, exists_eq', true_iff]
    omega

/-! ### Types -/

/-- **The types without fractions**, in which no option has an item that stands for nil itself. -/
def Faithful : HostType → Prop
  | any | double | single => False
  | unit | bool | int64 | int32 | size | string => True
  | list t | map t => t.Faithful
  | optional t => t.Faithful ∧ ∀ (x : t.Carrier) (h : Heap), (t.toValue x h).1 ≠ .nil

/-- **What comes back** of a value of the host. -/
def capped : (t : HostType) → t.Carrier → t.Carrier
  | size, n => cap n
  | list t, xs => xs.map t.capped
  | optional t, x => x.map t.capped
  | map t, entries => entries.map fun _ x => t.capped x
  | any, x => x
  | unit, x => x
  | bool, x => x
  | int64, x => x
  | int32, x => x
  | double, x => x
  | single, x => x
  | string, x => x

/-- All sizes in a value are integers. -/
def SizesFit : (t : HostType) → t.Carrier → Prop
  | size, n => n ≤ largest
  | list t, xs => ∀ x ∈ xs, t.SizesFit x
  | optional t, x => ∀ y, x = some y → t.SizesFit y
  | map t, entries => ∀ e ∈ (entries : Std.ExtTreeMap String t.Carrier).toList, t.SizesFit e.2
  | any, _ | unit, _ | bool, _ | int64, _ | int32, _ | double, _ | single, _ | string, _ => True

theorem map_eq_self_iff {α : Type} {f : α → α} {xs : List α} :
    xs.map f = xs ↔ ∀ x ∈ xs, f x = x := by
  conv_lhs => rw [← List.map_id xs, List.map_map]
  exact List.map_inj_left

/-- **What comes back is the same** exactly if all sizes are integers. -/
theorem capped_eq_self_iff : ∀ (t : HostType) (x : t.Carrier), t.capped x = x ↔ t.SizesFit x
  | size, n => by
    unfold capped SizesFit cap
    split
    · simp [*]
    · rename_i hn
      exact ⟨fun heq => absurd (heq ▸ UInt64.le_refl _) hn, fun hle => absurd hle hn⟩
  | list t, xs => by
    unfold capped SizesFit
    rw [map_eq_self_iff]
    exact forall₂_congr fun x _ => capped_eq_self_iff t x
  | optional t, none => by
    unfold capped SizesFit
    exact ⟨fun _ _ hy => (nomatch hy), fun _ => rfl⟩
  | optional t, some x => by
    unfold capped SizesFit
    rw [Option.map_some, Option.some_inj, capped_eq_self_iff t x]
    exact ⟨fun hx y hy => Option.some.inj hy ▸ hx, fun hx => hx x rfl⟩
  | map t, entries => by
    unfold capped SizesFit
    rw [← Std.ExtTreeMap.toList_inj, Std.ExtTreeMap.toList_map, map_eq_self_iff]
    refine forall₂_congr fun e _ => ?_
    rw [← capped_eq_self_iff t e.2]
    exact ⟨fun h => congrArg Prod.snd h, fun h => Prod.ext rfl h⟩
  | any, _ | unit, _ | bool, _ | int64, _ | int32, _ | double, _ | single, _ | string, _ => by
    unfold capped SizesFit
    exact ⟨fun _ => trivial, fun _ => rfl⟩

/-! ### There and back -/

/-- **A value stands for a value of the host** from a heap on: taking it gives the value of the
host, and it equals every value of an earlier heap that the value of the host was taken from. -/
structure Stands (t : HostType) (x : t.Carrier) (h₀ : Heap) (v : Value) (h : Heap) : Prop where
  taken : ∀ h', h.Extends h' → t.fromValue h' v = .ok (t.capped x)
  equal : ∀ h', h.Extends h' → ∀ u, h₀.Owns u → t.fromValue h₀ u = .ok x →
    h'.equals? v u = some true

variable {t : HostType} {h₀ h h' : Heap} {v u : Value}

theorem Stands.mono {x : t.Carrier} (hx : t.Stands x h₀ v h) (hh : h.Extends h') :
    t.Stands x h₀ v h' where
  taken h'' hh' := hx.taken h'' (hh.trans hh')
  equal h'' hh' := hx.equal h'' (hh.trans hh')

/-- A scalar stands for a value of the host if the latter is taken from nothing else. -/
theorem stands_scalar {x : t.Carrier} (hplain : v.isPlain = true)
    (hatom : ∀ h : Heap, h.frame v = .atom v) (htaken : ∀ h', t.fromValue h' v = .ok (t.capped x))
    (honly : ∀ u, t.fromValue h₀ u = .ok x → v = u) : t.Stands x h₀ v h where
  taken h' _ := htaken h'
  equal h' _ u _ hu := honly u hu ▸ Heap.equals?_atom hplain (hatom h')

theorem fromValue_optional (hv : v ≠ .nil) :
    (optional t).fromValue h v = some <$> t.fromValue h v := by
  cases v <;> first | exact absurd rfl hv | rfl

theorem fromValue_list_eq_ok {xs : (list t).Carrier} (hu : (list t).fromValue h u = .ok xs) :
    ∃ r, u = .list r ∧ (h.list r).toList.mapM (t.fromValue h) = .ok xs := by
  cases u with
  | list r => exact ⟨r, rfl, hu⟩
  | _ => cases hu

/-- Taking an entry of a map. -/
def takeEntry (h : Heap) (t : HostType) (e : String × Value) :
    Except EngineError (String × t.Carrier) := do
  return (e.1, ← t.fromValue h e.2)

theorem takeEntry_eq_ok {e : String × Value} {f : String × t.Carrier} :
    takeEntry h t e = .ok f ↔ f.1 = e.1 ∧ t.fromValue h e.2 = .ok f.2 := by
  obtain ⟨k, x⟩ := f
  unfold takeEntry
  cases t.fromValue h e.2 with
  | error e => simp [bind, Except.bind]
  | ok y => simp [bind, Except.bind, pure, Except.pure, eq_comm]

theorem takeEntry_error_iff {e : String × Value} :
    (∃ x, takeEntry h t e = .error x) ↔ ∃ x, t.fromValue h e.2 = .error x := by
  unfold takeEntry
  cases t.fromValue h e.2 <;> simp [bind, Except.bind, pure, Except.pure]

theorem fromValue_map (h : Heap) (t : HostType) (r : Ref .map) : (map t).fromValue h (.map r) =
    (h.map r).toList.mapM (takeEntry h t) >>= fun l => pure (Std.ExtTreeMap.ofList l) :=
  rfl

theorem fromValue_map_eq_ok {x : (map t).Carrier} (hu : (map t).fromValue h u = .ok x) :
    ∃ (r : Ref .map) (l : List (String × t.Carrier)), u = .map r ∧ x = Std.ExtTreeMap.ofList l ∧
      List.Forall₂ (fun e f => f.1 = e.1 ∧ t.fromValue h e.2 = .ok f.2) (h.map r).toList l := by
  cases u with
  | map r =>
    rw [fromValue_map] at hu
    cases hl : (h.map r).toList.mapM (takeEntry h t) with
    | error e =>
      rw [hl] at hu
      cases hu
    | ok l =>
      rw [hl] at hu
      exact ⟨r, l, rfl, (Except.ok.inj hu).symm,
        (mapM_eq_ok_iff.mp hl).imp fun _ _ => takeEntry_eq_ok.mp⟩
  | _ => cases hu

/-- **A new list** stands for a list of the host if its items stand for those of the host. -/
theorem stands_list (hh₀ : h₀.Extends h) {xs : (list t).Carrier} {vs : List Value}
    (hvs : List.Forall₂ (fun x v => t.Stands x h₀ v h) xs vs) :
    (list t).Stands xs h₀ (h.buildList vs).1 (h.buildList vs).2 := by
  have hextends : h.Extends (h.buildList vs).2 := .newList h vs.toArray
  have hlist {h' : Heap} (hh : (h.buildList vs).2.Extends h') :
      (h'.list ⟨h.lists.size⟩).toList = vs := by
    rw [hh.list (by simp [Heap.buildList, Heap.newList])]
    simp [Heap.buildList, Heap.newList, Heap.list, Array.getD_eq_getD_getElem?]
  constructor
  · intro h' hh
    show (h'.list ⟨h.lists.size⟩).toList.mapM (t.fromValue h') = _
    unfold capped
    rw [hlist hh, mapM_eq_ok_iff, List.forall₂_map_right_iff]
    exact (hvs.imp fun x v hx => hx.taken h' (hextends.trans hh)).flip
  · intro h' hh u hown hu
    obtain ⟨r, rfl, hitems⟩ := fromValue_list_eq_ok hu
    have hr : h'.list r = h₀.list r := ((hh₀.trans hextends).trans hh).list (hown _ .refl)
    refine Heap.equals?_of_items ?_
    rw [hlist hh, hr]
    refine forall₂_of_middle hvs (mapM_eq_ok_iff.mp hitems) fun x v u hmem hx hu => ?_
    exact hx.equal h' (hextends.trans hh) u (hown.part hmem) hu

/-- **A new map** stands for a map of the host if its values stand for those of the host. -/
theorem stands_map (hh₀ : h₀.Extends h) {x : (map t).Carrier} {es : List (String × Value)}
    (hes : List.Forall₂ (fun e f => e.1 = f.1 ∧ t.Stands e.2 h₀ f.2 h)
      (x : Std.ExtTreeMap String t.Carrier).toList es) :
    (map t).Stands x h₀ (h.buildMap es).1 (h.buildMap es).2 := by
  have hextends : h.Extends (h.buildMap es).2 := .newMap h (Entries.ofList es)
  have hordered : Ordered es :=
    Ordered.of_keys Std.ExtTreeMap.ordered_keys_toList hes fun _ _ he => he.1
  have hmap {h' : Heap} (hh : (h.buildMap es).2.Extends h') :
      (h'.map ⟨h.maps.size⟩).toList = es := by
    rw [hh.map (by simp [Heap.buildMap, Heap.newMap])]
    simp [Heap.buildMap, Heap.newMap, Heap.map, Array.getD_eq_getD_getElem?,
      Entries.toList_ofList hordered]
  constructor
  · intro h' hh
    have htaken : es.mapM (takeEntry h' t) =
        .ok ((t.map.capped x : Std.ExtTreeMap String t.Carrier).toList) := by
      unfold capped
      rw [mapM_eq_ok_iff, Std.ExtTreeMap.toList_map, List.forall₂_map_right_iff]
      refine (hes.imp fun e f he => ?_).flip
      exact takeEntry_eq_ok.mpr ⟨he.1, he.2.taken h' (hextends.trans hh)⟩
    show (map t).fromValue h' (.map ⟨h.maps.size⟩) = _
    rw [fromValue_map, hmap hh, htaken]
    refine congrArg Except.ok (Std.ExtTreeMap.toList_inj.mp ?_)
    exact toList_extOfList Std.ExtTreeMap.ordered_keys_toList
  · intro h' hh u hown hu
    obtain ⟨r, l, rfl, rfl, hl⟩ := fromValue_map_eq_ok hu
    have hr : h'.map r = h₀.map r := ((hh₀.trans hextends).trans hh).map (hown _ .refl)
    have hl' : Ordered l :=
      Ordered.of_keys Std.TreeMap.ordered_keys_toList hl fun _ _ he => he.1.symm
    rw [toList_extOfList hl'] at hes
    refine Heap.equals?_of_entries ?_
    rw [hmap hh, hr]
    refine forall₂_of_middle hes hl fun e f g hmem he hg => ⟨he.1.symm.trans hg.1, ?_⟩
    exact he.2.equal h' (hextends.trans hh) g.2 (hown.part (List.mem_map_of_mem hmem)) hg.2

/-- **The value made for a value of the host** stands for it, and only new objects are made. -/
theorem stands_toValue : ∀ (t : HostType), t.Faithful → ∀ (x : t.Carrier) {h₀ h : Heap},
    h₀.Extends h → h.Extends (t.toValue x h).2 ∧ t.Stands x h₀ (t.toValue x h).1 (t.toValue x h).2
  | unit, _, (), h₀, h, _ => by
    refine ⟨.refl h, stands_scalar rfl (fun _ => rfl) (fun _ => rfl) fun u hu => ?_⟩
    cases u <;> first | rfl | cases hu
  | bool, _, b, h₀, h, _ => by
    refine ⟨.refl h, stands_scalar rfl (fun _ => rfl) (fun _ => rfl) fun u hu => ?_⟩
    cases u <;> first | exact congrArg Value.bool (Except.ok.inj hu).symm | cases hu
  | int64, _, n, h₀, h, _ => by
    refine ⟨.refl h, stands_scalar rfl (fun _ => rfl) (fun _ => rfl) fun u hu => ?_⟩
    cases u <;> first | exact congrArg Value.int (Except.ok.inj hu).symm | cases hu
  | int32, _, n, h₀, h, _ => by
    refine ⟨.refl h, stands_scalar rfl (fun _ => rfl) (fun _ => toInt32_toInt64 n) fun u hu => ?_⟩
    cases u <;> first | exact congrArg Value.int (toInt64_of_toInt32 hu) | cases hu
  | size, _, n, h₀, h, _ => by
    refine ⟨.refl h, stands_scalar rfl (fun _ => rfl) (fun _ => toSize_ofSize n) fun u hu => ?_⟩
    cases u <;> first | exact congrArg Value.int (ofSize_of_toSize hu) | cases hu
  | string, _, s, h₀, h, _ => by
    refine ⟨.refl h, stands_scalar rfl (fun _ => rfl) (fun _ => rfl) fun u hu => ?_⟩
    cases u <;> first | exact congrArg Value.str (Except.ok.inj hu).symm | cases hu
  | list t, ht, xs, h₀, h, hh => by
    have hloop := Heap.mapM_extends (f := t.toValue) (P := fun x v h => t.Stands x h₀ v h)
      Stands.mono xs (fun x _ h hh => stands_toValue t ht x hh) hh
    exact ⟨hloop.1.trans (.newList _ _), stands_list (hh.trans hloop.1) hloop.2⟩
  | optional t, _, none, h₀, h, _ => by
    refine ⟨.refl h, stands_scalar rfl (fun _ => rfl) (fun _ => rfl) fun u hu => ?_⟩
    by_cases hnil : u = .nil
    · exact hnil.symm
    · rw [fromValue_optional hnil] at hu
      cases hv : t.fromValue h₀ u <;> simp [hv] at hu
  | optional t, ht, some x, h₀, h, hh => by
    obtain ⟨hextends, hx⟩ := stands_toValue t ht.1 x hh
    refine ⟨hextends, fun h' hh' => ?_, fun h' hh' u hown hu => ?_⟩
    · show (optional t).fromValue h' (t.toValue x h).1 = _
      rw [fromValue_optional (ht.2 x h)]
      exact congrArg (some <$> ·) (hx.taken h' hh')
    · refine hx.equal h' hh' u hown ?_
      by_cases hnil : u = .nil
      · subst hnil
        cases hu
      · rw [fromValue_optional hnil] at hu
        cases hv : t.fromValue h₀ u <;> simp_all
  | map t, ht, x, h₀, h, hh => by
    have hloop := Heap.mapM_extends (f := fun (e : String × t.Carrier) => do
        return (e.1, ← t.toValue e.2))
      (P := fun e f h => e.1 = f.1 ∧ t.Stands e.2 h₀ f.2 h) (fun he hh => ⟨he.1, he.2.mono hh⟩)
      (x : Std.ExtTreeMap String t.Carrier).toList
      (fun e _ h hh => ⟨(stands_toValue t ht e.2 hh).1, rfl, (stands_toValue t ht e.2 hh).2⟩) hh
    exact ⟨hloop.1.trans (.newMap _ _), stands_map (hh.trans hloop.1) hloop.2⟩

/-! ### Values that do not fit -/

/-- **The parts of a value** and the parts of the type that they stand at. -/
inductive Meets (h : Heap) : HostType → Value → HostType → Value → Prop
  | self (t : HostType) (v : Value) : Meets h t v t v
  | item {t s : HostType} {r : Ref .list} {v w : Value} :
    v ∈ h.list r → Meets h t v s w → Meets h (list t) (.list r) s w
  | entry {t s : HostType} {r : Ref .map} {k : String} {v w : Value} :
    (h.map r)[k]? = some v → Meets h t v s w → Meets h (map t) (.map r) s w
  | present {t s : HostType} {v w : Value} :
    v ≠ .nil → Meets h t v s w → Meets h (optional t) v s w

/-- A value is of the wrong kind for a type. -/
def WrongKind : HostType → Value → Prop
  | any, _ | optional _, _ => False
  | unit, v => v ≠ .nil
  | bool, v => ∀ b, v ≠ .bool b
  | int64, v | int32, v | size, v => ∀ n, v ≠ .int n
  | double, v | single, v => v.toDouble? = none
  | string, v => ∀ s, v ≠ .str s
  | list _, v => ∀ r, v ≠ .list r
  | map _, v => ∀ r, v ≠ .map r

/-- An integer is out of the range of a type. -/
def OutOfRange : HostType → Value → Prop
  | int32, .int n => n.toInt < Int32.minValue.toInt ∨ Int32.maxValue.toInt < n.toInt
  | size, .int n => n.toInt < 0
  | _, _ => False

/-- A value that a type does not take for what it is itself. -/
def Unfit (t : HostType) (v : Value) : Prop :=
  t.WrongKind v ∨ t.OutOfRange v

/-- An unfit value is refused. -/
theorem fromValue_error_of_unfit {t : HostType} (hv : t.Unfit v) :
    ∃ e, t.fromValue h v = .error e := by
  rcases hv with hkind | hrange
  · cases t with
    | any | optional t => exact hkind.elim
    | double => exact ⟨_, by unfold fromValue toNumber; rw [hkind]; rfl⟩
    | single => exact ⟨_, by unfold fromValue toNumber; rw [hkind]; rfl⟩
    | _ => cases v <;> first | exact ⟨_, rfl⟩ | exact absurd rfl (hkind _) | exact absurd rfl hkind
  · unfold OutOfRange at hrange
    split at hrange
    · exact toInt32_error_iff.mpr hrange
    · exact toSize_error_iff.mpr hrange
    · exact hrange.elim

theorem fromValue_map_error_iff {r : Ref .map} :
    (∃ e, (map t).fromValue h (.map r) = .error e) ↔
      ∃ (k : String) (v : Value), (h.map r)[k]? = some v ∧ ∃ e, t.fromValue h v = .error e := by
  have hloop : (∃ e, (map t).fromValue h (.map r) = .error e) ↔
      ∃ e, (h.map r).toList.mapM (takeEntry h t) = .error e := by
    rw [fromValue_map]
    cases (h.map r).toList.mapM (takeEntry h t) <;> simp [bind, Except.bind, pure, Except.pure]
  rw [hloop, mapM_error_iff]
  constructor
  · rintro ⟨⟨k, v⟩, hmem, hv⟩
    exact ⟨k, v, Std.TreeMap.mem_toList_iff_getElem?_eq_some.mp hmem, takeEntry_error_iff.mp hv⟩
  · rintro ⟨k, v, hget, hv⟩
    exact ⟨(k, v), Std.TreeMap.mem_toList_iff_getElem?_eq_some.mpr hget,
      takeEntry_error_iff.mpr hv⟩

/-- A value with an unfit part is refused as a whole. -/
theorem Meets.fromValue_error {t s : HostType} (hmeets : Meets h t v s w) (hw : s.Unfit w) :
    ∃ e, t.fromValue h v = .error e := by
  induction hmeets with
  | self t v => exact fromValue_error_of_unfit hw
  | @item t s r v w hmem _ ih => exact mapM_error_iff.mpr ⟨v, hmem.val, ih hw⟩
  | @entry t s r k v w hget _ ih => exact fromValue_map_error_iff.mpr ⟨k, v, hget, ih hw⟩
  | @present t s v w hnil _ ih =>
    obtain ⟨e, he⟩ := ih hw
    exact ⟨e, by rw [fromValue_optional hnil, he]; rfl⟩

/-- What is refused has an unfit part. -/
theorem exists_unfit : ∀ (t : HostType), t.Faithful → ∀ {v : Value},
    (∃ e, t.fromValue h v = .error e) → ∃ s w, Meets h t v s w ∧ s.Unfit w
  | unit, _, v, hv => by
    refine ⟨_, _, .self _ _, .inl fun hnil => ?_⟩
    subst hnil
    obtain ⟨e, he⟩ := hv
    cases he
  | bool, _, v, hv | int64, _, v, hv | string, _, v, hv => by
    refine ⟨_, _, .self _ _, .inl fun x hx => ?_⟩
    subst hx
    obtain ⟨e, he⟩ := hv
    cases he
  | int32, _, v, hv => by
    refine ⟨_, _, .self _ _, ?_⟩
    cases v with
    | int n => exact .inr (toInt32_error_iff.mp hv)
    | _ => exact .inl nofun
  | size, _, v, hv => by
    refine ⟨_, _, .self _ _, ?_⟩
    cases v with
    | int n => exact .inr (toSize_error_iff.mp hv)
    | _ => exact .inl nofun
  | list t, ht, v, hv => by
    cases v with
    | list r =>
      obtain ⟨u, hu, herror⟩ := mapM_error_iff.mp hv
      obtain ⟨s, w, hmeets, hw⟩ := exists_unfit t ht herror
      exact ⟨s, w, .item (Array.mem_def.mpr hu) hmeets, hw⟩
    | _ => exact ⟨_, _, .self _ _, .inl nofun⟩
  | optional t, ht, v, hv => by
    have hnil : v ≠ .nil := by
      rintro rfl
      obtain ⟨e, he⟩ := hv
      cases he
    rw [fromValue_optional hnil] at hv
    have herror : ∃ e, t.fromValue h v = .error e := by
      cases he : t.fromValue h v with
      | error e => exact ⟨e, rfl⟩
      | ok x => simp [he] at hv
    obtain ⟨s, w, hmeets, hw⟩ := exists_unfit t ht.1 herror
    exact ⟨s, w, .present hnil hmeets, hw⟩
  | map t, ht, v, hv => by
    cases v with
    | map r =>
      obtain ⟨k, u, hu, herror⟩ := fromValue_map_error_iff.mp hv
      obtain ⟨s, w, hmeets, hw⟩ := exists_unfit t ht herror
      exact ⟨s, w, .entry hu hmeets, hw⟩
    | _ => exact ⟨_, _, .self _ _, .inl nofun⟩

/-- **Taking a value fails** exactly if some part of it is of the wrong kind or out of range for the
part of the type that it stands at. -/
theorem fromValue_fails_iff (ht : t.Faithful) :
    (∃ e, t.fromValue h v = .error e) ↔ ∃ s w, Meets h t v s w ∧ s.Unfit w :=
  ⟨exists_unfit t ht, fun ⟨_, _, hmeets, hw⟩ => hmeets.fromValue_error hw⟩

/-! ### Both conversions -/

/-- **Conversions agree.** Of a value that the host hands over and takes back, everything comes back
but what the sizes have beyond the largest integer. What the host takes and hands back equals the
old value. A value with a part of the wrong kind or out of range, and no other, is refused as a
whole. -/
theorem conversions_agree (t : HostType) (ht : t.Faithful) :
    (∀ (x : t.Carrier) (h : Heap),
      t.fromValue (t.toValue x h).2 (t.toValue x h).1 = .ok (t.capped x)) ∧
    (∀ x : t.Carrier, t.capped x = x ↔ t.SizesFit x) ∧
    (∀ (h : Heap) (v : Value) (x : t.Carrier), h.Owns v → t.fromValue h v = .ok x →
      (t.toValue x h).2.equals? (t.toValue x h).1 v = some true) ∧
    ∀ (h : Heap) (v : Value), (∃ e, t.fromValue h v = .error e) ↔
      ∃ s w, Meets h t v s w ∧ (s.WrongKind w ∨ s.OutOfRange w) :=
  ⟨fun x h => (stands_toValue t ht x (.refl h)).2.taken _ (.refl _), capped_eq_self_iff t,
    fun h v x hown hx => (stands_toValue t ht x (.refl h)).2.equal _ (.refl _) v hown hx,
    fun _ _ => fromValue_fails_iff ht⟩

/-- A list with a size, an empty place and a size that no integer is. -/
theorem sizes_agree :
    (list (optional size)).fromValue ((list (optional size)).toValue [some 3, none] {}).2
        ((list (optional size)).toValue [some 3, none] {}).1 = .ok [some 3, none] ∧
      (list (optional size)).capped [some 3, none, some 0x8000000000000000] =
        [some 3, none, some 0x7fffffffffffffff] := by
  have ht : (list (optional size)).Faithful := ⟨trivial, fun _ _ => nofun⟩
  exact ⟨(conversions_agree _ ht).1 [some 3, none] {}, by decide⟩

/-- **Not everything comes back**: the size after the largest integer does not. -/
theorem not_comesBack : ¬ ∀ (t : HostType), t.Faithful → ∀ (x : t.Carrier) (h : Heap),
    t.fromValue (t.toValue x h).2 (t.toValue x h).1 = .ok x := by
  intro hall
  have hsize := hall size trivial 0x8000000000000000 {}
  have hcapped : size.fromValue (size.toValue 0x8000000000000000 {}).2
      (size.toValue 0x8000000000000000 {}).1 = .ok 0x7fffffffffffffff := rfl
  have hne : (0x7fffffffffffffff : UInt64) ≠ 0x8000000000000000 := by decide
  exact hne (Except.ok.inj (hcapped.symm.trans hsize))

end HostType

end ScriptEngine
