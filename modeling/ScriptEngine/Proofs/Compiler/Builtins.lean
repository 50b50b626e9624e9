import ScriptEngine.Builtin.Registry
import ScriptEngine.Proofs.Compiler.WellFormed

/-!
# The numbers of builtins

The compiler and the registry of an engine both give numbers to the names of builtins, and neither
looks at the other. They agree because both number the names in the order in which they come and
never number a name twice.

## Main definitions

* `ScriptEngine.Finds`: every name is found at its place in a list;
* `ScriptEngine.Registry.Indexed`, `ScriptEngine.ScopeTable.Numbered`: registries and tables that
  find their names;
* `ScriptEngine.Compiler.AtTop`: no function, no block and no pipe is open.

## Main results

* `ScriptEngine.Registry.get?_insert`: the values in a registry after one was registered;
* `ScriptEngine.ScopeTable.Numbered.addBuiltin`: where a table puts a name;
* `ScriptEngine.Compiler.AtTop.compile`: batches add nothing to the builtins.
-/

namespace ScriptEngine

open ScopeTable

/-! ### Names and their places -/

/-- **Every name is found at its place** in a list, and nowhere else. -/
def Finds (find : String → Option Nat) (names : List String) : Prop :=
  ∀ (name : String) (i : Nat), find name = some i ↔ names[i]? = some name

namespace Finds

variable {find find' : String → Option Nat} {names : List String} {name : String}

theorem nodup (h : Finds find names) : names.Nodup := by
  refine List.pairwise_iff_getElem.mpr fun i j hi hj hlt heq => ?_
  have hatI : find names[i] = some i := (h _ _).mpr (List.getElem?_eq_getElem hi)
  have hatJ : find names[j] = some j := (h _ _).mpr (List.getElem?_eq_getElem hj)
  rw [heq, hatJ] at hatI
  exact absurd (Option.some.inj hatI) (Nat.ne_of_gt hlt)

theorem not_mem (h : Finds find names) (hn : find name = none) : name ∉ names := by
  intro hm
  obtain ⟨i, hi⟩ := List.getElem?_of_mem hm
  cases hn.symm.trans ((h name i).mpr hi)

/-- **A new name** is put at the end. -/
theorem concat (h : Finds find names) (hn : find name = none) :
    Finds (fun other => if name == other then some names.length else find other)
      (names ++ [name]) := by
  intro other j
  dsimp only
  by_cases heq : name = other
  · subst heq
    rw [beq_self_eq_true, if_pos rfl]
    rcases Nat.lt_trichotomy j names.length with hlt | rfl | hgt
    · rw [List.getElem?_append_left hlt, ← h name j, hn]
      exact ⟨fun hj => absurd (Option.some.inj hj) (Nat.ne_of_gt hlt), nofun⟩
    · rw [List.getElem?_append_right (Nat.le_refl _), Nat.sub_self]
      exact ⟨fun _ => rfl, fun _ => rfl⟩
    · rw [List.getElem?_eq_none (by rw [List.length_append, List.length_singleton]; omega)]
      exact ⟨fun hj => absurd (Option.some.inj hj) (Nat.ne_of_lt hgt), nofun⟩
  · rw [if_neg (beq_eq_false_iff_ne.mpr heq ▸ Bool.false_ne_true), h other j]
    rcases Nat.lt_or_ge j names.length with hlt | hge
    · rw [List.getElem?_append_left hlt]
    · rw [List.getElem?_eq_none hge, List.getElem?_append_right hge]
      refine ⟨nofun, fun hj => absurd ?_ heq⟩
      exact (List.mem_singleton.mp (List.mem_of_getElem? hj)).symm

end Finds

/-- The names after one was registered, maybe not for the first time. -/
def namesWith (names : List String) (name : String) : List String :=
  if name ∈ names then names else names ++ [name]

theorem namesWith_of_mem {names : List String} {name : String} (h : name ∈ names) :
    namesWith names name = names :=
  if_pos h

theorem namesWith_of_not_mem {names : List String} {name : String} (h : name ∉ names) :
    namesWith names name = names ++ [name] :=
  if_neg h

/-- Different names are put in one after the other. -/
theorem foldl_namesWith {names more : List String} (h : (names ++ more).Nodup) :
    more.foldl namesWith names = names ++ more := by
  induction more generalizing names with
  | nil => exact (List.append_nil names).symm
  | cons name more ih =>
    have hn : name ∉ names := by
      intro hm
      exact (List.nodup_append.mp h).2.2 name hm name List.mem_cons_self rfl
    rw [List.foldl_cons, namesWith_of_not_mem hn, ih (by rwa [List.append_assoc]),
      List.append_assoc]
    rfl

/-! ### Registries -/

namespace Registry

variable {r : Registry} {name other : String} {v : Value} {i : Nat}

/-- **A registry in which every name stands at its index.** -/
def Indexed (r : Registry) : Prop :=
  Finds (r.index[·]?) r.names

theorem getElem?_names (r : Registry) (i : Nat) : r.names[i]? = r.entries[i]?.map Prod.fst := by
  unfold names
  rw [List.getElem?_map, Array.getElem?_toList]

theorem length_names (r : Registry) : r.names.length = r.entries.size := by
  unfold names
  rw [List.length_map, Array.length_toList]

theorem indexed_empty : Indexed {} := by
  intro name i
  simp [names]

theorem insert_known (h : r.Indexed) (hk : r.index[name]? = some i) (v : Value) :
    (r.insert name v).1 = i ∧ (r.insert name v).2.names = r.names ∧
      (r.insert name v).2.index = r.index := by
  have hname : r.names[i]? = some name := (h name i).mp hk
  unfold insert
  rw [hk]
  refine ⟨rfl, List.ext_getElem? fun j => ?_, rfl⟩
  rw [getElem?_names, getElem?_names, Array.getElem?_setIfInBounds]
  split
  · rename_i hij
    subst hij
    rw [getElem?_names] at hname
    obtain ⟨_, he, hfst⟩ := Option.map_eq_some_iff.mp hname
    rw [if_pos (Array.getElem?_eq_some_iff.mp he).1, he]
    exact congrArg some hfst.symm
  · rfl

theorem insert_new (hk : r.index[name]? = none) (v : Value) :
    (r.insert name v).1 = r.names.length ∧ (r.insert name v).2.names = r.names ++ [name] ∧
      (r.insert name v).2.index = r.index.insert name r.names.length := by
  unfold insert
  rw [hk, length_names]
  refine ⟨rfl, ?_, rfl⟩
  unfold names
  rw [Array.toList_push, List.map_append]
  rfl

theorem Indexed.insert (h : r.Indexed) (name : String) (v : Value) :
    (r.insert name v).2.Indexed := by
  unfold Indexed
  cases hk : r.index[name]? with
  | some i =>
    obtain ⟨-, hnames, hindex⟩ := insert_known h hk v
    rw [hnames, hindex]
    exact h
  | none =>
    obtain ⟨-, hnames, hindex⟩ := insert_new hk v
    rw [hnames, hindex]
    simp only [Std.HashMap.getElem?_insert]
    exact Finds.concat h hk

theorem names_insert (h : r.Indexed) (name : String) (v : Value) :
    (r.insert name v).2.names = namesWith r.names name := by
  cases hk : r.index[name]? with
  | some i =>
    have hm : name ∈ r.names := List.mem_of_getElem? ((h name i).mp hk)
    rw [(insert_known h hk v).2.1, namesWith_of_mem hm]
  | none => rw [(insert_new hk v).2.1, namesWith_of_not_mem (h.not_mem hk)]

/-- The names that were there stay in front. -/
theorem names_prefix_insert (h : r.Indexed) (name : String) (v : Value) :
    r.names <+: (r.insert name v).2.names := by
  rw [names_insert h]
  unfold namesWith
  split
  · exact List.prefix_rfl
  · exact List.prefix_append ..

/-- A registered name stands at the index that is answered. -/
theorem getElem?_names_insert (h : r.Indexed) (name : String) (v : Value) :
    (r.insert name v).2.names[(r.insert name v).1]? = some name := by
  cases hk : r.index[name]? with
  | some i =>
    obtain ⟨h1, h2, -⟩ := insert_known h hk v
    rw [h1, h2]
    exact (h name i).mp hk
  | none =>
    obtain ⟨h1, h2, -⟩ := insert_new hk v
    rw [h1, h2, List.getElem?_append_right (Nat.le_refl _), Nat.sub_self]
    rfl

/-- All names but the registered one were there before. -/
theorem getElem?_names_of_insert (h : r.Indexed) (hne : other ≠ name)
    (hi : (r.insert name v).2.names[i]? = some other) : r.names[i]? = some other := by
  cases hk : r.index[name]? with
  | some k => rwa [(insert_known h hk v).2.1] at hi
  | none =>
    rw [(insert_new hk v).2.1] at hi
    rcases Nat.lt_or_ge i r.names.length with hlt | hge
    · rwa [List.getElem?_append_left hlt] at hi
    · rw [List.getElem?_append_right hge] at hi
      exact absurd (List.mem_singleton.mp (List.mem_of_getElem? hi)) hne

/-- **The value at an index** is the new one for the registered name, and the old one for all
others. -/
theorem get?_insert (h : r.Indexed) (hi : (r.insert name v).2.names[i]? = some other) :
    (r.insert name v).2.get? i = if other = name then some v else r.get? i := by
  have hindex := (h.insert name v other i).mpr hi
  unfold get?
  cases hk : r.index[name]? with
  | some k =>
    obtain ⟨-, hnames, hsame⟩ := insert_known h hk v
    have hentries : (r.insert name v).2.entries = r.entries.setIfInBounds k (name, v) := by
      unfold Registry.insert
      rw [hk]
    rw [hsame] at hindex
    rw [hnames, getElem?_names] at hi
    rw [hentries, Array.getElem?_setIfInBounds]
    by_cases hki : k = i
    · subst hki
      obtain rfl : other = name := Option.some.inj (((h _ _).mp hindex).symm.trans ((h _ _).mp hk))
      obtain ⟨_, he, -⟩ := Option.map_eq_some_iff.mp hi
      rw [if_pos rfl, if_pos rfl, if_pos (Array.getElem?_eq_some_iff.mp he).1]
      rfl
    · have hne : other ≠ name := by
        rintro rfl
        exact hki (Option.some.inj (hk.symm.trans hindex))
      rw [if_neg hki, if_neg hne]
  | none =>
    obtain ⟨-, hnames, -⟩ := insert_new hk v
    have hentries : (r.insert name v).2.entries = r.entries.push (name, v) := by
      unfold Registry.insert
      rw [hk]
    rw [hnames] at hi
    rw [hentries, Array.getElem?_push]
    by_cases hlt : i = r.entries.size
    · rw [hlt, ← length_names, List.getElem?_append_right (Nat.le_refl _), Nat.sub_self] at hi
      obtain rfl : name = other := Option.some.inj hi
      rw [if_pos hlt, if_pos rfl]
      rfl
    · have hne : other ≠ name := by
        rintro rfl
        have hlen := (List.getElem?_eq_some_iff.mp hi).1
        rw [List.length_append, List.length_singleton, length_names] at hlen
        rw [List.getElem?_append_left (by rw [length_names]; omega)] at hi
        cases hk.symm.trans ((h _ _).mpr hi)
      rw [if_neg hlt, if_neg hne]

end Registry

/-! ### The numbers of builtins -/

/-- **A table in which every builtin stands at its number.** -/
structure ScopeTable.Numbered (t : ScopeTable) : Prop where
  finds : Finds (fun name => (t.builtinIndex[name]?).map UInt16.toNat) t.builtins.toList
  size : t.builtins.size ≤ wordCount

theorem ScopeTable.numbered_empty : ScopeTable.empty.Numbered := by
  refine ⟨fun name i => ?_, Nat.zero_le _⟩
  simp [ScopeTable.empty]

/-- **A builtin stands at the number that is answered**, and all others stay where they are. -/
theorem ScopeTable.Numbered.addBuiltin {t t' : ScopeTable} {name : String} {w : Word}
    (h : t.Numbered) (ha : ScopeTable.addBuiltin name t = .ok w t') :
    t'.Numbered ∧ t'.builtins.toList = namesWith t.builtins.toList name ∧
      t'.builtins.toList[w.toNat]? = some name := by
  cases hk : t.builtinIndex[name]? with
  | some number =>
    rw [addBuiltin_known hk] at ha
    cases ha
    have hn := (h.finds name w.toNat).mp (congrArg (Option.map UInt16.toNat) hk)
    exact ⟨h, (namesWith_of_mem (List.mem_of_getElem? hn)).symm, hn⟩
  | none =>
    rw [addBuiltin_new hk] at ha
    split at ha
    · cases ha
    rename_i hroom
    cases ha
    have hnone := congrArg (Option.map UInt16.toNat) hk
    have hsize : t.builtins.size.toUInt16.toNat = t.builtins.size :=
      Nat.mod_eq_of_lt (Nat.lt_of_not_le hroom)
    have hlength : t.builtins.toList.length = t.builtins.size := Array.length_toList
    refine ⟨⟨?_, ?_⟩, ?_, ?_⟩
    · have := h.finds.concat hnone
      rw [hlength] at this
      simp only [Array.toList_push, Std.HashMap.getElem?_insert,
        apply_ite (Option.map UInt16.toNat), Option.map_some, hsize]
      exact this
    · rw [Array.size_push]
      exact Nat.lt_of_not_le hroom
    · rw [namesWith_of_not_mem (h.finds.not_mem hnone), Array.toList_push]
    · rw [hsize, Array.toList_push, ← hlength, List.getElem?_append_right (Nat.le_refl _),
        Nat.sub_self]
      rfl

/-- Many builtins are added in order. -/
theorem ScopeTable.Numbered.addBuiltins {names : List String} {t t' : ScopeTable}
    (h : t.Numbered)
    (ha : (names.forM fun name => do let _ ← ScopeTable.addBuiltin name) t = .ok () t') :
    t'.Numbered ∧ t'.builtins.toList = names.foldl namesWith t.builtins.toList := by
  induction names generalizing t with
  | nil =>
    cases ha
    exact ⟨h, rfl⟩
  | cons name names ih =>
    obtain ⟨_, t₁, hone, hmore⟩ := bind_eq_ok.mp ha
    obtain ⟨w, t₂, hadd, hpure⟩ := bind_eq_ok.mp hone
    cases hpure
    obtain ⟨h₁, hnames, -⟩ := h.addBuiltin hadd
    obtain ⟨h₂, hall⟩ := ih h₁ hmore
    exact ⟨h₂, by rw [hall, hnames, List.foldl_cons]⟩

/-! ### Compilers -/

namespace Compiler

variable {c : Compiler}

/-- **No function, no block and no pipe is open.** -/
structure AtTop (c : Compiler) : Prop where
  scope : c.main.scope = root
  inPipe : c.main.inPipe = false
  units : c.units = []

/-- **A batch**, accepted or refused, adds nothing to the builtins. -/
theorem AtTop.compile (h : c.AtTop) (hw : c.table.WellFormed) (fs : Array Function)
    (program : Program) :
    (c.compile fs program).2.1.AtTop ∧ (c.compile fs program).2.1.table.WellFormed ∧
      c.table.Grows (c.compile fs program).2.1.table := by
  have hinside : Emission.Inside False c.table root [] True (c.emission fs) := by
    obtain ⟨table, body, units, source⟩ := c
    obtain ⟨hscope, hpipe, rfl⟩ := h
    exact ⟨.refl hw hw.nonempty, hscope, rfl, fun _ => hpipe⟩
  obtain ⟨hok, herr⟩ :=
    (Plan.ofStatements program).keeps_emit False.elim c.table root [] True _ hinside
  rw [Plan.emit_ofStatements] at hok herr
  unfold Compiler.compile
  dsimp only
  cases hs : Generate.statements program (c.emission fs) with
  | ok u s =>
    obtain ⟨grew, hscope, henclosing, hpipe⟩ := hok u s hs
    obtain ⟨table, body, enclosing, source, functions⟩ := s
    obtain rfl : enclosing = [] := henclosing
    exact ⟨⟨hscope, hpipe trivial, rfl⟩, grew.wellFormed, grew.grows⟩
  | error e s =>
    have grew := herr e s hs
    exact ⟨⟨rfl, rfl, rfl⟩, grew.wellFormed, grew.grows⟩

theorem AtTop.declareGlobal (h : c.AtTop) (hw : c.table.WellFormed) (name : String) :
    (c.declareGlobal name).2.AtTop ∧ (c.declareGlobal name).2.table.WellFormed ∧
      c.table.Grows (c.declareGlobal name).2.table := by
  obtain heq | ⟨symbol, t, hd, heq⟩ := c.declareGlobal_cases name
  · rw [heq]
    exact ⟨h, hw, .refl _⟩
  · obtain ⟨hw', g, -⟩ := declare_spec hw hw.nonempty hd
    rw [heq]
    exact ⟨⟨h.scope, h.inPipe, h.units⟩, hw', g⟩

/-- **A builtin**, which is refused if there is no room. -/
theorem AtTop.addBuiltin (h : c.AtTop) (hw : c.table.WellFormed) (hn : c.table.Numbered)
    (name : String) :
    (c.addBuiltin name).2.AtTop ∧ (c.addBuiltin name).2.table.WellFormed ∧
      (c.addBuiltin name).2.table.Numbered ∧
      (∀ e, (c.addBuiltin name).1 = .error e → (c.addBuiltin name).2.table = c.table) ∧
      ∀ w, (c.addBuiltin name).1 = .ok w →
        (c.addBuiltin name).2.table.builtins.toList = namesWith c.table.builtins.toList name ∧
        (c.addBuiltin name).2.table.builtins.toList[w.toNat]? = some name := by
  obtain ⟨herr, hok⟩ := addBuiltin_spec name hw
  unfold Compiler.addBuiltin onTable
  cases ha : ScopeTable.addBuiltin name c.table with
  | ok w t =>
    obtain ⟨hw', -, -⟩ := hok w t ha
    obtain ⟨hn', hnames, hat⟩ := hn.addBuiltin ha
    refine ⟨⟨h.scope, h.inPipe, h.units⟩, hw', hn', nofun, fun w' hw => ?_⟩
    obtain rfl := Except.ok.inj hw
    exact ⟨hnames, hat⟩
  | error e t =>
    obtain rfl := herr e t ha
    exact ⟨⟨h.scope, h.inPipe, h.units⟩, hw, hn, fun _ _ => rfl, nofun⟩

/-- **A compiler that was just made** knows the given builtins, in order. -/
theorem atTop_withBuiltins {names : List String} (h : Compiler.withBuiltins names = .ok c) :
    c.AtTop ∧ c.table.WellFormed ∧ c.table.Numbered ∧
      c.table.builtins.toList = names.foldl namesWith [] := by
  obtain ⟨t, rfl, hw, -⟩ := withBuiltins_spec h
  refine ⟨⟨rfl, rfl, rfl⟩, hw, ?_⟩
  unfold Compiler.withBuiltins ScopeTable.withBuiltins at h
  cases hr : (names.forM fun name => do let _ ← ScopeTable.addBuiltin name).run
      ScopeTable.empty with
  | error e t' =>
    rw [hr] at h
    cases h
  | ok u t' =>
    rw [hr] at h
    obtain rfl : t' = t := congrArg Compiler.table (Except.ok.inj h)
    exact numbered_empty.addBuiltins hr

end Compiler

end ScriptEngine
