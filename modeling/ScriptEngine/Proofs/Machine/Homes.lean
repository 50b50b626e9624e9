import Mathlib.Data.List.Flatten
import Mathlib.Data.List.Perm.Subperm
import ScriptEngine.Proofs.Compiler.Homes
import ScriptEngine.Proofs.Machine.Values

/-!
# Cells and the variables that they are for

A variable that is captured lives in a cell, which was made for it in the activation that owns it.
For which variable a cell was made is not kept anywhere at run time; it is remembered here, for
every cell of the heap. Slots then hold the cells of their own variables, closures those of the
variables that their functions have recorded as free, and the cells on the operand stack are those
that are about to be bound to a function.

## Main definitions

* `ScriptEngine.Holdings`: the variables of all cells, and the closures;
* `ScriptEngine.Residence.discipline`: cells are no values, and closures have the right ones;
* `ScriptEngine.Residence.Houses`, `ScriptEngine.Residence.Captures`: where the code of a frame is
  at home, and whose cells it has captured;
* `ScriptEngine.Frame.Resides`: the slots of a frame hold cells of their own variables;
* `ScriptEngine.Residence.Loaded`: the cells on the operand stack are about to be bound;
* `ScriptEngine.Alters`: all that a step does to the frames and the cells.

## Main results

* `ScriptEngine.Frame.Resides.alters`: frames stay what they are, whatever a step does.
-/

namespace ScriptEngine

open ScopeTable

/-! ### Cells and closures -/

/-- **What is known of the cells and the closures** of a heap: the variables that the cells were
made for, and the closures themselves. -/
structure Holdings where
  origins : List Variable := []
  closures : Array Closure := #[]

namespace Holdings

/-- Later there are more cells and more closures. -/
structure Le (w w' : Holdings) : Prop where
  origins : w.origins <+: w'.origins
  closures : w.closures.toList <+: w'.closures.toList

variable {w w' w'' : Holdings}

theorem Le.refl (w : Holdings) : w.Le w :=
  ⟨List.prefix_rfl, List.prefix_rfl⟩

theorem Le.trans (h : w.Le w') (h' : w'.Le w'') : w.Le w'' :=
  ⟨h.origins.trans h'.origins, h.closures.trans h'.closures⟩

/-- A cell is for the same variable for ever. -/
theorem Le.variable (h : w.Le w') {i : Nat} {v : Variable} (hv : w.origins[i]? = some v) :
    w'.origins[i]? = some v := by
  obtain ⟨more, hmore⟩ := h.origins
  rw [← hmore, List.getElem?_append_left (List.getElem?_eq_some_iff.mp hv).1, hv]

theorem Le.closure (h : w.Le w') {c : Closure} (hc : c ∈ w.closures) : c ∈ w'.closures :=
  Array.mem_toList_iff.mp (h.closures.subset (Array.mem_toList_iff.mpr hc))

end Holdings

namespace Residence

/-- The variable that a function of the given scope has recorded under a number is the one that a
cell was made for. -/
def Free (R : Residence) (w : Holdings) (s : ScopeId) (number : Nat) (r : Ref .cell) : Prop :=
  ∃ v, w.origins[r.index]? = some v ∧ R.table.free? s number = some v

/-- **A closure with the right cells**: those of the variables that its function has recorded. -/
def Binds (R : Residence) (w : Holdings) (c : Closure) : Prop :=
  ∃ s, R.homes[c.function.index]? = some s ∧
    ∀ (j : Nat) r, c.cells[j]? = some r → R.Free w s j r

theorem Free.mono {R : Residence} {w w' : Holdings} {s : ScopeId} {j : Nat} {r : Ref .cell}
    (h : R.Free w s j r) (hw : w.Le w') : R.Free w' s j r := by
  obtain ⟨v, hv, hf⟩ := h
  exact ⟨v, hw.variable hv, hf⟩

theorem Binds.mono {R : Residence} {w w' : Holdings} {c : Closure} (h : R.Binds w c)
    (hw : w.Le w') :
    R.Binds w' c := by
  obtain ⟨s, hs, hc⟩ := h
  exact ⟨s, hs, fun j r hr => (hc j r hr).mono hw⟩

/-- The functions of a heap are functions that are at home, and its closures have the right
cells. -/
structure Stores (R : Residence) (w : Holdings) (fs : Array Function) (cs : Array Closure) :
    Prop where
  functions : ∀ (k : Nat) (f : Function), fs[k]? = some f → R.functions[k]? = some f
  closures : cs = w.closures
  binds : ∀ c ∈ cs, R.Binds w c

/-- **Cells are no values.** -/
abbrev discipline (R : Residence) : Discipline where
  Stage := Holdings
  le := Holdings.Le
  refl := .refl
  trans := .trans
  value _ v := ∀ r, v ≠ .cell r
  mono _ h := h
  data {w v} h r hv := by
    rw [hv] at h
    cases h
  error _ := True
  ordinary _ := trivial
  stores := R.Stores

/-- **Worlds in which every cell is for a variable**, and none is a value. -/
structure Governs (R : Residence) (w : Holdings) (world : World) : Prop where
  heap : world.heap.Sound R.discipline w
  size : w.origins.length = world.heap.cells.size
  globals : R.discipline.values w world.globals.toList

/-! ### Frames -/

/-- **Where the code of a frame is at home.** -/
inductive Houses (R : Residence) (g : Frame) : ScopeId → Prop
  | program (function : g.function = none) (code : g.code ∈ R.codes) : Houses R g root
  | function {k : Nat} {f : Function} {s : ScopeId} (function : g.function = some f)
    (code : g.code = f.code) (known : R.functions[k]? = some f) (home : R.homes[k]? = some s) :
    Houses R g s

/-- **Whose cells a frame has captured**: none, or those of a closure whose function is at home in
the given scope. -/
def Captures (R : Residence) (closures : Array Closure) (g : Frame) (s : ScopeId) : Prop :=
  g.cells = #[] ∨ ∃ c ∈ closures, c.cells = g.cells ∧ R.homes[c.function.index]? = some s

end Residence

/-- The cell that a content of a slot is, if it is one. -/
def Value.cell? : Value → Option (Ref .cell)
  | .cell r => some r
  | _ => none

/-- The cells that are in the slots of a frame. -/
def Frame.owned (g : Frame) : List (Ref .cell) :=
  g.locals.toList.filterMap Value.cell?

/-- What a content of a slot yields when it is read, through the cell if it is one. -/
def Value.contents (cells : Array Value) : Value → Value
  | .cell r => cells.getD r.index .nil
  | v => v

/-- **What a slot yields** when it is read. -/
def Frame.yields (g : Frame) (cells : Array Value) (slot : Nat) : Option Value :=
  g.locals[slot]?.map (Value.contents cells)

/-- **A frame at home**, whose slots hold the cells of their own variables. -/
structure Frame.Resides (R : Residence) (w : Holdings) (g : Frame) : Prop where
  home : ∃ s, R.Houses g s ∧ R.Captures w.closures g s
  slots : ∀ (k : Nat) r, g.locals[k]? = some (.cell r) → ∃ index : Word, index.toNat = k ∧
    ∀ s, R.Houses g s → w.origins[r.index]? = some ⟨s, index⟩

namespace Residence

variable {R : Residence} {w w' : Holdings} {g g' : Frame} {s : ScopeId} {r : Ref .cell} {k : Nat}

/-- Where a frame is at home can be told from its function and its code. -/
theorem Houses.congr (h : R.Houses g s) (hf : g'.function = g.function) (hc : g'.code = g.code) :
    R.Houses g' s := by
  cases h with
  | program function code => exact .program (hf.trans function) (hc ▸ code)
  | function function code known home =>
    exact .function (hf.trans function) (hc.trans code) known home

theorem Captures.mono {closures closures' : Array Closure} (h : R.Captures closures g s)
    (hc : ∀ c ∈ closures, c ∈ closures') : R.Captures closures' g s :=
  h.imp_right fun ⟨c, hm, heq, hs⟩ => ⟨c, hc c hm, heq, hs⟩

theorem Captures.congr {closures : Array Closure} (h : R.Captures closures g s)
    (hc : g'.cells = g.cells) : R.Captures closures g' s := by
  unfold Captures
  rwa [hc]

/-- **What a frame has captured** are the cells of the variables that its code refers to. -/
theorem Captures.free (h : R.Captures w.closures g s) (hb : ∀ c ∈ w.closures, R.Binds w c)
    (hr : g.cells[k]? = some r) : R.Free w s k r := by
  rcases h with hnone | ⟨c, hc, heq, hs⟩
  · rw [hnone] at hr
    cases hr
  · obtain ⟨s', hs', hfree⟩ := hb c hc
    obtain rfl := Option.some.inj (hs'.symm.trans hs)
    exact hfree k r (heq ▸ hr)

/-- **The code of a frame at home** is settled there from its start to its end. -/
theorem Houses.settles (hR : R.Sound) (h : R.Houses g s) :
    ∃ first is, g.code.Settles R.table R.homes s first 0 is g.code.size := by
  cases h with
  | program function code =>
    obtain ⟨is, hc⟩ := hR.codes g.code code
    exact ⟨_, is, hc⟩
  | @function k f _ function code known home =>
    obtain ⟨f', hf', hhoused⟩ := hR.functions k s home
    obtain rfl := Option.some.inj (hf'.symm.trans known)
    obtain ⟨first, is, hc, -⟩ := hhoused.code
    exact ⟨first, is, code ▸ hc⟩

/-- **The instruction of a frame at home** refers to variables as they are seen from there. -/
theorem Houses.atHome (hR : R.Sound) (h : R.Houses g s) (hb : g.code.Boundary g.ip)
    {i : Instruction}
    (hi : g.code.Has i) (ho : i.offset = g.ip) : i.AtHome R.table R.homes g.code s := by
  obtain ⟨first, is, hc⟩ := h.settles hR
  exact hc.atHome i (hc.lists.mem hb (ho ▸ hi.offset_lt) hi ho)

/-- The code of a function is not at home in the outermost scope. -/
theorem Houses.function_eq_none (hR : R.Sound) (h : R.Houses g root) : g.function = none := by
  generalize hs : root = s at h
  cases h with
  | program function code => exact function
  | @function k f _ function code known home =>
    obtain ⟨f', -, hhoused⟩ := hR.functions k s home
    exact absurd hs.symm hhoused.inner

end Residence

theorem Code.Hands.unique {t : ScopeTable} {c : Code} {s s' inner inner' : ScopeId}
    {g g' n n' p : Nat}
    (h : c.Hands t s g inner n p) (h' : c.Hands t s' g' inner' n' p) : g = g' ∧ n = n' := by
  induction h generalizing n' with
  | @bind n p index count has constant number =>
    cases h' with
    | bind has' constant' number' =>
      cases has.unique has' rfl
      rw [constant] at constant'
      cases constant'
      exact ⟨rfl, number.symm.trans number'⟩
    | @pass _ i _ has' op' =>
      have := has.unique has' rfl
      rw [← this] at op'
      cases op'
  | @pass n i v has op passed free rest ih =>
    generalize hp : i.offset = p at h'
    cases h' with
    | bind has' =>
      have := has.unique has' hp
      rw [this] at op
      cases op
    | @pass _ j _ has' op' _ _ rest' =>
      obtain rfl := has.unique has' hp
      obtain ⟨hg, hn⟩ := ih rest'
      exact ⟨hg, Nat.succ.inj hn⟩

namespace Residence

variable {R : Residence} {w w' : Holdings} {g : Frame} {s : ScopeId} {bases : List Nat}
  {frames : List Frame} {items : List Value}

/-- **A frame that hands out cells** is at home in one scope only. -/
theorem Houses.unique_of_hands {c : Code} {i : Instruction} {s s' : ScopeId}
    (h : i.AtHome R.table R.homes c s) (h' : i.AtHome R.table R.homes c s')
    (hop : i.op = .makeCell) : s = s' := by
  obtain ⟨f, inner, n, hf, -, ho, hands⟩ := h.hands (.inl hop)
  obtain ⟨f', inner', n', hf', -, ho', hands'⟩ := h'.hands (.inl hop)
  obtain ⟨rfl, rfl⟩ := hands.unique hands'
  obtain rfl := Option.some.inj (hf.symm.trans hf')
  exact ho.symm.trans ho'

/-! ### Operands -/

/-- **Cells that are about to be bound to a function**, the one pushed last first: the code that
follows pushes the cells of the variables that the function has recorded after theirs. -/
def Carries (R : Residence) (w : Holdings) (g : Frame) (cs : List (Ref .cell)) : Prop :=
  ∃ s f inner n, R.Houses g s ∧ R.Captures w.closures g s ∧ R.homes[f]? = some inner ∧
    g.code.Hands R.table s f inner n g.ip ∧ cs.length ≤ n ∧
    ∀ (m : Nat) r, cs[m]? = some r → R.Free w inner (n - 1 - m) r

/-- **Operands with cells on top of them.** Nobody waits for what lies further up. -/
structure Topped (R : Residence) (w : Holdings) (bases : List Nat) (cs : List (Ref .cell))
    (items : List Value) : Prop where
  rest : ∃ rest, items = cs.map .cell ++ rest ∧ R.discipline.values w rest ∧
    (cs ≠ [] → ∀ b ∈ bases, b ≤ rest.length)

/-- **The operands of an instruction.** The cells on top of them are about to be bound to a
function, if there are any. -/
def Loaded (R : Residence) (w : Holdings) (bases : List Nat) (frames : List Frame)
    (items : List Value) : Prop :=
  ∃ cs, R.Topped w bases cs items ∧ (cs ≠ [] → ∃ g ∈ frames.head?, R.Carries w g cs)

/-- The operands of an instruction that failed. -/
def Spoiled (R : Residence) (w : Holdings) (bases : List Nat) (items : List Value) : Prop :=
  ∃ cs, R.Topped w bases cs items

end Residence

/-! ### Steps -/

/-- **All that a step does to the frames and the cells**, if it executes the given instruction. A
variable moves into a cell of its own, or the content of a slot or of a cell is replaced. -/
inductive Alters (x : Option Execution) : List Frame → Array Value → List Frame → Array Value → Prop
  | leave {gs : List Frame} {cells : Array Value} (n : Nat) : Alters x gs cells (gs.drop n) cells
  | enter {g : Frame} {gs : List Frame} {cells : Array Value} (ho : g.owned = []) :
    Alters x gs cells (g :: gs) cells
  | move {e : Execution} {gs : List Frame} {cells : Array Value} (hx : x = some e) (ip : Nat) :
    Alters x (e.frame :: gs) cells ({ e.frame with ip } :: gs) cells
  | box {e : Execution} {gs : List Frame} {cells : Array Value} {v : Value}
    (hx : x = some e) (ip : Nat)
    (hv : e.frame.locals[e.instruction.first.toNat]? = some v) (hn : ∀ r, v ≠ .cell r) :
    Alters x (e.frame :: gs) cells
      ({ e.frame with
        ip
        locals := e.frame.locals.setIfInBounds e.instruction.first.toNat
          (.cell ⟨cells.size⟩) } :: gs)
      (cells.push v)
  | assign {e : Execution} {gs : List Frame} {cells : Array Value} {u v : Value}
    (hx : x = some e) (ip : Nat)
    (hop : e.instruction.op = .storeFast) (hu : e.frame.locals[e.instruction.first.toNat]? = some u)
    (hn : ∀ r, u ≠ .cell r) (hv : ∀ r, v ≠ .cell r) :
    Alters x (e.frame :: gs) cells
      ({ e.frame with
          ip
          locals := e.frame.locals.setIfInBounds e.instruction.first.toNat v } :: gs)
      cells
  | write {e : Execution} {gs : List Frame} {cells : Array Value} {r : Ref .cell} {v : Value}
    (hx : x = some e) (ip : Nat)
    (hr : e.instruction.op = .storeFast ∧
        e.frame.locals[e.instruction.first.toNat]? = some (.cell r) ∨
      e.instruction.op = .storeFree ∧ e.frame.cells[e.instruction.first.toNat]? = some r) :
    Alters x (e.frame :: gs) cells ({ e.frame with ip } :: gs) (cells.setIfInBounds r.index v)

theorem Value.cell?_eq_some {v : Value} {r : Ref .cell} : v.cell? = some r ↔ v = .cell r := by
  cases v <;> simp [Value.cell?]

theorem Value.cell?_eq_none {v : Value} : v.cell? = none ↔ ∀ r, v ≠ .cell r := by
  cases v <;> simp [Value.cell?]

theorem Value.contents_of_ne {v : Value} (h : ∀ r, v ≠ .cell r) (cells : Array Value) :
    v.contents cells = v := by
  cases v with
  | cell r => exact absurd rfl (h r)
  | _ => rfl

namespace Frame

variable {R : Residence} {w w' : Holdings} {g : Frame} {k : Nat} {r : Ref .cell}

theorem mem_owned : r ∈ g.owned ↔ ∃ k : Nat, g.locals[k]? = some (.cell r) := by
  unfold owned
  rw [List.mem_filterMap]
  constructor
  · rintro ⟨v, hv, hr⟩
    obtain ⟨k, hk⟩ := List.mem_iff_getElem?.mp hv
    exact ⟨k, Array.getElem?_toList ▸ Value.cell?_eq_some.mp hr ▸ hk⟩
  · rintro ⟨k, hk⟩
    exact ⟨_, Array.mem_toList_iff.mpr (Array.mem_of_getElem? hk), rfl⟩

/-- **A slot with another content.** -/
theorem owned_setIfInBounds {u v : Value} (hu : g.locals[k]? = some u)
    (hn : ∀ r, u ≠ .cell r) (ip : Nat) :
    ({ g with ip, locals := g.locals.setIfInBounds k v } : Frame).owned.Perm
      (v.cell?.toList ++ g.owned) := by
  unfold owned
  dsimp only
  obtain ⟨hlt, hget⟩ := Array.getElem?_eq_some_iff.mp hu
  have hsplit : g.locals.toList = g.locals.toList.take k ++ u :: g.locals.toList.drop (k + 1) := by
    rw [← hget, ← Array.getElem_toList, ← List.drop_eq_getElem_cons, List.take_append_drop]
  rw [Array.toList_setIfInBounds, List.set_eq_take_append_cons_drop,
    if_pos (Array.length_toList ▸ hlt), List.filterMap_append, List.filterMap_cons]
  conv => rhs; rw [hsplit, List.filterMap_append, List.filterMap_cons, Value.cell?_eq_none.mpr hn]
  cases v.cell? with
  | none => exact .refl _
  | some r => exact List.perm_middle

namespace Resides

theorem mono (h : g.Resides R w) (hw : w.Le w') : g.Resides R w' where
  home := by
    obtain ⟨s, hs, hc⟩ := h.home
    exact ⟨s, hs, hc.mono fun _ => hw.closure⟩
  slots k r hk := by
    obtain ⟨index, hi, hs⟩ := h.slots k r hk
    exact ⟨index, hi, fun s hg => hw.variable (hs s hg)⟩

theorem moved (h : g.Resides R w) (ip : Nat) : ({ g with ip } : Frame).Resides R w where
  home := by
    obtain ⟨s, hs, hc⟩ := h.home
    exact ⟨s, hs.congr rfl rfl, hc.congr rfl⟩
  slots k r hk := by
    obtain ⟨index, hi, hs⟩ := h.slots k r hk
    exact ⟨index, hi, fun s hg => hs s (hg.congr rfl rfl)⟩

/-- **A slot holds something else**, which is the cell of its own variable if it is one. -/
theorem replaced (h : g.Resides R w) (ip : Nat) (index : Word) {v : Value}
    (hv : ∀ r, v = .cell r → ∀ s, R.Houses g s → w.origins[r.index]? = some ⟨s, index⟩) :
    ({ g with ip, locals := g.locals.setIfInBounds index.toNat v } : Frame).Resides R w where
  home := by
    obtain ⟨s, hs, hc⟩ := h.home
    exact ⟨s, hs.congr rfl rfl, hc.congr rfl⟩
  slots k r hk := by
    have hk : (g.locals.setIfInBounds index.toNat v)[k]? = some (.cell r) := hk
    rw [Array.getElem?_setIfInBounds] at hk
    split at hk
    · rename_i heq
      split at hk
      · exact ⟨index, heq, fun s hg => hv r (Option.some.inj hk) s (hg.congr rfl rfl)⟩
      · cases hk
    · obtain ⟨index, hi, hs⟩ := h.slots k r hk
      exact ⟨index, hi, fun s hg => hs s (hg.congr rfl rfl)⟩

/-- The cells in the slots of a frame exist. -/
theorem lt_of_owned (h : g.Resides R w) (hr : r ∈ g.owned) : r.index < w.origins.length := by
  obtain ⟨k, hk⟩ := mem_owned.mp hr
  obtain ⟨index, -, hs⟩ := h.slots k r hk
  obtain ⟨s, hg, -⟩ := h.home
  exact (List.getElem?_eq_some_iff.mp (hs s hg)).1

end Resides

end Frame

/-- An item of a list counted from its end is the first one, or one of the others. -/
theorem getElem?_reverse_cons {α : Type} {x y : α} {xs : List α} {d : Nat}
    (h : (x :: xs).reverse[d]? = some y) : x = y ∧ d = xs.length ∨ xs.reverse[d]? = some y := by
  rw [List.reverse_cons, List.getElem?_append] at h
  split at h
  · exact .inr h
  · rename_i hlt
    rw [List.length_reverse] at h hlt
    obtain ⟨hlt', heq⟩ := List.getElem?_eq_some_iff.mp h
    rw [List.length_singleton] at hlt'
    exact .inl ⟨by simpa using heq, by omega⟩

namespace Alters

variable {R : Residence} {w : Holdings} {x : Option Execution} {gs gs' : List Frame}
  {cells cells' : Array Value}

/-- **Who owns cells** after a step: a new one may belong to a slot, and otherwise they belong where
they belonged. -/
theorem owned (h : Alters x gs cells gs' cells') :
    (gs'.flatMap Frame.owned).Subperm (⟨cells.size⟩ :: gs.flatMap Frame.owned) := by
  have same {l : List (Ref .cell)} (hl : l.Subperm (gs.flatMap Frame.owned)) :
      l.Subperm (⟨cells.size⟩ :: gs.flatMap Frame.owned) :=
    hl.trans (List.sublist_cons_self ..).subperm
  cases h with
  | leave n => exact same ((List.drop_sublist n gs).flatMap _).subperm
  | enter ho =>
    rw [List.flatMap_cons, ho, List.nil_append]
    exact (List.sublist_cons_self ..).subperm
  | move hx ip => exact same (.refl _)
  | box hx ip hv hn =>
    rw [List.flatMap_cons, List.flatMap_cons]
    exact ((Frame.owned_setIfInBounds hv hn ip).append_right _).subperm
  | assign hx ip hop hu hn hv =>
    refine same ?_
    rw [List.flatMap_cons, List.flatMap_cons]
    refine ((Frame.owned_setIfInBounds hu hn ip).append_right _).subperm.trans ?_
    rw [Value.cell?_eq_none.mpr hv]
    exact .refl _
  | write => exact same (.refl _)

variable {s : ScopeId} {symbol : Symbol} {f g g' : Frame} {d : Nat} {r : Ref .cell}

/-- **What becomes of an activation**: it goes on as it is, or it is the one in which an instruction
was executed, which may have replaced the content of a slot. -/
theorem activation (h : Alters x gs cells gs' cells') (hg : gs.reverse[d]? = some g)
    (hg' : gs'.reverse[d]? = some g') :
    (∃ ip, g' = { g with ip }) ∨ gs.length = d + 1 ∧ ∃ e u v ip, x = some e ∧ e.frame = g ∧
      g.locals[e.instruction.first.toNat]? = some u ∧
      g' = { g with ip, locals := g.locals.setIfInBounds e.instruction.first.toNat v } ∧
      (v = .cell ⟨cells.size⟩ ∧ (∀ r, u ≠ .cell r) ∧ cells' = cells.push u ∨
        e.instruction.op = .storeFast) := by
  have hlt : d < gs.length := by
    have := (List.getElem?_eq_some_iff.mp hg).1
    rwa [List.length_reverse] at this
  -- below the innermost activation nothing changes
  have below {f f' : Frame} {gs : List Frame} (hg : (f :: gs).reverse[d]? = some g)
      (hg' : (f' :: gs).reverse[d]? = some g') : g' = g ∨ f = g ∧ f' = g' ∧ d = gs.length := by
    rcases getElem?_reverse_cons hg with ⟨rfl, rfl⟩ | hg
    · rcases getElem?_reverse_cons hg' with ⟨rfl, -⟩ | hg'
      · exact .inr ⟨rfl, rfl, rfl⟩
      · exact absurd (List.getElem?_eq_some_iff.mp hg').1 (by simp)
    · have hlt := (List.getElem?_eq_some_iff.mp hg).1
      rw [List.reverse_cons, List.getElem?_append_left hlt] at hg'
      exact .inl (Option.some.inj (hg'.symm.trans hg))
  cases h with
  | leave n =>
    rw [List.reverse_drop, List.getElem?_take] at hg'
    split at hg'
    · exact .inl ⟨g.ip, Option.some.inj (hg'.symm.trans hg)⟩
    · cases hg'
  | enter ho =>
    rw [List.reverse_cons, List.getElem?_append_left (by rwa [List.length_reverse])] at hg'
    exact .inl ⟨g.ip, Option.some.inj (hg'.symm.trans hg)⟩
  | move hx ip =>
    rcases below hg hg' with rfl | ⟨rfl, rfl, -⟩
    · exact .inl ⟨g'.ip, rfl⟩
    · exact .inl ⟨ip, rfl⟩
  | write hx ip =>
    rcases below hg hg' with rfl | ⟨rfl, rfl, -⟩
    · exact .inl ⟨g'.ip, rfl⟩
    · exact .inl ⟨ip, rfl⟩
  | box hx ip hv hn =>
    rcases below hg hg' with rfl | ⟨rfl, rfl, rfl⟩
    · exact .inl ⟨g'.ip, rfl⟩
    · exact .inr ⟨rfl, _, _, _, ip, hx, rfl, hv, rfl, .inl ⟨rfl, hn, rfl⟩⟩
  | assign hx ip hop hu hn hv =>
    rcases below hg hg' with rfl | ⟨rfl, rfl, rfl⟩
    · exact .inl ⟨g'.ip, rfl⟩
    · exact .inr ⟨rfl, _, _, _, ip, hx, rfl, hu, rfl, .inr hop⟩

section

variable (h : Alters x gs cells gs' cells') (hR : R.Sound) (hsize : w.origins.length = cells.size)
  (hx : ∀ e, x = some e → gs.head? = some e.frame ∧ e.frame.Resides R w ∧
    ∀ s, R.Houses e.frame s → e.instruction.AtHome R.table R.homes e.frame.code s)
  (hb : ∀ c ∈ w.closures, R.Binds w c)
include h hR hsize hx hb

/-- **The content of a cell of a constant** stays, unless the instruction that declares the constant
is executed in the activation to which the cell belongs. -/
theorem constant (hr : w.origins[r.index]? = some ⟨s, symbol.index⟩)
    (hd : R.table.Declares s symbol)
    (hc : symbol.constant = true) :
    cells'.getD r.index .nil = cells.getD r.index .nil ∨
      ∃ e, x = some e ∧ (∀ s', R.Houses e.frame s' → s' = s) ∧ e.instruction.first = symbol.index ∧
        e.frame.locals[symbol.index.toNat]? = some (.cell r) ∧
          e.instruction.Sets R.table s symbol := by
  have hlt : r.index < cells.size := hsize ▸ (List.getElem?_eq_some_iff.mp hr).1
  cases h with
  | leave | enter | move | assign => exact .inl rfl
  | box hx ip hv hn =>
    left
    rw [Array.getD_eq_getD_getElem?, Array.getD_eq_getD_getElem?, Array.getElem?_push_lt hlt,
      Array.getElem?_eq_getElem hlt]
  | @write e gs _ r' v he ip hstore =>
    by_cases heq : r'.index = r.index
    · right
      obtain ⟨-, hresides, hhome⟩ := hx e he
      obtain rfl : r' = r := by
        cases r'
        cases r
        cases heq
        rfl
      rcases hstore with ⟨hop, hslot⟩ | ⟨hop, hcell⟩
      · obtain ⟨index, hindex, hall⟩ := hresides.slots _ _ hslot
        obtain rfl : index = e.instruction.first := UInt16.toNat_inj.mp hindex
        have unique {s' : ScopeId} (hs' : R.Houses e.frame s') :
            s' = s ∧ e.instruction.first = symbol.index :=
          Variable.mk.inj (Option.some.inj ((hall s' hs').symm.trans hr))
        obtain ⟨s', hs', -⟩ := hresides.home
        obtain ⟨rfl, hfirst⟩ := unique hs'
        refine ⟨e, he, fun s'' hs'' => (unique hs'').1, hfirst, hfirst ▸ hslot, hd, hc, ?_⟩
        unfold stored?
        rw [hop, hfirst]
      · -- a store through a captured cell is never one into a constant
        obtain ⟨s', hs', hcaptures⟩ := hresides.home
        obtain ⟨v, hv, hfree⟩ := hcaptures.free hb hcell
        obtain rfl := Option.some.inj (hv.symm.trans hr)
        have hstored : R.table.stored? s' e.instruction = some ⟨s, symbol.index⟩ := by
          unfold stored?
          rw [hop]
          exact hfree
        obtain ⟨-, hne, -⟩ :=
          (hhome s' hs').sets_of_isConstant hR.lexical hstored ⟨symbol, hd, rfl, hc⟩
        exact absurd hop hne
    · left
      rw [Array.getD_eq_getD_getElem?, Array.getD_eq_getD_getElem?,
        Array.getElem?_setIfInBounds_ne heq]

/-- **What a slot of a constant yields** stays, as long as the slot holds the same. -/
theorem yields_of_slot (hg : g.Resides R w) (hs : R.Houses g s) (hd : R.table.Declares s symbol)
    (hc : symbol.constant = true) :
    g.yields cells' symbol.index.toNat = g.yields cells symbol.index.toNat ∨
      ∃ e r, x = some e ∧ g.locals[symbol.index.toNat]? = some (.cell r) ∧
        e.frame.locals[symbol.index.toNat]? = some (.cell r) ∧
          e.instruction.Sets R.table s symbol := by
  unfold Frame.yields
  cases hv : g.locals[symbol.index.toNat]? with
  | none => exact .inl rfl
  | some v =>
    cases v with
    | cell r =>
      obtain ⟨index, hindex, hall⟩ := hg.slots _ r hv
      obtain rfl : index = symbol.index := UInt16.toNat_inj.mp hindex
      rcases h.constant hR hsize hx hb (hall s hs) hd hc with heq | ⟨e, he, -, -, hslot, hsets⟩
      · exact .inl (congrArg some heq)
      · exact .inr ⟨e, r, he, rfl, hslot, hsets⟩
    | _ => exact .inl rfl

/-- **What a slot of a constant yields** in an activation stays, unless the instruction that
declares the constant is executed there. -/
theorem yields (hgs : ∀ g ∈ gs, g.Resides R w) (hnodup : (gs.flatMap Frame.owned).Nodup)
    (hg : gs.reverse[d]? = some g) (hg' : gs'.reverse[d]? = some g') (hs : R.Houses g s)
    (hd : R.table.Declares s symbol) (hc : symbol.constant = true) :
    g'.yields cells' symbol.index.toNat = g.yields cells symbol.index.toNat ∨
      ∃ e, x = some e ∧ e.frame = g ∧ gs.length = d + 1 ∧ e.instruction.Sets R.table s symbol := by
  have hmem : g ∈ gs := List.mem_reverse.mp (List.mem_of_getElem? hg)
  -- no two activations own the same cell
  have own {e : Execution} {r : Ref .cell} (he : x = some e)
      (hr : g.locals[symbol.index.toNat]? = some (.cell r))
      (hr' : e.frame.locals[symbol.index.toNat]? = some (.cell r)) :
      e.frame = g ∧ gs.length = d + 1 := by
    obtain ⟨hhead, -⟩ := hx e he
    obtain ⟨rest, rfl⟩ := List.head?_eq_some_iff.mp hhead
    rcases getElem?_reverse_cons hg with ⟨heq, hd⟩ | hg
    · exact ⟨heq, congrArg (· + 1) hd.symm⟩
    · rw [List.flatMap_cons] at hnodup
      refine absurd (List.mem_flatMap.mpr ⟨g, List.mem_reverse.mp (List.mem_of_getElem? hg), ?_⟩)
        (List.disjoint_of_nodup_append hnodup (Frame.mem_owned.mpr ⟨_, hr'⟩))
      exact Frame.mem_owned.mpr ⟨_, hr⟩
  have held := h.yields_of_slot hR hsize hx hb (hgs g hmem) hs hd hc
  rcases h.activation hg hg' with ⟨ip, rfl⟩ | ⟨hlen, e, u, v, ip, he, rfl, hu, rfl, hv⟩
  · rcases held with heq | ⟨e, r, he, hr, hr', hsets⟩
    · exact .inl heq
    · obtain ⟨rfl, hlen⟩ := own he hr hr'
      exact .inr ⟨e, he, rfl, hlen, hsets⟩
  · by_cases hfirst : e.instruction.first = symbol.index
    · rcases hv with ⟨rfl, hn, rfl⟩ | hop
      · left
        unfold Frame.yields
        rw [hfirst] at hu ⊢
        rw [hu, Array.getElem?_setIfInBounds_self_of_lt (Array.getElem?_eq_some_iff.mp hu).1,
          Option.map_some, Option.map_some, Value.contents_of_ne hn]
        unfold Value.contents
        simp
      · refine .inr ⟨e, he, rfl, hlen, hd, hc, ?_⟩
        unfold stored?
        rw [hop, hfirst]
    · rcases held with heq | ⟨e', r, he', hr, hr', hsets⟩
      · left
        rw [← heq]
        unfold Frame.yields
        rw [Array.getElem?_setIfInBounds_ne fun h => hfirst (UInt16.toNat_inj.mp h)]
      · obtain ⟨hsame, -⟩ := own he' hr hr'
        exact .inr ⟨e', he', hsame, hlen, hsets⟩

end

end Alters

end ScriptEngine
