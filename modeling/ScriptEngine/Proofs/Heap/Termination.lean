import ScriptEngine.Proofs.Compiler.Scripts
import ScriptEngine.Proofs.Heap.Nesting
import ScriptEngine.Value.Equality
import ScriptEngine.Value.Text

/-!
# Which texts and comparisons end

Writing down a value goes on to its parts, so it ends exactly if no value lies inside itself.
Comparing two values goes on to pairs of their parts, so it ends as soon as one of the two is
acyclic. A script can append a list to itself, and neither the text of such a list nor its
comparison with another one ends.

## Main results

* `ScriptEngine.Heap.isSome_inspect?_iff`: the values whose text has an end;
* `ScriptEngine.Heap.isSome_equals?`: comparisons that end;
* `ScriptEngine.Heap.acyclic_ends`: both, and how deep they go;
* `ScriptEngine.Engine.selfContained_endless`: a script after which neither ends.
-/

namespace ScriptEngine

section Loops

variable {α β : Type}

/-- A loop ends exactly if each of its rounds does. -/
theorem isSome_mapM {f : α → Option β} {xs : List α} :
    (xs.mapM f).isSome ↔ ∀ x ∈ xs, (f x).isSome := by
  induction xs with
  | nil => simp
  | cons x xs ih =>
    rw [List.mapM_cons, List.forall_mem_cons, ← ih]
    cases f x <;> cases xs.mapM f <;> simp

/-- The answer of a loop in which every round has one. -/
theorem allM_of_isSome {p : α → Option Bool} {xs : List α} (hp : ∀ x ∈ xs, (p x).isSome) :
    xs.allM p = some (xs.all fun x => (p x).getD false) := by
  induction xs with
  | nil => rfl
  | cons x xs ih =>
    rw [List.forall_mem_cons] at hp
    obtain ⟨b, hb⟩ := Option.isSome_iff_exists.mp hp.1
    rw [List.allM, hb, List.all_cons, hb]
    cases b with
    | false => rfl
    | true => exact ih hp.2

end Loops

namespace Heap

variable {h : Heap} {a b v : Value}

/-! ### Texts -/

/-- Writing down a value ends if writing down its parts does. -/
theorem isSome_inspect?_of_parts (hv : ∀ w ∈ h.parts v, (h.inspect? w).isSome) :
    (h.inspect? v).isSome := by
  rw [inspect?.eq_def]
  cases v with
  | list r =>
    dsimp only
    rw [Option.map_eq_map, Option.isSome_map, isSome_mapM]
    exact hv
  | map r =>
    dsimp only
    rw [Option.map_eq_map, Option.isSome_map, isSome_mapM]
    rintro ⟨k, w⟩ hw
    rw [Option.map_eq_map, Option.isSome_map]
    exact hv w (List.mem_map_of_mem hw)
  | partialCall r | cell r =>
    dsimp only
    rw [Option.map_eq_map, Option.isSome_map]
    exact hv _ (List.mem_singleton_self _)
  | _ => rfl

theorem Acyclic.isSome_inspect? (hv : h.Acyclic v) : (h.inspect? v).isSome :=
  hv.induct fun _ _ ih => isSome_inspect?_of_parts ih

/-- A text that ends is that of an acyclic value, because the texts of all parts have ended. -/
theorem acyclic_of_inspect? {text : String} (hv : h.inspect? v = some text) : h.Acyclic v := by
  refine inspect?.partial_correctness h (fun v _ => h.Acyclic v) (fun write hwrite v text hv => ?_)
    v text hv
  have part {w : Value} (hw : (write w).isSome) : h.Acyclic w := by
    obtain ⟨text, htext⟩ := Option.isSome_iff_exists.mp hw
    exact hwrite w text htext
  have hv := Option.isSome_of_eq_some hv
  refine acyclic_iff.mpr fun w hw => part ?_
  cases v with
  | list r =>
    dsimp only at hv
    rw [Option.map_eq_map, Option.isSome_map, isSome_mapM] at hv
    exact hv w hw
  | map r =>
    dsimp only at hv
    rw [Option.map_eq_map, Option.isSome_map, isSome_mapM] at hv
    obtain ⟨⟨k, w⟩, he, rfl⟩ := List.mem_map.mp hw
    have hw := hv _ he
    rwa [Option.map_eq_map, Option.isSome_map] at hw
  | partialCall r | cell r =>
    dsimp only at hv
    rw [Option.map_eq_map, Option.isSome_map] at hv
    rwa [List.mem_singleton.mp hw]
  | _ => exact absurd hw List.not_mem_nil

/-- **The text of a value ends** exactly if the value is acyclic. -/
theorem isSome_inspect?_iff : (h.inspect? v).isSome ↔ h.Acyclic v := by
  refine ⟨fun hv => ?_, fun hv => hv.isSome_inspect?⟩
  obtain ⟨text, htext⟩ := Option.isSome_iff_exists.mp hv
  exact acyclic_of_inspect? htext

/-- Inside other text, strings and errors do not show anything either. -/
theorem isSome_render?_iff : (h.render? v).isSome ↔ h.Acyclic v := by
  cases v with
  | str s => exact ⟨fun _ => acyclic_of_parts_eq_nil rfl, fun _ => rfl⟩
  | error e => exact ⟨fun _ => acyclic_of_parts_eq_nil rfl, fun _ => rfl⟩
  | _ => exact isSome_inspect?_iff

/-! ### Comparisons -/

theorem mem_parts_map {r : Ref .map} {k : String} (hv : (h.map r)[k]? = some v) :
    v ∈ h.parts (.map r) :=
  List.mem_map.mpr ⟨(k, v), Std.TreeMap.mem_toList_iff_getElem?_eq_some.mpr hv, rfl⟩

/-- A comparison ends if those of all parts of one value with all parts of the other do. -/
theorem isSome_equals?_of_parts
    (hparts : ∀ v ∈ h.parts a, ∀ w ∈ h.parts b, (h.equals? v w).isSome) :
    (h.equals? a b).isSome := by
  rw [equals?.eq_def]
  split
  case h_9 r s =>
    split
    · rfl
    · dsimp only
      split
      · rw [allM_of_isSome]
        · rfl
        · rintro ⟨v, w⟩ hmem
          exact hparts v (List.of_mem_zip hmem).1 w (List.of_mem_zip hmem).2
      · rfl
  case h_10 r s =>
    split
    · rfl
    · dsimp only
      split
      · rw [allM_of_isSome]
        · rfl
        · rintro ⟨k, v⟩ hmem
          dsimp only
          split
          · exact hparts v (List.mem_map_of_mem hmem) _ (mem_parts_map ‹_›)
          · rfl
      · rfl
  all_goals rfl

/-- **A comparison ends** if one of the two values is acyclic. -/
theorem isSome_equals? (hab : h.Acyclic a ∨ h.Acyclic b) : (h.equals? a b).isSome := by
  rcases hab with ha | hb
  · refine ha.induct (P := fun a => ∀ b, (h.equals? a b).isSome) (fun a _ ih b => ?_) b
    exact isSome_equals?_of_parts fun v hv w _ => ih v hv w
  · refine hb.induct (P := fun b => ∀ a, (h.equals? a b).isSome) (fun b _ ih a => ?_) a
    exact isSome_equals?_of_parts fun v _ w hw => ih w hw v

/-- **What ends.** Writing down a value as source or inside other text ends exactly if no value lies
inside itself there. The comparison of two values ends if one of them is such a value, and if both
are the same value. Each goes on only to parts, and the parts of an acyclic value lie at most one
deeper in each other than there are lists, maps, partial calls and cells. -/
theorem acyclic_ends (h : Heap) :
    (∀ v, (h.inspect? v).isSome ↔ h.Acyclic v) ∧ (∀ v, (h.render? v).isSome ↔ h.Acyclic v) ∧
      (∀ a b, h.Acyclic a ∨ h.Acyclic b → (h.equals? a b).isSome) ∧
      (∀ v, (∀ w ∈ h.parts v, (h.inspect? w).isSome) → (h.inspect? v).isSome) ∧
      (∀ a b, (∀ v ∈ h.parts a, ∀ w ∈ h.parts b, (h.equals? v w).isSome) →
        (h.equals? a b).isSome) ∧
      ∀ v chain, h.Acyclic v → (v :: chain).IsChain h.Part →
        chain.length ≤ h.lists.size + h.maps.size + h.partialCalls.size + h.cells.size + 1 :=
  ⟨fun _ => isSome_inspect?_iff, fun _ => isSome_render?_iff, fun _ _ => isSome_equals?,
    fun _ => isSome_inspect?_of_parts, fun _ _ => isSome_equals?_of_parts, fun _ _ hv hc =>
      (hv.chain_length_le hc).trans (Nat.add_le_add_right h.card_containers_le 1)⟩

/-! ### Values that contain themselves -/

/-- The text of a list that lies inside its only item has no end. -/
theorem inspect?_of_loop {r s : Ref .list} (hr : h.list r = #[.list s])
    (hs : h.list s = #[.list r]) : h.inspect? (.list r) = none := by
  have hloop : ¬ h.Acyclic (.list r) := by
    refine fun ha => ha (.list r) .refl (.head (b := .list s) ?_ (.single ?_))
    · exact show Value.list s ∈ (h.list r).toList from hr ▸ List.mem_singleton_self _
    · exact show Value.list r ∈ (h.list s).toList from hs ▸ List.mem_singleton_self _
  rwa [← isSome_inspect?_iff, Option.not_isSome_iff_eq_none] at hloop

/-- Comparing such a list with its item comes down to comparing the item with the list, and that to
comparing the list with the item again. -/
theorem equals?_of_loop {r s : Ref .list} (hne : r ≠ s) (hr : h.list r = #[.list s])
    (hs : h.list s = #[.list r]) : h.equals? (.list r) (.list s) = none := by
  refine Option.eq_none_iff_forall_ne_some.mpr fun answer hanswer => ?_
  refine equals?.partial_correctness h
    (fun v w _ => ¬(v = .list r ∧ w = .list s ∨ v = .list s ∧ w = .list r))
    (fun compare hcompare v w answer hstep => ?_) _ _ answer hanswer (.inl ⟨rfl, rfl⟩)
  have inner {v w : Value} (hvw : v = .list r ∧ w = .list s ∨ v = .list s ∧ w = .list r) :
      compare v w = none :=
    Option.eq_none_iff_forall_ne_some.mpr fun b hb => hcompare v w b hb hvw
  rintro (⟨rfl, rfl⟩ | ⟨rfl, rfl⟩)
  · dsimp only at hstep
    rw [if_neg hne, hr, hs] at hstep
    simp [List.allM, inner (.inr ⟨rfl, rfl⟩)] at hstep
  · dsimp only at hstep
    rw [if_neg hne.symm, hr, hs] at hstep
    simp [List.allM, inner (.inl ⟨rfl, rfl⟩)] at hstep

end Heap

namespace SelfContained

/-- The script: `var l = [[nil]]; l[0][0] = l`. -/
def program : Program :=
  [.var "l" (.list [.list [.nil]]),
    .assignIndex (.index (.ident "l") (.int 0)) (.int 0) .assign (.ident "l")]

def symbol : Symbol := ⟨"l", 0, false⟩

/-- The only scope of the script. -/
def table : ScopeTable where
  scopes := #[{
    parent := none
    kind := .function
    slots := 1
    names := (∅ : Std.HashMap String Symbol).insert "l" symbol }]

theorem declare_eq : ScopeTable.declare ScopeTable.root "l" false .empty = .ok symbol table := by
  have hnew : ((ScopeTable.empty.scope ScopeTable.root).names.contains "l") = false :=
    Std.HashMap.contains_empty
  rw [ScopeTable.declare_eq, hnew]
  rfl

theorem get?_eq : table.get? ScopeTable.root "l" = some symbol :=
  Std.HashMap.getElem?_insert_self

/-- The state of the compiler after the declaration. -/
def emission (c : Code) : Emission :=
  ⟨table, { code := c, scope := ScopeTable.root }, [], none, #[]⟩

/-- The name of the script is that of a global. -/
theorem ident_eq (c : Code) :
    Generate.exprAs .call (.ident "l") (emission c) =
      .ok () (emission (c.emit .loadGlobal [0])) :=
  Generate.exprAs_ident (s := emission c) (ScopeTable.resolve_of_declared get?_eq)

/-- The code of the script. -/
def code : Code where
  words := #[Opcode.pushNil.word, Opcode.buildList.word, 1, Opcode.buildList.word, 1,
    Opcode.storeGlobal.word, 0, Opcode.loadGlobal.word, 0, Opcode.loadGlobal.word, 0,
    Opcode.loadConst.word, 0, Opcode.binarySubscr.word, Opcode.loadConst.word, 0,
    Opcode.storeSubscr.word, Opcode.pushNil.word]
  constants := #[.int 0]
  globalCount := 1

/-- The code of the two lists. -/
def lists : Code where
  words := #[Opcode.pushNil.word, Opcode.buildList.word, 1, Opcode.buildList.word, 1]

/-- The code of the declaration. -/
def declaration : Code :=
  lists.emit .storeGlobal [0]

theorem declaration_eq : Generate.statement (.var "l" (.list [.list [.nil]]))
    (Compiler.emission {} #[]) = .ok () (emission declaration) := by
  let s : Emission := ⟨.empty, { code := lists, scope := ScopeTable.root }, [], none, #[]⟩
  exact bind_eq_ok.mpr ⟨(), s, rfl, Emit.declare_of_ok (s := s) declare_eq⟩

theorem assignment_eq : Generate.statement
    (.assignIndex (.index (.ident "l") (.int 0)) (.int 0) .assign (.ident "l"))
    (emission declaration) =
      .ok () (emission { code with words := code.words.pop, globalCount := 0 }) := by
  let loaded : Code := (declaration.emit .loadGlobal [0]).emit .loadGlobal [0]
  let item : Code :=
    ({ loaded with constants := #[.int 0] }.emit .loadConst [0]).emit .binarySubscr []
  -- the first index is a new constant, and the second one shares its entry
  have hfirst : loaded.addConstant? (.int 0) = some (0, { loaded with constants := #[.int 0] }) :=
    Code.addConstant?_of_new (fun _ hw => absurd hw (Array.not_mem_empty _)) (by decide)
  have hsecond : item.addConstant? (.int 0) = some (0, item) :=
    Code.addConstant?_of_first (w := .int 0) rfl (by decide)
  refine bind_eq_ok.mpr ⟨(), _, ident_eq _, ?_⟩
  refine bind_eq_ok.mpr ⟨(), emission item, bind_eq_ok.mpr ⟨(), _, ident_eq _,
    bind_eq_ok.mpr ⟨(), _, Emit.constant_of_ok (s := emission loaded) hfirst, rfl⟩⟩, ?_⟩
  exact bind_eq_ok.mpr ⟨(), _, Emit.constant_of_ok (s := emission item) hsecond, rfl⟩

theorem compile_eq : ({} : Compiler).compile #[] program =
    (.ok code, { table, main := { code, scope := ScopeTable.root } }, #[]) := by
  have hemit : Generate.statements program (Compiler.emission {} #[]) =
      .ok () (emission { code with globalCount := 0 }) := by
    refine bind_eq_ok.mpr ⟨(), _, declaration_eq, ?_⟩
    exact bind_eq_ok.mpr ⟨(), _, assignment_eq, rfl⟩
  exact Compiler.compile_of_ok hemit

/-- The engine that compiled the script. -/
def compiled : Engine where
  compiler := { table, main := { code, scope := ScopeTable.root } }

theorem engine_compile_eq : ({} : Engine).compile program = (.ok code, compiled) :=
  Engine.compile_of_ok (e := {}) compile_eq

/-- **The script ends**, and leaves a list and its item that contain each other. -/
theorem run_eq : ∃ o s, ({} : System).run default 1 .background code = some (o, s) ∧
    s.world.heap.lists = #[#[.list ⟨1⟩], #[.list ⟨0⟩]] ∧ s.world.globals = #[.list ⟨1⟩] := by
  have hlists : (({} : System).run default 1 .background code).map (·.2.world.heap.lists) =
      some #[#[.list ⟨1⟩], #[.list ⟨0⟩]] := by decide +kernel
  have hglobals : (({} : System).run default 1 .background code).map (·.2.world.globals) =
      some #[.list ⟨1⟩] := by decide +kernel
  obtain ⟨⟨o, s⟩, hrun, hlists⟩ := Option.map_eq_some_iff.mp hlists
  rw [hrun] at hglobals
  exact ⟨o, s, hrun, hlists, Option.some.inj hglobals⟩

end SelfContained

namespace Engine

open SelfContained in
/-- **Texts and comparisons without an end**: after `var l = [[nil]]; l[0][0] = l` the list and its
item contain each other. Neither the text of the list, as source or inside other text, nor its
comparison with the item ends. -/
theorem selfContained_endless : ∃ (o : Except EngineError Value) (e : Engine) (l item : Ref .list),
    ({} : Engine).eval default 1 program = some (o, e) ∧ e.get "l" = .ok (.list l) ∧
      e.system.world.heap.list l = #[.list item] ∧
      e.system.world.heap.inspect? (.list l) = none ∧
      e.system.world.heap.render? (.list l) = none ∧
      e.system.world.heap.equals? (.list l) (.list item) = none := by
  obtain ⟨o, s, hrun, hlists, hglobals⟩ := run_eq
  have heval : ({} : Engine).eval default 1 program =
      some (ofOutcome o, { compiled with system := s }) := by
    unfold Engine.eval
    rw [engine_compile_eq]
    exact congrArg (Option.map _) hrun
  have hget : ({ compiled with system := s } : Engine).get "l" = .ok (.list ⟨1⟩) := by
    have hslot : compiled.compiler.globalIndex? "l" = some 0 := congrArg _ get?_eq
    unfold Engine.get Engine.get?
    dsimp only
    rw [hslot]
    show Except.ok ((s.world.globals[0]?).getD .nil) = _
    rw [hglobals]
    rfl
  have hlist : s.world.heap.list ⟨1⟩ = #[.list ⟨0⟩] := by
    unfold Heap.list
    rw [hlists]
    rfl
  have hitem : s.world.heap.list ⟨0⟩ = #[.list ⟨1⟩] := by
    unfold Heap.list
    rw [hlists]
    rfl
  have htext := Heap.inspect?_of_loop hlist hitem
  exact ⟨_, _, ⟨1⟩, ⟨0⟩, heval, hget, hlist, htext, htext,
    Heap.equals?_of_loop (by decide) hlist hitem⟩

end Engine

end ScriptEngine
