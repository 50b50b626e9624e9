import ScriptEngine.Proofs.Compiler.Scripts
import ScriptEngine.Proofs.Embed.Custody
import ScriptEngine.Proofs.Embed.Globals

/-!
# Constants keep their values

A constant of an activation is in a slot of its frame or, once it was captured, in a cell that only
this slot and closures over it know; a constant of a program is in a global slot. All that ever
writes to such a place is the instruction that declares the constant, in the activation that owns
it.

## Main definitions

* `ScriptEngine.Frame.reads?`: what an instruction reads in a frame;
* `ScriptEngine.Moment.Path`: what happens, step by step;

## Main results

* `ScriptEngine.Exec.execute_reads`: what an instruction reads is what it pushes;
* `ScriptEngine.Watched.constants_immutable`: constants keep their values;
* `ScriptEngine.SharedCell.constant_changes`: a host that hands out a cell breaks that.
-/

namespace ScriptEngine

open ScopeTable

/-! ### Reads -/

/-- **What an instruction reads** in a frame, if it loads a variable. -/
def Frame.reads? (g : Frame) (w : World) (i : Instruction) : Option Value :=
  match i.op with
  | .loadFast => g.yields w.heap.cells i.first.toNat
  | .loadFree => g.cells[i.first.toNat]?.map w.heap.cell
  | .loadGlobal => some (w.content i.first.toNat)
  | _ => none

namespace Exec

variable {ctx : Context} {i : Instruction} {flow : Flow} {t t' : State} {g : Frame}

/-- A value that is pushed lies on top of the others. -/
theorem toList_of_push {v : Value} {u : Unit} (h : push v t = .ok u t') :
    t'.machine.stack.toList = v :: t.machine.stack.toList := by
  rw [push_eq] at h
  split at h
  · rename_i stack hpush
    cases h
    show stack.toList = v :: t.machine.stack.toList
    generalize t.machine.stack = before at hpush ⊢
    obtain ⟨contents, limit⟩ := before
    unfold OperandStack.push at hpush
    dsimp only at hpush
    split at hpush
    · cases hpush
      rfl
    · cases hpush
  · cases h

/-- **What an instruction reads** is what it pushes. -/
theorem execute_reads (hg : t.machine.frames.items.head? = some g)
    (hop : i.op = .loadFast ∨ i.op = .loadFree ∨ i.op = .loadGlobal)
    (h : execute ctx i t = .ok flow t') :
    ∃ v, g.reads? t.world i = some v ∧ t'.machine.stack.toList = v :: t.machine.stack.toList := by
  have pushed {x : Exec Value} {A : Value → Prop} (hx : Looks t x A)
      (h : proceed (do push (← x)) t = .ok flow t') :
      ∃ v, A v ∧ t'.machine.stack.toList = v :: t.machine.stack.toList := by
    obtain ⟨u, s, hbind, hpure⟩ := bind_eq_ok.mp h
    cases hpure
    obtain ⟨v, s, hread, hpush⟩ := bind_eq_ok.mp hbind
    obtain ⟨rfl, hv⟩ := (hx t rfl).1 v s hread
    exact ⟨v, hv, toList_of_push hpush⟩
  unfold execute at h
  unfold Frame.reads?
  rcases hop with hop | hop | hop
  all_goals simp only [hop] at h ⊢
  · refine pushed ?_ h
    refine (Looks.slot hg i.first).bind fun u hu => ?_
    unfold Frame.yields
    rw [hu, Option.map_some]
    split
    · rintro _ rfl
      exact ⟨fun _ _ h => by cases h; exact ⟨rfl, rfl⟩, fun _ _ h => by cases h⟩
    · rename_i hn
      exact .pure (congrArg some (Value.contents_of_ne hn _))
  · refine pushed (x := do
      let r ← captured i.first
      readHeap (·.cell r)) ?_ (by rwa [bind_assoc] )
    refine (Looks.captured hg i.first).bind fun r hr => ?_
    rw [hr, Option.map_some]
    rintro _ rfl
    exact ⟨fun _ _ h => by cases h; exact ⟨rfl, rfl⟩, fun _ _ h => by cases h⟩
  · refine pushed ?_ h
    rintro _ rfl
    exact ⟨fun _ _ h => by cases h; exact ⟨rfl, rfl⟩, fun _ _ h => by cases h⟩

end Exec

/-! ### What is declared where -/

namespace Residence

variable {R : Residence} {g : Frame} {s : ScopeId} {symbol : Symbol} {i j : Instruction}

/-- **A constant is declared by one instruction** of the code of its activation. -/
theorem Houses.once (hR : R.Sound) (h : R.Houses g s) (hi : g.code.Has i) (hj : g.code.Has j)
    (bi : g.code.Boundary i.offset) (bj : g.code.Boundary j.offset) (si : i.Sets R.table s symbol)
    (sj : j.Sets R.table s symbol) : i = j := by
  obtain ⟨first, is, hc⟩ := h.settles hR
  have mi := hc.lists.mem bi hi.offset_lt hi rfl
  have mj := hc.lists.mem bj hj.offset_lt hj rfl
  exact hc.once i mi j mj symbol si sj

/-- **The own name of a function** is a constant of its activations, which no instruction declares:
its slot is the one behind the parameters. -/
theorem Houses.ownName (hR : R.Sound) (h : R.Houses g s) {f : Function} (hf : g.function = some f)
    {name : String} (hname : f.name = some name) (hnot : name ∉ f.parameters) :
    ∃ symbol : Symbol, R.table.Declares s symbol ∧ symbol.name = name ∧ symbol.constant = true ∧
      symbol.index.toNat = f.parameters.length ∧
      ∀ i, g.code.Has i → g.code.Boundary i.offset → ¬i.Sets R.table s symbol := by
  cases h with
  | program function code =>
    rw [function] at hf
    cases hf
  | @function k f' _ function code known home =>
    obtain rfl := Option.some.inj (function.symm.trans hf)
    obtain ⟨f'', hf'', hhoused⟩ := hR.functions k s home
    obtain rfl := Option.some.inj (hf''.symm.trans known)
    obtain ⟨first, is, hc, hself⟩ := hhoused.code
    obtain ⟨hlt, hsmall⟩ := hself name hname hnot
    have hindex : f''.parameters.length.toUInt16.toNat = f''.parameters.length :=
      UInt16.toNat_ofNat_of_lt' hsmall
    refine ⟨⟨name, f''.parameters.length.toUInt16, true⟩,
      ⟨s, hhoused.self name hname hnot, functionScope_of_function hhoused.kind⟩, rfl, rfl, hindex,
      fun i hi hb hs => ?_⟩
    rw [code] at hi hb
    have hle := hc.fresh i (hc.lists.mem hb hi.offset_lt hi rfl) _ hs
    exact absurd hlt (Nat.not_lt_of_le (hindex ▸ hle))

end Residence

/-! ### Steps -/

variable {R : Residence} {w : Holdings} {T : Typing} {F : Floor} {w₀ : Stage} {host : Host}
  {m m' : Moment} {deeds : List Deed} {s : ScopeId} {symbol : Symbol} {g g' : Frame} {d : Nat}
  {r : Ref .cell}

/-- **The instruction that a fiber executes next** belongs to its innermost frame, and refers to
variables as they are seen from there. -/
theorem Fiber.Tidy.atHome {f : Fiber} {world : World} (hR : R.Sound) (hs : f.Sound T F w₀)
    (h : f.Tidy R w)
    {thread : Option (Ref .thread)} {x : Execution} (hx : f.execution? thread world = some x) :
    f.machine.frames.items.head? = some x.frame ∧ x.frame.Resides R w ∧
      ∀ s, R.Houses x.frame s → x.instruction.AtHome R.table R.homes x.frame.code s := by
  obtain ⟨hhead, hlt, hfetch⟩ := Fiber.fetch_of_execution? hx
  have hmem : x.frame ∈ f.machine.frames.items := List.mem_of_mem_head? hhead
  refine ⟨hhead, h.frames _ hmem, fun s hhome => ?_⟩
  have hc : f.control = .dispatch := by
    unfold Fiber.execution? at hx
    split at hx
    · assumption
    · cases hx
  rcases hs with hs | ⟨-, g, o, -, hr, rfl⟩
  · have hactive := hs.control
    rw [hc] at hactive
    obtain ⟨g, fs, below, hitems, hsound, hready, -⟩ := hactive
    rw [hitems] at hhead
    obtain rfl := Option.some.inj hhead
    obtain ⟨i, hfetch', ho, hi, -⟩ := hsound.code.instruction hready.boundary hlt
    obtain rfl := Except.ok.inj (hfetch'.symm.trans hfetch)
    exact hhome.atHome hR hready.boundary hi ho
  · rw [hr.deliver.1] at hc
    cases hc

namespace Moment

/-- The activation of the party that is looked at which the given number of others are around. -/
def activation? (m : Moment) (depth : Nat) : Option Frame :=
  m.party.fiber.machine.frames.items.reverse[depth]?

/-- **An instruction is executed next in an activation** of the party that is looked at. -/
def Executes (m : Moment) (depth : Nat) (x : Execution) : Prop :=
  m.party.execution? m.world = some x ∧ m.party.fiber.machine.frames.items.length = depth + 1

/-- Who is looked at, and all others, are sound. -/
theorem Sound.party (h : m.Sound T F w₀) (hF : F.pending = []) {q : Party} (hq : q ∈ m.parties) :
    ∃ F', F'.pending = [] ∧ q.fiber.Sound T F' w₀ := by
  rcases List.mem_cons.mp hq with rfl | hq
  · exact ⟨F, hF, h.fiber⟩
  · exact h.others q hq

/-- No two parties own the same cell. -/
theorem Tidy.disjoint (h : m.Tidy R w) {q : Party} (hq : q ∈ m.others) (hr : r ∈ m.party.owned) :
    r ∉ q.owned := by
  have hnodup : (m.party.owned ++ m.others.flatMap Party.owned).Nodup := h.owned
  exact fun hr' => List.disjoint_of_nodup_append hnodup hr (List.mem_flatMap.mpr ⟨q, hq, hr'⟩)

section

variable (hR : R.Sound) (hs : m.Sound T F w₀) (h : m.Tidy R w) (hc : m.Changes host deeds m')
include hR hs h hc

/-- **A captured constant** keeps its value in a step, unless the instruction that declares it is
executed in the activation that owns the cell. -/
theorem Tidy.cell (hF : F.pending = []) (hr : w.origins[r.index]? = some ⟨s, symbol.index⟩)
    (hd : R.table.Declares s symbol)
    (hconst : symbol.constant = true) : m'.world.heap.cell r = m.world.heap.cell r ∨
      ∃ x, .executed x ∈ deeds ∧ x.frame.locals[symbol.index.toNat]? = some (.cell r) ∧
        x.instruction.Sets R.table s symbol := by
  have step {q : Party} (hq : q ∈ m.parties) {frames : List Frame}
      (hdeeds : deeds = q.deeds host m.world)
      (ha : Alters (q.execution? m.world) q.fiber.machine.frames.items m.world.heap.cells frames
        m'.world.heap.cells) : m'.world.heap.cell r = m.world.heap.cell r ∨
      ∃ x, .executed x ∈ deeds ∧ x.frame.locals[symbol.index.toNat]? = some (.cell r) ∧
        x.instruction.Sets R.table s symbol := by
    obtain ⟨F', -, hqs⟩ := hs.party hF hq
    rcases ha.constant hR h.world.size (fun x hx => (h.parties q hq).atHome hR hqs hx)
        (h.world.heap.code.closures ▸ h.world.heap.code.binds) hr hd hconst with
      heq | ⟨x, hx, -, -, hslot, hsets⟩
    · exact .inl heq
    · exact .inr ⟨x, hdeeds ▸ Party.executed_mem_deeds.mpr hx, hslot, hsets⟩
  cases hc with
  | own same hdeeds alters => exact step List.mem_cons_self hdeeds alters
  | other mem party hdeeds alters =>
    obtain ⟨frames, alters⟩ := alters
    exact step (List.mem_cons_of_mem _ mem) hdeeds alters
  | none party cells =>
    exact .inl (congrArg (fun cells : Array Value => cells.getD r.index .nil) cells)

/-- **A constant of an activation** keeps its value in a step, unless the instruction that declares
it is executed there. -/
theorem Tidy.slot (hg : m.activation? d = some g) (hg' : m'.activation? d = some g')
    (hhome : R.Houses g s)
    (hd : R.table.Declares s symbol) (hconst : symbol.constant = true) :
    R.Houses g' s ∧
      (g'.yields m'.world.heap.cells symbol.index.toNat =
        g.yields m.world.heap.cells symbol.index.toNat ∨
        ∃ x, .executed x ∈ deeds ∧ m.Executes d x ∧ x.instruction.Sets R.table s symbol) := by
  have hparty := h.parties m.party List.mem_cons_self
  have hmem : g ∈ m.party.fiber.machine.frames.items :=
    List.mem_reverse.mp (List.mem_of_getElem? hg)
  have hclosures : ∀ c ∈ w.closures, R.Binds w c :=
    h.world.heap.code.closures ▸ h.world.heap.code.binds
  cases hc with
  | own same hdeeds alters =>
    have hx x (hx : m.party.execution? m.world = some x) := hparty.atHome hR hs.fiber hx
    have hnodup : (m.party.fiber.machine.frames.items.flatMap Frame.owned).Nodup := by
      have hnodup : (m.party.owned ++ m.others.flatMap Party.owned).Nodup := h.owned
      exact hnodup.of_append_left
    refine ⟨?_, ?_⟩
    · rcases alters.activation hg hg' with ⟨ip, rfl⟩ | ⟨-, e, u, v, ip, -, -, -, rfl, -⟩
      · exact hhome.congr rfl rfl
      · exact hhome.congr rfl rfl
    · rcases alters.yields hR h.world.size hx hclosures hparty.frames hnodup hg hg' hhome
        hd hconst with
        heq | ⟨x, hx, -, hlen, hsets⟩
      · exact .inl heq
      · exact .inr ⟨x, hdeeds ▸ Party.executed_mem_deeds.mpr hx, ⟨hx, hlen⟩, hsets⟩
  | @other q mem party hdeeds alters =>
    obtain ⟨frames, alters⟩ := alters
    have hsame : g' = g := by
      unfold activation? at hg hg'
      rw [party, hg] at hg'
      exact (Option.some.inj hg').symm
    subst hsame
    refine ⟨hhome, .inl ?_⟩
    obtain ⟨F', -, hqs⟩ := hs.others q mem
    rcases alters.yields_of_slot hR h.world.size
        (fun x hx => (h.parties q (List.mem_cons_of_mem _ mem)).atHome hR hqs hx) hclosures
        (hparty.frames _ hmem) hhome hd hconst with heq | ⟨x, r, hx, hr, hr', -⟩
    · exact heq
    · -- the cell is one of the other party
      have hhead := (Fiber.fetch_of_execution? hx).1
      refine absurd (List.mem_flatMap.mpr ⟨x.frame, List.mem_of_mem_head? hhead, ?_⟩)
        (h.disjoint mem (List.mem_flatMap.mpr ⟨_, hmem, Frame.mem_owned.mpr ⟨_, hr⟩⟩))
      exact Frame.mem_owned.mpr ⟨_, hr'⟩
  | none party cells =>
    have hsame : g' = g := by
      unfold activation? at hg hg'
      rw [party, hg] at hg'
      exact (Option.some.inj hg').symm
    subst hsame
    exact ⟨hhome, .inl (by rw [cells])⟩

end

/-- **A constant of the program** keeps its value in a step, unless the instruction that declares it
is executed in a run. -/
theorem Tidy.global (hR : R.Sound) (hs : m.Sound T F w₀) (hF : F.pending = []) (h : m.Tidy R w)
    (hm : m.Performs host deeds m') (hd : R.table.Declares root symbol)
    (hconst : symbol.constant = true) :
    m'.world.content symbol.index.toNat = m.world.content symbol.index.toNat ∨
      ∃ x, .executed x ∈ deeds ∧ x.InProgram ∧ x.instruction.Sets R.table root symbol := by
  rcases hm.cases with ⟨q, hq, rfl, hworld, -⟩ | ⟨-, -, hglobals, -⟩
  · have hafter := Fiber.globals_step host q.thread m.world q.fiber
    rw [← hworld] at hafter
    unfold World.globalsAfter at hafter
    cases hx : q.fiber.execution? q.thread m.world with
    | none =>
      rw [hx] at hafter
      exact .inl (congrFun (World.content_congr hafter) _)
    | some x =>
      rw [hx, Option.bind_some] at hafter
      obtain ⟨F', -, hqs⟩ := hs.party hF hq
      obtain ⟨-, hresides, hhome⟩ := (h.parties q hq).atHome hR hqs hx
      by_cases hop : x.instruction.op = .storeGlobal
      · by_cases hfirst : x.instruction.first = symbol.index
        · right
          obtain ⟨s, hs, -⟩ := hresides.home
          have hstored : R.table.stored? s x.instruction = some ⟨root, symbol.index⟩ := by
            unfold stored?
            rw [hop, hfirst]
          obtain ⟨howner, -, -⟩ :=
            (hhome s hs).sets_of_isConstant hR.lexical hstored ⟨symbol, hd, rfl, hconst⟩
          obtain rfl : root = s := howner
          exact ⟨x, Party.executed_mem_deeds.mpr hx, hs.function_eq_none hR, hd, hconst, hstored⟩
        · left
          have hstore : x.store? = x.machine.stack.toList.head?.map (x.instruction.first, ·) :=
            if_pos hop
          rw [hstore] at hafter
          cases hv : x.machine.stack.toList.head? with
          | none =>
            rw [hv] at hafter
            exact congrFun (World.content_congr hafter) _
          | some v =>
            rw [hv] at hafter
            have hset : m'.world.content symbol.index.toNat =
                (m.world.setGlobal x.instruction.first.toNat v).content symbol.index.toNat :=
              congrFun (World.content_congr hafter) _
            rw [hset, World.content_setGlobal, if_neg fun h => hfirst (UInt16.toNat_inj.mp h.symm)]
      · have hstore : x.store? = none := if_neg hop
        rw [hstore] at hafter
        exact .inl (congrFun (World.content_congr hafter) _)
  · exact .inl (congrFun (World.content_congr hglobals) _)

/-! ### Paths -/

/-- What is performed can happen. -/
theorem Performs.step (h : m.Performs host deeds m') : m.Step host m' := by
  cases h with
  | own => exact .own m
  | other h => exact .other h
  | report h => exact .report h
  | order h => exact .order h
  | controls c => exact .controls c

/-- **What happens, step by step**, while something holds of every step. -/
def Path (host : Host) (P : Moment → List Deed → Moment → Prop) : Moment → Moment → Prop :=
  Relation.ReflTransGen fun m m' => ∃ deeds, m.Performs host deeds m' ∧ P m deeds m'

/-- **What every step of a path keeps**, the path keeps. -/
theorem Tidy.along (hR : R.Sound) (hh : host.Honest) (hsp : host.Spares) (hs : m.Sound T F w₀)
    (hF : F.pending = []) (h : m.Tidy R w) {P : Moment → List Deed → Moment → Prop}
    {Q : Moment → Prop}
    (hm : m.Path host P m') (start : Q m)
    (step : ∀ {w' : Holdings} {w₁ : Stage} {m₁ m₂ : Moment} {deeds : List Deed}, w.Le w' →
      m₁.Sound T F w₁ → m₁.Tidy R w' → m₁.Performs host deeds m₂ → m₁.Changes host deeds m₂ →
      P m₁ deeds m₂ → Q m₁ → Q m₂) : Q m' := by
  suffices ∃ w₁ w', w.Le w' ∧ m'.Sound T F w₁ ∧ m'.Tidy R w' ∧ Q m' from
    this.elim fun _ h => h.elim fun _ h => h.2.2.2
  induction hm with
  | refl => exact ⟨w₀, w, .refl w, hs, h, start⟩
  | tail _ hstep ih =>
    obtain ⟨w₁, w', hw, hs₁, h₁, hQ⟩ := ih
    obtain ⟨deeds, hperforms, hP⟩ := hstep
    obtain ⟨w'', hw', h₂, hchanges⟩ := h₁.performs hR hh hsp hs₁ hF hperforms
    obtain ⟨w₂, -, hs₂⟩ := hs₁.step hh hF hperforms.step
    exact ⟨w₂, w'', hw.trans hw', hs₂, h₂, step hw hs₁ h₁ hperforms hchanges hP hQ⟩

section

variable (hR : R.Sound) (hh : host.Honest) (hsp : host.Spares) (hs : m.Sound T F w₀)
  (hF : F.pending = [])
  (h : m.Tidy R w) (hd : R.table.Declares s symbol) (hconst : symbol.constant = true)
include hR hh hsp hs hF h hd hconst

/-- **A constant of an activation** keeps its value as long as the activation lasts and the
instruction that declares it is not executed there. -/
theorem Tidy.slot_path (hg : m.activation? d = some g) (hhome : R.Houses g s)
    (hm : m.Path host (fun m deeds m' => (m'.activation? d).isSome = true ∧
      ∀ x, .executed x ∈ deeds → m.Executes d x → ¬x.instruction.Sets R.table s symbol) m')
    (hg' : m'.activation? d = some g') :
    g'.yields m'.world.heap.cells symbol.index.toNat =
      g.yields m.world.heap.cells symbol.index.toNat := by
  have kept : ∃ g', m'.activation? d = some g' ∧ R.Houses g' s ∧
      g'.yields m'.world.heap.cells symbol.index.toNat =
        g.yields m.world.heap.cells symbol.index.toNat := by
    refine h.along hR hh hsp hs hF hm
      (Q := fun m' => ∃ g', m'.activation? d = some g' ∧ R.Houses g' s ∧
      g'.yields m'.world.heap.cells symbol.index.toNat =
        g.yields m.world.heap.cells symbol.index.toNat) ⟨g, hg, hhome, rfl⟩ ?_
    rintro w' w₁ m₁ m₂ deeds - hs₁ h₁ - hchanges ⟨hlasts, hnot⟩ ⟨g₁, hg₁, hhome₁, heq⟩
    obtain ⟨g₂, hg₂⟩ := Option.isSome_iff_exists.mp hlasts
    obtain ⟨hhome₂, heq' | ⟨x, hx, hexecutes, hsets⟩⟩ :=
      h₁.slot hR hs₁ hchanges hg₁ hg₂ hhome₁ hd hconst
    · exact ⟨g₂, hg₂, hhome₂, heq'.trans heq⟩
    · exact absurd hsets (hnot x hx hexecutes)
  obtain ⟨g'', hg'', -, heq⟩ := kept
  rw [hg'] at hg''
  exact Option.some.inj hg'' ▸ heq

/-- **A captured constant** keeps its value as long as the instruction that declares it is not
executed in the activation that owns the cell. -/
theorem Tidy.cell_path {c : Closure} (hc : c ∈ m.world.heap.closures) {inner : ScopeId}
    (hinner : R.homes[c.function.index]? = some inner) {k : Nat} (hr : c.cells[k]? = some r)
    (hfree : R.table.free? inner k = some ⟨s, symbol.index⟩)
    (hm : m.Path host (fun _ deeds _ => ∀ x, .executed x ∈ deeds →
      x.frame.locals[symbol.index.toNat]? = some (.cell r) →
        ¬x.instruction.Sets R.table s symbol) m') :
    m'.world.heap.cell r = m.world.heap.cell r := by
  obtain ⟨inner', hinner', hbinds⟩ := h.world.heap.code.binds c hc
  obtain rfl := Option.some.inj (hinner'.symm.trans hinner)
  obtain ⟨v, hv, hfree'⟩ := hbinds k r hr
  obtain rfl := Option.some.inj (hfree'.symm.trans hfree)
  refine h.along hR hh hsp hs hF hm
    (Q := fun m' => m'.world.heap.cell r = m.world.heap.cell r) rfl ?_
  intro w' w₁ m₁ m₂ deeds hw hs₁ h₁ _ hchanges hnot heq
  rcases h₁.cell hR hs₁ hchanges hF (hw.variable hv) hd hconst with heq' | ⟨x, hx, hslot, hsets⟩
  · exact heq'.trans heq
  · exact absurd hsets (hnot x hx hslot)

end

/-- **A constant of the program** keeps its value as long as the instruction that declares it is not
executed in a run. -/
theorem Tidy.global_path (hR : R.Sound) (hh : host.Honest) (hsp : host.Spares) (hs : m.Sound T F w₀)
    (hF : F.pending = []) (h : m.Tidy R w) (hd : R.table.Declares root symbol)
    (hconst : symbol.constant = true)
    (hm : m.Path host (fun _ deeds _ => ∀ x, .executed x ∈ deeds → x.InProgram →
      ¬x.instruction.Sets R.table root symbol) m') :
    m'.world.content symbol.index.toNat = m.world.content symbol.index.toNat := by
  refine h.along hR hh hsp hs hF hm
    (Q := fun m' => m'.world.content symbol.index.toNat = m.world.content symbol.index.toNat) rfl ?_
  intro w' w₁ m₁ m₂ deeds _ hs₁ h₁ hperforms _ hnot heq
  rcases h₁.global hR hs₁ hF hperforms hd hconst with heq' | ⟨x, hx, hprogram, hsets⟩
  · exact heq'.trans heq
  · exact absurd hsets (hnot x hx hprogram)

end Moment

/-! ### Constants -/

variable {c : Compiler} {batches : List Batch}

/-- **Constants are immutable for scripts.** An assignment to which a compilation comes is refused
because of a constant exactly if the nearest declaration of its name makes it one, or there is none
and the name is that of a builtin; only if a function on the way to the variable has no room for one
more free variable, it is refused for that instead.

Whatever happens while accepted code is executed, a constant keeps its value: in the activation that
owns it, for the closures that captured it, and as a global. Only the one instruction that declares
it replaces the value, in that activation or, for a global, in a run of the program; and nothing
replaces that of the own name of a function. The host neither hands out cells nor touches them. -/
theorem Watched.constants_immutable (hh : host.Honest) (hsp : host.Spares)
    (h : Watched host c batches m) :
    (∀ {c : Compiler} {fs : Array Function} {batches : List Batch} {program : Program}
      {ds : Declarations} {statement : Statement} {name : String} {Q : Place} {t : Emission},
      c.Built fs batches →
      (∀ name, ds.lookup name = (c.table.get? root name).map Symbol.constant) →
      statement.target? = some name →
      (Plan.ofStatements program).Reaches ⟨false, [ds]⟩ (c.starting fs)
        (Plan.ofStatement statement) Q t →
      (∃ f u, wordCount ≤ (t.table.freeVars f).size ∧
        Emit.resolveAssignable name t = .error .tooManySymbols u ∧
          (c.compile fs program).1 = .error .tooManySymbols) ∨
      (Q.Forbids t.table name ∧
        (∃ u, Emit.resolveAssignable name t = .error (.assignToConstant name) u) ∧
        (c.compile fs program).1 = .error (.assignToConstant name)) ∨
      (¬Q.Forbids t.table name ∧ ∀ e u, Emit.resolveAssignable name t = .error e u →
        e = .undefined name)) ∧
    (∀ {ctx : Context} {i : Instruction} {flow : Flow} {t t' : State} {g : Frame},
      t.machine.frames.items.head? = some g →
        (i.op = .loadFast ∨ i.op = .loadFree ∨ i.op = .loadGlobal) →
      Exec.execute ctx i t = .ok flow t' →
      ∃ v, g.reads? t.world i = some v ∧ t'.machine.stack.toList = v :: t.machine.stack.toList) ∧
    ∃ R : Residence, R.Sound ∧ R.table = c.table ∧ R.functions = m.world.heap.functions ∧
      R.codes = c.code :: batches.map Batch.code ∧
      (∀ p ∈ m.parties, ∀ g ∈ p.fiber.machine.frames.items,
        ∃ s, R.Houses g s ∧ R.Captures m.world.heap.closures g s) ∧
      (∀ g s, R.Houses g s →
        (∀ symbol i j, g.code.Has i → g.code.Has j → g.code.Boundary i.offset →
          g.code.Boundary j.offset → i.Sets R.table s symbol → j.Sets R.table s symbol → i = j) ∧
        ∀ f name, g.function = some f → f.name = some name → name ∉ f.parameters →
          ∃ symbol : Symbol, R.table.Declares s symbol ∧ symbol.name = name ∧
            symbol.constant = true ∧
            symbol.index.toNat = f.parameters.length ∧
            ∀ i, g.code.Has i → g.code.Boundary i.offset → ¬i.Sets R.table s symbol) ∧
      ∀ s symbol, R.table.Declares s symbol → symbol.constant = true →
        (∀ d g, m.activation? d = some g → R.Houses g s → ∀ m' g',
          m.Path host (fun m deeds m' => (m'.activation? d).isSome = true ∧
            ∀ x, .executed x ∈ deeds →
            m.Executes d x → ¬x.instruction.Sets R.table s symbol) m' →
          m'.activation? d = some g' → g'.yields m'.world.heap.cells symbol.index.toNat =
            g.yields m.world.heap.cells symbol.index.toNat) ∧
        (∀ closure ∈ m.world.heap.closures, ∀ inner (k : Nat) r,
          R.homes[closure.function.index]? = some inner → closure.cells[k]? = some r →
          R.table.free? inner k = some ⟨s, symbol.index⟩ → ∀ m',
          m.Path host (fun _ deeds _ => ∀ x, .executed x ∈ deeds →
            x.frame.locals[symbol.index.toNat]? = some (.cell r) →
            ¬x.instruction.Sets R.table s symbol) m' →
          m'.world.heap.cell r = m.world.heap.cell r) ∧
        (s = root → ∀ m',
          m.Path host (fun _ deeds _ => ∀ x, .executed x ∈ deeds → x.InProgram →
            ¬x.instruction.Sets R.table s symbol) m' →
          m'.world.content symbol.index.toNat = m.world.content symbol.index.toNat) := by
  obtain ⟨hb, T, F, w₀, hF, hs, htidy⟩ := h.tidy hh hsp
  obtain ⟨homes, hR⟩ := hb.resides
  obtain ⟨w, ht⟩ := htidy hR ⟨fun _ _ hf => hf, fun _ hc => List.mem_cons_of_mem _ hc⟩
  refine ⟨fun hb hds hs hreaches => hb.assigns hds hs hreaches,
    fun hg hop h => Exec.execute_reads hg hop h, _, hR, rfl, rfl, rfl,
    fun p hp g hg => ?_, fun g s hhome => ⟨fun symbol i j hi hj bi bj => hhome.once hR hi hj bi bj,
      fun f name hf hname hnot => hhome.ownName hR hf hname hnot⟩,
        fun s symbol hd hconst => ⟨?_, ?_, ?_⟩⟩
  · obtain ⟨s, hhome, hcaptures⟩ := ((ht.parties p hp).frames g hg).home
    exact ⟨s, hhome, ht.world.heap.code.closures ▸ hcaptures⟩
  · exact fun d g hg hhome m' g' hm hg' => ht.slot_path hR hh hsp hs hF hd hconst hg hhome hm hg'
  · exact fun closure hc inner k r hinner hr hfree m' hm =>
      ht.cell_path hR hh hsp hs hF hd hconst hc hinner hr hfree hm
  · rintro rfl m' hm
    exact ht.global_path hR hh hsp hs hF hd hconst hm

/-! ### A cell that a host shares

A host that puts a cell into a global makes it the content of a constant and of a variable at
once. -/

/-- A host whose functions only yield nil. -/
theorem Host.honest_default : (default : Host).Honest :=
  fun D _ _ _ _ _ _ => D.data (v := .nil) rfl

namespace Moment

/-- A moment after as many steps of the party that is looked at. -/
def after (host : Host) : Nat → Moment → Moment
  | 0, m => m
  | n + 1, m => (m.after host n).own host

theorem goes_after (host : Host) (m : Moment) : ∀ n, m.Goes host (m.after host n)
  | 0 => .refl
  | n + 1 => (goes_after host m n).step (.own _)

/-- The steps of the party that is looked at are a path. -/
theorem path_after {P : Moment → List Deed → Moment → Prop} (m : Moment) {first : Nat} (n : Nat)
    (h : ∀ k < n, P (m.after host (first + k))
      ((m.after host (first + k)).party.deeds host (m.after host (first + k)).world)
      (m.after host (first + k + 1))) :
    (m.after host first).Path host P (m.after host (first + n)) := by
  induction n with
  | zero => exact .refl
  | succ n ih =>
    exact .tail (ih fun k hk => h k (Nat.lt_succ_of_lt hk)) ⟨_, .own _, h n (Nat.lt_succ_self n)⟩

end Moment

namespace SharedCell

/-- The script: `func() { const c = g; var d = g; d = 5; return c }()`. -/
def literal : Func :=
  .mk none [] [.const "c" (.ident "g"), .var "d" (.ident "g"), .assign "d" .assign (.int 5),
    .ret (some (.ident "c"))]

def program : Program :=
  [.expr (.call (.func literal) [])]

def outer : ScopeData where
  parent := none
  kind := .function
  slots := 1
  names := (∅ : Std.HashMap String Symbol).insert "g" ⟨"g", 0, false⟩

/-- The table inside the function, of whose variables some are declared. -/
def table (slots : Nat) (names : Std.HashMap String Symbol) : ScopeTable where
  scopes := #[outer, { parent := some root, kind := .function, slots },
    { parent := some ⟨1⟩, kind := .block, names }]

def one : Std.HashMap String Symbol :=
  (∅ : Std.HashMap String Symbol).insert "c" ⟨"c", 0, true⟩

def two : Std.HashMap String Symbol :=
  one.insert "d" ⟨"d", 1, false⟩

theorem two_c : two["c"]? = some ⟨"c", 0, true⟩ := by
  unfold two one
  rw [Std.HashMap.getElem?_insert]
  simp

theorem two_d : two["d"]? = some ⟨"d", 1, false⟩ := by
  unfold two
  simp

theorem one_g : one["g"]? = none := by
  unfold one
  rw [Std.HashMap.getElem?_insert]
  simp

/-- The name `g` is that of a global. -/
theorem resolve_g {slots : Nat} {names : Std.HashMap String Symbol} (h : names["g"]? = none) :
    resolve ⟨2⟩ "g" (table slots names) =
      .ok (some ⟨⟨"g", 0, false⟩, .global, 0, 0⟩) (table slots names) := by
  have hglobal : (table slots names).known? root "g" =
      some ⟨⟨"g", 0, false⟩, .global, 0, 0⟩ :=
    known?_of_declared (Std.HashMap.getElem?_insert_self (α := String))
  have hunknown : (table slots names).known? ⟨1⟩ "g" = none :=
    known?_eq_none Std.HashMap.getElem?_empty Std.HashMap.getElem?_empty
  have hundeclared : (table slots names).known? ⟨2⟩ "g" = none :=
    known?_eq_none h Std.HashMap.getElem?_empty
  exact resolveWithin_of_outer hundeclared rfl
    (resolveWithin_of_outer hunknown rfl (resolveWithin_known 0 hglobal) (.inr (.inl rfl)))
    (.inl rfl)

/-- The names of the function are those of local variables. -/
theorem resolve_local {slots : Nat} {names : Std.HashMap String Symbol} {name : String}
    {symbol : Symbol} (h : names[name]? = some symbol) :
    resolve ⟨2⟩ name (table slots names) =
      .ok (some ⟨symbol, .local, 0, 0⟩) (table slots names) :=
  resolve_of_declared h

theorem declare_local {slots : Nat} {names : Std.HashMap String Symbol} {name : String}
    {constant : Bool}
    (h : names.contains name = false) (hlt : slots < slotLimit) :
    declare ⟨2⟩ name constant (table slots names) = .ok ⟨name, slots.toUInt16, constant⟩
      (table (slots + 1) (names.insert name ⟨name, slots.toUInt16, constant⟩)) := by
  rw [declare_eq]
  have hcontains : ((table slots names).scope ⟨2⟩).names.contains name = false := h
  have hcount : (table slots names).slotCount ⟨2⟩ = slots := rfl
  rw [hcontains, hcount, if_neg Bool.false_ne_true, if_neg (Nat.not_le_of_lt hlt)]
  rfl

/-- The state of the compiler inside the function. -/
def inside (c : Code) (slots : Nat) (names : Std.HashMap String Symbol) : Emission where
  table := table slots names
  body := { code := c, scope := ⟨2⟩ }
  enclosing := [{ code := { globalCount := 1 }, scope := root }]
  functions := #[]

/-- A new variable of the function takes the next slot. -/
theorem new_eq {c : Code} {slots : Nat} {names : Std.HashMap String Symbol} {name : String}
    {constant : Bool} (h : names.contains name = false) (hlt : slots < slotLimit) :
    Emit.declare name constant (inside c slots names) =
      .ok () (inside (c.emit .storeFast [slots.toUInt16]) (slots + 1)
        (names.insert name ⟨name, slots.toUInt16, constant⟩)) :=
  Emit.declare_of_ok (s := inside c slots names) (declare_local h hlt)

def body (c : Code) : Code :=
  (((((((c.emit .loadGlobal [0]).emit .storeFast [0]).emit .loadGlobal [0]).emit
    .storeFast [1]).emit
    .loadConst [0]).emit .storeFast [1]).emit .loadFast [0]).emit .returnValue [1]

theorem body_eq : Generate.statements literal.body (inside {} 0 ∅) =
    .ok () (inside { body {} with constants := #[.int 5] } 2 two) := by
  let first : Code := Code.emit {} .loadGlobal [0]
  let second : Code := (first.emit .storeFast [0]).emit .loadGlobal [0]
  let declared : Code := second.emit .storeFast [1]
  let loaded : Code := { declared with constants := #[.int 5] }.emit .loadConst [0]
  let assigned : Code := loaded.emit .storeFast [1]
  have hadd : declared.addConstant? (.int 5) = some (0, { declared with constants := #[.int 5] }) :=
    Code.addConstant?_of_new (fun _ hw => absurd hw (Array.not_mem_empty _)) (by decide)
  have hc : Generate.statement (.const "c" (.ident "g")) (inside {} 0 ∅) =
      .ok () (inside (first.emit .storeFast [0]) 1 one) :=
    bind_eq_ok.mpr ⟨(), inside first 0 ∅,
      Generate.exprAs_ident (s := inside {} 0 ∅) (resolve_g Std.HashMap.getElem?_empty),
      new_eq Std.HashMap.contains_empty (by decide)⟩
  have hd : Generate.statement (.var "d" (.ident "g")) (inside (first.emit .storeFast [0]) 1 one) =
      .ok () (inside declared 2 two) :=
    bind_eq_ok.mpr ⟨(), inside second 1 one,
      Generate.exprAs_ident (s := inside (first.emit .storeFast [0]) 1 one) (resolve_g one_g),
      new_eq (by simp [one]) (by decide)⟩
  have ha : Generate.statement (.assign "d" .assign (.int 5)) (inside declared 2 two) =
      .ok () (inside assigned 2 two) :=
    bind_eq_ok.mpr ⟨⟨⟨"d", 1, false⟩, .local, 0, 0⟩, inside declared 2 two,
      Emit.resolveAssignable_of_ok (s := inside declared 2 two)
        (resolve_local two_d) rfl (by decide),
      bind_eq_ok.mpr ⟨(), inside loaded 2 two,
        Emit.constant_of_ok (s := inside declared 2 two) hadd, rfl⟩⟩
  have hl : Generate.exprAs .call (.ident "c") (inside assigned 2 two) =
      .ok () (inside (assigned.emit .loadFast [0]) 2 two) :=
    Generate.exprAs_ident (s := inside assigned 2 two) (resolve_local two_c)
  have hr : Generate.statement (.ret (some (.ident "c"))) (inside assigned 2 two) =
      .ok () (inside ((assigned.emit .loadFast [0]).emit .returnValue [1]) 2 two) :=
    bind_eq_ok.mpr ⟨_, _, rfl, bind_eq_ok.mpr ⟨(), _, hl, rfl⟩⟩
  have hcode : (assigned.emit .loadFast [0]).emit .returnValue [1] =
      { body {} with constants := #[.int 5] } := by decide
  rw [← hcode]
  exact (bind_of_ok hc).trans ((bind_of_ok hd).trans ((bind_of_ok ha).trans (bind_of_ok hr)))

/-- The compiler that knows the global of the host. -/
def start : Compiler where
  table := { scopes := #[outer] }
  main := { code := { globalCount := 1 }, scope := root }

theorem start_eq : ({} : Compiler).declareGlobal "g" = (.ok 0, start) := by
  have hnone : ({} : Compiler).globalIndex? "g" = none := by
    show ((∅ : Std.HashMap String Symbol)["g"]?).map _ = none
    rw [Std.HashMap.getElem?_empty]
    rfl
  have hdeclare : declare root "g" false .empty = .ok ⟨"g", 0, false⟩ { scopes := #[outer] } := by
    rw [declare_eq, show ((ScopeTable.empty.scope root).names.contains "g") = false from
      Std.HashMap.contains_empty]
    rfl
  unfold Compiler.declareGlobal Compiler.onTable
  rw [hnone]
  dsimp only
  rw [show declare root "g" false ({} : Compiler).table = _ from hdeclare]
  rfl

/-- The compiled function. -/
def compiled : Function where
  name := none
  parameters := []
  defaults := []
  code := { body {} with constants := #[.int 5], localCount := 2 }

/-- The code of the script. -/
def code : Code where
  words := #[Opcode.loadConst.word, 0, Opcode.call.word, 0]
  constants := #[.function ⟨0⟩]
  globalCount := 1

/-- The state of the compiler behind the function. -/
def behind (c : Code) : Emission where
  table := table 2 two
  body := { code := c, scope := root }
  functions := #[compiled]

theorem func_eq : Generate.func literal (start.emission #[]) =
    .ok () (behind
      (Code.emit { globalCount := 1, constants := #[.function ⟨0⟩] } .loadConst [0])) := by
  let entered : ScopeTable := { scopes := #[outer, { parent := some root, kind := .function }] }
  let opened : Emission := { inside {} 0 ∅ with table := entered, body.scope := ⟨1⟩ }
  have hbody : Emit.inBlock (Generate.statements literal.body) opened =
      .ok () { inside { body {} with constants := #[.int 5] } 2 two with body.scope := ⟨1⟩ } :=
    Emit.inBlock_of_ok (s := opened) body_eq
  have hadd : ({ globalCount := 1 } : Code).addConstant? (.function ⟨0⟩) =
      some (0, { globalCount := 1, constants := #[.function ⟨0⟩] }) :=
    Code.addConstant?_of_new (fun _ hw => absurd hw (Array.not_mem_empty _)) (by decide)
  exact (Generate.function_of_ok (f := literal) (s := start.emission #[]) (t := entered)
    (by decide) rfl rfl rfl hbody rfl rfl).trans
    (Generate.instantiate_of_ok (s := behind { globalCount := 1 }) hadd)

/-- The compiler after the script. -/
def finished : Compiler :=
  { start with table := table 2 two, main := { code, scope := root } }

theorem compile_eq : start.compile #[] program = (.ok code, finished, #[compiled]) := by
  have hemit : Generate.statements program (start.emission #[]) = .ok () (behind code) :=
    bind_eq_ok.mpr ⟨(), _, bind_eq_ok.mpr ⟨(), _, func_eq, rfl⟩, rfl⟩
  exact Compiler.compile_of_ok hemit

/-- The system whose host has filled the global. -/
def system (v : Value) : System where
  machine := {}
  world := { heap := { functions := #[compiled], cells := #[.int 1] }, globals := #[v] }

/-- The run of the script, after as many steps. -/
def moment (v : Value) (n : Nat) : Moment :=
  ((system v).begin (.forProgram (system v).machine {} code) (system v).world).after default n

/-- **A constant that changes.** The host has put a cell into the global, and the script made it the
content of a constant and of a variable. The assignment to the variable, after the declaration of
the constant, changes what is read from the constant. -/
theorem constant_changes :
    ({} : Compiler).declareGlobal "g" = (.ok 0, start) ∧ (start.compile #[] program).1 = .ok code ∧
    (((moment (.cell ⟨0⟩) 5).activation? 1).bind fun g =>
      g.yields (moment (.cell ⟨0⟩) 5).world.heap.cells 0) = some (.int 1) ∧
    (moment (.cell ⟨0⟩) 5).Path default (fun m deeds m' => (m'.activation? 1).isSome = true ∧
      ∀ x, .executed x ∈ deeds → m.Executes 1 x → x.instruction.offset ≠ 2) (moment (.cell ⟨0⟩) 9) ∧
    (((moment (.cell ⟨0⟩) 9).activation? 1).bind fun g =>
      g.yields (moment (.cell ⟨0⟩) 9).world.heap.cells 0) = some (.int 5) := by
  -- the declaration is at offset 2, and the activation is the one inside that of the program
  have hpath : ∀ k < 4, ((moment (.cell ⟨0⟩) (5 + k + 1)).activation? 1).isSome = true ∧
      (((moment (.cell ⟨0⟩) (5 + k)).party.execution? (moment (.cell ⟨0⟩) (5 + k)).world).all
        fun x => x.instruction.offset != 2) = true := by
    decide +kernel
  refine ⟨start_eq, congrArg Prod.fst compile_eq, by decide +kernel,
    Moment.path_after _ 4 fun k hk => ?_, by decide +kernel⟩
  change (_ ∧ ∀ x, .executed x ∈ (moment (.cell ⟨0⟩) (5 + k)).party.deeds default
    (moment (.cell ⟨0⟩) (5 + k)).world → _)
  obtain ⟨hsome, hall⟩ := hpath k hk
  refine ⟨hsome, fun x hx _ => ?_⟩
  rw [Party.executed_mem_deeds.mp hx] at hall
  exact bne_iff_ne.mp hall

/-- The run of the script when the global is a number. -/
theorem watched : Watched default finished [⟨program, code⟩] (moment (.int 1) 5) := by
  have fresh : Compiler.withBuiltins [] = .ok {} := rfl
  have hbare : ({ cells := #[.int 1] } : Heap).Bare := by
    refine ⟨rfl, rfl, fun D w hs => ⟨hs, ?_, ?_, ?_, ?_, ?_, ?_, ?_, ?_⟩⟩
    rotate_left 4
    · intro v hv
      obtain rfl := Array.mem_singleton.mp hv
      exact D.data rfl
    all_goals exact fun x hx => absurd hx (Array.not_mem_empty x)
  have h₀ : Custody default {} [] []
      { machine := {}, world := { heap := { cells := #[.int 1] } } } :=
    .start (.withBuiltins fresh) (Nat.zero_le _)
      (fun e he => absurd he (Array.not_mem_empty e)) hbare
  have h₁ := h₀.declareGlobal "g"
  rw [start_eq] at h₁
  have h₂ := (h₁.compile compile_eq).setGlobal 0 (v := .int 1) (.inl rfl)
  exact .run h₂ (List.mem_singleton.mpr rfl) {} (Moment.goes_after default _ 5)

/-- **A constant that stays.** When the host has put a number into the global, the constant keeps it
until its declaration is executed again. -/
theorem constant_stays : (default : Host).Honest ∧ (default : Host).Spares ∧
    Watched default finished [⟨program, code⟩] (moment (.int 1) 5) ∧
    ∃ (R : Residence) (g : Frame) (s : ScopeId), R.Sound ∧ R.table = finished.table ∧
      (moment (.int 1) 5).activation? 1 = some g ∧ R.Houses g s ∧
      ∀ symbol, R.table.Declares s symbol → symbol.constant = true → symbol.index = 0 → ∀ m' g',
        (moment (.int 1) 5).Path default (fun m deeds m' => (m'.activation? 1).isSome = true ∧
          ∀ x, .executed x ∈ deeds → m.Executes 1 x → ¬x.instruction.Sets R.table s symbol) m' →
        m'.activation? 1 = some g' → g'.yields m'.world.heap.cells 0 = some (.int 1) := by
  have hspares : (default : Host).Spares := fun _ _ _ => trivial
  obtain ⟨-, -, R, hR, htable, -, -, hhomes, -, hkeeps⟩ :=
    Watched.constants_immutable Host.honest_default hspares watched
  obtain ⟨g, hg, hyields⟩ : ∃ g, (moment (.int 1) 5).activation? 1 = some g ∧
      g.yields (moment (.int 1) 5).world.heap.cells 0 = some (.int 1) :=
    Option.bind_eq_some_iff.mp (by decide +kernel)
  have hmem : g ∈ (moment (.int 1) 5).party.fiber.machine.frames.items :=
    List.mem_reverse.mp (List.mem_of_getElem? hg)
  obtain ⟨s, hhome, -⟩ := hhomes _ List.mem_cons_self g hmem
  refine ⟨Host.honest_default, hspares, watched, R, g, s, hR, htable, hg, hhome, ?_⟩
  intro symbol hd hconst hindex m' g' hm hg'
  have hkept := (hkeeps s symbol hd hconst).1 1 g hg hhome m' g' hm hg'
  rw [hindex] at hkept
  exact hkept.trans hyields
end SharedCell
end ScriptEngine
