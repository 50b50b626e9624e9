import ScriptEngine.Proofs.Code.Decoding
import ScriptEngine.Proofs.Compiler.WellFormed
import ScriptEngine.Proofs.Layout.Pools
import ScriptEngine.Proofs.Layout.Requests

/-!
# The pools of batches

Pools grow from batch to batch, later batches share the entries of earlier ones, and a batch that is
refused is cut off. Throughout, an instruction refers to the very literal, name or function that the
text of its program put there.

## Main definitions

* `ScriptEngine.Batch.requests`: what batches ask for, one after the other;
* `ScriptEngine.Code.Faithful`: a code refers to what was asked for, and shares entries only where
  it may.

## Main results

* `ScriptEngine.Exec.fetchAndExecute_loadConst`: what a machine does with a constant;
* `ScriptEngine.Compiler.Built.pools_faithful`: the codes of every compiler are faithful.
-/

namespace ScriptEngine

open ScopeTable

/-! ### What a machine does with a constant -/

/-- **A constant** is pushed as it lies in the pool. -/
theorem Exec.fetchAndExecute_loadConst {ctx : Context} {s : State} {f : Frame} {i : Instruction}
    {v : Value} (htop : s.machine.frames.top? = some f) (hi : f.code.Has i) (hip : f.ip = i.offset)
    (hop : i.op = .loadConst) (hv : f.code.constants[i.first.toNat]? = some v) :
    fetchAndExecute ctx s = (do
      modifyFrame ({ · with ip := i.stop })
      proceed (push v)) s := by
  rw [fetchAndExecute_of_fetch htop (hip ▸ hi.offset_lt) (hip ▸ hi.fetch)]
  obtain ⟨⟨config, stack, ⟨frames, size, hsize⟩, registry, position, status, ticks⟩, w⟩ := s
  cases frames with
  | nil => cases htop
  | cons g gs =>
    cases htop
    obtain ⟨offset, op, operands⟩ := i
    obtain rfl : op = .loadConst := hop
    -- the frame has moved on, but its code is the same
    let stop := Instruction.stop ⟨offset, .loadConst, operands⟩
    let moved : State := ⟨⟨config, stack, ⟨{ f with ip := stop } :: gs, size, hsize⟩, registry,
      position, status, ticks⟩, w⟩
    have hconstant : constant (operands.headD 0) moved = .ok v moved := by
      refine bind_eq_ok.mpr ⟨_, moved, rfl, ?_⟩
      show entry f.code.constants[(operands.headD 0).toNat]? _ moved = _
      rw [show f.code.constants[(operands.headD 0).toNat]? = some v from hv]
      rfl
    show ((constant (operands.headD 0) >>= push) >>= fun _ => pure .next : Exec Flow) moved = _
    rw [bind_assoc, bind_of_ok hconstant]
    rfl

/-! ### Faithful codes -/

namespace Code

variable {c c' : Code} {asked : List Request} {count first stop : Nat}

/-- **The citations of a code**, in order. -/
def citations (c : Code) : List Instruction :=
  (c.decode.toOption.getD []).filter (·.op.isCitation)

/-- **A code is faithful to requests**: the entries to which its instructions refer are, one by one,
those that were asked for. Two instructions share an entry exactly if they ask for the same literal
or for the same name, so that every function has an entry of its own. Nothing lies in a pool twice,
and what a literal puts on the operand stack is that literal. -/
structure Faithful (c : Code) (asked : List Request) : Prop where
  decodes : ∃ is, c.decode = .ok is
  cites : List.Forall₂ (Instruction.Cites c) c.citations asked
  shares : ∀ (p q : Nat) (i j : Instruction) (x y : Request), p ≠ q →
    c.citations[p]? = some i → c.citations[q]? = some j → asked[p]? = some x → asked[q]? = some y →
      x.inNames = y.inNames → (i.first = j.first ↔ x.Shares y)
  constants : c.constants.toList.Nodup
  names : c.names.toList.Nodup
  pushes : ∀ (p : Nat) (i : Instruction) (v : Value) (scalar : v.isScalar = true),
    c.citations[p]? = some i → asked[p]? = some (.literal v scalar) →
      ∀ (ctx : Context) (s : State) (f : Frame), s.machine.frames.top? = some f → f.code = c →
        f.ip = i.offset → Exec.fetchAndExecute ctx s = (do
          Exec.modifyFrame ({ · with ip := i.stop })
          Exec.proceed (Exec.push v)) s

/-- Codes with the same words and the same pools. -/
structure SameContent (c c' : Code) : Prop where
  words : c'.words = c.words
  constants : c'.constants = c.constants
  names : c'.names = c.names

theorem SameContent.refl (c : Code) : SameContent c c :=
  ⟨rfl, rfl, rfl⟩

theorem Answers.of_same (h : c.Answers asked) (hs : SameContent c c') : c'.Answers asked := by
  obtain ⟨is, hl, hc⟩ := h
  have hsize : c'.size = c.size := congrArg Array.size hs.words
  refine ⟨is, hsize ▸ hl.of_words fun i w hw => by rwa [hs.words], hc.grows ?_ ?_⟩
  · exact hs.constants ▸ List.prefix_rfl
  · exact hs.names ▸ List.prefix_rfl

/-- **What comes behind a code** adds to what it answers. -/
theorem Answers.append {is : List Instruction} {asked' : List Request} (h : c.Answers asked)
    (hw : ∀ (i : Nat) (w : Word), c.words[i]? = some w → c'.words[i]? = some w)
    (hc : c.constants.toList <+: c'.constants.toList) (hn : c.names.toList <+: c'.names.toList)
    (hl : c'.Lists c.size is c'.size) (hx : c'.CitesAll is asked') :
    c'.Answers (asked ++ asked') := by
  obtain ⟨js, hl', hx'⟩ := h
  exact ⟨js ++ is, (hl'.of_words hw).append hl, (hx'.grows hc hn).append hx⟩

/-- Entries are told apart by what was asked for. -/
theorem Distinct.first_eq_iff {i j : Instruction} {x y : Request} (h : c.Distinct count)
    (hi : i.Cites c x) (hj : j.Cites c y) (hn : x.inNames = y.inNames)
    (hf : ∀ k l, x = .function k → y = .function l → k ≠ l) :
    i.first = j.first ↔ x.Shares y := by
  have entries {v w : Value} (hv : c.constants[i.first.toNat]? = some v)
      (hw : c.constants[j.first.toNat]? = some w) : i.first = j.first ↔ v = w := by
    refine ⟨fun heq => ?_, fun heq => ?_⟩
    · rw [heq, hw] at hv
      exact (Option.some.inj hv).symm
    · exact UInt16.toNat_inj.mp (h.constant_index hv (heq ▸ hw))
  cases x with
  | literal v hv =>
    cases y with
    | literal w hw => exact entries hi.2 hj.2
    | attr => cases hn
    | function l =>
      -- a literal is a scalar, and no function is
      rw [entries hi.2 hj.2]
      refine ⟨fun heq => ?_, False.elim⟩
      rw [heq] at hv
      cases hv
  | attr sets m =>
    cases y with
    | attr sets' n =>
      refine ⟨fun heq => ?_, fun heq => ?_⟩
      · have hm := hi.2
        rw [heq, hj.2] at hm
        exact (Option.some.inj hm).symm
      · have heq : m = n := heq
        exact UInt16.toNat_inj.mp (h.name_index hi.2 (heq ▸ hj.2))
    | literal w hw => cases hn
    | function l => cases hn
  | function k =>
    cases y with
    | literal w hw =>
      rw [entries hi.2 hj.2]
      refine ⟨fun heq => ?_, False.elim⟩
      rw [← heq] at hw
      cases hw
    | attr => cases hn
    | function l =>
      rw [entries hi.2 hj.2]
      refine ⟨fun heq => hf k l rfl rfl ?_, False.elim⟩
      exact congrArg Ref.index (Value.function.inj heq)

/-- **A code that answers requests** is faithful to them if its pools hold nothing twice and no
function is asked for twice. -/
theorem Answers.faithful (h : c.Answers asked) (hd : c.Distinct count)
    (ho : Request.InOrder first asked stop) : c.Faithful asked := by
  obtain ⟨is, hl, hx⟩ := h
  have hdecode : c.decode = .ok is := hl.decodeFrom rfl
  have hcitations : c.citations = is.filter (·.op.isCitation) := by
    unfold citations
    rw [hdecode]
    rfl
  have hcites : List.Forall₂ (Instruction.Cites c) c.citations asked := hcitations ▸ hx
  have cited {p : Nat} {i : Instruction} {x : Request} (hi : c.citations[p]? = some i)
      (hx : asked[p]? = some x) : i.Cites c x := by
    obtain ⟨hp, rfl⟩ := List.getElem?_eq_some_iff.mp hi
    obtain ⟨hq, rfl⟩ := List.getElem?_eq_some_iff.mp hx
    exact hcites.get hp hq
  refine ⟨⟨is, hdecode⟩, hcites, ?_, hd.constants, hd.names, ?_⟩
  · -- two functions that are asked for have different numbers, because they are asked for in order
    intro p q i j x y hpq hi hj hx hy hn
    refine hd.first_eq_iff (cited hi hx) (cited hj hy) hn ?_
    rintro k l rfl rfl heq
    rcases Nat.lt_or_gt_of_ne hpq with hlt | hlt
    · exact Nat.ne_of_lt (ho.lt hlt hx hy) heq
    · exact Nat.ne_of_gt (ho.lt hlt hy hx) heq
  · rintro p i v scalar hi hv ctx s f htop rfl hip
    obtain ⟨hop, hconst⟩ := cited hi hv
    have hmem : i ∈ is := List.mem_of_mem_filter (hcitations ▸ List.mem_of_getElem? hi)
    exact Exec.fetchAndExecute_loadConst htop (hl.has hmem) hip hop hconst

end Code

/-- **A function was compiled from a text**, and its code is faithful to what the text asks for. -/
structure Function.CompiledFrom (g : Function) (text : Func × List Request) : Prop where
  name : g.name = text.1.name
  parameters : g.parameters = text.1.paramNames
  defaults : g.defaults = text.1.defaults
  code : g.code.Faithful text.2

/-! ### Batches -/

/-- **What batches ask for**, one after the other, the last one first in the list. -/
def Batch.requests : List Batch → Requests
  | [] => {}
  | b :: earlier =>
    requests earlier ++ b.program.requests (requests earlier).functions.length

/-- Functions are asked for in order across batches. -/
theorem Batch.inOrder_requests : ∀ batches : List Batch, (Batch.requests batches).InOrder 0
  | [] => Asking.InOrder.nothing 0
  | b :: earlier => by
    refine (inOrder_requests earlier).append ?_
    rw [Nat.zero_add]
    exact (Plan.ofStatements b.program).inOrder_requests _

namespace Compiler

variable {c : Compiler} {E : Environment} {program : Program}

/-- **A compiler answers requests**: its code does, and its functions are those of the texts. No
pool holds anything twice. -/
structure Answers (c : Compiler) (fs : Array Function) (r : Requests) : Prop where
  code : c.code.Answers r.own
  distinct : c.code.Distinct fs.size
  count : fs.size = r.functions.length
  functions : ∀ (k : Nat) (f : Func) (asked : List Request), r.functions[k]? = some (f, asked) →
    ∃ code, fs[k]? = some ⟨f.name, f.paramNames, f.defaults, code⟩ ∧ code.Answers asked
  pools : ∀ f ∈ fs, f.code.Distinct fs.size

theorem Answers.of_same {c' : Compiler} {fs : Array Function} {r : Requests} (h : c.Answers fs r)
    (hs : Code.SameContent c.code c'.code) : c'.Answers fs r :=
  ⟨h.code.of_same hs, h.distinct.of_pools hs.constants hs.names, h.count, h.functions, h.pools⟩

/-- The functions were compiled from the texts, one by one. -/
theorem Answers.compiledFrom {fs : Array Function} {r : Requests} (h : c.Answers fs r)
    (ho : r.InOrder 0) : List.Forall₂ Function.CompiledFrom fs.toList r.functions := by
  refine List.forall₂_iff_get.mpr ⟨h.count, fun k hk hk' => ?_⟩
  show Function.CompiledFrom fs[k] r.functions[k]
  cases htext : r.functions[k] with
  | mk f asked =>
    have htext : r.functions[k]? = some (f, asked) := htext ▸ List.getElem?_eq_getElem hk'
    obtain ⟨code, hcode, hanswers⟩ := h.functions k f asked htext
    obtain ⟨hlt, hg⟩ := Array.getElem?_eq_some_iff.mp hcode
    have hdistinct := h.pools fs[k] (Array.getElem_mem hlt)
    rw [hg] at hdistinct ⊢
    exact ⟨rfl, rfl, rfl, hanswers.faithful hdistinct (ho.functions k f asked htext)⟩

theorem sameContent_addBuiltin (c : Compiler) (name : String) :
    Code.SameContent c.code (c.addBuiltin name).2.code := by
  unfold Compiler.addBuiltin onTable
  split <;> exact .refl _

theorem sameContent_declareGlobal (c : Compiler) (name : String) :
    Code.SameContent c.code (c.declareGlobal name).2.code := by
  obtain heq | ⟨symbol, t, -, heq⟩ := c.declareGlobal_cases name
  · rw [heq]
    exact .refl _
  · rw [heq]
    exact ⟨rfl, rfl, rfl⟩

/-- **A batch that is refused** leaves the words and the pools as they were. -/
theorem Sound.refused (h : c.Sound E) {e : CompileError}
    (he : (c.compile E.functions program).1 = .error e) :
    Code.SameContent c.code (c.compile E.functions program).2.1.code ∧
      (c.compile E.functions program).2.2 = E.functions := by
  cases hs : Generate.statements program (c.starting E.functions) with
  | ok u s =>
    rw [h.compile_of_ok hs] at he
    cases he
  | error e' s =>
    rw [h.compile_of_error hs]
    exact ⟨⟨rfl, rfl, rfl⟩, rfl⟩

/-- **Pools only grow**, whether a batch is accepted or refused. -/
theorem Sound.pools_grow (h : c.Sound E) (program : Program) :
    c.code.constants.toList <+: (c.compile E.functions program).2.1.code.constants.toList ∧
      c.code.names.toList <+: (c.compile E.functions program).2.1.code.names.toList ∧
      E.functions.toList <+: (c.compile E.functions program).2.2.toList := by
  cases hs : Generate.statements program (c.starting E.functions) with
  | ok u s =>
    rw [h.compile_of_ok hs]
    have g := (h.emits hs).grows
    exact ⟨g.constants, g.names, g.functions⟩
  | error e s =>
    rw [h.compile_of_error hs]
    exact ⟨List.prefix_rfl, List.prefix_rfl, List.prefix_rfl⟩

/-- **A batch that is accepted** answers its own requests behind those of earlier batches. -/
theorem Sound.answers (h : c.Sound E) {r : Requests} (ha : c.Answers E.functions r) {code : Code}
    (hr : (c.compile E.functions program).1 = .ok code) :
    (c.compile E.functions program).2.1.code = code ∧
      (c.compile E.functions program).2.1.Answers (c.compile E.functions program).2.2
        (r ++ program.requests r.functions.length) := by
  cases hs : Generate.statements program (c.starting E.functions) with
  | error e s =>
    rw [h.compile_of_error hs] at hr
    cases hr
  | ok u s =>
    rw [h.compile_of_ok hs] at hr ⊢
    obtain rfl := Except.ok.inj hr
    refine ⟨rfl, ?_⟩
    obtain ⟨S, hfs, hcode, -, -, -, hlaid⟩ := h.laid hs
    have g := (h.emits hs).grows
    have hpart := hlaid.answers
    have hcount : (c.starting E.functions).point.count = r.functions.length := ha.count
    have hstart : (c.starting E.functions).Distinct :=
      ⟨ha.distinct, fun b hb => absurd hb List.not_mem_nil, ha.pools⟩
    have hdistinct : s.Distinct := by
      rw [← Plan.emit_ofStatements] at hs
      exact ((Plan.ofStatements program).collects_emit _ hstart).1 u s hs
    refine ⟨?_, hdistinct.body.of_pools rfl rfl, ?_, fun k f asked hk => ?_, hdistinct.functions⟩
    · -- the old code lies in front of what was emitted, and cites the same entries in longer pools
      obtain ⟨is, hl, hx⟩ := hpart.own
      rw [hcode] at hl hx
      rw [hcount] at hx
      refine Code.Answers.of_same (c := s.body.code) ?_ ⟨rfl, rfl, rfl⟩
      refine ha.code.append (fun i w hw => ?_) g.constants g.names hl hx
      exact (g.words i (Array.getElem?_eq_some_iff.mp hw).1).trans hw
    · have := hpart.count
      rw [hcount] at this
      rw [Requests.functions_append, List.length_append]
      exact this
    · rcases Requests.of_append hk with hold | ⟨j, rfl, hnew⟩
      · -- a function of an earlier batch
        obtain ⟨code, hf, hasked⟩ := ha.functions k f asked hold
        exact ⟨code, Site.Completes.entry_of_prefix g.functions hf, hasked⟩
      · rw [← hcount] at hnew ⊢
        rw [← hfs]
        exact hpart.functions j f asked hnew

/-- **Every compiler answers what its batches ask for.** -/
theorem Built.answers {fs : Array Function} {batches : List Batch} (h : Built c fs batches) :
    c.Answers fs (Batch.requests batches) := by
  have fresh (t : ScopeTable) (source : Option String) : Compiler.Answers
      { table := t, main := { code := { source }, scope := root }, source } #[] {} :=
    ⟨⟨[], .nil 0, .nil⟩, .empty, rfl, nofun, fun f hf => absurd hf (Array.not_mem_empty f)⟩
  induction h with
  | withBuiltins h =>
    obtain ⟨t, rfl, -, -⟩ := withBuiltins_spec h
    exact fresh t none
  | withSource h source =>
    obtain ⟨t, rfl, -, -⟩ := withBuiltins_spec h
    exact fresh t (some source)
  | addBuiltin _ name ih => exact ih.of_same (sameContent_addBuiltin _ name)
  | declareGlobal _ name ih => exact ih.of_same (sameContent_declareGlobal _ name)
  | @compile c fs batches h program ih =>
    obtain ⟨E, rfl, hs⟩ := h.sound
    cases hr : (c.compile E.functions program).1 with
    | error e =>
      obtain ⟨hsame, hfs⟩ := hs.refused hr
      rw [hfs]
      exact ih.of_same hsame
    | ok code => exact (hs.answers ih hr).2

/-- **A compiler goes on behind a batch** that it accepted: the code that was given out for the
batch still answers what had been asked for until then, and its pools begin those of the program. -/
structure Continues (c : Compiler) (b : Batch) (r : Requests) : Prop where
  code : b.code.Answers r.own
  distinct : ∃ count, b.code.Distinct count
  constants : b.code.constants.toList <+: c.code.constants.toList
  names : b.code.names.toList <+: c.code.names.toList

theorem Continues.grows {c' : Compiler} {b : Batch} {r : Requests} (h : c.Continues b r)
    (hc : c.code.constants.toList <+: c'.code.constants.toList)
    (hn : c.code.names.toList <+: c'.code.names.toList) : c'.Continues b r :=
  ⟨h.code, h.distinct, h.constants.trans hc, h.names.trans hn⟩

/-- **Every compiler goes on behind all its batches.** -/
theorem Built.continues {fs : Array Function} {batches : List Batch} (h : Built c fs batches) :
    ∀ {later : List Batch} {b : Batch} {earlier : List Batch}, batches = later ++ b :: earlier →
      c.Continues b (Batch.requests (b :: earlier)) := by
  induction h with
  | withBuiltins h | withSource h =>
    intro later b earlier hb
    exact absurd hb (by simp)
  | @addBuiltin c fs batches h name ih =>
    intro later b earlier hb
    have hsame := sameContent_addBuiltin c name
    exact (ih hb).grows (hsame.constants ▸ List.prefix_rfl) (hsame.names ▸ List.prefix_rfl)
  | @declareGlobal c fs batches h name ih =>
    intro later b earlier hb
    have hsame := sameContent_declareGlobal c name
    exact (ih hb).grows (hsame.constants ▸ List.prefix_rfl) (hsame.names ▸ List.prefix_rfl)
  | @compile c fs batches h program ih =>
    intro later b earlier hb
    have hanswers := (h.compile program).answers
    obtain ⟨E, rfl, hs⟩ := h.sound
    obtain ⟨hconstants, hnames, -⟩ := hs.pools_grow program
    cases hr : (c.compile E.functions program).1 with
    | error e =>
      rw [hr] at hb
      exact (ih hb).grows hconstants hnames
    | ok code =>
      rw [hr] at hb hanswers
      cases later with
      | cons b' later => exact (ih (List.cons.inj hb).2).grows hconstants hnames
      | nil =>
        -- the batch itself, whose code is that of the program
        obtain ⟨rfl, rfl⟩ := List.cons.inj hb
        obtain ⟨rfl, -⟩ := hs.answers h.answers hr
        exact ⟨hanswers.code, ⟨_, hanswers.distinct⟩, List.prefix_rfl, List.prefix_rfl⟩

/-- **Pools are faithful.** Whatever a compiler was asked to compile, and however often it refused,
the code of its program refers to the very literals, names and functions that its accepted texts put
there, and so do the codes that were given out for earlier batches and those of all functions, of
which there is one for each in the texts. A further batch moves no entry, and one that is refused
leaves none behind. -/
theorem Built.pools_faithful {fs : Array Function} {batches : List Batch}
    (h : Built c fs batches) :
    c.code.Faithful (Batch.requests batches).own ∧
    List.Forall₂ Function.CompiledFrom fs.toList (Batch.requests batches).functions ∧
    (∀ later b earlier, batches = later ++ b :: earlier →
      b.code.Faithful (Batch.requests (b :: earlier)).own ∧
        b.code.constants.toList <+: c.code.constants.toList ∧
        b.code.names.toList <+: c.code.names.toList) ∧
    ∀ program : Program,
      let after := (c.compile fs program).2.1
      c.code.constants.toList <+: after.code.constants.toList ∧
        c.code.names.toList <+: after.code.names.toList ∧
        fs.toList <+: (c.compile fs program).2.2.toList ∧
        ∀ e, (c.compile fs program).1 = .error e →
          Code.SameContent c.code after.code ∧ (c.compile fs program).2.2 = fs := by
  have ha := h.answers
  have ho := Batch.inOrder_requests batches
  refine ⟨ha.code.faithful ha.distinct ho.own, ha.compiledFrom ho, fun later b earlier hb => ?_,
    fun program => ?_⟩
  · obtain ⟨hcode, ⟨count, hdistinct⟩, hc, hn⟩ := h.continues hb
    exact ⟨hcode.faithful hdistinct (Batch.inOrder_requests (b :: earlier)).own, hc, hn⟩
  · obtain ⟨E, rfl, hs⟩ := h.sound
    obtain ⟨hc, hn, hf⟩ := hs.pools_grow program
    exact ⟨hc, hn, hf, fun e he => hs.refused he⟩

/-- Numbers that are equal but not the same, in a program and in a function of it, in which they lie
in other places. The batch in between is refused. -/
theorem Built.faithful_of_zeros :
    let one : Double := ⟨0x3ff0000000000000⟩
    let zero : Double := ⟨0⟩
    let minusZero : Double := ⟨0x8000000000000000⟩
    let first : Program := [.expr (.list [.int 1, .float one, .float zero, .int 1])]
    let refused : Program := [.expr (.float minusZero), .brk]
    let second : Program := [.expr (.list [.float minusZero, .int 1]),
      .expr (.func (.mk none [] [.expr (.attr (.float minusZero) "x")]))]
    let c₁ := Compiler.compile {} #[] first
    let c₂ := c₁.2.1.compile c₁.2.2 refused
    let c₃ := c₂.2.1.compile c₂.2.2 second
    Compiler.withBuiltins [] = .ok {} ∧
      c₃.2.1.code.constants = #[.int 1, .float one, .float zero, .float minusZero, .function ⟨0⟩] ∧
      c₃.2.1.code.Faithful [.literal (.int 1) rfl, .literal (.float one) rfl,
        .literal (.float zero) rfl, .literal (.int 1) rfl, .literal (.float minusZero) rfl,
        .literal (.int 1) rfl, .function 0] ∧
      ∃ g : Function, c₃.2.2.toList = [g] ∧ g.code.constants = #[.float minusZero] ∧
        g.code.Faithful [.literal (.float minusZero) rfl, .attr false "x"] := by
  intro one zero minusZero first refused second c₁ c₂ c₃
  have fresh : Compiler.withBuiltins [] = .ok {} := rfl
  let batches := Batch.ofAnswer second c₃.1 ++ (Batch.ofAnswer refused c₂.1 ++
    (Batch.ofAnswer first c₁.1 ++ []))
  have h : Built c₃.2.1 c₃.2.2 batches :=
    (((Built.withBuiltins fresh).compile first).compile refused).compile second
  have hown : (Batch.requests batches).own = [.literal (.int 1) rfl, .literal (.float one) rfl,
      .literal (.float zero) rfl, .literal (.int 1) rfl, .literal (.float minusZero) rfl,
      .literal (.int 1) rfl, .function 0] := by
    decide +kernel
  have hinner : (Batch.requests batches).functions.map Prod.snd =
      [[.literal (.float minusZero) rfl, .attr false "x"]] := by
    decide +kernel
  obtain ⟨hmain, hfunctions, -⟩ := h.pools_faithful
  refine ⟨fresh, by decide +kernel, hown ▸ hmain, ?_⟩
  obtain ⟨text, htext, hasked⟩ := List.map_eq_singleton_iff.mp hinner
  rw [htext, List.forall₂_cons_right_iff] at hfunctions
  obtain ⟨g, gs, hg, hnone, hfs⟩ := hfunctions
  obtain rfl := List.forall₂_nil_right_iff.mp hnone
  have hconstants : c₃.2.2.toList.map (·.code.constants) = [#[Value.float minusZero]] := by
    decide +kernel
  rw [hfs] at hconstants
  exact ⟨g, hfs, (List.cons.inj hconstants).1, hasked ▸ hg.code⟩

end Compiler

end ScriptEngine
