import ScriptEngine.Proofs.Code.Stores
import ScriptEngine.Proofs.Layout.Emission
import ScriptEngine.Proofs.Layout.Spans
import ScriptEngine.Proofs.Plan.Requests

/-!
# What laid out code refers to

The instructions in the code of a plan that refer to a pool cite, one by one, what the plan asks
for, and the functions that are compiled with it are those of its text, each with a code that cites
what its own body asks for.

## Main definitions

* `ScriptEngine.Instruction.Cites`: an instruction refers to what was asked for;
* `ScriptEngine.Code.Answers`: so do all instructions of a code;
* `ScriptEngine.Site.Answers`: so does what lies between two points.

## Main results

* `ScriptEngine.Plan.Laid.answers`: the code of a plan answers the requests of the plan.
-/

namespace ScriptEngine

/-- **A citation**: an instruction whose first operand is an index of a pool. -/
def Opcode.isCitation : Opcode → Bool
  | .loadConst | .loadClosure | .loadAttr | .storeAttr => true
  | _ => false

/-- **An instruction cites what was asked for**: the entry that it refers to is the literal, the
name or the function itself. -/
def Instruction.Cites (c : Code) (i : Instruction) : Request → Prop
  | .literal v _ => i.op = .loadConst ∧ c.constants[i.first.toNat]? = some v
  | .attr sets name =>
    i.op = (if sets then .storeAttr else .loadAttr) ∧ c.names[i.first.toNat]? = some name
  | .function k =>
    (i.op = .loadConst ∨ i.op = .loadClosure) ∧ c.constants[i.first.toNat]? = some (.function ⟨k⟩)

namespace Code

variable {c c' : Code} {is js : List Instruction} {asked asked' : List Request}

/-- The citations among instructions cite what was asked for, one by one. -/
def CitesAll (c : Code) (is : List Instruction) (asked : List Request) : Prop :=
  List.Forall₂ (Instruction.Cites c) (is.filter (·.op.isCitation)) asked

/-- **A code that consists of instructions** and cites what was asked for. -/
def Answers (c : Code) (asked : List Request) : Prop :=
  ∃ is, c.Lists 0 is c.size ∧ c.CitesAll is asked

namespace CitesAll

theorem append (h : c.CitesAll is asked) (h' : c.CitesAll js asked') :
    c.CitesAll (is ++ js) (asked ++ asked') := by
  unfold CitesAll
  rw [List.filter_append]
  exact List.rel_append h h'

/-- An instruction that refers to no pool. -/
theorem silent {i : Instruction} (h : i.op.isCitation = false) : c.CitesAll [i] [] := by
  unfold CitesAll
  rw [List.filter_cons_of_neg (by rw [h]; exact Bool.false_ne_true)]
  exact .nil

theorem single {i : Instruction} {x : Request} (h : i.Cites c x) (hop : i.op.isCitation = true) :
    c.CitesAll [i] [x] := by
  unfold CitesAll
  rw [List.filter_cons_of_pos (by exact hop)]
  exact .cons h .nil

/-- **Entries are cited for good**: more entries behind them do not matter. -/
theorem grows (h : c.CitesAll is asked) (hc : c.constants.toList <+: c'.constants.toList)
    (hn : c.names.toList <+: c'.names.toList) : c'.CitesAll is asked := by
  refine List.Forall₂.imp (fun i x hx => ?_) h
  cases x with
  | literal v _ => exact ⟨hx.1, Site.Completes.entry_of_prefix hc hx.2⟩
  | attr sets name => exact ⟨hx.1, Site.Completes.entry_of_prefix hn hx.2⟩
  | function k => exact ⟨hx.1, Site.Completes.entry_of_prefix hc hx.2⟩

end CitesAll

end Code

namespace Site

/-- **What lies between two points answers the requests of a part of a program**: it cites what the
part asks for, and the functions compiled in between are those of the text. -/
structure Answers (S : Site) (a b : Point) (x : Asking) : Prop where
  own : ∃ is, S.code.Lists a.offset is b.offset ∧ S.code.CitesAll is (x a.count).own
  count : b.count = a.count + (x a.count).functions.length
  functions : ∀ (k : Nat) (f : Func) (asked : List Request),
    (x a.count).functions[k]? = some (f, asked) →
      ∃ code, S.functions[a.count + k]? = some ⟨f.name, f.paramNames, f.defaults, code⟩ ∧
        code.Answers asked

variable {S : Site} {a b m n : Point} {x y : Asking}

namespace Answers

theorem trans (h : S.Answers a m x) (h' : S.Answers m b y) : S.Answers a b (x.next y) := by
  have hcount := h.count
  refine ⟨?_, ?_, fun k f asked hk => ?_⟩
  · obtain ⟨is, hl, hx⟩ := h.own
    obtain ⟨js, hl', hy⟩ := h'.own
    rw [hcount] at hy
    exact ⟨is ++ js, hl.append hl', hx.append hy⟩
  · show b.count = a.count + ((x a.count).functions ++ (y (a.count + _)).functions).length
    rw [h'.count, hcount, List.length_append, Nat.add_assoc]
  · rcases Requests.of_append hk with hx | ⟨j, rfl, hy⟩
    · exact h.functions k f asked hx
    · rw [← hcount] at hy
      rw [← Nat.add_assoc, ← hcount]
      exact h'.functions j f asked hy

/-- Something comes first that asks for nothing. -/
theorem after (h : S.Answers a m .nothing) (h' : S.Answers m b x) : S.Answers a b x :=
  h.trans h'

/-- Something comes behind that asks for nothing. -/
theorem before (h : S.Answers a m x) (h' : S.Answers m b .nothing) : S.Answers a b x := by
  have := h.trans h'
  rwa [Asking.next_nothing] at this

theorem of_eq (h : b = a) : S.Answers a b .nothing := by
  subst h
  exact ⟨⟨[], .nil _, .nil⟩, rfl, nofun⟩

/-- The scopes at a point do not matter. -/
theorem of_table {u : ScopeTable} (h : S.Answers (a.withTable u) b x) : S.Answers a b x :=
  ⟨h.own, h.count, h.functions⟩

/-- The surroundings of a code do not matter. -/
theorem of_code {S' : Site} (h : S'.Answers a b x) (hc : S'.code = S.code)
    (hf : S'.functions = S.functions) : S.Answers a b x :=
  ⟨hc ▸ h.own, h.count, hf ▸ h.functions⟩

/-! ### Instructions -/

/-- **An instruction** that refers to no pool. -/
theorem instruction {op : Opcode} {operands : List Word} (h : S.At a op operands b)
    (hop : op.isCitation = false) : S.Answers a b .nothing :=
  ⟨⟨_, h.offset ▸ Code.Lists.single h.has, .silent hop⟩, h.count, nofun⟩

/-- **A citation.** -/
theorem citation {op : Opcode} {operands : List Word} (h : S.At a op operands b) {r : Request}
    (hop : op.isCitation = true) (hr : Instruction.Cites S.code ⟨a.offset, op, operands⟩ r) :
    S.Answers a b (.one r) :=
  ⟨⟨_, h.offset ▸ Code.Lists.single h.has, .single hr hop⟩, h.count, nofun⟩

theorem operation {o : Operation} (h : S.At a o.encode.1 o.encode.2 b) :
    S.Answers a b .nothing := by
  refine .instruction h ?_
  cases o with
  | pushBool b => cases b <;> rfl
  | unary op => cases op <;> rfl
  | binary op => cases op <;> rfl
  | call bound count => cases bound <;> rfl
  | _ => rfl

theorem forward {op : Opcode} {target : Nat} (h : S.Forward a op target b)
    (hop : op.isCitation = false) : S.Answers a b .nothing := by
  obtain ⟨d, h, -⟩ := h
  exact .instruction h hop

theorem back {target : Nat} (h : S.Back a target b) : S.Answers a b .nothing := by
  obtain ⟨d, h, -⟩ := h
  exact .instruction h rfl

theorem advance {target names : Nat} (h : S.Advance a target names b) :
    S.Answers a b .nothing := by
  obtain ⟨d, h, -⟩ := h
  exact .instruction h rfl

theorem exitIf {tested : Bool} {target : Nat} (h : S.ExitIf tested a target b) :
    S.Answers a b .nothing := by
  unfold ExitIf at h
  split at h
  · exact forward h rfl
  · exact of_eq h

theorem drops : ∀ {n : Nat} {a b : Point}, S.Drops n a b → S.Answers a b .nothing
  | 0, _, _, h => of_eq h
  | _ + 1, _, _, ⟨_, h, h'⟩ => (instruction h rfl).after (drops h')

/-! ### Names -/

theorem loads {r : Resolution} (h : S.Loads r a b) : S.Answers a b .nothing := by
  unfold Loads at h
  split at h
  all_goals exact .instruction h rfl

theorem stores {r : Resolution} (h : S.Stores r a b) : S.Answers a b .nothing := by
  unfold Stores at h
  split at h
  case h_4 => exact h.elim
  all_goals exact .instruction h rfl

theorem sets {symbol : Symbol} (h : S.Sets symbol a b) : S.Answers a b .nothing := by
  refine .instruction h ?_
  split <;> rfl

theorem setsAll : ∀ {symbols : List Symbol} {a b : Point}, S.SetsAll symbols a b →
    S.Answers a b .nothing
  | [], _, _, h => of_eq h
  | _ :: _, _, _, ⟨_, h, h'⟩ => (sets h).after (setsAll h')

theorem passes {name : String} (h : S.Passes name a b) : S.Answers a b .nothing := by
  obtain ⟨r, u, -, ⟨-, h⟩ | ⟨-, h⟩⟩ := h
  · exact .of_table (.instruction h rfl)
  · exact .of_table (.instruction h rfl)

theorem passesAll : ∀ {names : List String} {a b : Point}, S.PassesAll names a b →
    S.Answers a b .nothing
  | [], _, _, h => of_eq h
  | _ :: _, _, _, ⟨_, h, h'⟩ => (passes h).after (passesAll h')

/-! ### Functions -/

/-- **A function constant** is cited where it is instantiated. -/
theorem instantiates {k : Nat} {free : List Resolution} (h : S.Instantiates k free a b) :
    S.Answers a b (.one (.function k)) := by
  obtain ⟨index, hk, h⟩ := h
  split at h
  · exact .citation h rfl ⟨.inl rfl, hk⟩
  · obtain ⟨-, m, h, h'⟩ := h
    exact (passesAll h).after (.citation h' rfl ⟨.inr rfl, hk⟩)

/-- **A function**, whose body answers its own requests. -/
theorem function {f : Func} {scope : ScopeId} {opened : ScopeTable} {code : Code} {returns : Bool}
    {free : List Resolution}
    (hbody : Site.Answers { S with code, scope, exits := none, inFunction := true }
      ⟨0, opened, a.count⟩ m x)
    (hret : if returns then n = m else Site.At { S with code } m .returnValue [1] n)
    (hsize : code.size = n.offset)
    (hf : S.functions[m.count]? = some ⟨f.name, f.paramNames, f.defaults, code⟩)
    (hi : S.Instantiates m.count free ⟨a.offset, m.table, m.count + 1⟩ b) :
    S.Answers a b (x.inFunction f) := by
  have hcount : m.count = a.count + (x a.count).functions.length := hbody.count
  have hinst := instantiates hi
  refine ⟨?_, ?_, fun k g asked hk => ?_⟩
  · obtain ⟨is, hl, hx⟩ := hinst.own
    refine ⟨is, hl, ?_⟩
    show S.code.CitesAll is [.function (a.count + (x a.count).functions.length)]
    rw [← hcount]
    exact hx
  · show b.count = a.count + ((x a.count).functions ++ [_]).length
    rw [List.length_append, List.length_singleton, ← Nat.add_assoc, ← hcount]
    exact hinst.count
  · rcases Asking.of_inFunction hk with hk | ⟨rfl, heq⟩
    · exact hbody.functions k g asked hk
    · obtain ⟨rfl, rfl⟩ := Prod.mk.inj heq
      refine ⟨code, hcount ▸ hf, ?_⟩
      -- a return that was added at the end cites nothing
      obtain ⟨is, hl, hx⟩ := hbody.own
      have hlast : Site.Answers { S with code } m n .nothing := by
        split at hret
        · exact .of_eq hret
        · exact .instruction hret rfl
      obtain ⟨js, hl', hy⟩ := hlast.own
      refine ⟨is ++ js, hsize ▸ hl.append hl', ?_⟩
      have := hx.append hy
      rwa [show (Asking.nothing m.count).own = [] from rfl, List.append_nil] at this

end Answers

end Site

/-! ### Plans -/

mutual

/-- **The code of a plan answers the requests of the plan.** -/
theorem Plan.Laid.answers : ∀ {p : Plan} {S : Site} {a b : Point}, p.Laid S a b →
    S.Answers a b p.requests
  | .skip, _, _, _, h => .of_eq h
  | .seq _ _, _, _, _, ⟨_, hx, hy⟩ => hx.answers.trans hy.answers
  | .instr _, _, _, _, h => .operation h
  | .const _ _, _, _, _, ⟨_, hi, h⟩ => .citation h rfl ⟨rfl, hi⟩
  | .attr sets _, _, _, _, ⟨_, hi, h⟩ => .citation h (by cases sets <;> rfl) ⟨rfl, hi⟩
  | .load _, _, _, _, ⟨_, _, _, h⟩ => .of_table (.loads h)
  | .update name reads value, S, a, b, h => by
    obtain ⟨r, u, -, -, m, hm, n, hv, hs⟩ := h
    have hload : S.Answers (a.withTable u) m .nothing := by
      split at hm
      · exact .loads hm
      · exact .of_eq hm
    exact .of_table (hload.after (hv.answers.before (.stores hs)))
  | .declare _ _, _, _, _, ⟨_, _, _, h⟩ => .of_table (.sets h)
  | .declareAll _, _, _, _, ⟨_, _, _, h⟩ => .of_table (.setsAll h)
  | .refuse _, _, _, _, h => h.elim
  | .outsidePipe, _, _, _, h => .of_eq h
  | .stages body, _, _, _, h => Plan.Laid.answers (p := body) h
  | .insideFunction, _, _, _, ⟨_, h⟩ => .of_eq h
  | .leave _, _, _, _, ⟨_, _, _, hd, hj⟩ => (Site.Answers.drops hd).after (.forward hj rfl)
  | .branch _ _ _, _, _, _, ⟨_, _, _, _, hc, hj, ht, hj', hf⟩ =>
    hc.answers.trans ((Site.Answers.forward hj rfl).after
      (ht.answers.trans ((Site.Answers.forward hj' rfl).after hf.answers)))
  | .shortCircuit both left right, S, a, b, h => by
    obtain ⟨m₁, m₂, m₃, m₄, m₅, hl, hc, hj, hr, ho, hn⟩ := h
    refine hl.answers.trans ((Site.Answers.instruction hc rfl).after ?_)
    refine (Site.Answers.forward hj (by cases both <;> rfl)).after (hr.answers.before ?_)
    exact (Site.Answers.operation ho).after (.instruction hn rfl)
  | .switch subject arms default, S, a, b, h => by
    obtain ⟨m₁, m₂, m₃, m₄, m₅, m₆, targets, hp, ht, hj, hb, hd, hw, hq⟩ := h
    refine hp.answers.trans (ht.answers.trans ((Site.Answers.forward hj rfl).after ?_))
    -- the subject is held while the bodies run
    have hbodies : S.Answers m₃ m₄ arms.requestsBodies := hb.answers.of_code rfl rfl
    have hdefault : S.Answers m₄ m₅ default.requests := hd.answers.of_code rfl rfl
    refine hbodies.trans (hdefault.before ?_)
    exact (Site.Answers.instruction hw rfl).after (.instruction hq rfl)
  | .block _, _, _, _, ⟨_, _, _, h⟩ => .of_table (h.answers.of_code rfl rfl)
  | .loop tested condition body post, S, a, b, h => by
    obtain ⟨m₁, m₂, m₃, m₄, m₅, m₆, hc, hx, hb, hq, hp, hk, hn⟩ := h
    have hbody : S.Answers m₂ m₃ body.requests := hb.answers.of_code rfl rfl
    refine hc.answers.trans ((Site.Answers.exitIf hx).after (hbody.trans ?_))
    refine (Site.Answers.instruction hq rfl).after (hp.answers.before ?_)
    exact (Site.Answers.back hk).after (.instruction hn rfl)
  | .iterate names bind body, S, a, b, h => by
    obtain ⟨m₁, m₂, m₃, m₄, m₅, m₆, hx, hi, hb, hq, hk, hp, hn⟩ := h
    have hbody : S.Answers m₂ m₃ body.requests := hb.answers.of_code rfl rfl
    refine (Site.Answers.advance hx).after (hi.answers.trans (hbody.before ?_))
    refine (Site.Answers.instruction hq rfl).after ((Site.Answers.back hk).after ?_)
    exact (Site.Answers.instruction hp rfl).after (.instruction hn rfl)
  | .func _ _, _, _, _, h => by
    obtain ⟨-, -, _, _, -, _, _, -, _, _, _, -, -, hsize, -, hb, hret, hf, -, hi⟩ := h
    exact .function hb.answers hret hsize hf hi

/-- The tests of all cases. -/
theorem Arms.TestsLaid.answers : ∀ {c : Arms} {S : Site} {targets : List Nat} {a b : Point},
    c.TestsLaid S targets a b → S.Answers a b c.requestsTests
  | .nil, _, _, _, _, ⟨_, h⟩ => .of_eq h
  | .arm _ _ _, _, _, _, _, ⟨_, _, _, _, ht, hs⟩ => ht.answers.trans hs.answers

/-- The tests of a case. -/
theorem Tests.Laid.answers : ∀ {c : Tests} {S : Site} {target : Nat} {a b : Point},
    c.Laid S target a b → S.Answers a b c.requests
  | .nil, _, _, _, _, h => .of_eq h
  | .test _ _, _, _, _, _, ⟨_, _, _, _, hc, hv, he, hj, hs⟩ =>
    (Site.Answers.instruction hc rfl).after (hv.answers.trans
      ((Site.Answers.instruction he rfl).after ((Site.Answers.forward hj rfl).after hs.answers)))

/-- The bodies of all cases. -/
theorem Arms.BodiesLaid.answers : ∀ {c : Arms} {S : Site} {targets : List Nat} {done : Nat}
    {a b : Point}, c.BodiesLaid S targets done a b → S.Answers a b c.requestsBodies
  | .nil, _, _, _, _, _, h => .of_eq h
  | .arm _ _ _, _, _, _, _, _, ⟨_, _, _, _, hb, hj, hs⟩ =>
    hb.answers.trans ((Site.Answers.forward hj rfl).after hs.answers)

end

end ScriptEngine
