import ScriptEngine.Proofs.Plan.Basic

/-!
# What a program asks its pools for

The literals, the names of attributes and the functions that the code of a program refers to, in the
order of its text, those of each function apart. Functions are numbered in the order in which they
end, across all programs that are compiled one after the other. The text alone tells all of this:
nothing is said about indices.

## Main definitions

* `ScriptEngine.Request`: something that an instruction refers to by its index in a pool;
* `ScriptEngine.Requests`: the requests of a program and of its functions;
* `ScriptEngine.Plan.requests`, `ScriptEngine.Program.requests`: what is asked for, behind a given
  number of functions.

## Main results

* `ScriptEngine.Plan.inOrder_requests`: functions are asked for in order, each of them once.
-/

namespace ScriptEngine

/-- **What is asked of a pool**: a literal, the name of an attribute that is read or set, or the
function with the given number. -/
inductive Request where
  | literal (v : Value) (scalar : v.isScalar = true)
  | attr (sets : Bool) (name : String)
  | function (index : Nat)
deriving DecidableEq

namespace Request

/-- Names have a pool of their own. -/
def inNames : Request → Bool
  | attr .. => true
  | _ => false

/-- **Requests that may share an entry**: those for the same literal and those for the same name. -/
def Shares : Request → Request → Prop
  | literal v _, literal w _ => v = w
  | attr _ m, attr _ n => m = n
  | _, _ => False

/-- **Functions are asked for in order**, each of them once, and all of them have numbers from
`first` up to `stop`. -/
def InOrder : Nat → List Request → Nat → Prop
  | first, [], stop => first ≤ stop
  | first, function k :: rest, stop => first ≤ k ∧ InOrder (k + 1) rest stop
  | first, literal .. :: rest, stop => InOrder first rest stop
  | first, attr .. :: rest, stop => InOrder first rest stop

namespace InOrder

variable {m : List Request} {first mid stop k n : Nat}

theorem widen {first' : Nat} (hf : first' ≤ first) : ∀ {l : List Request},
    InOrder first l stop → InOrder first' l stop
  | [], h => Nat.le_trans hf h
  | function _ :: _, ⟨hk, h⟩ => ⟨Nat.le_trans hf hk, h⟩
  | literal .. :: rest, h => widen hf (l := rest) h
  | attr .. :: rest, h => widen hf (l := rest) h

theorem append (h' : InOrder mid m stop) : ∀ {l : List Request} {first : Nat},
    InOrder first l mid → InOrder first (l ++ m) stop
  | [], _, h => h'.widen h
  | function _ :: _, _, ⟨hk, h⟩ => ⟨hk, append h' h⟩
  | literal .. :: rest, _, h => append h' (l := rest) h
  | attr .. :: rest, _, h => append h' (l := rest) h

/-- A function that is asked for has one of the numbers. -/
theorem first_le : ∀ {l : List Request} {first p : Nat}, InOrder first l stop →
    l[p]? = some (function k) → first ≤ k
  | x :: l, first, 0, h, hk => by
    obtain rfl : x = function k := Option.some.inj hk
    exact h.1
  | function _ :: _, _, p + 1, ⟨hk, h⟩, hp =>
    Nat.le_trans hk (Nat.le_of_succ_le (h.first_le (p := p) hp))
  | literal .. :: rest, _, p + 1, h, hp => first_le (l := rest) (p := p) h hp
  | attr .. :: rest, _, p + 1, h, hp => first_le (l := rest) (p := p) h hp

/-- **No function is asked for twice.** -/
theorem lt : ∀ {l : List Request} {first p q : Nat}, InOrder first l stop → p < q →
    l[p]? = some (function k) → l[q]? = some (function n) → k < n
  | x :: l, first, 0, q + 1, h, _, hp, hq => by
    obtain rfl : x = function k := Option.some.inj hp
    exact h.2.first_le (p := q) hq
  | function _ :: _, _, p + 1, q + 1, ⟨_, h⟩, hpq, hp, hq =>
    h.lt (p := p) (q := q) (Nat.lt_of_succ_lt_succ hpq) hp hq
  | literal .. :: rest, _, p + 1, q + 1, h, hpq, hp, hq =>
    lt (l := rest) (p := p) (q := q) h (Nat.lt_of_succ_lt_succ hpq) hp hq
  | attr .. :: rest, _, p + 1, q + 1, h, hpq, hp, hq =>
    lt (l := rest) (p := p) (q := q) h (Nat.lt_of_succ_lt_succ hpq) hp hq

end InOrder

end Request

/-- **The requests of a code**, in order, and those of the functions compiled with it, in the order
in which the functions end. -/
structure Requests where
  own : List Request := []
  functions : List (Func × List Request) := []

namespace Requests

def append (x y : Requests) : Requests :=
  ⟨x.own ++ y.own, x.functions ++ y.functions⟩

instance : Append Requests := ⟨append⟩

theorem functions_append (x y : Requests) :
    (x ++ y).functions = x.functions ++ y.functions :=
  rfl

/-- A function of two parts, one behind the other, is one of the first or one of the second part. -/
theorem of_append {x y : Requests} {k : Nat} {text : Func × List Request}
    (h : (x ++ y).functions[k]? = some text) : x.functions[k]? = some text ∨
      ∃ j, k = x.functions.length + j ∧ y.functions[j]? = some text := by
  rw [functions_append, List.getElem?_append] at h
  split at h
  · exact .inl h
  · exact .inr ⟨k - x.functions.length, by omega, h⟩

theorem append_empty (x : Requests) : x ++ ({} : Requests) = x := by
  show Requests.mk (x.own ++ []) (x.functions ++ []) = x
  rw [List.append_nil, List.append_nil]

/-- **Requests behind `count` functions** that were compiled before. The code asks for the functions
compiled with it, and each of these only for functions that ended before it did. -/
structure InOrder (count : Nat) (r : Requests) : Prop where
  own : Request.InOrder count r.own (count + r.functions.length)
  functions : ∀ (k : Nat) (f : Func) (asked : List Request), r.functions[k]? = some (f, asked) →
    Request.InOrder 0 asked (count + k)

theorem InOrder.append {count : Nat} {x y : Requests} (hx : x.InOrder count)
    (hy : y.InOrder (count + x.functions.length)) : (x ++ y).InOrder count where
  own := by
    rw [functions_append, List.length_append, ← Nat.add_assoc]
    exact .append hy.own hx.own
  functions k f asked hk := by
    rcases of_append hk with hx' | ⟨j, rfl, hy'⟩
    · exact hx.functions k f asked hx'
    · rw [← Nat.add_assoc]
      exact hy.functions j f asked hy'

end Requests

/-- What a part of a program asks for, behind the given number of functions. -/
abbrev Asking := Nat → Requests

namespace Asking

/-- A part that asks for nothing. -/
def nothing : Asking :=
  fun _ => {}

/-- A part that asks for one thing. -/
def one (x : Request) : Asking :=
  fun _ => ⟨[x], []⟩

/-- One part behind another. -/
def next (x y : Asking) : Asking := fun count =>
  x count ++ y (count + (x count).functions.length)

/-- A function, whose body is a part of its own. The code around it asks for the function. -/
def inFunction (f : Func) (body : Asking) : Asking := fun count =>
  ⟨[.function (count + (body count).functions.length)],
    (body count).functions ++ [(f, (body count).own)]⟩

/-- A function itself ends behind those in it. -/
theorem of_inFunction {f : Func} {body : Asking} {count k : Nat} {text : Func × List Request}
    (h : (body.inFunction f count).functions[k]? = some text) :
    (body count).functions[k]? = some text ∨
      k = (body count).functions.length ∧ text = (f, (body count).own) := by
  rcases Requests.of_append (y := ⟨[], [(f, (body count).own)]⟩) h with hin | ⟨j, rfl, hself⟩
  · exact .inl hin
  · obtain ⟨hlt, rfl⟩ := List.getElem?_eq_some_iff.mp hself
    obtain rfl : j = 0 := Nat.lt_one_iff.mp hlt
    exact .inr ⟨rfl, rfl⟩

theorem next_nothing (x : Asking) : x.next nothing = x :=
  funext fun count => (x count).append_empty

/-- Functions are asked for in order. -/
def InOrder (x : Asking) : Prop :=
  ∀ count, (x count).InOrder count

namespace InOrder

variable {x y : Asking}

theorem nothing : InOrder nothing :=
  fun count => ⟨Nat.le_refl count, nofun⟩

theorem next (hx : x.InOrder) (hy : y.InOrder) : (x.next y).InOrder :=
  fun count => (hx count).append (hy _)

theorem literal (v : Value) (scalar : v.isScalar = true) : InOrder (.one (.literal v scalar)) :=
  fun count => ⟨Nat.le_refl count, nofun⟩

theorem attr (sets : Bool) (name : String) : InOrder (.one (.attr sets name)) :=
  fun count => ⟨Nat.le_refl count, nofun⟩

theorem inFunction (f : Func) (hx : x.InOrder) : (x.inFunction f).InOrder := by
  intro count
  have hbody := hx count
  refine ⟨⟨Nat.le_add_right _ _, ?_⟩, fun k g asked hk => ?_⟩
  · show count + (x count).functions.length + 1 ≤ count + ((x count).functions ++ [_]).length
    rw [List.length_append, List.length_singleton]
    exact Nat.le_refl _
  · rcases of_inFunction hk with hk | ⟨rfl, heq⟩
    · exact hbody.functions k g asked hk
    · obtain ⟨rfl, rfl⟩ := Prod.mk.inj heq
      exact hbody.own.widen (Nat.zero_le count)

end InOrder

end Asking

open Asking

mutual

/-- **What a plan asks for.** -/
def Plan.requests : Plan → Asking
  | .seq x y => x.requests.next y.requests
  | .const v scalar => one (.literal v scalar)
  | .attr sets name => one (.attr sets name)
  | .update _ _ value => value.requests
  | .stages body => body.requests
  | .branch condition ifTrue ifFalse =>
    condition.requests.next (ifTrue.requests.next ifFalse.requests)
  | .shortCircuit _ left right => left.requests.next right.requests
  | .switch subject arms default =>
    subject.requests.next (arms.requestsTests.next (arms.requestsBodies.next default.requests))
  | .block body => body.requests
  | .loop _ condition body post => condition.requests.next (body.requests.next post.requests)
  | .iterate _ bind body => bind.requests.next body.requests
  | .func f body => body.requests.inFunction f
  | _ => nothing

/-- What the tests of all cases ask for. -/
def Arms.requestsTests : Arms → Asking
  | .nil => nothing
  | .arm tests _ rest => tests.requests.next rest.requestsTests

/-- What the tests of a case ask for. -/
def Tests.requests : Tests → Asking
  | .nil => nothing
  | .test value rest => value.requests.next rest.requests

/-- What the bodies of all cases ask for. -/
def Arms.requestsBodies : Arms → Asking
  | .nil => nothing
  | .arm _ body rest => body.requests.next rest.requestsBodies

end

/-- **What a program asks for**, behind the given number of functions. -/
def Program.requests (program : Program) : Asking :=
  (Plan.ofStatements program).requests

mutual

/-- **Functions are asked for in order**, each of them once. -/
theorem Plan.inOrder_requests : ∀ p : Plan, p.requests.InOrder
  | .seq x y => x.inOrder_requests.next y.inOrder_requests
  | .const v scalar => .literal v scalar
  | .attr sets name => .attr sets name
  | .update _ _ value => value.inOrder_requests
  | .stages body => body.inOrder_requests
  | .branch condition ifTrue ifFalse =>
    condition.inOrder_requests.next (ifTrue.inOrder_requests.next ifFalse.inOrder_requests)
  | .shortCircuit _ left right => left.inOrder_requests.next right.inOrder_requests
  | .switch subject arms default =>
    subject.inOrder_requests.next
      (arms.inOrder_requestsTests.next (arms.inOrder_requestsBodies.next default.inOrder_requests))
  | .block body => body.inOrder_requests
  | .loop _ condition body post =>
    condition.inOrder_requests.next (body.inOrder_requests.next post.inOrder_requests)
  | .iterate _ bind body => bind.inOrder_requests.next body.inOrder_requests
  | .func f body => body.inOrder_requests.inFunction f
  | .skip | .instr _ | .load _ | .declare .. | .declareAll _ | .refuse _ | .outsidePipe
  | .insideFunction | .leave _ => .nothing

theorem Arms.inOrder_requestsTests : ∀ c : Arms, c.requestsTests.InOrder
  | .nil => .nothing
  | .arm tests _ rest => tests.inOrder_requests.next rest.inOrder_requestsTests

theorem Tests.inOrder_requests : ∀ c : Tests, c.requests.InOrder
  | .nil => .nothing
  | .test value rest => value.inOrder_requests.next rest.inOrder_requests

theorem Arms.inOrder_requestsBodies : ∀ c : Arms, c.requestsBodies.InOrder
  | .nil => .nothing
  | .arm _ body rest => body.inOrder_requests.next rest.inOrder_requestsBodies

end

/-- A function asks for the literals in it, and the code around it for the function. -/
example : (Program.requests [.expr (.attr (.str "a") "size"),
    .expr (.func (.mk none [] [.expr (.int 1)])), .expr (.int 1)] 2).own =
    [.literal (.str "a") rfl, .attr false "size", .function 2, .literal (.int 1) rfl] := by
  decide

end ScriptEngine
