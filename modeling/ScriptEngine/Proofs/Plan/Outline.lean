import ScriptEngine.Proofs.Plan.Basic

/-!
# The stores of a program

Which variable each store of a program is for, as its text alone tells. A name means the nearest
declaration around it, and the top level lies outside of all blocks and functions. An outline lists
the stores in the order in which their code is emitted, those of each function apart.

## Main definitions

* `ScriptEngine.Destination`: what a store is for;
* `ScriptEngine.Nesting`: the names declared in the blocks and functions around;
* `ScriptEngine.Outline`: the stores of a program and of its functions;
* `ScriptEngine.Program.outline`: the outline of a program.
-/

namespace ScriptEngine

/-- **What a store is for**: the global of a name, or a variable of a block or a function. -/
inductive Destination where
  | global (name : String)
  | inner
deriving DecidableEq

/-- **The names declared so far in the blocks and functions around**, the innermost first. At the
top level there are none. -/
abbrev Nesting := List (List String)

namespace Nesting

/-- **The variable that a name means.** -/
def meaning (N : Nesting) (name : String) : Destination :=
  if ∃ names ∈ N, name ∈ names then .inner else .global name

/-- The variable that a declaration makes. -/
def place : Nesting → String → Destination
  | [], name => .global name
  | _ :: _, _ => .inner

/-- The nesting behind a declaration. -/
def declare (name : String) : Nesting → Nesting
  | [] => []
  | names :: around => (name :: names) :: around

/-- The nesting behind several declarations. -/
def declareEach (names : List String) (N : Nesting) : Nesting :=
  names.foldl (fun N name => N.declare name) N

theorem tail_declareEach : ∀ (N : Nesting) (names : List String),
    (N.declareEach names).tail = N.tail
  | _, [] => rfl
  | N, name :: names => by
    show ((N.declare name).declareEach names).tail = _
    rw [tail_declareEach]
    cases N <;> rfl

/-- The nesting in the body of a function, whose parameters and whose own name are declared around
it. -/
def inFunction (f : Func) (N : Nesting) : Nesting :=
  [] :: (f.paramNames ++ f.name.toList) :: N

end Nesting

/-- **The stores of a code**, in order, and those of the functions compiled with it, in the order in
which the functions end. -/
structure Outline where
  stores : List Destination := []
  functions : List (List Destination) := []
deriving DecidableEq

namespace Outline

def append (x y : Outline) : Outline :=
  ⟨x.stores ++ y.stores, x.functions ++ y.functions⟩

instance : Append Outline := ⟨append⟩

@[simp] theorem functions_append (x y : Outline) :
    (x ++ y).functions = x.functions ++ y.functions :=
  rfl

/-- The outline of a function with the given outline of its body: its stores are not those of the
code around. -/
def ofFunction (body : Outline) : Outline :=
  ⟨[], body.functions ++ [body.stores]⟩

end Outline

/-- What a part of a program adds to the outline, and the nesting behind it. -/
abbrev Outlined := Nesting → Outline × Nesting

namespace Outlined

/-- A part that neither stores nor declares anything. -/
def nothing : Outlined :=
  fun N => ({}, N)

/-- One part behind another. -/
def next (x y : Outlined) : Outlined := fun N =>
  ((x N).1 ++ (y (x N).2).1, (y (x N).2).2)

@[simp] theorem next_nothing (x : Outlined) : x.next nothing = x := by
  funext N
  refine Prod.ext ?_ rfl
  show Outline.mk (_ ++ []) (_ ++ []) = _
  rw [List.append_nil, List.append_nil]

/-- A part with a store behind it. The variable is looked up first. -/
def storing (name : String) (x : Outlined) : Outlined := fun N =>
  ((x N).1 ++ ⟨[N.meaning name], []⟩, (x N).2)

/-- A part inside a block. -/
def inBlock (x : Outlined) : Outlined := fun N =>
  ((x ([] :: N)).1, N)

/-- A part that is the body of a function. -/
def inFunction (f : Func) (x : Outlined) : Outlined := fun N =>
  (.ofFunction (x (N.inFunction f)).1, N)

end Outlined

open Outlined

mutual

/-- **The outline of a plan.** -/
def Plan.outline : Plan → Outlined
  | .seq x y => x.outline.next y.outline
  | .update name _ value => value.outline.storing name
  | .declare name _ => fun N => (⟨[N.place name], []⟩, N.declare name)
  | .declareAll names => fun N => (⟨(names.map N.place).reverse, []⟩, N.declareEach names)
  | .stages body => body.outline
  | .branch condition ifTrue ifFalse => condition.outline.next (ifTrue.outline.next ifFalse.outline)
  | .shortCircuit _ left right => left.outline.next right.outline
  | .switch subject arms default =>
    subject.outline.next (arms.outlineTests.next (arms.outlineBodies.next default.outline))
  | .block body => body.outline.inBlock
  | .loop _ condition body post => condition.outline.next (body.outline.next post.outline)
  | .iterate _ bind body => bind.outline.next body.outline
  | .func f body => body.outline.inFunction f
  | _ => nothing

/-- The outline of the tests of all cases. -/
def Arms.outlineTests : Arms → Outlined
  | .nil => nothing
  | .arm tests _ rest => tests.outline.next rest.outlineTests

/-- The outline of the tests of a case. -/
def Tests.outline : Tests → Outlined
  | .nil => nothing
  | .test value rest => value.outline.next rest.outline

/-- The outline of the bodies of all cases. -/
def Arms.outlineBodies : Arms → Outlined
  | .nil => nothing
  | .arm _ body rest => body.outline.next rest.outlineBodies

end

/-- **The outline of a program.** -/
def Program.outline (program : Program) : Outline :=
  ((Plan.ofStatements program).outline []).1

/-- A name that is declared in a block is another variable than the global of that name, which a
function may still store into. -/
example : Program.outline [.var "x" (.int 1),
    .expr (.cond (.bool true) [.var "x" (.int 2), .assign "x" .assign (.int 3)] none),
    .expr (.func (.mk none [] [.assign "x" .assign (.int 4)]))] =
    ⟨[.global "x", .inner, .inner], [[.global "x"]]⟩ := by
  decide

end ScriptEngine
