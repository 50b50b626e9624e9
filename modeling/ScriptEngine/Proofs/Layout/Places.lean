import ScriptEngine.Proofs.Layout.Matched

/-!
# Places in a program

What the text of a program says about a place in it: whether the place is in a later stage of a pipe
of its own function, and which names the scopes around it have declared so far. The compilation of a
program comes from place to place, each time in the state that it has reached by then, and what is
refused at a place is refused in the whole program.

## Main definitions

* `ScriptEngine.Place`: what the text says about a place;
* `ScriptEngine.Plan.Reaches`: the compilation of a plan comes to a plan inside of it.

## Main results

* `ScriptEngine.Plan.Reaches.refused`: a plan is refused with whatever is refused inside of it.
-/

namespace ScriptEngine

open Emit Generate

/-! ### Places -/

/-- **Declarations**: names, with whether they are constants, newest first. -/
abbrev Declarations := List (String × Bool)

mutual

/-- **What a plan declares** in the scope in which it is emitted. -/
def Plan.declarations : Plan → Declarations
  | .seq x y => y.declarations ++ x.declarations
  | .update _ _ value => value.declarations
  | .declare name constant => [(name, constant)]
  | .declareAll names => (names.map (·, false)).reverse
  | .stages body => body.declarations
  | .branch condition ifTrue ifFalse =>
    ifFalse.declarations ++ (ifTrue.declarations ++ condition.declarations)
  | .shortCircuit _ left right => right.declarations ++ left.declarations
  | .switch subject arms default =>
    default.declarations ++
      (arms.bodyDeclarations ++ (arms.testDeclarations ++ subject.declarations))
  | .loop _ condition body post =>
    post.declarations ++ (body.declarations ++ condition.declarations)
  | .iterate _ bind body => body.declarations ++ bind.declarations
  | _ => []

/-- What the tests of all cases declare. -/
def Arms.testDeclarations : Arms → Declarations
  | .nil => []
  | .arm tests _ rest => rest.testDeclarations ++ tests.declarations

/-- What the bodies of all cases declare. -/
def Arms.bodyDeclarations : Arms → Declarations
  | .nil => []
  | .arm _ body rest => rest.bodyDeclarations ++ body.declarations

/-- What the tests of a case declare. -/
def Tests.declarations : Tests → Declarations
  | .nil => []
  | .test value rest => rest.declarations ++ value.declarations

end

/-- **A place in a program**: whether it is in a later stage of a pipe of its own function, and what
the scopes around it have declared so far, innermost first. -/
structure Place where
  piped : Bool
  scopes : List Declarations
deriving DecidableEq

namespace Place

variable (P : Place)

/-- The place behind some declarations. -/
def declare (ds : Declarations) : Place :=
  { P with scopes := (ds ++ P.scopes.headD []) :: P.scopes.tail }

/-- The place behind a plan. -/
def behind (p : Plan) : Place :=
  P.declare p.declarations

/-- The place in a later stage of a pipe. -/
def inStages : Place :=
  { P with piped := true }

/-- The place in a block. -/
def inBlock : Place :=
  { P with scopes := [] :: P.scopes }

/-- The names that a function declares for itself: its parameters, and its own name unless it is one
of them. -/
def ownNames (f : Func) : Declarations :=
  (f.name.filter (· ∉ f.paramNames)).toList.map (·, true) ++ (f.paramNames.map (·, false)).reverse

/-- **The place in the body of a function**, which no pipe around the function concerns. -/
def inFunction (f : Func) : Place :=
  ⟨false, [] :: ownNames f :: P.scopes⟩

end Place

/-! ### Reaching a place -/

/-- The tests of a case come to one of the values. -/
inductive Tests.Comes : Tests → Place → Emission → Plan → Place → Emission → Prop
  | here {value : Plan} {rest : Tests} {P : Place} {s m : Emission}
    (hcopy : instruction .copy [0] s = .ok () m) : Comes (.test value rest) P s value P m
  | later {value q : Plan} {rest : Tests} {P Q : Place} {s m₁ m₂ m₃ m₄ t : Emission} {j : Nat}
    (hcopy : instruction .copy [0] s = .ok () m₁) (hvalue : value.emit m₁ = .ok () m₂)
    (hcompare : instruction .compareOp [Comparison.equal.word] m₂ = .ok () m₃)
    (hjump : jump .popJumpForwardIfTrue m₃ = .ok j m₄) (h : rest.Comes (P.behind value) m₄ q Q t) :
    Comes (.test value rest) P s q Q t

/-- The tests of all cases come to one of the values. -/
inductive Arms.ComesToTest : Arms → Place → Emission → Plan → Place → Emission → Prop
  | here {tests : Tests} {body q : Plan} {rest : Arms} {P Q : Place} {s t : Emission}
    (h : tests.Comes P s q Q t) : ComesToTest (.arm tests body rest) P s q Q t
  | later {tests : Tests} {body q : Plan} {rest : Arms} {P Q : Place} {s m t : Emission}
    {js : List Nat} (htests : tests.emit s = .ok js m)
    (h : rest.ComesToTest (P.declare tests.declarations) m q Q t) :
    ComesToTest (.arm tests body rest) P s q Q t

/-- The bodies of all cases come to one of them. -/
inductive Arms.ComesToBody : Arms → List (List Nat) → Place → Emission → Plan → Place →
    Emission → Prop
  | here {tests : Tests} {body : Plan} {rest : Arms} {js : List Nat} {pending : List (List Nat)}
    {P : Place} {s m : Emission} (hland : js.forM landHere s = .ok () m) :
    ComesToBody (.arm tests body rest) (js :: pending) P s body P m
  | later {tests : Tests} {body q : Plan} {rest : Arms} {js : List Nat} {pending : List (List Nat)}
    {P Q : Place} {s m₁ m₂ m₃ t : Emission} {done : Nat} (hland : js.forM landHere s = .ok () m₁)
    (hbody : body.emit m₁ = .ok () m₂) (hdone : jump .jumpForward m₂ = .ok done m₃)
    (h : rest.ComesToBody pending (P.behind body) m₃ q Q t) :
    ComesToBody (.arm tests body rest) (js :: pending) P s q Q t

/-- **The compilation of a plan comes to a plan inside of it**: from a place and a state to another
place and the state that is reached there. -/
inductive Plan.Reaches : Plan → Place → Emission → Plan → Place → Emission → Prop
  | refl (p : Plan) (P : Place) (s : Emission) : Reaches p P s p P s
  | first {x y q : Plan} {P Q : Place} {s t : Emission} (h : x.Reaches P s q Q t) :
    Reaches (.seq x y) P s q Q t
  | second {x y q : Plan} {P Q : Place} {s m t : Emission} (hx : x.emit s = .ok () m)
    (h : y.Reaches (P.behind x) m q Q t) : Reaches (.seq x y) P s q Q t
  | update {name : String} {reads : Bool} {value q : Plan} {P Q : Place} {s m₁ m₂ t : Emission}
    {r : Resolution} (hr : resolveAssignable name s = .ok r m₁)
    (hload : (if reads then Emit.load r else pure ()) m₁ = .ok () m₂)
    (h : value.Reaches P m₂ q Q t) :
    Reaches (.update name reads value) P s q Q t
  | stages {body q : Plan} {P Q : Place} {s t : Emission}
    (h : body.Reaches P.inStages { s with body := { s.body with inPipe := true } } q Q t) :
    Reaches (.stages body) P s q Q t
  | condition {condition ifTrue ifFalse q : Plan} {P Q : Place} {s t : Emission}
    (h : condition.Reaches P s q Q t) : Reaches (.branch condition ifTrue ifFalse) P s q Q t
  | ifTrue {condition ifTrue ifFalse q : Plan} {P Q : Place} {s m₁ m₂ t : Emission} {j : Nat}
    (hc : condition.emit s = .ok () m₁) (hj : jump .popJumpForwardIfFalse m₁ = .ok j m₂)
    (h : ifTrue.Reaches (P.behind condition) m₂ q Q t) :
    Reaches (.branch condition ifTrue ifFalse) P s q Q t
  | ifFalse {condition ifTrue ifFalse q : Plan} {P Q : Place} {s m₁ m₂ m₃ m₄ m₅ t : Emission}
    {j d : Nat} (hc : condition.emit s = .ok () m₁) (hj : jump .popJumpForwardIfFalse m₁ = .ok j m₂)
    (ht : ifTrue.emit m₂ = .ok () m₃) (hd : jump .jumpForward m₃ = .ok d m₄)
    (hl : landHere j m₄ = .ok () m₅)
    (h : ifFalse.Reaches ((P.behind condition).behind ifTrue) m₅ q Q t) :
    Reaches (.branch condition ifTrue ifFalse) P s q Q t
  | left {both : Bool} {left right q : Plan} {P Q : Place} {s t : Emission}
    (h : left.Reaches P s q Q t) : Reaches (.shortCircuit both left right) P s q Q t
  | right {both : Bool} {left right q : Plan} {P Q : Place} {s m₁ m₂ m₃ t : Emission} {j : Nat}
    (hl : left.emit s = .ok () m₁) (hcopy : instruction .copy [0] m₁ = .ok () m₂)
    (hj : jump (if both then .popJumpForwardIfFalse else .popJumpForwardIfTrue) m₂ = .ok j m₃)
    (h : right.Reaches (P.behind left) m₃ q Q t) : Reaches (.shortCircuit both left right) P s q Q t
  | subject {subject default q : Plan} {arms : Arms} {P Q : Place} {s t : Emission}
    (h : subject.Reaches P s q Q t) : Reaches (.switch subject arms default) P s q Q t
  | test {subject default p q : Plan} {arms : Arms} {P P' Q : Place} {s m s' t : Emission}
    (hs : subject.emit s = .ok () m) (hc : arms.ComesToTest (P.behind subject) m p P' s')
    (h : p.Reaches P' s' q Q t) : Reaches (.switch subject arms default) P s q Q t
  | arm {subject default p q : Plan} {arms : Arms} {P P' Q : Place} {s m₁ m₂ m₃ m₄ s' t : Emission}
    {jumps : List (List Nat)} {otherwise : Nat} (hs : subject.emit s = .ok () m₁)
    (ht : arms.emitTests m₁ = .ok jumps m₂) (hj : jump .jumpForward m₂ = .ok otherwise m₃)
    (hh : onLoop (fun l => { l with held := l.held + 1 }) m₃ = .ok () m₄)
    (hc : arms.ComesToBody jumps ((P.behind subject).declare arms.testDeclarations) m₄ p P' s')
    (h : p.Reaches P' s' q Q t) : Reaches (.switch subject arms default) P s q Q t
  | otherwise {subject default q : Plan} {arms : Arms} {P Q : Place}
    {s m₁ m₂ m₃ m₄ m₅ m₆ t : Emission} {jumps : List (List Nat)} {otherwise : Nat} {ends : List Nat}
    (hs : subject.emit s = .ok () m₁) (ht : arms.emitTests m₁ = .ok jumps m₂)
    (hj : jump .jumpForward m₂ = .ok otherwise m₃)
    (hh : onLoop (fun l => { l with held := l.held + 1 }) m₃ = .ok () m₄)
    (hb : arms.emitBodies jumps m₄ = .ok ends m₅) (hl : landHere otherwise m₅ = .ok () m₆)
    (h : default.Reaches (((P.behind subject).declare arms.testDeclarations).declare
      arms.bodyDeclarations) m₆ q Q t) : Reaches (.switch subject arms default) P s q Q t
  | block {body q : Plan} {P Q : Place} {s m t : Emission} {inner : ScopeId}
    (hi : onTable (ScopeTable.openScope s.body.scope .block) s = .ok inner m)
    (h : body.Reaches P.inBlock (m.withScope inner) q Q t) : Reaches (.block body) P s q Q t
  | loopCondition {tested : Bool} {condition body post q : Plan} {P Q : Place} {s t : Emission}
    (h : condition.Reaches P s q Q t) : Reaches (.loop tested condition body post) P s q Q t
  | loopBody {tested : Bool} {condition body post q : Plan} {P Q : Place} {s m₁ m₂ t : Emission}
    {leave : Option Nat} (hc : condition.emit s = .ok () m₁) (he : exitIf tested m₁ = .ok leave m₂)
    (h : body.Reaches (P.behind condition)
      { m₂ with body := { m₂.body with loops := {} :: m₂.body.loops } } q Q t) :
    Reaches (.loop tested condition body post) P s q Q t
  | loopPost {tested : Bool} {condition body post q : Plan} {P Q : Place} {s m₁ m₂ m₃ t : Emission}
    {leave : Option Nat} {loop : OpenLoop} (hc : condition.emit s = .ok () m₁)
    (he : exitIf tested m₁ = .ok leave m₂) (hb : Emit.loopBody body.emit m₂ = .ok loop m₃)
    (h : post.Reaches ((P.behind condition).behind body) m₃ q Q t) :
    Reaches (.loop tested condition body post) P s q Q t
  | binding {names : Nat} {bind body q : Plan} {P Q : Place} {s m t : Emission} {advance : Nat}
    (ha : Emit.emit .forIter [placeholder, names.toUInt16] s = .ok advance m)
    (h : bind.Reaches P m q Q t) : Reaches (.iterate names bind body) P s q Q t
  | round {names : Nat} {bind body q : Plan} {P Q : Place} {s m₁ m₂ t : Emission} {advance : Nat}
    (ha : Emit.emit .forIter [placeholder, names.toUInt16] s = .ok advance m₁)
    (hb : bind.emit m₁ = .ok () m₂)
    (h : body.Reaches (P.behind bind)
      { m₂ with body := { m₂.body with loops := {} :: m₂.body.loops } } q Q t) :
    Reaches (.iterate names bind body) P s q Q t
  | func {f : Func} {body q : Plan} {P Q : Place} {s m₁ m₂ m₃ t : Emission}
    {defaults : List (Option Value)} {inner block : ScopeId}
    (hcount : f.params.length ≤ argumentLimit) (hd : f.params.mapM defaultValue s = .ok defaults m₁)
    (he : onTable (enter f m₁.body.scope) m₁ = .ok inner m₂)
    (ho : onTable (ScopeTable.openScope inner .block) (m₂.beginBody f inner) = .ok block m₃)
    (h : body.Reaches (P.inFunction f) (m₃.withScope block) q Q t) :
      Reaches (.func f body) P s q Q t

/-! ### Refusals -/

section Refusals

variable {α β : Type} {s m : Emission} {e : CompileError}

/-- What is refused in a block. -/
theorem inBlock_of_error {steps : Emit Unit} {inner : ScopeId} {t : Emission}
    (hi : onTable (ScopeTable.openScope s.body.scope .block) s = .ok inner m)
    (h : steps (m.withScope inner) = .error e t) : inBlock steps s = .error e t :=
  (bind_of_ok rfl).trans <| (bind_of_ok hi).trans <| (bind_of_ok rfl).trans (bind_of_error h)

end Refusals

variable {p q : Plan} {P Q : Place} {s t u : Emission} {e : CompileError}

/-- A value of a case is refused. -/
theorem Tests.Comes.refused {tests : Tests} (h : tests.Comes P s q Q t)
    (he : q.emit t = .error e u) :
    tests.emit s = .error e u := by
  induction h with
  | here hcopy => exact (bind_of_ok hcopy).trans (bind_of_error he)
  | later hcopy hvalue hcompare hjump _ ih =>
    exact (bind_of_ok hcopy).trans <| (bind_of_ok hvalue).trans <| (bind_of_ok hcompare).trans <|
      (bind_of_ok hjump).trans (bind_of_error (ih he))

theorem Arms.ComesToTest.refused {arms : Arms} (h : arms.ComesToTest P s q Q t)
    (he : q.emit t = .error e u) : arms.emitTests s = .error e u := by
  induction h with
  | here h => exact bind_of_error (h.refused he)
  | later htests _ ih => exact (bind_of_ok htests).trans (bind_of_error (ih he))

theorem Arms.ComesToBody.refused {arms : Arms} {jumps : List (List Nat)}
    (h : arms.ComesToBody jumps P s q Q t) (he : q.emit t = .error e u) :
    arms.emitBodies jumps s = .error e u := by
  induction h with
  | here hland => exact (bind_of_ok hland).trans (bind_of_error he)
  | later hland hbody hdone _ ih =>
    exact (bind_of_ok hland).trans <| (bind_of_ok hbody).trans <| (bind_of_ok hdone).trans
      (bind_of_error (ih he))

/-- **A plan is refused with whatever is refused inside of it.** -/
theorem Plan.Reaches.refused (h : p.Reaches P s q Q t) (he : q.emit t = .error e u) :
    p.emit s = .error e u := by
  induction h with
  | refl => exact he
  | first _ ih => exact bind_of_error (ih he)
  | second hx _ ih => exact (bind_of_ok hx).trans (ih he)
  | @update name reads value q P Q s m₁ m₂ t r hr hload _ ih =>
    refine (bind_of_ok hr).trans ?_
    cases reads with
    | true => exact (bind_of_ok hload).trans (bind_of_error (ih he))
    | false =>
      obtain ⟨-, rfl⟩ := pure_eq_ok.mp hload
      exact bind_of_error (ih he)
  | stages _ ih => exact (bind_of_ok rfl).trans (bind_of_error (ih he))
  | condition _ ih => exact bind_of_error (ih he)
  | ifTrue hc hj _ ih =>
    exact (bind_of_ok hc).trans <| (bind_of_ok hj).trans (bind_of_error (ih he))
  | ifFalse hc hj ht hd hl _ ih =>
    exact (bind_of_ok hc).trans <| (bind_of_ok hj).trans <| (bind_of_ok ht).trans <|
      (bind_of_ok hd).trans <| (bind_of_ok hl).trans (bind_of_error (ih he))
  | left _ ih => exact bind_of_error (ih he)
  | right hl hcopy hj _ ih =>
    exact (bind_of_ok hl).trans <| (bind_of_ok hcopy).trans <| (bind_of_ok hj).trans
      (bind_of_error (ih he))
  | subject _ ih => exact bind_of_error (ih he)
  | test hs hc _ ih => exact (bind_of_ok hs).trans (bind_of_error (hc.refused (ih he)))
  | arm hs ht hj hh hc _ ih =>
    exact (bind_of_ok hs).trans <| (bind_of_ok ht).trans <| (bind_of_ok hj).trans <|
      bind_of_error <| (bind_of_ok hh).trans (bind_of_error (bind_of_error (hc.refused (ih he))))
  | otherwise hs ht hj hh hb hl _ ih =>
    exact (bind_of_ok hs).trans <| (bind_of_ok ht).trans <| (bind_of_ok hj).trans <|
      bind_of_error <| (bind_of_ok hh).trans <| bind_of_error <| (bind_of_ok hb).trans <|
        (bind_of_ok hl).trans (bind_of_error (ih he))
  | block hi _ ih => exact inBlock_of_error hi (ih he)
  | loopCondition _ ih => exact (bind_of_ok rfl).trans (bind_of_error (ih he))
  | loopBody hc hx _ ih =>
    exact (bind_of_ok rfl).trans <| (bind_of_ok hc).trans <| (bind_of_ok hx).trans <|
      bind_of_error <| (bind_of_ok rfl).trans (bind_of_error (ih he))
  | loopPost hc hx hb _ ih =>
    exact (bind_of_ok rfl).trans <| (bind_of_ok hc).trans <| (bind_of_ok hx).trans <|
      (bind_of_ok hb).trans <| (bind_of_ok rfl).trans (bind_of_error (ih he))
  | binding ha _ ih =>
    exact (bind_of_ok rfl).trans <| (bind_of_ok ha).trans (bind_of_error (ih he))
  | round ha hb _ ih =>
    exact (bind_of_ok rfl).trans <| (bind_of_ok ha).trans <| (bind_of_ok hb).trans <|
      bind_of_error <| (bind_of_ok rfl).trans (bind_of_error (ih he))
  | @func f body q P Q s m₁ m₂ m₃ t defaults inner block hcount hd hx ho _ ih =>
    show Generate.function f body.emit s = _
    unfold Generate.function
    rw [if_neg (Nat.not_lt.mpr hcount)]
    exact (bind_of_ok hd).trans <| (bind_of_ok rfl).trans <| (bind_of_ok hx).trans <|
      (bind_of_ok rfl).trans <| bind_of_error <| inBlock_of_error ho (ih he)

end ScriptEngine
