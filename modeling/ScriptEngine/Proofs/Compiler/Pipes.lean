import ScriptEngine.Proofs.Compiler.Typed
import ScriptEngine.Proofs.Layout.Parts
import ScriptEngine.Proofs.Layout.Piping
import ScriptEngine.Proofs.Machine.Charges
import ScriptEngine.Proofs.Machine.Pipes

/-!
# Pipes of programs

Every pipe that a program contains is either refused or means calls: of the callee of each later
stage with the value so far. The nested call of the same stages yields the same, unless the call of
a stage changes the callee of a later one. The pipe looks at this callee behind the call and the
nested call before it.

## Main definitions

* `ScriptEngine.Site.Pipes`: what a pipe does.

## Main results

* `ScriptEngine.Fiber.pipe_differs`: a pipe that differs from the nested call;
* `ScriptEngine.Compiler.Built.pipes_call`: which pipes are refused, and what the others do.
-/

namespace ScriptEngine

open Fiber ScopeTable

/-- **What a pipe does** in a code: its first stage yields a value, and what becomes of this value
in the others is what the pipe yields. -/
structure Site.Pipes (S : Site) (c : Code) (first : Expr) (spots : List Spot)
    (a m b : Point) : Prop where
  first : (Plan.ofExpr false first).Laid S a m
  row : Spot.Row S m spots b
  runs : ∀ {host : Host} {below : List Value} {v v' : Value} {F F₁ F' : Fiber} {w w₁ w' : World},
    0 < F.machine.config.argLimit → Evaluates host c a.offset m.offset [v] below F w F₁ w₁ →
    Piped host c below spots v F₁ w₁ v' F' w' →
      Evaluates host c a.offset b.offset [v'] below F w F' w'

/-- **A pipe that lies in a code** does what pipes do. -/
theorem Plan.Laid.pipes {bound : Bool} {ss : List Expr} {S : Site} {a b : Point} {c : Code}
    (h : (Plan.ofExpr bound (.pipe ss)).Laid S a b) (hc : S.code.SameText c) :
    ∃ first spots m, ss = first :: spots.map Spot.stage ∧ spots ≠ [] ∧
    S.Pipes c first spots a m b := by
  obtain ⟨first, stages, m, spots, rfl, hne, hfirst, -, rfl, hrow⟩ := h.pipe
  refine ⟨first, spots, m, rfl, fun h => hne (h ▸ rfl), hfirst, hrow, ?_⟩
  intro host below v v' F F₁ F' w w₁ w' hone hvalue hpiped
  obtain ⟨hruns, hat, hfollows⟩ :=
    hpiped.runs hrow hc (hvalue.follows.config ▸ hone) hvalue.stop
  exact ⟨hvalue.start, hvalue.runs.trans hruns, hat, hvalue.follows.trans hfollows⟩

/-! ### A pipe and a nested call -/

/-- A table with two globals. -/
def ScopeTable.twoGlobals : ScopeTable :=
  { scopes := #[{
      parent := none, kind := .function, slots := 2
      names := (Std.HashMap.insert ∅ "f" ⟨"f", 0, false⟩).insert "g" ⟨"g", 1, false⟩ }] }

/-- The lookup of a global. -/
theorem ScopeTable.resolve_twoGlobals {name : String} {symbol : Symbol}
    (h : twoGlobals.get? root name = some symbol) :
    resolve root name twoGlobals = .ok (some ⟨symbol, .global, 0, 0⟩) twoGlobals := by
  refine resolveWithin_known 0 ?_
  unfold known?
  rw [h]
  rfl

theorem ScopeTable.get?_twoGlobals_f : twoGlobals.get? root "f" = some ⟨"f", 0, false⟩ := by
  show (Std.HashMap.insert (Std.HashMap.insert ∅ "f" _) "g" _)["f"]? = _
  rw [Std.HashMap.getElem?_insert, Std.HashMap.getElem?_insert]
  rfl

theorem ScopeTable.get?_twoGlobals_g : twoGlobals.get? root "g" = some ⟨"g", 1, false⟩ := by
  show (Std.HashMap.insert (Std.HashMap.insert ∅ "f" _) "g" _)["g"]? = _
  rw [Std.HashMap.getElem?_insert]
  rfl

/-- A code with these instructions. -/
def Code.ofInstructions (is : List (Opcode × List Word)) (constants : Array Value) : Code :=
  .ofParts (is.flatMap fun i => i.1.word :: i.2).toArray constants

/-- The code of the pipe of a number and two globals. -/
def Code.piped : Code :=
  .ofInstructions [(.loadConst, [0]), (.loadGlobal, [0]), (.swap, [1]), (.call, [1]),
    (.loadGlobal, [1]), (.swap, [1]), (.call, [1])] #[.int 1]

/-- The code of the nested call. -/
def Code.nested : Code :=
  .ofInstructions [(.loadGlobal, [1]), (.loadGlobal, [0]), (.loadConst, [0]), (.call, [1]),
    (.call, [1])] #[.int 1]

/-- The top level of a code. -/
def Site.atTop (c : Code) : Site where
  functions := #[]
  cells _ := 0
  code := c
  scope := root

/-- The stages of both. -/
def Expr.globalStages : List Expr := [.ident "f", .ident "g"]

theorem Plan.laid_piped : (ofExpr false (.pipe (.int 1 :: Expr.globalStages))).Laid (.atTop .piped)
    ⟨0, twoGlobals, 0⟩ ⟨14, twoGlobals, 0⟩ := by
  have hf := resolve_twoGlobals get?_twoGlobals_f
  have hg := resolve_twoGlobals get?_twoGlobals_g
  exact ⟨_, rfl, ⟨2, _, 0⟩, ⟨0, rfl, ⟨rfl, rfl, trivial⟩, rfl, rfl⟩,
    ⟨4, _, 0⟩, ⟨_, _, hf, ⟨rfl, rfl, trivial⟩, rfl, rfl⟩,
    ⟨6, _, 0⟩, ⟨⟨rfl, rfl, trivial⟩, rfl, rfl⟩, ⟨8, _, 0⟩, ⟨⟨rfl, rfl, trivial⟩, rfl, rfl⟩,
    ⟨10, _, 0⟩, ⟨_, _, hg, ⟨rfl, rfl, trivial⟩, rfl, rfl⟩,
    ⟨12, _, 0⟩, ⟨⟨rfl, rfl, trivial⟩, rfl, rfl⟩, ⟨14, _, 0⟩, ⟨⟨rfl, rfl, trivial⟩, rfl, rfl⟩, rfl⟩

theorem Plan.laid_nested : (ofExpr false (Expr.nested (.int 1) Expr.globalStages)).Laid
    (.atTop .nested) ⟨0, twoGlobals, 0⟩ ⟨10, twoGlobals, 0⟩ := by
  have hf := resolve_twoGlobals get?_twoGlobals_f
  have hg := resolve_twoGlobals get?_twoGlobals_g
  exact ⟨⟨2, _, 0⟩, ⟨_, _, hg, ⟨rfl, rfl, trivial⟩, rfl, rfl⟩, ⟨8, _, 0⟩,
    ⟨⟨8, _, 0⟩, ⟨⟨4, _, 0⟩, ⟨_, _, hf, ⟨rfl, rfl, trivial⟩, rfl, rfl⟩,
      ⟨6, _, 0⟩, ⟨⟨6, _, 0⟩, ⟨0, rfl, ⟨rfl, rfl, trivial⟩, rfl, rfl⟩, rfl⟩,
      ⟨rfl, rfl, trivial⟩, rfl, rfl⟩, rfl⟩,
    ⟨rfl, rfl, trivial⟩, rfl, rfl⟩

/-- A fiber at the start of a code. -/
def Fiber.starting (c : Code) : Fiber where
  machine := { frames := .ofList [{ code := c }], status := .running }
  ctx := {}
  control := .dispatch
  goal := .program c.size

theorem Fiber.at_starting (c : Code) : (Fiber.starting c).At c 0 [] :=
  ⟨rfl, ⟨_, rfl, rfl, rfl⟩, rfl, Nat.zero_le _⟩

/-- A fiber and its world after as many steps. -/
def Fiber.after (host : Host) : Nat → Fiber → World → Fiber × World
  | 0, F, w => (F, w)
  | n + 1, F, w => let s := F.step host w; after host n s.2.1 s.2.2

theorem Fiber.runs_after (host : Host) (n : Nat) (F : Fiber) (w : World) :
    Runs host F w (after host n F w).1 (after host n F w).2 := by
  induction n generalizing F w with
  | zero => exact .refl F w
  | succ n ih => exact .step rfl (ih _ _)

/-- Where a fiber stands can be computed. -/
theorem Fiber.at_of_eq {F : Fiber} {c : Code} {offset : Nat} {vs : List Value}
    (hd : F.dispatches = true)
    (hf : F.machine.frames.top?.map (fun g => (g.code, g.ip)) = some (c, offset))
    (hs : F.machine.stack.toList = vs) (hb : F.machine.stack.size ≤ F.machine.stack.limit) :
    F.At c offset vs := by
  obtain ⟨g, htop, heq⟩ := Option.map_eq_some_iff.mp hf
  obtain ⟨hcode, hip⟩ := Prod.mk.inj heq
  refine ⟨?_, ⟨g, htop, hcode, hip⟩, hs, hb⟩
  unfold dispatches at hd
  split at hd
  · assumption
  · cases hd

/-- A world whose second global is replaced by the function in the first one. -/
def World.replacing : World where
  heap := { functions := #[
    .ofParts (some "f") ["x"] [none] { Code.ofInstructions [(.loadConst, [0]), (.storeGlobal, [1]),
      (.loadFast, [0]), (.returnValue, [1])] #[.function ⟨2⟩] with localCount := 1 },
    .ofParts none ["x"] [none] { Code.ofInstructions [(.loadFast, [0]), (.loadConst, [0]),
      (.binaryOp, [BinaryOperator.add.word]), (.returnValue, [1])] #[.int 1] with localCount := 1 },
    .ofParts none ["x"] [none] { Code.ofInstructions [(.loadFast, [0]), (.loadConst, [0]),
      (.binaryOp, [BinaryOperator.multiply.word]), (.returnValue, [1])] #[.int 100] with
        localCount := 1 }] }
  globals := #[.function ⟨0⟩, .function ⟨1⟩]

/-- A situation at the top level in which two globals have known values. -/
def Situation.ofGlobals (f g : Value) (known : Array Builtin → Prop) : Situation where
  holds S t F w := S.scope = root ∧ t = twoGlobals ∧ w.global? 0 = some f ∧ w.global? 1 = some g ∧
    known w.heap.builtins ∧ 2 ≤ F.machine.config.argLimit ∧ F.ctx.Allows w.controls
  free h := h.2.2.2.2.2.2
  takes h := Nat.lt_of_lt_of_le (by decide) h.2.2.2.2.2.1
  resumes h hr := ⟨h.1, h.2.1, h.2.2.1, h.2.2.2.1, h.2.2.2.2.1,
    hr.follows.config ▸ h.2.2.2.2.2.1, hr.follows.ctx ▸ h.2.2.2.2.2.2⟩
  binds _ h := h

variable {host : Host} {f g : Value} {known : Array Builtin → Prop}

theorem Situation.yields_f : (ofGlobals f g known).Yields host (ofGlobals f g known) 1
    (Plan.ofExpr false (.ident "f")) (.ok [f]) := by
  refine .global fun {S t F w} h => ?_
  obtain ⟨hS, rfl, hf, -⟩ := h
  exact ⟨⟨⟨"f", 0, false⟩, .global, 0, 0⟩, hS ▸ resolve_twoGlobals get?_twoGlobals_f, rfl, hf⟩

theorem Situation.yields_g : (ofGlobals f g known).Yields host (ofGlobals f g known) 1
    (Plan.ofExpr false (.ident "g")) (.ok [g]) := by
  refine .global fun {S t F w} h => ?_
  obtain ⟨hS, rfl, -, hg, -⟩ := h
  exact ⟨⟨⟨"g", 1, false⟩, .global, 0, 0⟩, hS ▸ resolve_twoGlobals get?_twoGlobals_g, rfl, hg⟩

theorem Context.allows_default (c : Controls) : ({} : Context).Allows c :=
  ⟨rfl, rfl⟩

/-- **A pipe that differs from the nested call** of its stages, although the literal and the two
names that it consists of have no side effects. The function behind the first name replaces the one
behind the second, and the nested call has looked at the second name by then. -/
theorem Fiber.pipe_differs :
    (Plan.ofExpr false (.pipe (.int 1 :: Expr.globalStages))).Laid (.atTop .piped)
      ⟨0, twoGlobals, 0⟩ ⟨14, twoGlobals, 0⟩ ∧
    (Plan.ofExpr false (Expr.nested (.int 1) Expr.globalStages)).Laid (.atTop .nested)
      ⟨0, twoGlobals, 0⟩ ⟨10, twoGlobals, 0⟩ ∧
    (∃ K : Situation, K.holds (.atTop .piped) twoGlobals (.starting .piped) .replacing ∧
      K.holds (.atTop .nested) twoGlobals (.starting .nested) .replacing ∧
      K.Yields default K 1 (Plan.ofExpr false (.int 1)) (.ok [.int 1]) ∧
      ∀ stage ∈ Expr.globalStages, ∃ callee,
        K.Yields default K 1 stage.calleePlan (.ok [callee]) ∧ stage.writtenArgs = []) ∧
    (∃ G u, Runs default (.starting .piped) .replacing G u ∧ G.At .piped 14 [.int 100]) ∧
    ∃ G u, Runs default (.starting .nested) .replacing G u ∧ G.At .nested 10 [.int 2] := by
  refine ⟨Plan.laid_piped, Plan.laid_nested, ?_, ⟨_, _, runs_after default 17 _ _, ?_⟩,
    ⟨_, _, runs_after default 15 _ _, ?_⟩⟩
  · refine ⟨.ofGlobals (.function ⟨0⟩) (.function ⟨1⟩) fun _ => True,
      ⟨rfl, rfl, rfl, rfl, trivial, by decide, Context.allows_default _⟩,
      ⟨rfl, rfl, rfl, rfl, trivial, by decide, Context.allows_default _⟩, .const _ rfl,
      fun stage hstage => ?_⟩
    rcases List.mem_pair.mp hstage with rfl | rfl
    · exact ⟨_, Situation.yields_f, rfl⟩
    · exact ⟨_, Situation.yields_g, rfl⟩
  · exact at_of_eq (by decide +kernel) (by decide +kernel) (by decide +kernel) (by decide +kernel)
  · exact at_of_eq (by decide +kernel) (by decide +kernel) (by decide +kernel) (by decide +kernel)

namespace Compiler

variable {c : Compiler} {fs : Array Function} {batches : List Batch}

/-- **Pipes mean calls.** A pipe to which a compilation comes is refused if it is in a later stage
of a pipe of the same function or has fewer than two stages, and is taken otherwise. Behind the
compilation no pipe is open. Every pipe of an accepted program evaluates its first stage, and then
for each other stage the callee and the written arguments, and calls the callee with the value so
far in front of them. Where the stages have no side effects and no call changes the callee of a
later stage, the nested call yields the same. -/
theorem Built.pipes_call (h : Built c fs batches) (program : Program) :
    (∀ (scopes : List Declarations) (bound : Bool) (ss : List Expr) (Q : Place) (t : Emission),
      (Plan.ofStatements program).Reaches ⟨false, scopes⟩ (c.starting fs)
        (Plan.ofExpr bound (.pipe ss)) Q t →
          (Q.piped = true ∨ ss.length < 2 → (c.compile fs program).1 =
            .error (if Q.piped then .nestedPipe else .pipeTooShort)) ∧
          (¬(Q.piped = true ∨ ss.length < 2) → ∃ first stages, ss = first :: stages ∧
            (Plan.ofExpr bound (.pipe ss)).emit t =
              (Plan.seq (Plan.ofExpr false first) (.stages (Plan.ofStages stages))).emit t)) ∧
    (c.compile fs program).2.1.main.inPipe = false ∧
    (∀ code, (c.compile fs program).1 = .ok code → ∀ (bound : Bool) (ss : List Expr),
      Plan.ofExpr bound (.pipe ss) ∈ (Plan.ofStatements program).parts →
        ∃ (S : Site) (c' : Code) (first : Expr) (spots : List Spot) (a m b : Point),
          (c' = code ∨ ∃ f ∈ (c.compile fs program).2.2, c' = f.code) ∧
          ss = first :: spots.map Spot.stage ∧ spots ≠ [] ∧ S.Pipes c' first spots a m b) ∧
    ∀ (host : Host) (room : Nat) (K K' : Situation) (first : Expr) (stages : List Expr) (v : Value)
      (o : Outcome) (bound : Bool), K.Yields host K room (Plan.ofExpr false first) (.ok [v]) →
        Situation.Serves host room K stages K v K' o →
          K.Yields host K' (room + 2) (Plan.ofExpr bound (.pipe (first :: stages))) (o.map ([·])) ∧
          K.Yields host K' (room + 1 + stages.length) (Plan.ofExpr false (first.nested stages))
            (o.map ([·])) := by
  obtain ⟨E, rfl, hsound⟩ := h.sound
  refine ⟨?_, ?_, ?_, ?_⟩
  · intro scopes bound ss Q t hreaches
    have hguarded := Plan.guarded_ofStatements false program
    refine ⟨fun hbad => ?_, fun hgood => ?_⟩
    · have hemit := hreaches.pipe_refused hguarded (fun h => Bool.noConfusion h) rfl hbad
      rw [Plan.emit_ofStatements] at hemit
      rw [hsound.compile_of_error hemit]
    · rw [not_or, Bool.not_eq_true] at hgood
      obtain _ | ⟨first, _ | ⟨second, rest⟩⟩ := ss
      · exact absurd (by decide) hgood.2
      · exact absurd (by decide : 1 < 2) hgood.2
      · exact ⟨first, second :: rest, rfl,
          hreaches.pipe_taken hguarded (fun h => Bool.noConfusion h) rfl hgood.1
            (List.cons_ne_nil _ _)⟩
  · obtain ⟨E', -, -, hleads⟩ := hsound.compile program
    exact hleads.sound.idle.inPipe
  · intro code ha bound ss hp
    obtain ⟨s, hs, rfl, hfs⟩ := hsound.compile_accepted ha
    obtain ⟨S, hfunctions, hcode, -, -, -, hlaid⟩ := hsound.laid hs
    obtain ⟨S', a, b, hpart, hlies⟩ := hlaid.part _ hp
    rw [hfs]
    rcases hlies with hlies | ⟨f, hf, hlies⟩
    · have htext : S'.code.SameText
          { s.body.code with globalCount := s.table.slotCount ScopeTable.root } := by
        rw [hlies, hcode]
        exact ⟨rfl, rfl, rfl⟩
      obtain ⟨first, spots, m, hss, hne, hpipes⟩ := hpart.pipes htext
      exact ⟨S', _, first, spots, a, m, b, .inl rfl, hss, hne, hpipes⟩
    · obtain ⟨first, spots, m, hss, hne, hpipes⟩ := hpart.pipes (c := f.code) (by
        rw [hlies]
        exact .refl f.code)
      exact ⟨S', f.code, first, spots, a, m, b, .inr ⟨f, hfunctions ▸ hf, rfl⟩, hss, hne, hpipes⟩
  · intro host room K K' first stages v o bound hfirst hserves
    exact ⟨hserves.pipe hfirst,
      hserves.nested first (Nat.le_refl _) (hfirst.mono (Nat.le_succ room))⟩

/-- A pipe that is refused, one that is taken, and one of two calls of a builtin that counts its
arguments. -/
theorem Built.pipe_yields :
    (Compiler.compile {} #[] [.expr (.pipe [.int 1])]).1 = .error .pipeTooShort ∧
    (∃ (code : Code) (S : Site) (c' : Code) (first : Expr) (spots : List Spot) (a m b : Point),
      (Compiler.compile {} #[] [.expr (.pipe [.int 1, .call (.nil) [.int 2]])]).1 = .ok code ∧
      [.int 1, .call (.nil) [.int 2]] = first :: spots.map Spot.stage ∧ spots ≠ [] ∧
      S.Pipes c' first spots a m b) ∧
    ∃ (host : Host) (w : World),
      (∃ G u, Runs host (.starting .piped) w G u ∧ G.At .piped 14 [.int 1]) ∧
      ∃ G u, Runs host (.starting .nested) w G u ∧ G.At .nested 10 [.int 1] := by
  let short : Program := [.expr (.pipe [.int 1])]
  let taken : Program := [.expr (.pipe [.int 1, .call (.nil) [.int 2]])]
  have fresh : Compiler.withBuiltins [] = .ok {} := rfl
  have built : Built {} #[] [] := .withBuiltins fresh
  refine ⟨?_, ?_, ?_⟩
  · obtain ⟨hrefused, -⟩ := built.pipes_call short
    exact (hrefused [] false _ _ _ (.first (.refl _ _ _))).1 (.inr (by decide))
  · have accepted : (Compiler.compile {} #[] taken).1.isOk = true := by decide +kernel
    cases ha : (Compiler.compile {} #[] taken).1 with
    | error e =>
      rw [ha] at accepted
      cases accepted
    | ok code =>
      obtain ⟨-, -, haccepted, -⟩ := built.pipes_call taken
      obtain ⟨S, c', first, spots, a, m, b, -, hrest⟩ :=
        haccepted code ha false [.int 1, .call (.nil) [.int 2]] (by
          simp [taken, Plan.ofStatements, Plan.ofStatement, Plan.parts, Plan.ofExpr])
      exact ⟨code, S, c', first, spots, a, m, b, rfl, hrest⟩
  · let host : Host := ⟨fun _ _ args => .finish (.ok (.int (Int64.ofNat args.length)))⟩
    let w : World :=
      { heap := { builtins := #[⟨"f", .host "f" []⟩] }, globals := #[.builtin ⟨0⟩, .builtin ⟨0⟩] }
    let K : Situation := .ofGlobals (.builtin ⟨0⟩) (.builtin ⟨0⟩) fun builtins =>
      builtins.getD 0 default = ⟨"f", .host "f" []⟩
    have answers (v : Value) : K.Answers host K 1 (.builtin ⟨0⟩) [v] (.ok (.int 1)) :=
      .of_finish (fun h => Nat.le_of_succ_le h.2.2.2.2.2.1) (fun {S t F u} h => by
        have hbuiltin : u.heap.builtin ⟨0⟩ = ⟨"f", .host "f" []⟩ := h.2.2.2.2.1
        rw [hbuiltin]
        rfl) rfl
    have serves : Situation.Serves host 1 K Expr.globalStages K (.int 1) K (.ok (.int 1)) :=
      .stage Situation.yields_f Situation.yields_f (Situation.Yields.skip.mono (by decide)) rfl
        (answers _) <| .stage Situation.yields_g Situation.yields_g
          (Situation.Yields.skip.mono (by decide)) rfl (answers _) (.done K _)
    obtain ⟨-, -, -, hagrees⟩ := built.pipes_call short
    obtain ⟨hpipe, hnested⟩ := hagrees host 1 K K (.int 1) Expr.globalStages (.int 1) (.ok (.int 1))
      false (.const _ rfl) serves
    have holds (c : Code) : K.holds (.atTop c) twoGlobals (.starting c) w :=
      ⟨rfl, rfl, rfl, rfl, rfl, (by decide : 2 ≤ 255), Context.allows_default _⟩
    obtain ⟨G, u, hruns, hat, -⟩ :=
      hpipe Plan.laid_piped (.refl _) (at_starting _) (holds _) (by decide)
    obtain ⟨G', u', hruns', hat', -⟩ :=
      hnested Plan.laid_nested (.refl _) (at_starting _) (holds _) (by decide)
    exact ⟨host, w, ⟨G, u, hruns, hat⟩, G', u', hruns', hat'⟩

end Compiler

end ScriptEngine
