import Mathlib.Logic.Relation
import ScriptEngine.Machine.System
import ScriptEngine.Proofs.Machine.Fibers
import ScriptEngine.Proofs.Machine.Steady

/-!
# Fibers side by side

The fibers of a system take turns of many steps. Nothing that is said here depends on how long a
turn is: a moment leads to another one by a single step of any fiber, and meanwhile the host may
cancel and time may go by.

## Main definitions

* `ScriptEngine.Party`: a fiber, and for whom it works;
* `ScriptEngine.Moment`: a fiber among others, in a world;
* `ScriptEngine.Moment.Step`: what can happen next;
* `ScriptEngine.System.begin`, `ScriptEngine.Moment.Ends`: where the work for the host begins and
  ends;
* `ScriptEngine.Fiber.Sound`: a fiber that is at work or at its end;
* `ScriptEngine.Moment.Sound`: sound fibers in a sound world.

## Main results

* `ScriptEngine.Moment.Sound.step`: whatever happens, it leaves all of them sound;
* `ScriptEngine.System.finish?_steps`: the turns of a system are made of such steps.
-/

namespace ScriptEngine

/-- **A fiber, and for whom it works**: for a thread handle, or for the host itself. -/
structure Party where
  thread : Option (Ref .thread) := none
  fiber : Fiber

/-- The party of a worker. -/
def Worker.party (worker : Worker) : Party :=
  ⟨some worker.thread, worker.fiber⟩

/-- The party that is new after a step, if there is one. -/
def Event.started : Event → List Party
  | .spawned worker => [worker.party]
  | _ => []

/-- **A moment**: the party that is looked at, the others, and the world. -/
structure Moment where
  party : Party
  others : List Party
  world : World

namespace Moment

/-- The party that is looked at after a step of its fiber. -/
def own (host : Host) (m : Moment) : Moment :=
  let (e, f, world) := m.party.fiber.step host m.world
  ⟨⟨m.party.thread, f⟩, e.started ++ m.others, world⟩

/-- **What can happen next.** -/
inductive Step (host : Host) : Moment → Moment → Prop
  | own (m : Moment) : Step host m (m.own host)
  /-- A step of another fiber. -/
  | other {p q : Party} {others : List Party} {world world' : World} {e : Event} {f : Fiber}
    (h : q.fiber.step host world = (e, f, world')) :
    Step host ⟨p, q :: others, world⟩ ⟨p, ⟨q.thread, f⟩ :: (e.started ++ others), world'⟩
  /-- A worker that is done reports and is gone. -/
  | report {p : Party} {thread : Ref .thread} {f : Fiber} {others : List Party} {world : World}
    {o : Outcome} (h : f.outcome? = some o) :
    Step host ⟨p, ⟨some thread, f⟩ :: others, world⟩ ⟨p, others, Worker.report thread o world⟩
  | order {p : Party} {others others' : List Party} {world : World} (h : others.Perm others') :
    Step host ⟨p, others, world⟩ ⟨p, others', world⟩
  /-- The host cancels, or time goes by. -/
  | controls {p : Party} {others : List Party} {world : World} (controls : Controls) :
    Step host ⟨p, others, world⟩ ⟨p, others, { world with controls }⟩

/-- Moments that come about, step by step. -/
abbrev Steps (host : Host) : Moment → Moment → Prop :=
  Relation.ReflTransGen (Step host)

/-- **All that can happen**, where any party can be looked at. -/
inductive Goes (host : Host) (m : Moment) : Moment → Prop
  | refl : Goes host m m
  | step {m₁ m₂ : Moment} (h : Goes host m m₁) (hs : m₁.Step host m₂) : Goes host m m₂
  | turn {p q : Party} {others others' : List Party} {world : World}
    (h : Goes host m ⟨p, others, world⟩) (hp : (p :: others).Perm (q :: others')) :
    Goes host m ⟨q, others', world⟩

end Moment

/-! ### Sound fibers -/

section

variable {T : Typing} {F : Floor} {w w' : Stage} {f f' : Fiber} {host : Host}

/-- A fiber that has come to the floor with a result, and handed it over to the host. -/
def Fiber.Ended (T : Typing) (F : Floor) (w : Stage) (f : Fiber) : Prop :=
  F.pending = [] ∧ ∃ (g : Fiber) (o : Outcome), g.Working T F w ∧ g.Returns [] o ∧ f = g.deliver o

/-- **A sound fiber**, at work above a floor or at its end. -/
def Fiber.Sound (T : Typing) (F : Floor) (w : Stage) (f : Fiber) : Prop :=
  f.Working T F w ∨ f.Ended T F w

/-- A worker that was started is at work. -/
theorem Event.sound_started {e : Event}
    (h : ∀ worker, e = .spawned worker → worker.fiber.Working T {} w) :
    ∀ p ∈ e.started, p.fiber.Sound T {} w := by
  intro p hp
  cases e with
  | spawned worker =>
    obtain rfl := List.mem_singleton.mp hp
    exact .inl (h worker rfl)
  | progress => cases hp
  | resting => cases hp

namespace Fiber

theorem Sound.mono (h : f.Sound T F w) (hw : w.Le w') : f.Sound T F w' := by
  rcases h with h | ⟨hF, g, o, h, hr, hf⟩
  · exact .inl (h.mono hw)
  · exact .inr ⟨hF, g, o, h.mono hw, hr, hf⟩

/-- What the host is handed obeys the discipline. -/
theorem Returns.outcome {pending : List Pending} {o : Outcome} (hr : f.Returns pending o)
    (h : f.Working T F w) : (Typing.discipline T).outcome w o := by
  have hc := h.control
  rw [hr.1] at hc
  cases o with
  | ok v => exact hc.1
  | error e => exact hc.1

/-- A fiber that handed its result over has nothing left to do. -/
theorem Returns.deliver {o : Outcome} (hr : f.Returns [] o) :
    (f.deliver o).control = .finished o ∧ (f.deliver o).pending = [] := by
  obtain ⟨m, ctx, control, pending, goal⟩ := f
  obtain ⟨-, rfl⟩ : _ ∧ pending = [] := hr
  cases goal <;> exact ⟨rfl, rfl⟩

theorem outcome?_eq_some {o : Outcome} : f.outcome? = some o ↔ f.control = .finished o := by
  unfold outcome?
  split
  · rename_i hc
    rw [hc]
    constructor
    · rintro ⟨⟩
      rfl
    · rintro ⟨⟩
      rfl
  · rename_i hc
    constructor
    · nofun
    · exact fun h => absurd h (hc o)

/-- A fiber with an outcome has come to its end. -/
theorem Sound.ended {o : Outcome} (h : f.Sound T F w) (ho : f.outcome? = some o) :
    F.pending = [] ∧ ∃ g : Fiber, g.Working T F w ∧ g.Returns [] o ∧ f = g.deliver o := by
  rcases h with h | ⟨hF, g, o', h, hr, rfl⟩
  · have := h.control
    rw [outcome?_eq_some.mp ho] at this
    exact this.elim
  · have := hr.deliver.1
    rw [outcome?_eq_some.mp ho] at this
    cases this
    exact ⟨hF, g, h, hr, rfl⟩

/-- **A step of a sound fiber** leaves it and the world sound, and a worker that it starts is. -/
theorem Sound.step (hh : host.Honest) (h : f.Sound T F w) (hF : F.pending = []) {world : World}
    (hw : world.Sound T w) :
    ∃ w', w.Grows w' ∧ (f.step host world).2.2.Sound T w' ∧ (f.step host world).2.1.Sound T F w' ∧
      ∀ p ∈ (f.step host world).1.started, p.fiber.Sound T {} w' := by
  have quiet {e : Event} (he : e.started = []) : ∀ p ∈ e.started, p.fiber.Sound T {} w :=
    fun p hp => absurd (he ▸ hp) List.not_mem_nil
  rcases h with h | h
  · by_cases hn : ∃ o, f.Returns [] o
    · obtain ⟨o, hr⟩ := hn
      have hs : f.step host world = (.progress, f.deliver o, world) := by
        obtain ⟨m, ctx, control, pending, goal⟩ := f
        obtain ⟨hc, -⟩ := hr
        cases hc
        rfl
      rw [hs]
      exact ⟨w, .refl w, hw, .inr ⟨hF, f, o, h, hr, rfl⟩, quiet rfl⟩
    · obtain ⟨w', hg, hw', hf, hs⟩ := h.step hh hw fun o ho => hn ⟨o, hF ▸ ho⟩
      exact ⟨w', hg, hw', .inl hf, Event.sound_started hs⟩
  · obtain ⟨-, g, o, hg, hr, rfl⟩ := h
    have hs : (g.deliver o).step host world = (.resting, g.deliver o, world) := by
      obtain ⟨hc, -⟩ := hr.deliver
      generalize g.deliver o = f at hc
      obtain ⟨m, ctx, control, pending, goal⟩ := f
      cases hc
      rfl
    rw [hs]
    exact ⟨w, .refl w, hw, .inr ⟨hF, g, o, hg, hr, rfl⟩, quiet rfl⟩

end Fiber

/-- The report of a worker leaves a world sound. -/
theorem World.Sound.report {world : World} (h : world.Sound T w) {o : Outcome}
    (ho : (Typing.discipline T).outcome w o) (thread : Ref .thread) :
    (Worker.report thread o world).Sound T w := by
  refine ⟨h.heap.setThread thread ⟨fun o' ho' => ?_, (h.heap.thread thread).2⟩, h.globals⟩
  cases ho'
  exact ho

end

/-! ### Sound moments -/

/-- **Sound fibers in a sound world.** The floor is that of the fiber that is looked at. -/
structure Moment.Sound (T : Typing) (F : Floor) (w : Stage) (m : Moment) : Prop where
  world : m.world.Sound T w
  fiber : m.party.fiber.Sound T F w
  others : ∀ p ∈ m.others, ∃ F' : Floor, F'.pending = [] ∧ p.fiber.Sound T F' w

namespace Moment

variable {T : Typing} {F : Floor} {w : Stage} {host : Host} {m m' : Moment}

namespace Sound

theorem started {w' : Stage} {e : Event} {others : List Party}
    (h : ∀ p ∈ others, ∃ F' : Floor, F'.pending = [] ∧ p.fiber.Sound T F' w) (hw : w.Le w')
    (hs : ∀ p ∈ e.started, p.fiber.Sound T {} w') :
    ∀ p ∈ e.started ++ others, ∃ F' : Floor, F'.pending = [] ∧ p.fiber.Sound T F' w' := by
  intro p hp
  rcases List.mem_append.mp hp with hp | hp
  · exact ⟨{}, rfl, hs p hp⟩
  · obtain ⟨F', hF', hp⟩ := h p hp
    exact ⟨F', hF', hp.mono hw⟩

/-- Whatever others do leaves all fibers sound, whatever the floor is of the one that is looked
at. -/
theorem others_step (hh : host.Honest) (h : m.Sound T F w) (hs : m.Step host m')
    (ho : m' ≠ m.own host) : ∃ w', w.Grows w' ∧ m'.Sound T F w' ∧ m'.party = m.party := by
  cases hs with
  | own => exact absurd rfl ho
  | @other p q others world world' e f hq =>
    obtain ⟨F', hF', hqs⟩ := h.others q (List.mem_cons_self ..)
    obtain ⟨w', hg, hw', hf, hst⟩ := hqs.step hh hF' h.world
    rw [hq] at hw' hf hst
    refine ⟨w', hg, ⟨hw', h.fiber.mono hg.le, fun p' hp' => ?_⟩, rfl⟩
    rcases List.mem_cons.mp hp' with rfl | hp'
    · exact ⟨F', hF', hf⟩
    · exact started (fun p hp => h.others p (List.mem_cons_of_mem _ hp)) hg.le hst p' hp'
  | @report p thread f others world o hf =>
    obtain ⟨F', -, hs⟩ := h.others _ (List.mem_cons_self ..)
    obtain ⟨-, g, hg, hr, -⟩ := hs.ended hf
    exact ⟨w, .refl w, ⟨h.world.report (hr.outcome hg) thread, h.fiber,
      fun p hp => h.others p (List.mem_cons_of_mem _ hp)⟩, rfl⟩
  | order hp =>
    exact ⟨w, .refl w, ⟨h.world, h.fiber, fun p h' => h.others p (hp.mem_iff.mpr h')⟩, rfl⟩
  | controls c => exact ⟨w, .refl w, ⟨⟨h.world.heap, h.world.globals⟩, h.fiber, h.others⟩, rfl⟩

/-- A step of the fiber that is looked at. -/
theorem own_step (hh : host.Honest) (h : m.Sound T F w) (hF : F.pending = []) :
    ∃ w', w.Grows w' ∧ (m.own host).Sound T F w' := by
  obtain ⟨w', hg, hw', hf, hs⟩ := h.fiber.step hh hF h.world
  exact ⟨w', hg, ⟨hw', hf, started h.others hg.le hs⟩⟩

/-- **Whatever happens**, it leaves all fibers sound. -/
theorem step (hh : host.Honest) (h : m.Sound T F w) (hF : F.pending = []) (hs : m.Step host m') :
    ∃ w', w.Grows w' ∧ m'.Sound T F w' := by
  by_cases ho : m' = m.own host
  · exact ho ▸ h.own_step hh hF
  · obtain ⟨w', hg, hm, -⟩ := h.others_step hh hs ho
    exact ⟨w', hg, hm⟩

theorem steps (hh : host.Honest) (h : m.Sound T F w) (hF : F.pending = []) (hs : m.Steps host m') :
    ∃ w', w.Grows w' ∧ m'.Sound T F w' := by
  induction hs with
  | refl => exact ⟨w, .refl w, h⟩
  | tail _ hs ih =>
    obtain ⟨w₁, hg, h₁⟩ := ih
    obtain ⟨w₂, hg', h₂⟩ := h₁.step hh hF hs
    exact ⟨w₂, hg.trans hg', h₂⟩

/-- **All that can happen** leaves all fibers sound, whichever is looked at. -/
theorem goes (hh : host.Honest) (h : m.Sound T F w) (hF : F.pending = []) (hs : m.Goes host m') :
    ∃ w' F', w.Grows w' ∧ F'.pending = [] ∧ m'.Sound T F' w' := by
  induction hs with
  | refl => exact ⟨w, F, .refl w, hF, h⟩
  | step _ hs ih =>
    obtain ⟨w₁, F₁, hg, hF₁, h₁⟩ := ih
    obtain ⟨w₂, hg', h₂⟩ := h₁.step hh hF₁ hs
    exact ⟨w₂, F₁, hg.trans hg', hF₁, h₂⟩
  | @turn p q others others' world _ hp ih =>
    obtain ⟨w₁, F₁, hg, hF₁, h₁⟩ := ih
    have all : ∀ p' ∈ q :: others', ∃ F' : Floor, F'.pending = [] ∧ p'.fiber.Sound T F' w₁ := by
      intro p' hp'
      rcases List.mem_cons.mp (hp.mem_iff.mpr hp') with rfl | hp'
      · exact ⟨F₁, hF₁, h₁.fiber⟩
      · exact h₁.others p' hp'
    obtain ⟨F₂, hF₂, hq⟩ := all q (List.mem_cons_self ..)
    exact ⟨w₁, F₂, hg, hF₂, h₁.world, hq, fun p' hp' => all p' (List.mem_cons_of_mem _ hp')⟩

end Sound

end Moment

/-! ### Turns -/

open Relation in
/-- The steps of a turn, from the point of view of the fiber whose turn it is. -/
theorem Fiber.advance_steps (host : Host) (thread : Option (Ref .thread)) :
    ∀ (n : Nat) (f : Fiber) (world : World) (started : List Worker) (others : List Party),
      Moment.Steps host ⟨⟨thread, f⟩, started.map Worker.party ++ others, world⟩
        ⟨⟨thread, (f.advance host n world started).1⟩,
          (f.advance host n world started).2.2.map Worker.party ++ others,
          (f.advance host n world started).2.1⟩
  | 0, _, _, _, _ => .refl
  | n + 1, f, world, started, others => by
    have own : Moment.Step host _ _ :=
      .own ⟨⟨thread, f⟩, started.map Worker.party ++ others, world⟩
    unfold Moment.own at own
    unfold Fiber.advance
    generalize hs : f.step host world = r at own ⊢
    obtain ⟨e, f', world'⟩ := r
    cases e with
    | progress => exact .head own (advance_steps host thread n f' world' started others)
    | resting => exact .single own
    | spawned worker =>
      exact .head own (advance_steps host thread n f' world' (worker :: started) others)

/-- The steps of a turn of another fiber than the one that is looked at. -/
theorem Fiber.advance_steps_other (host : Host) (p : Party) (thread : Option (Ref .thread)) :
    ∀ (n : Nat) (f : Fiber) (world : World) (started : List Worker) (others : List Party),
      Moment.Steps host ⟨p, ⟨thread, f⟩ :: (started.map Worker.party ++ others), world⟩
        ⟨p, ⟨thread, (f.advance host n world started).1⟩ ::
            ((f.advance host n world started).2.2.map Worker.party ++ others),
          (f.advance host n world started).2.1⟩
  | 0, _, _, _, _ => .refl
  | n + 1, f, world, started, others => by
    unfold Fiber.advance
    cases hs : f.step host world with
    | mk e r =>
      obtain ⟨f', world'⟩ := r
      have other : Moment.Step host ⟨p, ⟨thread, f⟩ :: (started.map Worker.party ++ others), world⟩
          _ := .other hs
      cases e with
      | progress => exact .head other (advance_steps_other host p thread n f' world' started others)
      | resting => exact .single other
      | spawned worker =>
        exact .head other (advance_steps_other host p thread n f' world' (worker :: started) others)

/-- The turns of all workers. -/
theorem Worker.advanceAll_steps (host : Host) (p : Party) :
    ∀ (workers : List Worker) (world : World) (kept : List Worker),
      Moment.Steps host ⟨p, workers.map Worker.party ++ kept.map Worker.party, world⟩
        ⟨p, (Worker.advanceAll host workers world kept).1.map Worker.party,
          (Worker.advanceAll host workers world kept).2⟩
  | [], world, kept => by
    refine .single (.order ?_)
    exact (List.reverse_perm kept).symm.map Worker.party
  | ⟨thread, f⟩ :: rest, world, kept => by
    have turn := f.advance_steps_other host p (some thread) turnLength world []
      (rest.map Worker.party ++ kept.map Worker.party)
    unfold Worker.advanceAll
    generalize f.advance host turnLength world [] = r at turn ⊢
    obtain ⟨f', world', started⟩ := r
    refine .trans turn ?_
    dsimp only
    cases ho : f'.outcome? with
    | some o =>
      refine .head (.report ho) (.head (.order ?_)
        (advanceAll_steps host p rest (report thread o world') (started ++ kept)))
      rw [List.map_append, ← List.append_assoc, ← List.append_assoc]
      exact List.perm_append_comm.append_right _
    | none =>
      refine .head (.order ?_)
        (advanceAll_steps host p rest world' (started ++ ⟨thread, f'⟩ :: kept))
      rw [List.map_append, List.map_cons, ← List.append_assoc, ← List.append_assoc]
      exact (List.perm_append_comm.append_right _).cons _ |>.trans List.perm_middle.symm

/-- **The turns of a system are made of steps.** -/
theorem System.finish?_steps {host : Host} {o : Outcome} {s : System}
    {thread : Option (Ref .thread)} :
    ∀ {turns : Nat} {f : Fiber} {world : World} {workers : List Worker},
      System.finish? host turns f world workers = some (o, s) →
      ∃ f', Moment.Steps host ⟨⟨thread, f⟩, workers.map Worker.party, world⟩
          ⟨⟨thread, f'⟩, s.workers.map Worker.party, s.world⟩ ∧
        f'.outcome? = some o ∧ s.machine = f'.machine
  | 0, _, _, _, h => by cases h
  | turns + 1, f, world, workers, h => by
    have turn := f.advance_steps host thread turnLength world [] (workers.map Worker.party)
    unfold System.finish? at h
    generalize f.advance host turnLength world [] = r at turn h
    obtain ⟨f', world', started⟩ := r
    have order : Moment.Steps host ⟨⟨thread, f⟩, workers.map Worker.party, world⟩
        ⟨⟨thread, f'⟩, (workers ++ started.reverse).map Worker.party, world'⟩ := by
      refine .tail turn (.order ?_)
      rw [List.map_append]
      exact ((List.reverse_perm started).symm.map _).append_right _ |>.trans List.perm_append_comm
    dsimp only at h
    split at h
    · rename_i o' ho
      cases h
      exact ⟨f', order, ho, rfl⟩
    · have all := Worker.advanceAll_steps host ⟨thread, f'⟩ (workers ++ started.reverse) world' []
      generalize Worker.advanceAll host (workers ++ started.reverse) world' [] = r at all h
      obtain ⟨workers', world''⟩ := r
      obtain ⟨f'', hs, ho, hm⟩ := @finish?_steps _ _ _ thread _ _ _ _ h
      rw [List.map_nil, List.append_nil] at all
      exact ⟨f'', order.trans (all.trans hs), ho, hm⟩

/-! ### Work for the host -/

/-- The moment at which a fiber begins its work for the host. -/
def System.begin (s : System) (f : Fiber) (world : World) : Moment :=
  ⟨⟨none, f⟩, s.workers.map Worker.party, world⟩

/-- **The end of the work for the host**, at a moment from which the system is left at rest. -/
structure Moment.Ends (m : Moment) (o : Outcome) (s : System) : Prop where
  outcome : m.party.fiber.outcome? = some o
  machine : s.machine = m.party.fiber.machine
  world : s.world = m.world
  workers : s.workers.map Worker.party = m.others

/-- The turns up to the end of a fiber lead to a system at rest. -/
theorem System.ends_of_finish? {host : Host} {s s' : System} {o : Outcome} {turns : Nat}
    {f : Fiber} {world : World}
    (h : System.finish? host turns f world s.workers = some (o, s')) :
    ∃ m, (s.begin f world).Steps host m ∧ m.Ends o s' := by
  obtain ⟨f', hs, ho, hm⟩ := @System.finish?_steps _ _ _ none _ _ _ _ h
  exact ⟨_, hs, ho, hm, rfl, rfl⟩

/-- A fiber that does nothing, while workers do. -/
def Fiber.idle (m : Machine) (ctx : Context) : Fiber where
  machine := m
  ctx := ctx
  control := .finished (.ok .nil)
  goal := .program 0

end ScriptEngine
