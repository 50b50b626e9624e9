import ScriptEngine.Resource.Context

/-!
# Derived contexts

Contexts are derived from each other, step by step, and every context remembers nothing of its
derivation but the flags of its ancestors, the earliest deadline and the last limits. A derivation
is written with its last link first, so the derivations of the ancestors of a context are the
suffixes of its own.

## Main definitions

* `ScriptEngine.Link`: how a context is derived from another one;
* `ScriptEngine.Derivations`: contexts with their derivations, and the handles that were used so
  far.

## Main results

* `ScriptEngine.Derivations.isCancelled_iff`: a context is cancelled by the handles on its
  derivation, and by no others;
* `ScriptEngine.Derivations.handle_unique`: a handle belongs to a single link;
* `ScriptEngine.Derivations.deadline_noLater`: deadlines only become earlier.
-/

namespace ScriptEngine

/-- **How a context is derived from another one**: with a flag of its own, which its handle sets,
with a deadline, under other limits, or as a copy. -/
inductive Link where
  | cancel (handle : FlagRef)
  | deadline (time : Nat)
  | limits (l : LimitsRef)
  | clone
deriving DecidableEq

namespace Link

/-- The handle that a link gives out. -/
def handle? : Link → Option FlagRef
  | cancel handle => some handle
  | _ => none

/-- The earliest deadline on a derivation. -/
def earliest : List Link → Option Nat
  | [] => none
  | deadline time :: path => some (match earliest path with
    | some current => min current time
    | none => time)
  | _ :: path => earliest path

end Link

/-- **Contexts with their derivations**, all that were made in some order, and the handles that were
used so far. Meanwhile time goes by and limits are charged. -/
inductive Derivations : Controls → List (List Link × Context) → List FlagRef → Prop where
  | start (c : Controls) : Derivations c [] []
  | background {c : Controls} {made : List (List Link × Context)} {used : List FlagRef}
    (h : Derivations c made used) : Derivations c (([], .background) :: made) used
  | withCancel {c : Controls} {made : List (List Link × Context)} {used : List FlagRef}
    (h : Derivations c made used) {path : List Link} {ctx : Context} (hm : (path, ctx) ∈ made) :
    Derivations (ctx.withCancel c).2.2
      ((.cancel (ctx.withCancel c).2.1 :: path, (ctx.withCancel c).1) :: made) used
  | withDeadline {c : Controls} {made : List (List Link × Context)} {used : List FlagRef}
    (h : Derivations c made used) {path : List Link} {ctx : Context} (hm : (path, ctx) ∈ made)
    (time : Nat) : Derivations c ((.deadline time :: path, ctx.withDeadline time) :: made) used
  | withLimits {c : Controls} {made : List (List Link × Context)} {used : List FlagRef}
    (h : Derivations c made used) {path : List Link} {ctx : Context} (hm : (path, ctx) ∈ made)
    (l : LimitsRef) : Derivations c ((.limits l :: path, ctx.withLimits l) :: made) used
  | clone {c : Controls} {made : List (List Link × Context)} {used : List FlagRef}
    (h : Derivations c made used) {path : List Link} {ctx : Context} (hm : (path, ctx) ∈ made) :
    Derivations c ((.clone :: path, ctx) :: made) used
  /-- A handle is used by somebody who got it. -/
  | cancel {c : Controls} {made : List (List Link × Context)} {used : List FlagRef}
    (h : Derivations c made used) {handle : FlagRef} {path : List Link} {ctx : Context}
    (hm : (.cancel handle :: path, ctx) ∈ made) : Derivations (c.cancel handle) made
      (handle :: used)
  | pass {c c' : Controls} {made : List (List Link × Context)} {used : List FlagRef}
    (h : Derivations c made used) (hc : c'.flags = c.flags) : Derivations c' made used

namespace Controls

variable (c : Controls)

theorem flag_newFlag (f : FlagRef) : (c.newFlag).2.flag f = c.flag f := by
  unfold flag newFlag
  rw [Array.getD_eq_getD_getElem?, Array.getD_eq_getD_getElem?, Array.getElem?_push]
  split
  · rename_i h
    rw [h, Array.getElem?_eq_none (Nat.le_refl _)]
    rfl
  · rfl

theorem flag_cancel {f : FlagRef} (hf : f.index < c.flags.size) (g : FlagRef) :
    (c.cancel f).flag g = (c.flag g || decide (g = f)) := by
  unfold flag cancel
  rw [Array.getD_eq_getD_getElem?, Array.getD_eq_getD_getElem?]
  by_cases h : g = f
  · subst h
    rw [Array.getElem?_setIfInBounds_self_of_lt hf, decide_eq_true rfl, Bool.or_true]
    rfl
  · have hne : f.index ≠ g.index := fun he => h (by cases f; cases g; exact congrArg _ he.symm)
    rw [Array.getElem?_setIfInBounds_ne hne, decide_eq_false h, Bool.or_false]

end Controls

/-- A deadline that is no later than another one. -/
def NoLater (deadline other : Option Nat) : Prop :=
  ∀ t, other = some t → ∃ s, deadline = some s ∧ s ≤ t

theorem NoLater.refl (d : Option Nat) : NoLater d d :=
  fun t ht => ⟨t, ht, Nat.le_refl t⟩

theorem NoLater.trans {a b c : Option Nat} (h : NoLater a b) (h' : NoLater b c) : NoLater a c := by
  intro t ht
  obtain ⟨s, hs, hle⟩ := h' t ht
  obtain ⟨r, hr, hle'⟩ := h s hs
  exact ⟨r, hr, Nat.le_trans hle' hle⟩

/-- One more link does not make a deadline later. -/
theorem Link.earliest_cons (l : Link) (path : List Link) :
    NoLater (earliest (l :: path)) (earliest path) := by
  cases l with
  | deadline time =>
    intro t ht
    refine ⟨min t time, ?_, Nat.min_le_left ..⟩
    unfold earliest
    rw [ht]
  | _ => exact .refl _

/-- Along a derivation the deadline does not become later. -/
theorem Link.earliest_suffix {path : List Link} :
    ∀ {path' : List Link}, path <:+ path' → NoLater (earliest path') (earliest path)
  | [], h => by
    obtain rfl := List.suffix_nil.mp h
    exact .refl _
  | l :: path', h => by
    rcases List.suffix_cons_iff.mp h with rfl | h
    · exact .refl _
    · exact (earliest_cons l path').trans (earliest_suffix h)

/-- A suffix of a derivation that has one more link which gives out no handle. -/
theorem Link.suffix_of_cons {l : Link} (hl : l.handle? = none) {handle : FlagRef}
    {path path' : List Link} (h : .cancel handle :: path <:+ l :: path') :
    .cancel handle :: path <:+ path' := by
  rcases List.suffix_cons_iff.mp h with h | h
  · obtain ⟨rfl, -⟩ := List.cons.inj h
    cases hl
  · exact h

/-- **What a context remembers of its derivation.** -/
structure Derivations.Kept (c : Controls) (made : List (List Link × Context))
    (used : List FlagRef) :
    Prop where
  flags : ∀ path ctx, (path, ctx) ∈ made → ctx.flags = path.filterMap Link.handle?
  deadline : ∀ path ctx, (path, ctx) ∈ made → ctx.deadline = Link.earliest path
  given : ∀ handle ∈ used, handle.index < c.flags.size
  known : ∀ path ctx, (path, ctx) ∈ made → ∀ handle, .cancel handle ∈ path →
    handle.index < c.flags.size ∧ (c.flag handle = true ↔ handle ∈ used)
  unique : ∀ path ctx path' ctx', (path, ctx) ∈ made → (path', ctx') ∈ made →
    ∀ handle p p', .cancel handle :: p <:+ path → .cancel handle :: p' <:+ path' → p = p'

namespace Derivations

variable {c : Controls} {made : List (List Link × Context)} {used : List FlagRef}

/-- A link that gives out no handle. -/
theorem Kept.link (h : Kept c made used) {path : List Link} {ctx ctx' : Context}
    (hm : (path, ctx) ∈ made) {l : Link} (hl : l.handle? = none) (hf : ctx'.flags = ctx.flags)
    (hd : ctx'.deadline = Link.earliest (l :: path)) :
    Kept c ((l :: path, ctx') :: made) used := by
  -- whatever handles lie on the new derivation lie on the old one
  have old {q : List Link} {x : Context} (hq : (q, x) ∈ (l :: path, ctx') :: made) :
      ∃ q' x', (q', x') ∈ made ∧ ∀ handle p, .cancel handle :: p <:+ q →
      .cancel handle :: p <:+ q' := by
    rcases List.mem_cons.mp hq with hq | hq
    · obtain ⟨rfl, -⟩ := Prod.mk.inj hq
      exact ⟨path, ctx, hm, fun _ _ hs => Link.suffix_of_cons hl hs⟩
    · exact ⟨q, x, hq, fun _ _ hs => hs⟩
  refine ⟨fun q x hq => ?_, fun q x hq => ?_, h.given, fun q x hq handle hh => ?_,
    fun q x q' x' hq hq' handle p p' hp hp' => ?_⟩
  · rcases List.mem_cons.mp hq with hq | hq
    · obtain ⟨rfl, rfl⟩ := Prod.mk.inj hq
      rw [hf, List.filterMap_cons_none hl]
      exact h.flags path ctx hm
    · exact h.flags q x hq
  · rcases List.mem_cons.mp hq with hq | hq
    · obtain ⟨rfl, rfl⟩ := Prod.mk.inj hq
      exact hd
    · exact h.deadline q x hq
  · rcases List.mem_cons.mp hq with hq | hq
    · obtain ⟨rfl, -⟩ := Prod.mk.inj hq
      rcases List.mem_cons.mp hh with rfl | hh
      · cases hl
      · exact h.known path ctx hm handle hh
    · exact h.known q x hq handle hh
  · obtain ⟨r, y, hr, hs⟩ := old hq
    obtain ⟨r', y', hr', hs'⟩ := old hq'
    exact h.unique r y r' y' hr hr' handle p p' (hs _ _ hp) (hs' _ _ hp')

/-- A context with a flag of its own. -/
theorem Kept.withCancel (h : Kept c made used) {path : List Link} {ctx : Context}
    (hm : (path, ctx) ∈ made) :
    Kept (ctx.withCancel c).2.2
      ((.cancel (ctx.withCancel c).2.1 :: path, (ctx.withCancel c).1) :: made) used := by
  let new : FlagRef := (ctx.withCancel c).2.1
  have hsize : (ctx.withCancel c).2.2.flags.size = c.flags.size + 1 := Array.size_push ..
  have hflag (f : FlagRef) : (ctx.withCancel c).2.2.flag f = c.flag f := c.flag_newFlag f
  have hnew : new.index = c.flags.size := rfl
  -- nobody had the new handle before
  have fresh {q : List Link} {x : Context} (hq : (q, x) ∈ made) : .cancel new ∉ q := fun hn =>
    Nat.lt_irrefl _ (hnew ▸ (h.known q x hq new hn).1)
  have unused : new ∉ used := fun hu => Nat.lt_irrefl _ (hnew ▸ h.given new hu)
  have unset : c.flag new = false := by
    unfold Controls.flag
    rw [hnew, Array.getD_eq_getD_getElem?, Array.getElem?_eq_none (Nat.le_refl _)]
    rfl
  have newest {q : List Link} {x : Context}
      (hq : (q, x) ∈ (.cancel new :: path, (ctx.withCancel c).1) :: made)
      {p : List Link} (hp : .cancel new :: p <:+ q) : p = path := by
    rcases List.mem_cons.mp hq with hq | hq
    · obtain ⟨rfl, -⟩ := Prod.mk.inj hq
      rcases List.suffix_cons_iff.mp hp with hp | hp
      · exact (List.cons.inj hp).2
      · exact absurd (hp.subset List.mem_cons_self) (fresh hm)
    · exact absurd (hp.subset List.mem_cons_self) (fresh hq)
  have old {q : List Link} {x : Context}
      (hq : (q, x) ∈ (.cancel new :: path, (ctx.withCancel c).1) :: made)
      {handle : FlagRef} (hh : handle ≠ new) {p : List Link} (hp : .cancel handle :: p <:+ q) :
      ∃ q' x', (q', x') ∈ made ∧ .cancel handle :: p <:+ q' := by
    rcases List.mem_cons.mp hq with hq | hq
    · obtain ⟨rfl, -⟩ := Prod.mk.inj hq
      rcases List.suffix_cons_iff.mp hp with hp | hp
      · exact absurd (Link.cancel.inj (List.cons.inj hp).1) hh
      · exact ⟨path, ctx, hm, hp⟩
    · exact ⟨q, x, hq, hp⟩
  refine ⟨fun q x hq => ?_, fun q x hq => ?_, fun handle hu => ?_, fun q x hq handle hh => ?_,
    fun q x q' x' hq hq' handle p p' hp hp' => ?_⟩
  · rcases List.mem_cons.mp hq with hq | hq
    · obtain ⟨rfl, rfl⟩ := Prod.mk.inj hq
      exact congrArg (new :: ·) (h.flags path ctx hm)
    · exact h.flags q x hq
  · rcases List.mem_cons.mp hq with hq | hq
    · obtain ⟨rfl, rfl⟩ := Prod.mk.inj hq
      exact h.deadline path ctx hm
    · exact h.deadline q x hq
  · rw [hsize]
    exact Nat.lt_succ_of_lt (h.given handle hu)
  · rw [hsize, hflag]
    have kept {q : List Link} {x : Context} (hq : (q, x) ∈ made) (hh : .cancel handle ∈ q) :
        handle.index < c.flags.size + 1 ∧ (c.flag handle = true ↔ handle ∈ used) :=
      ⟨Nat.lt_succ_of_lt (h.known q x hq handle hh).1, (h.known q x hq handle hh).2⟩
    rcases List.mem_cons.mp hq with hq | hq
    · obtain ⟨rfl, -⟩ := Prod.mk.inj hq
      rcases List.mem_cons.mp hh with hh | hh
      · obtain rfl : handle = new := Link.cancel.inj hh
        exact ⟨Nat.lt_succ_self _, by rw [unset]; exact ⟨Bool.noConfusion,
          fun hu => absurd hu unused⟩⟩
      · exact kept hm hh
    · exact kept hq hh
  · by_cases hh : handle = new
    · subst hh
      exact (newest hq hp).trans (newest hq' hp').symm
    · obtain ⟨r, y, hr, hs⟩ := old hq hh hp
      obtain ⟨r', y', hr', hs'⟩ := old hq' hh hp'
      exact h.unique r y r' y' hr hr' handle p p' hs hs'

/-- **Every context remembers its derivation.** -/
theorem kept (h : Derivations c made used) : Kept c made used := by
  induction h with
  | start c =>
    exact ⟨fun _ _ hm => absurd hm List.not_mem_nil, fun _ _ hm => absurd hm List.not_mem_nil,
      fun _ hu => absurd hu List.not_mem_nil, fun _ _ hm => absurd hm List.not_mem_nil,
      fun _ _ _ _ hm => absurd hm List.not_mem_nil⟩
  | @background c made used _ ih =>
    have empty {q : List Link} {x : Context} (hq : (q, x) ∈ ([], .background) :: made) {l : Link}
        (hl : l ∈ q) : (q, x) ∈ made := by
      rcases List.mem_cons.mp hq with hq | hq
      · obtain ⟨rfl, -⟩ := Prod.mk.inj hq
        exact absurd hl List.not_mem_nil
      · exact hq
    refine ⟨fun q x hq => ?_, fun q x hq => ?_, ih.given, fun q x hq handle hh =>
      ih.known q x (empty hq hh) handle hh, fun q x q' x' hq hq' handle p p' hp hp' =>
        ih.unique q x q' x' (empty hq (hp.subset List.mem_cons_self))
          (empty hq' (hp'.subset List.mem_cons_self)) handle p p' hp hp'⟩
    · rcases List.mem_cons.mp hq with hq | hq
      · obtain ⟨rfl, rfl⟩ := Prod.mk.inj hq
        rfl
      · exact ih.flags q x hq
    · rcases List.mem_cons.mp hq with hq | hq
      · obtain ⟨rfl, rfl⟩ := Prod.mk.inj hq
        rfl
      · exact ih.deadline q x hq
  | withCancel _ hm ih => exact ih.withCancel hm
  | withDeadline _ hm time ih =>
    refine ih.link hm rfl rfl ?_
    unfold Link.earliest
    rw [← ih.deadline _ _ hm]
    rfl
  | @withLimits c made used _ path ctx hm l ih => exact ih.link hm rfl rfl (ih.deadline path ctx hm)
  | @clone c made used _ path ctx hm ih => exact ih.link hm rfl rfl (ih.deadline path ctx hm)
  | @cancel c made used _ handle path ctx hm ih =>
    have hlt := (ih.known _ ctx hm handle List.mem_cons_self).1
    have hsize : (c.cancel handle).flags.size = c.flags.size := Array.size_setIfInBounds
    refine ⟨ih.flags, ih.deadline, fun g hg => ?_, fun q x hq g hg => ?_, ih.unique⟩
    · rw [hsize]
      rcases List.mem_cons.mp hg with rfl | hg
      · exact hlt
      · exact ih.given g hg
    · obtain ⟨hlt', hiff⟩ := ih.known q x hq g hg
      rw [hsize, c.flag_cancel hlt, Bool.or_eq_true, decide_eq_true_eq, hiff, List.mem_cons]
      exact ⟨hlt', Or.comm⟩
  | pass _ hc ih =>
    refine ⟨ih.flags, ih.deadline, hc ▸ ih.given, fun q x hq g hg => ?_, ih.unique⟩
    have := ih.known q x hq g hg
    unfold Controls.flag at this ⊢
    rwa [hc]

variable {path path' : List Link} {ctx ctx' : Context}

/-- **A context is cancelled** if the handle of a link on its own derivation was used, and only
then. -/
theorem isCancelled_iff (h : Derivations c made used) (hm : (path, ctx) ∈ made) :
    ctx.isCancelled c = true ↔ ∃ handle ∈ used, .cancel handle ∈ path := by
  have hk := h.kept
  unfold Context.isCancelled
  rw [hk.flags path ctx hm, List.any_eq_true]
  constructor
  · rintro ⟨handle, hh, hset⟩
    obtain ⟨l, hl, hlink⟩ := List.mem_filterMap.mp hh
    obtain rfl : l = .cancel handle := by
      cases l with
      | cancel g => exact congrArg _ (Option.some.inj hlink)
      | _ => cases hlink
    exact ⟨handle, ((hk.known path ctx hm handle hl).2).mp hset, hl⟩
  · rintro ⟨handle, hu, hl⟩
    exact ⟨handle, List.mem_filterMap.mpr ⟨_, hl, rfl⟩, ((hk.known path ctx hm handle hl).2).mpr hu⟩

/-- **A handle belongs to a single link**: the contexts on whose derivation it lies are those
derived from the one for which it was made. -/
theorem handle_unique (h : Derivations c made used) (hm : (path, ctx) ∈ made)
    (hm' : (path', ctx') ∈ made) {handle : FlagRef} {p p' : List Link}
    (hp : .cancel handle :: p <:+ path) (hp' : .cancel handle :: p' <:+ path') : p = p' :=
  h.kept.unique path ctx path' ctx' hm hm' handle p p' hp hp'

/-- **Along a derivation the deadline never gets later.** -/
theorem deadline_noLater (h : Derivations c made used) (hm : (path, ctx) ∈ made)
    (hm' : (path', ctx') ∈ made) (hs : path <:+ path') : NoLater ctx'.deadline ctx.deadline := by
  rw [h.kept.deadline path ctx hm, h.kept.deadline path' ctx' hm']
  exact Link.earliest_suffix hs

end Derivations

end ScriptEngine
