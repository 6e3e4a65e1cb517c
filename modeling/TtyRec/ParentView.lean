import TtyRec.Exits
import TtyRec.RawMode

/-!
# One parent, seen twice

The machine of the three processes follows the exit status, and the machine of the terminal follows
the calls of `tcsetattr`.  Both of them have the main flow of the parent, its handlers, `fail` and
`done`, each in the detail that its own question needs.  This module relates them by a forward
simulation: every step of the machine of the terminal is a few steps of the session, or none, after
which the two parents are alike again.  So the terminal is never seen in a state that the parent of
a session could not be in, and what holds in every state of the session holds there.

The session has to do more than the parent alone.  Where the one machine says that `waitpid`
returns the child, the child must have ended in the other, and so it is killed right before.  Where
the one has a step for `tcsetattr`, the other has none.

The `exit` behind a failing `fork` is left out of the session, which does not exist then.

## Main definitions

* `Frames`, `Flows` — a stack, or a main flow, of the one and of the other.
* `Alike`, `View` — the two parents.

## Main results

* `Alike.frame`, `View.flow` — what a step of the one is in the other.
* `exists_session` — **every run of the parent and its terminal is one of the session**.
-/

namespace TtyRec.ParentView

open Run

/-! ### The relation -/

/-- The functions on a stack.  `done` has its status in the one machine only; what comes behind the
call of `done` in a handler is in the other one only. -/
inductive Frames : List RawMode.Frame → List Exits.Frame → Prop
  | nil : Frames [] []
  | finish (die : Bool) {fs gs} (h : Frames fs gs) : Frames (.finish die :: fs) (.finish die :: gs)
  | ending (sig : RawMode.Sig) (o : Exits.Origin) {fs gs} (h : Frames fs gs) :
    Frames (.ending sig false :: fs) (.done 0 o :: gs)
  | left (sig : RawMode.Sig) {fs gs} (h : Frames fs gs) : Frames (.ending sig true :: fs) gs
  | fail {fs gs} (h : Frames fs gs) : Frames (.fail :: fs) (.fail :: gs)
  | called (status : ℕ) (o : Exits.Origin) {fs gs} (h : Frames fs gs) :
    Frames (.done .called :: fs) (.done status o :: gs)
  | inside {d : RawMode.Ending} (hd : d ≠ .called) (status : ℕ) (o : Exits.Origin) {fs gs}
      (h : Frames fs gs) : Frames (.done d :: fs) (.cleanup status o :: gs)

/-- Where the main flow is. -/
inductive Flows : RawMode.Flow → Exits.Flow → Prop
  | fixtty : Flows .fixtty .fork
  | fork : Flows .fork .fork
  | assign : Flows .assign .assign
  | create : Flows .create .assign
  | sigaction : Flows .sigaction .reading
  | reading : Flows .reading .reading
  | waitpid : Flows .waitpid .waitpid
  | called (status : ℕ) : Flows (.done .called) (.done status)
  | inside {d : RawMode.Ending} (hd : d ≠ .called) (status : ℕ) : Flows (.done d) (.cleanup status)
  | returned : Flows .returned .returned

/-- The parents, but for the stacks, which are compared one by one.  A process that has ended has no
stack any more that would matter. -/
structure Alike (s : RawMode.Proc) (p : Exits.Proc) : Prop where
  role : p.role = .parent
  installed : p.installed = true
  flow : Flows s.flow p.flow
  threaded : s.threaded = true → p.threaded = true
  childSet : p.childSet = s.childSet
  assigned : s.flow = .create → s.childSet = true
  subchildSet : p.subchildSet = false
  entered : p.entered = s.entered
  running : s.unreaped = true → p.offspring = .running
  reaped : s.unreaped = false → p.offspring = .none ∨ p.offspring = .reaped
  forked : p.offspring = .none ↔ s.flow = .fixtty ∨ s.flow = .fork
  ended : s.exited = p.ended.isSome

/-- The child is there when the parent can wait for it.  The parent of the other machine knows only
that its child was not waited for yet. -/
structure Waits (x : Exits.Session) : Prop where
  unborn : x.parent.offspring = .none → x.child.flow = .unborn ∧ x.child.ended = none
  child : x.parent.offspring = .running → x.child.flow ≠ .unborn ∧ x.child.ended = none

/-- The parent of the session, and the child that it waits for.  The subchild, and what the child
does, are left open: the views are about one process. -/
structure View (s : RawMode.Proc) (x : Exits.Session) : Prop where
  alike : Alike s x.parent
  handlers : s.exited = false → Frames s.handlers x.parent.handlers
  watcher : s.exited = false → Frames s.watcher x.parent.watcher
  waits : Waits x

/-- The session goes on until the parent is `p`. -/
def Reaches (timeouts : Bool) (x : Exits.Session) (p : Exits.Proc) : Prop :=
  ∃ ds y, exec (Exits.sessionStep timeouts) x ds = some y ∧ y.parent = p ∧ Waits y

/-- The session goes on until the parent is seen as `s`. -/
def Shows (timeouts : Bool) (x : Exits.Session) (s : RawMode.Proc) : Prop :=
  ∃ ds y, exec (Exits.sessionStep timeouts) x ds = some y ∧ View s y

section Alike

variable {s : RawMode.Proc} {p : Exits.Proc}

/-- The stacks do not matter. -/
theorem Alike.stacks (h : Alike s p) (hs ws : List RawMode.Frame) (hs' ws' : List Exits.Frame) :
    Alike { s with handlers := hs, watcher := ws } { p with handlers := hs', watcher := ws' } :=
  ⟨h.role, h.installed, h.flow, h.threaded, h.childSet, h.assigned, h.subchildSet, h.entered,
    h.running, h.reaped, h.forked, h.ended⟩

theorem Alike.born (h : Alike s p) : p.flow ≠ .unborn ∧ p.flow ≠ .command := by
  have hflow := h.flow
  generalize s.flow = flow at hflow
  constructor
  · intro hborn
    rw [hborn] at hflow
    cases hflow
  · intro hcommand
    rw [hcommand] at hflow
    cases hflow

theorem Alike.ended_eq_none (h : Alike s p) (hs : s.exited = false) : p.ended = none := by
  rw [← Option.not_isSome_iff_eq_none, ← h.ended, hs]
  exact Bool.false_ne_true

/-- `finish` is on the one stack only if it is on the other. -/
theorem Frames.finish_mem {fs : List RawMode.Frame} {gs : List Exits.Frame} (h : Frames fs gs)
    {die : Bool} (hmem : .finish die ∈ gs) : .finish die ∈ fs := by
  induction h with
  | nil => cases hmem
  | finish die' h ih =>
    rcases List.mem_cons.mp hmem with heq | hmem
    · cases heq
      exact List.mem_cons_self
    · exact List.mem_cons_of_mem _ (ih hmem)
  | left sig h ih => exact List.mem_cons_of_mem _ (ih hmem)
  | ending sig o h ih | fail h ih | called status o h ih | inside hd status o h ih =>
    rcases List.mem_cons.mp hmem with heq | hmem
    · cases heq
    · exact List.mem_cons_of_mem _ (ih hmem)

/-- The child has not ended, or it has, and the parent has not waited for it yet. -/
def Awaits (p p' : Exits.Proc) : Prop :=
  p' = p ∨ p.offspring = .running ∧ p' = { p with offspring := .zombie 9 }

theorem Awaits.same {p p' : Exits.Proc} (h : Awaits p p') : p'.handlers = p.handlers ∧
    p'.watcher = p.watcher ∧ p'.ended = p.ended ∧ p'.flow = p.flow := by
  rcases h with rfl | ⟨-, rfl⟩
  · exact ⟨rfl, rfl, rfl, rfl⟩
  · exact ⟨rfl, rfl, rfl, rfl⟩

/-- `finish` in the parent, when the child has ended. -/
theorem finish_zombie (die : Bool) (hsub : p.subchildSet = false) :
    Exits.finish die { p with offspring := .zombie 9 } =
      ({ p with childexit := 9, offspring := .reaped }, [.finish (die || p.childSet)]) := by
  have hparent : ¬ p.subchildSet = true := ne_true_of_eq_false hsub
  unfold Exits.finish
  dsimp only
  rw [if_neg hparent]
  split
  next hset => rw [hset, Bool.or_true, Exits.Proc.reap]
  next hunset => rw [Bool.eq_false_iff.mpr hunset, Bool.or_false, Exits.Proc.reap]

/-- **A function goes on**, on either thread: nothing that is in the session, or one step there,
before which the child may have ended. -/
theorem Alike.frame (h : Alike s p) {f : RawMode.Frame} {fs : List RawMode.Frame}
    {gs : List Exits.Frame} (hf : Frames (f :: fs) gs) {c : RawMode.Choice}
    {r : RawMode.Proc × List RawMode.Frame} (hstep : RawMode.frameStep f c s = some r) :
    (Alike r.1 p ∧ Frames (r.2 ++ fs) gs) ∨
      ∃ g gs' p' d q, gs = g :: gs' ∧ Awaits p p' ∧ (d = .go ∨ d = .masked) ∧
        Exits.frameStep g d p' = some q ∧ Alike r.1 q.1 ∧
        (r.1.exited = false → Frames (r.2 ++ fs) (q.2 ++ gs')) ∧ q.1.flow = p.flow := by
  cases hf with
  | @finish die _ gs' hgs =>
    right
    cases c with
    | reaps =>
      rw [RawMode.frameStep] at hstep
      split at hstep
      next hunreaped =>
        cases hstep
        -- the child ends, and `finish` takes its status
        have hfinish := finish_zombie die h.subchildSet
        refine ⟨_, gs', _, .go, _, rfl, .inr ⟨h.running hunreaped, rfl⟩, .inl rfl,
          congrArg some hfinish, ?_, fun _ => ?_, rfl⟩
        · exact ⟨h.role, h.installed, h.flow, h.threaded, h.childSet, h.assigned, h.subchildSet,
            h.entered, fun hu => Bool.noConfusion hu, fun _ => .inr rfl,
            ⟨fun ho => Exits.Offspring.noConfusion ho, fun hflow =>
              absurd ((h.forked.mpr hflow).symm.trans (h.running hunreaped)) nofun⟩, h.ended⟩
        · rw [h.childSet]
          exact .finish _ hgs
      next => cases hstep
    | go =>
      -- there is nothing to wait for
      have hnone : Exits.finish die p =
          (p, if die = true then [.done p.childexit .wait] else []) := by
        cases hu : s.unreaped with
        | true => simp only [Exits.finish, h.running hu]
        | false => rcases h.reaped hu with ho | ho <;> simp only [Exits.finish, ho]
      refine ⟨_, gs', p, .go, _, rfl, .inl rfl, .inl rfl, congrArg some hnone, ?_⟩
      rw [RawMode.frameStep] at hstep
      split at hstep
      next hdie =>
        cases hstep
        refine ⟨h, fun _ => ?_, rfl⟩
        rw [if_pos hdie]
        exact .called _ _ (.left _ hgs)
      next hdie =>
        cases hstep
        refine ⟨h, fun _ => ?_, rfl⟩
        rw [if_neg hdie]
        exact hgs
    | _ => cases hstep
  | @ending sig o _ gs' hgs =>
    -- the handler calls `done`, which the session does not see
    left
    cases c with
    | go =>
      cases hstep
      exact ⟨h, .called _ _ (.left _ hgs)⟩
    | _ => cases hstep
  | left sig hgs =>
    left
    cases c with
    | go =>
      cases hstep
      exact ⟨h, hgs⟩
    | _ => cases hstep
  | @fail _ gs' hgs =>
    right
    cases c with
    | go =>
      cases hstep
      have hfail : Exits.frameStep .fail .go p = some (p, [.done 0 .fail, .done 1 .fail]) :=
        if_pos h.installed
      exact ⟨_, gs', p, .go, _, rfl, .inl rfl, .inl rfl, hfail, h,
        fun _ => .ending _ _ (.called _ _ hgs), rfl⟩
    | elsewhere =>
      rw [RawMode.frameStep] at hstep
      split at hstep
      · cases hstep
        exact ⟨_, gs', p, .masked, _, rfl, .inl rfl, .inr rfl, rfl, h, fun _ => .called _ _ hgs, rfl⟩
      · cases hstep
    | _ => cases hstep
  | @called status o _ gs' hgs =>
    right
    cases c with
    | go =>
      refine ⟨_, gs', p, .go, _, rfl, .inl rfl, .inl rfl, rfl, ?_⟩
      simp only [RawMode.frameStep, RawMode.endStep] at hstep
      cases hentered : s.entered with
      | true =>
        rw [if_pos hentered] at hstep
        cases hstep
        rw [Exits.done, if_pos (h.entered.trans hentered)]
        exact ⟨h, fun _ => hgs, rfl⟩
      | false =>
        rw [if_neg (ne_true_of_eq_false hentered)] at hstep
        cases hstep
        rw [Exits.done, if_neg (ne_true_of_eq_false (h.entered.trans hentered))]
        refine ⟨?_, fun _ => .inside RawMode.Ending.noConfusion _ _ hgs, rfl⟩
        exact ⟨h.role, h.installed, h.flow, h.threaded, h.childSet, h.assigned, h.subchildSet, rfl,
          h.running, h.reaped, h.forked, h.ended⟩
    | _ => cases hstep
  | @inside d hd status o _ gs' hgs =>
    cases c with
    | go =>
      cases d with
      | called => exact absurd rfl hd
      | entered =>
        -- `tcsetattr`
        left
        cases hstep
        refine ⟨?_, .inside RawMode.Ending.noConfusion _ _ hgs⟩
        exact ⟨h.role, h.installed, h.flow, h.threaded, h.childSet, h.assigned, h.subchildSet,
          h.entered, h.running, h.reaped, h.forked, h.ended⟩
      | restored =>
        right
        cases hstep
        refine ⟨_, gs', p, .go, _, rfl, .inl rfl, .inl rfl, rfl, ?_, fun hx => Bool.noConfusion hx,
          rfl⟩
        exact ⟨h.role, h.installed, h.flow, h.threaded, h.childSet, h.assigned, h.subchildSet,
          h.entered, h.running, h.reaped, h.forked, rfl⟩
    | _ => cases hstep

end Alike

/-! ### The session -/

/-- A function that goes on leaves the stacks to the machine. -/
theorem rawMode_stacks {s : RawMode.Proc} {f : RawMode.Frame} {c : RawMode.Choice}
    {r : RawMode.Proc × List RawMode.Frame} (hstep : RawMode.frameStep f c s = some r) :
    r.1.handlers = s.handlers ∧ r.1.watcher = s.watcher := by
  cases f with
  | finish die =>
    cases c with
    | reaps | go =>
      rw [RawMode.frameStep] at hstep
      split at hstep <;> cases hstep <;> exact ⟨rfl, rfl⟩
    | _ => cases hstep
  | ending sig called =>
    cases c with
    | go =>
      cases called with
      | true | false =>
        cases hstep
        exact ⟨rfl, rfl⟩
    | _ => cases called <;> cases hstep
  | fail =>
    cases c with
    | go =>
      cases hstep
      exact ⟨rfl, rfl⟩
    | elsewhere =>
      rw [RawMode.frameStep] at hstep
      split at hstep
      · cases hstep
        exact ⟨rfl, rfl⟩
      · cases hstep
    | _ => cases hstep
  | done d =>
    cases c with
    | go =>
      cases d with
      | called =>
        simp only [RawMode.frameStep, RawMode.endStep] at hstep
        cases hentered : s.entered <;> rw [hentered] at hstep <;> cases hstep <;> exact ⟨rfl, rfl⟩
      | entered | restored =>
        cases hstep
        exact ⟨rfl, rfl⟩
    | _ => cases hstep

/-- A function that goes on leaves the stacks of the session to the machine, and waits for the
offspring or leaves it alone. -/
theorem exits_stacks {p : Exits.Proc} {f : Exits.Frame} {c : Exits.Choice}
    {r : Exits.Proc × List Exits.Frame} (hstep : Exits.frameStep f c p = some r) :
    r.1.handlers = p.handlers ∧ r.1.watcher = p.watcher ∧
      (r.1.offspring = p.offspring ∨ r.1.offspring = .reaped) := by
  cases f with
  | finish die =>
    cases c with
    | go =>
      cases hstep
      unfold Exits.finish
      split
      · split
        · exact ⟨rfl, rfl, .inr rfl⟩
        · split <;> exact ⟨rfl, rfl, .inr rfl⟩
      · exact ⟨rfl, rfl, .inl rfl⟩
    | _ => cases hstep
  | swing =>
    cases c with
    | go | fails =>
      cases hstep
      exact ⟨rfl, rfl, .inl rfl⟩
    | _ => cases hstep
  | fail =>
    cases c with
    | go =>
      rw [Exits.frameStep] at hstep
      split at hstep <;> cases hstep <;> exact ⟨rfl, rfl, .inl rfl⟩
    | masked =>
      cases hstep
      exact ⟨rfl, rfl, .inl rfl⟩
    | _ => cases hstep
  | done status origin =>
    cases c with
    | go =>
      cases hstep
      unfold Exits.done
      split <;> exact ⟨rfl, rfl, .inl rfl⟩
    | _ => cases hstep
  | cleanup status origin =>
    cases c with
    | go =>
      cases hstep
      exact ⟨rfl, rfl, .inl rfl⟩
    | _ => cases hstep

section Session

variable {s t : RawMode.Proc} {x : Exits.Session} {timeouts : Bool}

theorem Reaches.refl (h : Waits x) : Reaches timeouts x x.parent := ⟨[], x, rfl, rfl, h⟩

theorem Reaches.shows {q : Exits.Proc} (h : Reaches timeouts x q) (halike : Alike t q)
    (hhandlers : t.exited = false → Frames t.handlers q.handlers)
    (hwatcher : t.exited = false → Frames t.watcher q.watcher) : Shows timeouts x t := by
  obtain ⟨ds, y, hds, rfl, hwaits⟩ := h
  exact ⟨ds, y, hds, halike, hhandlers, hwatcher, hwaits⟩

/-- The parent takes a step, and has not forked. -/
theorem sessionStep_parent {th : Exits.Thread} {c : Exits.Choice} {p : Exits.Proc}
    (hstep : Exits.procStep timeouts th c x.parent = some p)
    (hfork : x.parent.flow = .fork → p.flow ≠ .assign) :
    Exits.sessionStep timeouts x ⟨.parent, th, c⟩ = some { x with parent := p } := by
  have hno : ¬ (x.parent.flow = .fork ∧ p.flow = .assign) := fun ⟨h, h'⟩ => hfork h h'
  simp only [Exits.sessionStep, hstep, Option.map_some, if_neg hno]

/-- Nothing but `fork` makes a child. -/
theorem Waits.parent (h : Waits x) {p : Exits.Proc}
    (hoffspring : p.offspring = x.parent.offspring ∨ p.offspring = .reaped) :
    Waits { x with parent := p } := by
  constructor
  · intro hnone
    rcases hoffspring with heq | heq
    · exact h.unborn (heq.symm.trans hnone)
    · cases heq.symm.trans hnone
  · intro hrunning
    rcases hoffspring with heq | heq
    · exact h.child (heq.symm.trans hrunning)
    · cases heq.symm.trans hrunning

/-- The child ends, if the parent is to wait for it. -/
theorem Waits.await (timeouts : Bool) (h : Waits x) {p : Exits.Proc} (hp : Awaits x.parent p) :
    Reaches timeouts x p := by
  rcases hp with rfl | ⟨hrunning, rfl⟩
  · exact ⟨[], x, rfl, rfl, h⟩
  · obtain ⟨hborn, hended⟩ := h.child hrunning
    have hkill := Exits.procStep_kill timeouts hended hborn
    have hno : ¬ (x.child.flow = .fork ∧ x.child.flow = .assign) := by
      rintro ⟨hfork, hassign⟩
      rw [hfork] at hassign
      cases hassign
    have hinform : x.parent.inform (some (.killed 9)) = { x.parent with offspring := .zombie 9 } := by
      unfold Exits.Proc.inform
      rw [hrunning]
      rfl
    refine ⟨[⟨.child, .main, .killed 9⟩], ⟨x.subchild,
      { x.child with ended := some (.killed 9) }, { x.parent with offspring := .zombie 9 }⟩, ?_, rfl,
      fun hnone => Exits.Offspring.noConfusion hnone, fun hrun => Exits.Offspring.noConfusion hrun⟩
    rw [exec_cons, Exits.sessionStep]
    dsimp only
    rw [hkill, Option.map_some, Option.bind_some, exec_nil, if_neg hno, hinform]

/-- A step of the parent, before which the child may have ended. -/
theorem Waits.step (h : Waits x) {p q : Exits.Proc} (hp : Awaits x.parent p) {th : Exits.Thread}
    {c : Exits.Choice} (hstep : Exits.procStep timeouts th c p = some q)
    (hfork : p.flow = .fork → q.flow ≠ .assign)
    (hoffspring : q.offspring = p.offspring ∨ q.offspring = .reaped) :
    Reaches timeouts x q := by
  obtain ⟨ds, y, hds, rfl, hy⟩ := h.await timeouts hp
  refine ⟨ds ++ [⟨.parent, th, c⟩], { y with parent := q }, ?_, rfl, hy.parent hoffspring⟩
  rw [exec_append, hds, Option.bind_some, exec_cons, sessionStep_parent hstep hfork,
    Option.bind_some, exec_nil]

/-- The function at the top of the main thread goes on. -/
theorem View.frame (h : View s x) (hs : s.exited = false) {f : RawMode.Frame}
    {fs : List RawMode.Frame} (hfs : s.handlers = f :: fs) {c : RawMode.Choice}
    {r : RawMode.Proc × List RawMode.Frame} (hstep : RawMode.frameStep f c s = some r) :
    Shows timeouts x { r.1 with handlers := r.2 ++ fs } := by
  obtain ⟨-, hwatcher⟩ := rawMode_stacks hstep
  have hframes := h.handlers hs
  rw [hfs] at hframes
  rcases h.alike.frame hframes hstep with
    ⟨halike, hrest⟩ | ⟨g, gs, p, d, q, hgs, hp, hd, hgo, halike, hrest, hflow⟩
  · apply (Reaches.refl h.waits).shows (halike.stacks _ _ x.parent.handlers x.parent.watcher)
    · exact fun _ => hrest
    · rw [hwatcher]
      exact fun _ => h.watcher hs
  · obtain ⟨hsame, hsame', hended, hborn⟩ := hp.same
    obtain ⟨-, hwatcher', hoffspring⟩ := exits_stacks hgo
    have hproc := Exits.procStep_frame timeouts
      (hended.trans (h.alike.ended_eq_none hs)) (hborn ▸ h.alike.born.1) (hsame.trans hgs)
      (hd.imp_right .inl)
    rw [hgo, Option.map_some] at hproc
    have hfork : p.flow = .fork → q.1.flow ≠ .assign := by
      rw [hflow, hborn]
      exact fun hfork hassign => Exits.Flow.noConfusion (hfork.symm.trans hassign)
    apply (h.waits.step hp hproc hfork hoffspring).shows
      (halike.stacks _ r.1.watcher _ q.1.watcher) hrest
    dsimp only
    rw [hwatcher, hwatcher', hsame']
    exact fun _ => h.watcher hs

/-- The function at the top of the other thread goes on. -/
theorem View.watcherFrame (h : View s x) (hs : s.exited = false) {f : RawMode.Frame}
    {fs : List RawMode.Frame} (hfs : s.watcher = f :: fs) {c : RawMode.Choice}
    {r : RawMode.Proc × List RawMode.Frame} (hstep : RawMode.frameStep f c s = some r) :
    Shows timeouts x { r.1 with watcher := r.2 ++ fs } := by
  obtain ⟨hhandlers, -⟩ := rawMode_stacks hstep
  have hframes := h.watcher hs
  rw [hfs] at hframes
  rcases h.alike.frame hframes hstep with
    ⟨halike, hrest⟩ | ⟨g, gs, p, d, q, hgs, hp, hd, hgo, halike, hrest, hflow⟩
  · apply (Reaches.refl h.waits).shows (halike.stacks _ _ x.parent.handlers x.parent.watcher)
    · rw [hhandlers]
      exact fun _ => h.handlers hs
    · exact fun _ => hrest
  · obtain ⟨hsame, hsame', hended, hborn⟩ := hp.same
    obtain ⟨hhandlers', -, hoffspring⟩ := exits_stacks hgo
    have hproc := Exits.procStep_watcher timeouts
      (hended.trans (h.alike.ended_eq_none hs)) (hborn ▸ h.alike.born.1) (hsame'.trans hgs)
      (hd.imp_right .inl)
    rw [hgo, Option.map_some] at hproc
    have hfork : p.flow = .fork → q.1.flow ≠ .assign := by
      rw [hflow, hborn]
      exact fun hfork hassign => Exits.Flow.noConfusion (hfork.symm.trans hassign)
    apply (h.waits.step hp hproc hfork hoffspring).shows
      (halike.stacks r.1.handlers _ q.1.handlers _) _ hrest
    dsimp only
    rw [hhandlers, hhandlers', hsame]
    exact fun _ => h.handlers hs

/-- The handler of a signal in the session. -/
def sigOf : RawMode.Sig → Exits.Sig
  | .chld => .chld
  | .term => .term
  | .hup => .hup

/-- What is not blocked in the one machine is not blocked in the other. -/
theorem exists_handler {fs : List RawMode.Frame} {gs : List Exits.Frame} (h : Frames fs gs)
    {sig : RawMode.Sig} (hfree : ¬ fs.any sig.handles = true) (p : Exits.Proc) :
    ∃ g, Exits.handler (sigOf sig) p gs = some g ∧ Frames (sig.frame :: fs) (g :: gs) := by
  cases sig with
  | chld =>
    have hno : ¬ (.finish true ∈ gs ∨ .finish false ∈ gs) := by
      intro hmem
      apply hfree
      rw [List.any_eq_true]
      rcases hmem with hmem | hmem
      · exact ⟨_, h.finish_mem hmem, rfl⟩
      · exact ⟨_, h.finish_mem hmem, rfl⟩
    exact ⟨_, if_neg hno, .finish false h⟩
  | term => exact ⟨_, rfl, .ending .term .term h⟩
  | hup => exact ⟨_, rfl, .ending .hup .hup h⟩

/-- A signal is delivered.  It comes under the same conditions in both machines, and what is put on
the stack is the same handler. -/
theorem View.signal (h : View s x) (hs : s.exited = false) {th : RawMode.Thread}
    {sig : RawMode.Sig} (hstep : RawMode.step timeouts s (th, .signal sig) = some t) :
    Shows timeouts x t := by
  have hguard : ¬ (x.parent.ended.isSome = true ∨ x.parent.flow = .unborn) := by
    simp [h.alike.ended_eq_none hs, h.alike.born.1]
  unfold RawMode.step at hstep
  rw [if_neg (ne_true_of_eq_false hs)] at hstep
  cases th with
  | main =>
    dsimp only at hstep
    split at hstep
    next => cases hstep
    next hfree =>
      cases hstep
      obtain ⟨g, hg, hframes⟩ := exists_handler (h.handlers hs) hfree x.parent
      have hproc : Exits.procStep timeouts .main (.signal (sigOf sig)) x.parent =
          some { x.parent with handlers := g :: x.parent.handlers } := by
        unfold Exits.procStep
        rw [if_neg hguard]
        dsimp only
        rw [if_pos ⟨h.alike.installed, h.alike.born.2⟩, hg, Option.map_some]
      have hreach := h.waits.step (.inl rfl) hproc
        (fun hfork hassign => Exits.Flow.noConfusion (hfork.symm.trans hassign)) (.inl rfl)
      exact hreach.shows (h.alike.stacks _ s.watcher _ x.parent.watcher) (fun _ => hframes)
        fun _ => h.watcher hs
  | watcher =>
    dsimp only at hstep
    split at hstep
    next => cases hstep
    next hfree =>
      cases hstep
      rw [not_or] at hfree
      -- the thread is there, so in the session it has been started
      obtain ⟨g, hg, hframes⟩ := exists_handler (h.watcher hs) hfree.2 x.parent
      have hthreaded : x.parent.threaded = true :=
        h.alike.threaded (Bool.not_eq_false _ ▸ hfree.1)
      have hproc : Exits.procStep timeouts .watcher (.signal (sigOf sig)) x.parent =
          some { x.parent with watcher := g :: x.parent.watcher } := by
        unfold Exits.procStep
        rw [if_neg hguard]
        dsimp only
        rw [if_pos hthreaded, hg, Option.map_some]
      have hreach := h.waits.step (.inl rfl) hproc
        (fun hfork hassign => Exits.Flow.noConfusion (hfork.symm.trans hassign)) (.inl rfl)
      exact hreach.shows (h.alike.stacks s.handlers _ x.parent.handlers _)
        (fun _ => h.handlers hs) fun _ => hframes

/-! ### The main flow -/

/-- Where the main flow of the session is, if the place alone tells. -/
def flowOf : RawMode.Flow → Option Exits.Flow
  | .fixtty | .fork => some .fork
  | .assign | .create => some .assign
  | .sigaction | .reading => some .reading
  | .waitpid => some .waitpid
  | .returned => some .returned
  | .exit | .done _ => none

theorem Flows.eq_of {f : RawMode.Flow} {g g' : Exits.Flow} (h : Flows f g)
    (hg : flowOf f = some g') : g = g' := by
  cases h with
  | called | inside => cases hg
  | _ =>
    cases hg
    rfl

theorem View.flow_eq (h : View s x) {f : RawMode.Flow} {g : Exits.Flow} (hflow : s.flow = f)
    (hg : flowOf f = some g) : x.parent.flow = g :=
  (hflow ▸ h.alike.flow).eq_of hg

theorem View.handlers_nil (h : View s x) (hs : s.exited = false) (hh : s.handlers = []) :
    x.parent.handlers = [] := by
  have hframes := h.handlers hs
  rw [hh] at hframes
  generalize x.parent.handlers = gs at hframes
  cases hframes
  rfl

/-- The main flow of the parent goes on, before which the child may have ended. -/
theorem View.main (h : View s x) (hs : s.exited = false) (hh : s.handlers = [])
    {p q : Exits.Proc} (hp : Awaits x.parent p) {c : Exits.Choice}
    (hgo : Exits.flowStep timeouts c p = some q) (hsignal : ∀ sig, c ≠ .signal sig)
    (hkilled : ∀ status, c ≠ .killed status) (hfork : p.flow ≠ .fork)
    (hoffspring : q.offspring = p.offspring ∨ q.offspring = .reaped) :
    Reaches timeouts x q := by
  obtain ⟨hsame, -, hended, hflow⟩ := hp.same
  have hnil : p.handlers = [] := hsame.trans (h.handlers_nil hs hh)
  have hproc := Exits.procStep_flow timeouts (hended.trans (h.alike.ended_eq_none hs))
    (hflow ▸ h.alike.born.1) hnil hsignal hkilled
  exact h.waits.step hp (hproc.trans hgo) (fun hf => absurd hf hfork) hoffspring

/-- The fork: the child begins, and the session has a process more. -/
theorem View.fork (h : View s x) (hs : s.exited = false) (hh : s.handlers = [])
    (hflow : s.flow = .fork) :
    Shows timeouts x { s with flow := .assign, unreaped := true } := by
  have hfork : x.parent.flow = .fork := h.flow_eq hflow rfl
  have hnil := h.handlers_nil hs hh
  obtain ⟨hunborn, hended⟩ := h.waits.unborn (h.alike.forked.mpr (.inr hflow))
  have hproc : Exits.procStep timeouts .main .go x.parent =
      some { x.parent with offspring := .running, flow := .assign } := by
    rw [Exits.procStep_flow timeouts (h.alike.ended_eq_none hs) h.alike.born.1 hnil
      (fun _ => Exits.Choice.noConfusion) (fun _ => Exits.Choice.noConfusion)]
    unfold Exits.flowStep
    rw [hfork]
  have hbegin : x.child.begin .fork = { x.child with flow := .fork } := by
    rw [Exits.Proc.begin, hunborn]
  refine ⟨[⟨.parent, .main, .go⟩], ⟨x.subchild, { x.child with flow := .fork },
    { x.parent with offspring := .running, flow := .assign }⟩, ?_, ?_, h.handlers, h.watcher, ?_⟩
  · rw [exec_cons, Exits.sessionStep]
    dsimp only
    rw [hproc, Option.map_some, Option.bind_some, exec_nil, if_pos ⟨hfork, rfl⟩, hbegin]
  · exact ⟨h.alike.role, h.alike.installed, .assign, h.alike.threaded, h.alike.childSet, nofun,
      h.alike.subchildSet, h.alike.entered, fun _ => rfl, nofun, ⟨nofun, nofun⟩, h.alike.ended⟩
  · exact ⟨nofun, fun _ => ⟨nofun, hended⟩⟩

/-- The variable `child` is assigned.  From here on `finish` knows whom it has waited for. -/
theorem View.assign (h : View s x) (hs : s.exited = false) (hh : s.handlers = [])
    (hflow : s.flow = .assign) :
    Shows timeouts x { s with flow := .create, childSet := true } := by
  have hassign : x.parent.flow = .assign := h.flow_eq hflow rfl
  have hgo : Exits.flowStep timeouts .setChild x.parent =
      some { x.parent with childSet := true } := by
    unfold Exits.flowStep
    simp only [hassign]
  refine (h.main hs hh (.inl rfl) hgo nofun nofun (hassign ▸ nofun) (.inl rfl)).shows ?_
    (fun _ => h.handlers hs) fun _ => h.watcher hs
  refine ⟨h.alike.role, h.alike.installed, hassign ▸ .create, h.alike.threaded, rfl, fun _ => rfl,
    h.alike.subchildSet, h.alike.entered, h.alike.running, h.alike.reaped, ?_, h.alike.ended⟩
  rw [h.alike.forked, hflow]
  exact ⟨nofun, nofun⟩

/-- `pthread_create` is done, or there was no need of it. -/
theorem View.create (h : View s x) (hs : s.exited = false) (hh : s.handlers = [])
    (hflow : s.flow = .create) {threaded : Bool} (hthreaded : threaded = true → timeouts = true) :
    Shows timeouts x { s with flow := .sigaction, threaded := threaded } := by
  have hassign : x.parent.flow = .assign := h.flow_eq hflow rfl
  have hgo : Exits.flowStep timeouts .go x.parent =
      some { x.parent with flow := .reading, threaded := timeouts } := by
    unfold Exits.flowStep
    rw [hassign]
    dsimp only
    have hset : x.parent.childSet = true ∧
        (x.parent.role = .child → x.parent.subchildSet = true) :=
      ⟨h.alike.childSet.trans (h.alike.assigned hflow), h.alike.role ▸ nofun⟩
    rw [if_pos hset, h.alike.role, beq_self_eq_true, Bool.and_true]
  refine (h.main hs hh (.inl rfl) hgo nofun nofun (hassign ▸ nofun) (.inl rfl)).shows ?_
    (fun _ => h.handlers hs) fun _ => h.watcher hs
  refine ⟨h.alike.role, h.alike.installed, .sigaction, hthreaded, h.alike.childSet, nofun,
    h.alike.subchildSet, h.alike.entered, h.alike.running, h.alike.reaped, ?_, h.alike.ended⟩
  rw [h.alike.forked, hflow]
  exact ⟨nofun, nofun⟩

/-- `doinput` fails, in its loop or before. -/
theorem View.fails (h : View s x) (hs : s.exited = false) (hh : s.handlers = [])
    (hflow : s.flow = .sigaction ∨ s.flow = .reading) {flow : RawMode.Flow}
    (hflow' : flow = .sigaction ∨ flow = .reading) :
    Shows timeouts x { s with flow := flow, handlers := [.fail] } := by
  have hreading : x.parent.flow = .reading := hflow.elim (h.flow_eq · rfl) (h.flow_eq · rfl)
  have hflows : Flows flow .reading := by
    rcases hflow' with rfl | rfl
    · exact .sigaction
    · exact .reading
  have hgo : Exits.flowStep timeouts .fails x.parent = some (x.parent.fails .reading) := by
    unfold Exits.flowStep
    rw [hreading]
  refine (h.main hs hh (.inl rfl) hgo nofun nofun (hreading ▸ nofun) (.inl rfl)).shows ?_
    (fun _ => .fail .nil) fun _ => h.watcher hs
  refine ⟨h.alike.role, h.alike.installed, hflows, h.alike.threaded, h.alike.childSet, ?_,
    h.alike.subchildSet, h.alike.entered, h.alike.running, h.alike.reaped, ?_, h.alike.ended⟩
  · rcases hflow' with rfl | rfl <;> exact nofun
  · apply h.alike.forked.trans
    rcases hflow with hflow | hflow <;> rcases hflow' with rfl | rfl <;> rw [hflow] <;>
      exact ⟨nofun, nofun⟩

/-- There is nothing left to read. -/
theorem View.over (h : View s x) (hs : s.exited = false) (hh : s.handlers = [])
    (hflow : s.flow = .reading) :
    Shows timeouts x { s with flow := .waitpid } := by
  have hreading : x.parent.flow = .reading := h.flow_eq hflow rfl
  have hgo : Exits.flowStep timeouts .over x.parent = some { x.parent with flow := .waitpid } := by
    have hrole : x.parent.role ≠ .child := h.alike.role ▸ nofun
    unfold Exits.flowStep
    rw [hreading]
    dsimp only
    rw [if_neg hrole]
  refine (h.main hs hh (.inl rfl) hgo nofun nofun (hreading ▸ nofun) (.inl rfl)).shows ?_
    (fun _ => h.handlers hs) fun _ => h.watcher hs
  refine ⟨h.alike.role, h.alike.installed, .waitpid, h.alike.threaded, h.alike.childSet, nofun,
    h.alike.subchildSet, h.alike.entered, h.alike.running, h.alike.reaped, ?_, h.alike.ended⟩
  rw [h.alike.forked, hflow]
  exact ⟨nofun, nofun⟩

/-- `waitpid` returns the child, or there is none any more. -/
theorem View.waitpid (h : View s x) (hs : s.exited = false) (hh : s.handlers = [])
    (hflow : s.flow = .waitpid) :
    Shows timeouts x { s with flow := .done .called, unreaped := false } := by
  have hwaitpid : x.parent.flow = .waitpid := h.flow_eq hflow rfl
  have hparent : x.parent.role ≠ .child := h.alike.role ▸ nofun
  have hwas : ¬ (s.flow = .fixtty ∨ s.flow = .fork) := by
    rw [hflow]
    exact nofun
  -- the child ends if it has not been waited for, and `waitpid` fails if it has been
  obtain ⟨p, status, hp, hwait⟩ : ∃ p status, Awaits x.parent p ∧ Exits.flowWait p =
      some { x.parent with childexit := status, offspring := .reaped, flow := .done status } := by
    cases hu : s.unreaped with
    | true =>
      refine ⟨_, 9, .inr ⟨h.alike.running hu, rfl⟩, ?_⟩
      unfold Exits.flowWait
      dsimp only
      rw [if_neg hparent, Exits.Proc.reap]
    | false =>
      have hreaped : x.parent.offspring = .reaped :=
        (h.alike.reaped hu).resolve_left fun hnone => hwas (h.alike.forked.mp hnone)
      refine ⟨_, x.parent.childexit, .inl rfl, ?_⟩
      unfold Exits.flowWait
      simp only [hreaped]
      rw [if_neg hparent]
  have hpflow : p.flow = .waitpid := hp.same.2.2.2.trans hwaitpid
  have hgo : Exits.flowStep timeouts .go p =
      some { x.parent with childexit := status, offspring := .reaped, flow := .done status } := by
    unfold Exits.flowStep
    rw [hpflow]
    exact (if_pos rfl).trans hwait
  refine (h.main hs hh hp hgo nofun nofun (hpflow ▸ nofun) (.inr rfl)).shows ?_
    (fun _ => h.handlers hs) fun _ => h.watcher hs
  exact ⟨h.alike.role, h.alike.installed, .called status, h.alike.threaded, h.alike.childSet, nofun,
    h.alike.subchildSet, h.alike.entered, nofun, fun _ => .inr rfl, ⟨nofun, nofun⟩, h.alike.ended⟩

/-- `done` at the end of `main`, which sets the attributes if it gets the mutex. -/
theorem View.done (h : View s x) (hs : s.exited = false) (hh : s.handlers = [])
    {d : RawMode.Ending} (hflow : s.flow = .done d)
    (hstep : RawMode.flowStep timeouts .go s = some t) :
    Shows timeouts x t := by
  have hno : ¬ (s.flow = .fixtty ∨ s.flow = .fork) := by
    rw [hflow]
    exact nofun
  have hforked : x.parent.offspring ≠ .none := fun hnone => hno (h.alike.forked.mp hnone)
  have hflows : Flows (.done d) x.parent.flow := hflow ▸ h.alike.flow
  generalize hg : x.parent.flow = g at hflows
  unfold RawMode.flowStep at hstep
  simp only [hflow] at hstep
  cases hflows with
  | called status =>
    simp only [RawMode.endStep] at hstep
    cases hentered : s.entered with
    | true =>
      -- another `done` has been there, and this one returns
      rw [if_pos hentered] at hstep
      cases hstep
      have hgo : Exits.flowStep timeouts .go x.parent =
          some { x.parent with flow := .returned } := by
        unfold Exits.flowStep
        rw [hg]
        exact if_pos (h.alike.entered.trans hentered)
      refine (h.main hs hh (.inl rfl) hgo nofun nofun (hg ▸ nofun) (.inl rfl)).shows ?_
        (fun _ => h.handlers hs) fun _ => h.watcher hs
      exact ⟨h.alike.role, h.alike.installed, .returned, h.alike.threaded, h.alike.childSet, nofun,
        h.alike.subchildSet, h.alike.entered, h.alike.running, h.alike.reaped,
        ⟨fun hnone => absurd hnone hforked, nofun⟩, h.alike.ended⟩
    | false =>
      rw [if_neg (ne_true_of_eq_false hentered)] at hstep
      cases hstep
      have hgo : Exits.flowStep timeouts .go x.parent =
          some { x.parent with entered := true, flow := .cleanup status } := by
        unfold Exits.flowStep
        rw [hg]
        exact if_neg (ne_true_of_eq_false (h.alike.entered.trans hentered))
      refine (h.main hs hh (.inl rfl) hgo nofun nofun (hg ▸ nofun) (.inl rfl)).shows ?_
        (fun _ => h.handlers hs) fun _ => h.watcher hs
      exact ⟨h.alike.role, h.alike.installed, .inside RawMode.Ending.noConfusion status,
        h.alike.threaded, h.alike.childSet, nofun, h.alike.subchildSet, rfl, h.alike.running,
        h.alike.reaped, ⟨fun hnone => absurd hnone hforked, nofun⟩, h.alike.ended⟩
  | inside hd status =>
    cases d with
    | called => exact absurd rfl hd
    | entered =>
      -- `tcsetattr`, which the session leaves out
      cases hstep
      refine (Reaches.refl h.waits).shows ?_ (fun _ => h.handlers hs) fun _ => h.watcher hs
      exact ⟨h.alike.role, h.alike.installed, hg ▸ .inside RawMode.Ending.noConfusion status,
        h.alike.threaded, h.alike.childSet, nofun, h.alike.subchildSet, h.alike.entered,
        h.alike.running, h.alike.reaped, ⟨fun hnone => absurd hnone hforked, nofun⟩, h.alike.ended⟩
    | restored =>
      cases hstep
      have hgo : Exits.flowStep timeouts .go x.parent =
          some { x.parent with ended := some (.done status .wait) } := by
        unfold Exits.flowStep
        simp only [hg]
      refine (h.main hs hh (.inl rfl) hgo nofun nofun (hg ▸ nofun) (.inl rfl)).shows ?_
        (fun _ => h.handlers hs) fun _ => h.watcher hs
      exact ⟨h.alike.role, h.alike.installed, hg ▸ .inside RawMode.Ending.noConfusion status,
        h.alike.threaded, h.alike.childSet, nofun, h.alike.subchildSet, h.alike.entered,
        h.alike.running, h.alike.reaped, ⟨fun hnone => absurd hnone hforked, nofun⟩, rfl⟩

/-- `main` returns, behind a `done` that has found the mutex taken. -/
theorem View.returned (h : View s x) (hs : s.exited = false) (hh : s.handlers = [])
    (hflow : s.flow = .returned) :
    Shows timeouts x { s with flow := .returned, exited := true } := by
  have hreturned : x.parent.flow = .returned := h.flow_eq hflow rfl
  have hgo : Exits.flowStep timeouts .go x.parent =
      some { x.parent with ended := some .returned } := by
    unfold Exits.flowStep
    simp only [hreturned]
  refine (h.main hs hh (.inl rfl) hgo nofun nofun (hreturned ▸ nofun) (.inl rfl)).shows ?_
    (fun _ => h.handlers hs) fun _ => h.watcher hs
  refine ⟨h.alike.role, h.alike.installed, hreturned ▸ .returned, h.alike.threaded,
    h.alike.childSet, nofun, h.alike.subchildSet, h.alike.entered, h.alike.running, h.alike.reaped,
    ?_, rfl⟩
  rw [h.alike.forked, hflow]

/-- What is not in the session: a step that only the terminal sees. -/
theorem View.stutter (h : View s x) (hs : s.exited = false) (flow : RawMode.Flow)
    (hflows : Flows flow x.parent.flow) (hcreate : flow ≠ .create)
    (hforks : (s.flow = .fixtty ∨ s.flow = .fork) ↔ (flow = .fixtty ∨ flow = .fork))
    (sets : List RawMode.Tcsetattr) :
    Shows timeouts x { s with flow := flow, sets := sets } := by
  refine (Reaches.refl h.waits).shows ?_ (fun _ => h.handlers hs) fun _ => h.watcher hs
  exact ⟨h.alike.role, h.alike.installed, hflows, h.alike.threaded, h.alike.childSet,
    fun hflow => absurd hflow hcreate, h.alike.subchildSet, h.alike.entered, h.alike.running,
    h.alike.reaped, h.alike.forked.trans hforks, h.alike.ended⟩

/-- **The main flow goes on**, whatever it is at, but for a `fork` that fails. -/
theorem View.flow (h : View s x) (hs : s.exited = false) (hh : s.handlers = [])
    {c : RawMode.Choice} (hc : ¬ (s.flow = .fork ∧ c = .fails))
    (hstep : RawMode.flowStep timeouts c s = some t) :
    Shows timeouts x t := by
  unfold RawMode.flowStep at hstep
  cases hflow : s.flow with
  | fixtty =>
    have hfork : x.parent.flow = .fork := h.flow_eq hflow rfl
    cases c <;> simp only [hflow] at hstep <;> cases hstep
    refine h.stutter hs .fork (hfork ▸ .fork) nofun ?_ _
    simp only [hflow, true_or, or_true]
  | fork =>
    cases c <;> simp only [hflow] at hstep <;> cases hstep
    · exact h.fork hs hh hflow
    · exact absurd ⟨hflow, rfl⟩ hc
  | exit =>
    have hflows : Flows .exit x.parent.flow := hflow ▸ h.alike.flow
    generalize x.parent.flow = g at hflows
    cases hflows
  | assign =>
    cases c <;> simp only [hflow] at hstep <;> cases hstep
    exact h.assign hs hh hflow
  | create =>
    cases c with
    | go =>
      simp only [hflow] at hstep
      cases hstep
      exact h.create hs hh hflow id
    | noThread =>
      simp only [hflow] at hstep
      split at hstep
      next htimeouts =>
        cases hstep
        exact h.create hs hh hflow fun _ => htimeouts
      next => cases hstep
    | fails =>
      simp only [hflow] at hstep
      split at hstep
      next htimeouts =>
        cases hstep
        -- the session calls `fail` when it is in the loop
        obtain ⟨ds, y, hds, hy⟩ := h.create hs hh hflow fun _ => htimeouts
        obtain ⟨ds', z, hds', hz⟩ := hy.fails hs hh (.inl rfl) (.inl rfl)
        refine ⟨ds ++ ds', z, ?_, hz⟩
        rw [exec_append, hds, Option.bind_some, hds']
      next => cases hstep
    | _ =>
      simp only [hflow] at hstep
      cases hstep
  | sigaction =>
    have hreading : x.parent.flow = .reading := h.flow_eq hflow rfl
    cases c <;> simp only [hflow] at hstep <;> cases hstep
    · refine h.stutter hs .reading (hreading ▸ .reading) nofun ?_ _
      rw [hflow]
      exact ⟨nofun, nofun⟩
    · exact h.fails hs hh (.inl hflow) (.inr rfl)
  | reading =>
    cases c <;> simp only [hflow] at hstep <;> cases hstep
    · exact ⟨[], x, rfl, h⟩
    · exact h.fails hs hh (.inr hflow) (.inr rfl)
    · exact h.over hs hh hflow
  | waitpid =>
    cases c <;> simp only [hflow] at hstep <;> cases hstep
    exact h.waitpid hs hh hflow
  | done d =>
    cases c with
    | go => exact h.done hs hh hflow (by unfold RawMode.flowStep; exact hstep)
    | _ => simp only [hflow] at hstep; cases hstep
  | returned =>
    cases c <;> simp only [hflow] at hstep <;> cases hstep
    exact h.returned hs hh hflow

/-- The `fork` of the parent does not fail in this step. -/
def Forks (s : RawMode.Proc) (e : RawMode.Thread × RawMode.Choice) : Prop :=
  ¬ (s.flow = .fork ∧ e = (.main, .fails))

/-- **A step of the parent and its terminal** is a few steps of the session, or none.  A signal may
come at any place; otherwise the function at the top of the stack of that thread goes on, or the
main flow when the stack is empty. -/
theorem View.step (h : View s x) {e : RawMode.Thread × RawMode.Choice} (he : Forks s e)
    (hstep : RawMode.step timeouts s e = some t) :
    Shows timeouts x t := by
  cases hs : s.exited with
  | true =>
    unfold RawMode.step at hstep
    rw [if_pos hs] at hstep
    cases hstep
  | false =>
    obtain ⟨th, c⟩ := e
    by_cases hsignal : ∃ sig, c = .signal sig
    · obtain ⟨sig, rfl⟩ := hsignal
      exact h.signal hs hstep
    · unfold RawMode.step at hstep
      rw [if_neg (ne_true_of_eq_false hs)] at hstep
      cases th with
      | main =>
        cases hh : s.handlers with
        | nil =>
          have hmain : RawMode.flowStep timeouts c s = some t := by
            cases c with
            | signal sig => exact absurd ⟨sig, rfl⟩ hsignal
            | _ => simpa only [hh] using hstep
          refine h.flow hs hh (fun hc => he ⟨hc.1, ?_⟩) hmain
          rw [hc.2]
        | cons f fs =>
          have htop : ((RawMode.frameStep f c s).map fun r =>
              { r.1 with handlers := r.2 ++ fs }) = some t := by
            cases c with
            | signal sig => exact absurd ⟨sig, rfl⟩ hsignal
            | _ => simpa only [hh] using hstep
          obtain ⟨r, hr, rfl⟩ := Option.map_eq_some_iff.mp htop
          exact h.frame hs hh hr
      | watcher =>
        cases hw : s.watcher with
        | nil =>
          cases c with
          | signal sig => exact absurd ⟨sig, rfl⟩ hsignal
          | _ =>
            simp only [hw] at hstep
            cases hstep
        | cons f fs =>
          have htop : ((RawMode.frameStep f c s).map fun r =>
              { r.1 with watcher := r.2 ++ fs }) = some t := by
            cases c with
            | signal sig => exact absurd ⟨sig, rfl⟩ hsignal
            | _ => simpa only [hw] using hstep
          obtain ⟨r, hr, rfl⟩ := Option.map_eq_some_iff.mp htop
          exact h.watcherFrame hs hw hr

end Session

/-- The parent has installed its handlers and is about to call `fixtty`. -/
theorem exists_view_start (timeouts : Bool) :
    ∃ ds x, exec (Exits.sessionStep timeouts) Exits.Session.start ds = some x ∧
      View RawMode.Proc.start x := by
  refine ⟨[⟨.parent, .main, .go⟩], _, rfl, ?_, fun _ => .nil, fun _ => .nil, ?_⟩
  · exact ⟨rfl, rfl, .fixtty, nofun, rfl, nofun, rfl, rfl, nofun, fun _ => .inl rfl,
      ⟨fun _ => .inl rfl, fun _ => rfl⟩, rfl⟩
  · exact ⟨fun _ => ⟨rfl, rfl⟩, nofun⟩

/-- **Every run of the parent and its terminal is one of the session**, if `fork` does not fail:
the three processes have a run after which the parent is the one that has been seen. -/
theorem exists_session {timeouts : Bool} {es : List (RawMode.Thread × RawMode.Choice)}
    {s : RawMode.Proc} (hforks : Along (RawMode.step timeouts) Forks RawMode.Proc.start es)
    (hrun : exec (RawMode.step timeouts) RawMode.Proc.start es = some s) :
    ∃ ds x, exec (Exits.sessionStep timeouts) Exits.Session.start ds = some x ∧ View s x := by
  obtain ⟨ds, x, hds, hx⟩ := exists_view_start timeouts
  obtain ⟨ds', y, hds', hy⟩ := exec_simulation_many
    (fun s x e t hview hok hstep => View.step hview hok hstep) hx hforks hrun
  refine ⟨ds ++ ds', y, ?_, hy⟩
  rw [exec_append, hds, Option.bind_some, hds']

end TtyRec.ParentView
