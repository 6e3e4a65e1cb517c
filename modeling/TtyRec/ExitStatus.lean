import TtyRec.Exits

/-!
# The statuses on their way

What `waitpid` says about a process goes into `childexit`, and from there to `done`, by the
main flow or by `finish`.  Whoever comes first, it is the status with which the offspring has
ended.  The other calls of `done` have statuses of their own.

## Main definitions

* `FlowSteps`, `Steps` — what a step of a process is.
* `Inv`, `SessionInv` — the invariants of a process and of the session.
* `Calls` — who calls `done`.

## Main results

* `sessionInv_exec` — **whoever waits first, the status is the right one**.
* `procStep_calls` — a process that does not call `fail` calls `done` only for the signals it
  gets and for its offspring.
-/

namespace TtyRec.Exits

open Run

/-! ### Steps -/

/-- What a step of the main flow is. -/
inductive FlowSteps (timeouts : Bool) (p q : Proc) : Choice → Prop where
  | install (hfl : p.flow = .setup) (hq : q = { p with installed := true, flow := .fork }) :
      FlowSteps timeouts p q .go
  | fails (hfl : p.flow = .setup ∨ p.flow = .fork ∨ p.flow = .shell) (hq : q = p.fails .returned) :
      FlowSteps timeouts p q .fails
  | failsReading (hfl : p.flow = .reading) (hq : q = p.fails .reading) :
      FlowSteps timeouts p q .fails
  | fork (hfl : p.flow = .fork) (hq : q = { p with offspring := .running, flow := .assign }) :
      FlowSteps timeouts p q .go
  | setChild (hfl : p.flow = .assign) (hq : q = { p with childSet := true }) :
      FlowSteps timeouts p q .setChild
  | setSubchild (hfl : p.flow = .assign) (hrole : p.role = .child)
      (hq : q = { p with subchildSet := true }) : FlowSteps timeouts p q .setSubchild
  | assigned (hfl : p.flow = .assign)
      (hq : q = { p with flow := .reading, threaded := timeouts && p.role == .parent }) :
      FlowSteps timeouts p q .go
  | exec (hfl : p.flow = .shell) (hq : q = { p with flow := .command }) :
      FlowSteps timeouts p q .go
  | exits {code : UInt8} (hfl : p.flow = .command) (hq : q = { p with ended := some (.exit code) }) :
      FlowSteps timeouts p q (.exits code)
  | eof (hfl : p.flow = .reading) {fl : Flow} (hover : fl = .canExit ∨ fl = .waitpid)
      (hq : q = { p with flow := fl }) : FlowSteps timeouts p q .over
  | libzstd {code : UInt8} (hfl : p.flow = .reading) (hrole : p.role = .child) (hcode : 10 ≤ code)
      (hq : q = { p with ended := some (.exit code) }) : FlowSteps timeouts p q (.libzstd code)
  | test (hfl : p.flow = .canExit) {fl : Flow}
      (htest : p.canExit = true ∧ fl = .done p.childexit ∨ fl = .waitpid)
      (hq : q = { p with flow := fl }) : FlowSteps timeouts p q .go
  | reap (hfl : p.flow = .waitpid) {status : ℕ} (hz : p.offspring = .zombie status) {fl : Flow}
      (hfl' : fl = .canExit ∨ fl = .done status) (hq : q = { p.reap status with flow := fl }) :
      FlowSteps timeouts p q .go
  | noChild (hfl : p.flow = .waitpid) (hr : p.offspring = .reaped)
      (hq : q = { p with canExit := true, flow := .canExit } ∨
        q = { p with flow := .done p.childexit }) : FlowSteps timeouts p q .go
  | refused {status : ℕ} (hfl : p.flow = .done status) (hentered : p.entered = true)
      (hq : q = { p with flow := .returned }) : FlowSteps timeouts p q .go
  | enter {status : ℕ} (hfl : p.flow = .done status)
      (hq : q = { p with entered := true, flow := .cleanup status }) : FlowSteps timeouts p q .go
  | exit {status : ℕ} (hfl : p.flow = .cleanup status)
      (hq : q = { p with ended := some (.done status .wait) }) : FlowSteps timeouts p q .go
  | returns (hfl : p.flow = .returned) (hq : q = { p with ended := some .returned }) :
      FlowSteps timeouts p q .go

theorem flowWait_steps {timeouts : Bool} {p q : Proc} (hfl : p.flow = .waitpid)
    (hstep : flowWait p = some q) : FlowSteps timeouts p q .go := by
  unfold flowWait at hstep
  split at hstep
  next status hz =>
    split at hstep
    · cases hstep
      exact .reap hfl hz (.inl rfl) rfl
    · cases hstep
      exact .reap hfl hz (.inr rfl) rfl
  next hr =>
    split at hstep
    · cases hstep
      exact .noChild hfl hr (.inl rfl)
    · cases hstep
      exact .noChild hfl hr (.inr rfl)
  next => cases hstep

/-- The steps of the main flow, read off place by place.  At most places one call succeeds or fails;
`reading` has one step for each of the ways out of the loops of `doinput` and `dooutput`. -/
theorem flowStep_steps {timeouts : Bool} {c : Choice} {p q : Proc}
    (hstep : flowStep timeouts c p = some q) : FlowSteps timeouts p q c := by
  unfold flowStep at hstep
  split at hstep
  next => cases hstep
  next hfl =>
    -- the handlers are installed, or the parent gives up
    split at hstep
    · cases hstep
      exact .install hfl rfl
    · cases hstep
      exact .fails (.inl hfl) rfl
    · cases hstep
  next hfl =>
    -- `fork`
    split at hstep
    · cases hstep
      exact .fork hfl rfl
    · cases hstep
      exact .fails (.inr (.inl hfl)) rfl
    · cases hstep
  next hfl =>
    -- the pid variables are assigned in any order, and then the loop begins
    split at hstep
    · cases hstep
      exact .setChild hfl rfl
    · split at hstep
      next hrole =>
        cases hstep
        exact .setSubchild hfl hrole rfl
      next => cases hstep
    · split at hstep
      · cases hstep
        exact .assigned hfl rfl
      · cases hstep
    · cases hstep
  next hfl =>
    -- `doshell`: `execvp`, or `fail` when it comes back
    split at hstep
    · cases hstep
      exact .exec hfl rfl
    · cases hstep
      exact .fails (.inr (.inr hfl)) rfl
    · cases hstep
  next hfl =>
    -- the command
    split at hstep
    · cases hstep
      exact .exits hfl rfl
    · cases hstep
  next hfl =>
    -- end of file, a failing call, or a failing libzstd
    split at hstep
    · cases hstep
      refine .eof hfl ?_ rfl
      split
      · exact .inl rfl
      · exact .inr rfl
    · cases hstep
      exact .failsReading hfl rfl
    · split at hstep
      next hcode =>
        cases hstep
        exact .libzstd hfl hcode.1 hcode.2.1 rfl
      next => cases hstep
    · cases hstep
  next hfl =>
    -- the test of `can_exit`
    split at hstep
    · cases hstep
      refine .test hfl ?_ rfl
      split
      next hcan => exact .inl ⟨hcan, rfl⟩
      next => exact .inr rfl
    · cases hstep
  next hfl =>
    -- `waitpid`, which has its own lemma
    split at hstep
    next hgo =>
      subst hgo
      exact flowWait_steps hfl hstep
    next => cases hstep
  next hfl =>
    -- `pthread_mutex_trylock`
    split at hstep
    · split at hstep
      next hentered =>
        cases hstep
        exact .refused hfl hentered rfl
      next =>
        cases hstep
        exact .enter hfl rfl
    · cases hstep
  next hfl =>
    -- `exit` in `done`
    split at hstep
    · cases hstep
      exact .exit hfl rfl
    · cases hstep
  next hfl =>
    -- the end of `main`
    split at hstep
    · cases hstep
      exact .returns hfl rfl
    · cases hstep

/-- What a step of a process is: a signal that is not handled, one that is, on either thread, or a
step of the main flow or of the function at the top of a stack. -/
inductive Steps (timeouts : Bool) (p q : Proc) : Thread → Choice → Prop where
  | killed {th : Thread} {status : ℕ} (hstatus : 0 < status ∧ status < 256)
      (hq : q = { p with ended := some (.killed status) }) : Steps timeouts p q th (.killed status)
  | signal {sig : Sig} {f : Frame} (hinstalled : p.installed = true)
      (hf : handler sig p p.handlers = some f) (hq : q = { p with handlers := f :: p.handlers }) :
      Steps timeouts p q .main (.signal sig)
  | signalWatcher {sig : Sig} {f : Frame} (hthreaded : p.threaded = true)
      (hf : handler sig p p.watcher = some f) (hq : q = { p with watcher := f :: p.watcher }) :
      Steps timeouts p q .watcher (.signal sig)
  | flow {c : Choice} (hframes : p.handlers = []) (hstep : FlowSteps timeouts p q c) :
      Steps timeouts p q .main c
  | frame {c : Choice} {f : Frame} {fs : List Frame} {r : Proc × List Frame}
      (hframes : p.handlers = f :: fs) (hstep : frameStep f c p = some r)
      (hq : q = { r.1 with handlers := r.2 ++ fs }) : Steps timeouts p q .main c
  | frameWatcher {c : Choice} {f : Frame} {fs : List Frame} {r : Proc × List Frame}
      (hframes : p.watcher = f :: fs) (hstep : frameStep f c p = some r)
      (hq : q = { r.1 with watcher := r.2 ++ fs }) : Steps timeouts p q .watcher c

/-- Read off the definition; the proofs about a step go by these cases and do not unfold it. -/
theorem procStep_steps {timeouts : Bool} {th : Thread} {c : Choice} {p q : Proc}
    (hstep : procStep timeouts th c p = some q) :
    p.ended = none ∧ p.flow ≠ .unborn ∧ Steps timeouts p q th c := by
  unfold procStep at hstep
  split at hstep
  · cases hstep
  next hgo =>
    rw [not_or] at hgo
    refine ⟨Option.not_isSome_iff_eq_none.mp hgo.1, hgo.2, ?_⟩
    split at hstep
    next status th =>
      split at hstep
      next hstatus =>
        cases hstep
        exact .killed ⟨by omega, hstatus.2⟩ rfl
      next => cases hstep
    next sig =>
      split at hstep
      next hready =>
        obtain ⟨f, hf, rfl⟩ := Option.map_eq_some_iff.mp hstep
        exact .signal hready.1 hf rfl
      next => cases hstep
    next sig =>
      split at hstep
      next hready =>
        obtain ⟨f, hf, rfl⟩ := Option.map_eq_some_iff.mp hstep
        exact .signalWatcher hready hf rfl
      next => cases hstep
    next =>
      split at hstep
      next hframes => exact .flow hframes (flowStep_steps hstep)
      next f fs hframes =>
        obtain ⟨r, hr, rfl⟩ := Option.map_eq_some_iff.mp hstep
        exact .frame hframes hr rfl
    next =>
      split at hstep
      next => cases hstep
      next f fs hframes =>
        obtain ⟨r, hr, rfl⟩ := Option.map_eq_some_iff.mp hstep
        exact .frameWatcher hframes hr rfl

/-! ### The statuses on their way -/

/-- What an origin calls `done` with; `σ` is what the offspring has ended with. -/
def Origin.Gives (σ : ℕ → Prop) (status : ℕ) : Origin → Prop
  | .wait => σ status
  | .term | .hup => status = 0
  | .fail => status = 0 ∨ status = 1

/-- A function above the main flow: a `finish` that is to call `done` has waited for the offspring,
and a call of `done` has got a status that its origin may give. -/
def Frame.Ok (σ : ℕ → Prop) (p : Proc) : Frame → Prop
  | .finish die => die = true → p.offspring = .reaped
  | .swing => p.role = .child
  | .fail => True
  | .done status origin | .cleanup status origin => origin.Gives σ status

/-- The main flow: before `fork` there is no offspring, and a call of `done` has got the status of
the offspring. -/
def Flow.Ok (σ : ℕ → Prop) (p : Proc) : Flow → Prop
  | .unborn => p.failed = false ∧ p.offspring = .none
  | .setup | .fork => p.offspring = .none
  | .shell | .command => p.role = .subchild ∧ p.failed = false
  | .done status | .cleanup status => σ status
  | _ => True

/-- How a process has ended: with a status that its origin may give, or as the command, or because
of libzstd, or by a signal. -/
def Leave.Ok (σ : ℕ → Prop) (p : Proc) : Leave → Prop
  | .done status origin => origin.Gives σ status
  | .exit code => p.role = .subchild ∧ p.failed = false ∨ p.role = .child ∧ code ≠ 0
  | .killed status => 0 < status ∧ status < 256
  | .returned | .terminated => True

/-- The invariant of a process, in which `σ` is what its offspring has ended with.  Whatever is on
its way to an `exit`, in `childexit`, on a stack or in the main flow, is a status that satisfies
`σ`, or the 0 or 1 of a signal or of `fail`. -/
structure Inv (σ : ℕ → Prop) (p : Proc) : Prop where
  zombie : ∀ status, p.offspring = .zombie status → σ status
  reaped : p.offspring = .reaped → σ p.childexit
  canExit : p.canExit = true → p.offspring = .reaped
  subchildSet : p.subchildSet = true → p.role = .child
  handlers : ∀ f ∈ p.handlers, f.Ok σ p
  watcher : ∀ f ∈ p.watcher, f.Ok σ p
  flow : p.flow.Ok σ p
  ended : ∀ l, p.ended = some l → l.Ok σ p

theorem Origin.Gives.mono {σ σ' : ℕ → Prop} (h : ∀ x, σ x → σ' x) {status : ℕ} {origin : Origin}
    (hgives : origin.Gives σ status) : origin.Gives σ' status := by
  cases origin with
  | wait => exact h status hgives
  | term => exact hgives
  | hup => exact hgives
  | fail => exact hgives

/-- What a step does not undo: the role of a process, and that its offspring was waited for.  A
function that was interrupted can rely on both when it goes on. -/
structure Later (p q : Proc) : Prop where
  role : q.role = p.role
  reaped : p.offspring = .reaped → q.offspring = .reaped

theorem Frame.Ok.later {σ : ℕ → Prop} {p q : Proc} (h : Later p q) {f : Frame} (hf : f.Ok σ p) :
    f.Ok σ q := by
  cases f with
  | finish die => exact fun hdie => h.reaped (hf hdie)
  | swing => exact h.role.trans hf
  | fail => trivial
  | done => exact hf
  | cleanup => exact hf

section Inv

variable {σ : ℕ → Prop} {p q : Proc}

/-- What is above the main flow stays as it should be. -/
theorem Inv.handlers_later (h : Inv σ p) (hlater : Later p q) : ∀ f ∈ p.handlers, f.Ok σ q :=
  fun f hf => (h.handlers f hf).later hlater

theorem Inv.watcher_later (h : Inv σ p) (hlater : Later p q) : ∀ f ∈ p.watcher, f.Ok σ q :=
  fun f hf => (h.watcher f hf).later hlater

theorem Inv.mono {σ' : ℕ → Prop} (h : Inv σ p) (hσ : ∀ x, σ x → σ' x) : Inv σ' p := by
  have hframe : ∀ f : Frame, f.Ok σ p → f.Ok σ' p := by
    intro f hf
    cases f with
    | finish => exact hf
    | swing => exact hf
    | fail => trivial
    | done => exact Origin.Gives.mono hσ hf
    | cleanup => exact Origin.Gives.mono hσ hf
  refine ⟨fun st hst => hσ st (h.zombie st hst), fun hr => hσ _ (h.reaped hr), h.canExit,
    h.subchildSet, fun f hf => hframe f (h.handlers f hf), fun f hf => hframe f (h.watcher f hf),
    ?_, ?_⟩
  · have hflow := h.flow
    generalize p.flow = fl at hflow ⊢
    cases fl with
    | done st => exact hσ st hflow
    | cleanup st => exact hσ st hflow
    | _ => exact hflow
  · intro l hl
    have hok := h.ended l hl
    cases l with
    | done => exact Origin.Gives.mono hσ hok
    | _ => exact hok

/-- The offspring is waited for, and `childexit` becomes its status. -/
theorem Inv.reap (h : Inv σ p) {status : ℕ} (hz : p.offspring = .zombie status) :
    Inv σ (p.reap status) ∧ Later p (p.reap status) := by
  have hlater : Later p (p.reap status) := ⟨rfl, fun _ => rfl⟩
  refine ⟨⟨?_, fun _ => h.zombie status hz, fun _ => rfl, h.subchildSet,
    h.handlers_later hlater, h.watcher_later hlater, ?_, h.ended⟩, hlater⟩
  · intro st hst
    exact absurd hst Offspring.noConfusion
  · have hflow := h.flow
    show Flow.Ok σ (p.reap status) p.flow
    generalize p.flow = fl at hflow ⊢
    cases fl with
    | unborn => exact absurd (hflow.2.symm.trans hz) Offspring.noConfusion
    | setup => exact absurd (hflow.symm.trans hz) Offspring.noConfusion
    | fork => exact absurd (hflow.symm.trans hz) Offspring.noConfusion
    | _ => exact hflow

theorem Inv.setHandlers (h : Inv σ q) {l : List Frame} (hl : ∀ f ∈ l, f.Ok σ q) :
    Inv σ { q with handlers := l } :=
  ⟨h.zombie, h.reaped, h.canExit, h.subchildSet, fun f hf => (hl f hf).later ⟨rfl, id⟩,
    h.watcher_later ⟨rfl, id⟩, h.flow, h.ended⟩

theorem Inv.setWatcher (h : Inv σ q) {l : List Frame} (hl : ∀ f ∈ l, f.Ok σ q) :
    Inv σ { q with watcher := l } :=
  ⟨h.zombie, h.reaped, h.canExit, h.subchildSet, h.handlers_later ⟨rfl, id⟩,
    fun f hf => (hl f hf).later ⟨rfl, id⟩, h.flow, h.ended⟩

theorem Inv.setEnded (h : Inv σ q) {l : Leave} (hl : l.Ok σ q) :
    Inv σ { q with ended := some l } := by
  refine ⟨h.zombie, h.reaped, h.canExit, h.subchildSet,
    h.handlers_later ⟨rfl, id⟩, h.watcher_later ⟨rfl, id⟩,
    h.flow, ?_⟩
  intro l' hl'
  obtain rfl : l = l' := Option.some.inj hl'
  exact hl

/-- The child calls `fail` in a handler. -/
theorem Inv.fails (h : Inv σ q) (hrun : q.ended = none) (hborn : q.flow ≠ .unborn)
    (hrole : q.role = .child) : Inv σ { q with failed := true } := by
  refine ⟨h.zombie, h.reaped, h.canExit, h.subchildSet,
    h.handlers_later ⟨rfl, id⟩, h.watcher_later ⟨rfl, id⟩, ?_,
    fun l hl => absurd (hrun.symm.trans hl) (Option.some_ne_none l).symm⟩
  have hflow := h.flow
  show Flow.Ok σ { q with failed := true } q.flow
  generalize q.flow = fl at hflow hborn ⊢
  cases fl with
  | unborn => exact absurd rfl hborn
  | shell => exact absurd (hrole.symm.trans hflow.1) Role.noConfusion
  | command => exact absurd (hrole.symm.trans hflow.1) Role.noConfusion
  | _ => exact hflow

/-- An iteration of `finish`: it has waited for the offspring, and then `childexit` is its status.
When nothing was waiting, only a `die` from an earlier iteration makes it call `done`. -/
theorem finish_inv (h : Inv σ p) {die : Bool}
    (hdie : die = true → p.offspring = .reaped) :
    Inv σ (finish die p).1 ∧ Later p (finish die p).1 ∧
      ∀ f ∈ (finish die p).2, f.Ok σ (finish die p).1 := by
  unfold finish
  split
  next status hz =>
    obtain ⟨hreap, hlater⟩ := h.reap hz
    split
    next hsub =>
      refine ⟨⟨hreap.zombie, hreap.reaped, fun _ => rfl, hreap.subchildSet,
        hreap.handlers_later ⟨rfl, id⟩, hreap.watcher_later ⟨rfl, id⟩, hreap.flow, hreap.ended⟩,
        ⟨rfl, hlater.reaped⟩, ?_⟩
      exact List.forall_mem_singleton.mpr fun _ => rfl
    next =>
      split
      · refine ⟨hreap, hlater, ?_⟩
        exact List.forall_mem_singleton.mpr fun _ => rfl
      · refine ⟨hreap, hlater, ?_⟩
        exact List.forall_mem_singleton.mpr fun _ => rfl
  next =>
    refine ⟨h, ⟨rfl, id⟩, ?_⟩
    intro f hf
    dsimp only at hf
    split at hf
    next hd =>
      obtain rfl := List.mem_singleton.mp hf
      exact h.reaped (hdie hd)
    next => exact absurd hf List.not_mem_nil

/-- `done` keeps what it has been called with, in `cleanup`, or comes back at once. -/
theorem done_inv (h : Inv σ p) {status : ℕ} {origin : Origin} (hgives : origin.Gives σ status) :
    Inv σ (done status origin p).1 ∧ Later p (done status origin p).1 ∧
      ∀ f ∈ (done status origin p).2, f.Ok σ (done status origin p).1 := by
  unfold done
  split
  next => exact ⟨h, ⟨rfl, id⟩, fun f hf => absurd hf List.not_mem_nil⟩
  next =>
    refine ⟨⟨h.zombie, h.reaped, h.canExit, h.subchildSet,
      h.handlers_later ⟨rfl, id⟩, h.watcher_later ⟨rfl, id⟩,
      h.flow, h.ended⟩, ⟨rfl, id⟩, fun f hf => ?_⟩
    obtain rfl := List.mem_singleton.mp hf
    exact hgives

/-- A step of the function at the top.  What it leaves to be done is again as it should be: only
`fail` calls `done` with a status of its own. -/
theorem frameStep_inv (h : Inv σ p) (hrun : p.ended = none) (hborn : p.flow ≠ .unborn) {f : Frame}
    (hf : f.Ok σ p) {c : Choice} {r : Proc × List Frame} (hstep : frameStep f c p = some r) :
    Inv σ r.1 ∧ Later p r.1 ∧ ∀ g ∈ r.2, g.Ok σ r.1 := by
  unfold frameStep at hstep
  split at hstep
  next die =>
    cases hstep
    exact finish_inv h hf
  next =>
    cases hstep
    exact ⟨h, ⟨rfl, id⟩, fun g hg => absurd hg List.not_mem_nil⟩
  next =>
    cases hstep
    refine ⟨h.fails hrun hborn hf, ⟨rfl, id⟩, ?_⟩
    exact List.forall_mem_singleton.mpr trivial
  next =>
    split at hstep
    next =>
      cases hstep
      refine ⟨h, ⟨rfl, id⟩, ?_⟩
      intro g hg
      -- 0 in the handler of the SIGTERM that it sends, and 1 by itself
      rcases List.mem_pair.mp hg with rfl | rfl
      · exact .inl rfl
      · exact .inr rfl
    next =>
      cases hstep
      exact ⟨h.setEnded trivial, ⟨rfl, id⟩, fun g hg => absurd hg List.not_mem_nil⟩
  next =>
    cases hstep
    refine ⟨h, ⟨rfl, id⟩, ?_⟩
    exact List.forall_mem_singleton.mpr (.inr rfl)
  next =>
    cases hstep
    exact done_inv h hf
  next =>
    cases hstep
    exact ⟨h.setEnded hf, ⟨rfl, id⟩, fun g hg => absurd hg List.not_mem_nil⟩
  next => cases hstep

/-- The main flow moves on; the invariant says something about it at each place. -/
theorem Inv.setFlow (h : Inv σ p) {fl : Flow} (hfl : fl.Ok σ p) : Inv σ { p with flow := fl } :=
  ⟨h.zombie, h.reaped, h.canExit, h.subchildSet, h.handlers_later ⟨rfl, id⟩,
    h.watcher_later ⟨rfl, id⟩, hfl, h.ended⟩

/-- The main flow calls `fail`. -/
theorem Inv.callsFail (h : Inv σ p) (hrun : p.ended = none) {fl : Flow}
    (hfl : fl = .returned ∨ fl = .reading) : Inv σ (p.fails fl) := by
  refine ⟨h.zombie, h.reaped, h.canExit, h.subchildSet, ?_, h.watcher_later ⟨rfl, id⟩, ?_,
    fun l hl => absurd (hrun.symm.trans hl) (Option.some_ne_none l).symm⟩
  · exact List.forall_mem_singleton.mpr trivial
  · rcases hfl with rfl | rfl
    · trivial
    · trivial

/-- `fork`: nothing has been waited for so far, so nothing that is about the offspring changes. -/
theorem Inv.forks (h : Inv σ p) (hrun : p.ended = none) (hfl : p.flow = .fork) :
    Inv σ { p with offspring := .running, flow := .assign } ∧
      Later p { p with offspring := .running, flow := .assign } := by
  have hflow := h.flow
  rw [hfl] at hflow
  have hnone : p.offspring ≠ .reaped := fun hr => Offspring.noConfusion (hflow.symm.trans hr)
  have hlater : Later p { p with offspring := .running, flow := .assign } :=
    ⟨rfl, fun hr => absurd hr hnone⟩
  refine ⟨⟨fun _ hz => Offspring.noConfusion hz, fun hr => Offspring.noConfusion hr,
    fun hc => absurd (h.canExit hc) hnone, h.subchildSet, h.handlers_later hlater,
    h.watcher_later hlater, trivial, ?_⟩, hlater⟩
  intro l hl
  exact absurd (hrun.symm.trans hl) (Option.some_ne_none l).symm

/-- `waitpid` in the main flow has returned the offspring: `done` is called with its status, or the
child goes back to the test of `can_exit`. -/
theorem Inv.waited (h : Inv σ p) {status : ℕ} (hz : p.offspring = .zombie status) {fl : Flow}
    (hfl : fl = .canExit ∨ fl = .done status) :
    Inv σ { p.reap status with flow := fl } ∧ Later p { p.reap status with flow := fl } := by
  obtain ⟨hreap, hlater⟩ := h.reap hz
  refine ⟨hreap.setFlow ?_, hlater.role, hlater.reaped⟩
  rcases hfl with rfl | rfl
  · trivial
  · exact h.zombie _ hz

/-- `waitpid` in the main flow finds no offspring, because `finish` was there first. -/
theorem Inv.noChild (h : Inv σ p) (hr : p.offspring = .reaped)
    (hq : q = { p with canExit := true, flow := .canExit } ∨
      q = { p with flow := .done p.childexit }) : Inv σ q ∧ Later p q := by
  rcases hq with rfl | rfl
  · exact ⟨⟨h.zombie, h.reaped, fun _ => hr, h.subchildSet, h.handlers_later ⟨rfl, id⟩,
      h.watcher_later ⟨rfl, id⟩, trivial, h.ended⟩, rfl, id⟩
  · exact ⟨h.setFlow (h.reaped hr), rfl, id⟩

/-- **The main flow keeps the invariant.**  Only `fork` and `waitpid` have to do with the offspring;
elsewhere the statuses that are on their way stay the same. -/
theorem flowStep_inv (h : Inv σ p) (hrun : p.ended = none) {timeouts : Bool} {c : Choice}
    (hstep : FlowSteps timeouts p q c) : Inv σ q ∧ Later p q := by
  have hflow := h.flow
  cases hstep with
  | install hfl hq =>
    subst hq
    rw [hfl] at hflow
    exact ⟨⟨h.zombie, h.reaped, h.canExit, h.subchildSet, h.handlers_later ⟨rfl, id⟩,
      h.watcher_later ⟨rfl, id⟩, hflow, h.ended⟩, rfl, id⟩
  | fork hfl hq =>
    subst hq
    exact h.forks hrun hfl
  | setChild _ hq =>
    subst hq
    exact ⟨⟨h.zombie, h.reaped, h.canExit, h.subchildSet, h.handlers_later ⟨rfl, id⟩,
      h.watcher_later ⟨rfl, id⟩, h.flow, h.ended⟩, rfl, id⟩
  | setSubchild _ hrole hq =>
    subst hq
    exact ⟨⟨h.zombie, h.reaped, h.canExit, fun _ => hrole, h.handlers_later ⟨rfl, id⟩,
      h.watcher_later ⟨rfl, id⟩, h.flow, h.ended⟩, rfl, id⟩
  | assigned _ hq =>
    subst hq
    exact ⟨⟨h.zombie, h.reaped, h.canExit, h.subchildSet, h.handlers_later ⟨rfl, id⟩,
      h.watcher_later ⟨rfl, id⟩, trivial, h.ended⟩, rfl, id⟩
  -- a call of `fail`, which comes back to the loop or to the end of `main`
  | fails _ hq =>
    subst hq
    exact ⟨h.callsFail hrun (.inl rfl), rfl, id⟩
  | failsReading _ hq =>
    subst hq
    exact ⟨h.callsFail hrun (.inr rfl), rfl, id⟩
  -- the main flow moves on, to a place that has the status which its condition allows
  | exec hfl hq =>
    subst hq
    rw [hfl] at hflow
    exact ⟨h.setFlow hflow, rfl, id⟩
  | eof _ hover hq =>
    subst hq
    refine ⟨h.setFlow ?_, rfl, id⟩
    rcases hover with rfl | rfl
    · trivial
    · trivial
  | test _ htest hq =>
    subst hq
    refine ⟨h.setFlow ?_, rfl, id⟩
    rcases htest with ⟨hcan, rfl⟩ | rfl
    · -- `can_exit` is set only when the offspring has been waited for
      exact h.reaped (h.canExit hcan)
    · trivial
  | reap _ hz hfl' hq =>
    subst hq
    exact h.waited hz hfl'
  | noChild _ hr hq => exact h.noChild hr hq
  | refused _ _ hq =>
    subst hq
    exact ⟨h.setFlow trivial, rfl, id⟩
  | enter hfl hq =>
    subst hq
    rw [hfl] at hflow
    exact ⟨⟨h.zombie, h.reaped, h.canExit, h.subchildSet, h.handlers_later ⟨rfl, id⟩,
      h.watcher_later ⟨rfl, id⟩, hflow, h.ended⟩, rfl, id⟩
  -- the process ends
  | exits hfl hq =>
    subst hq
    rw [hfl] at hflow
    exact ⟨h.setEnded (.inl hflow), rfl, id⟩
  | libzstd _ hrole hcode hq =>
    subst hq
    refine ⟨h.setEnded (.inr ⟨hrole, ?_⟩), rfl, id⟩
    rintro rfl
    exact absurd hcode (by decide)
  | exit hfl hq =>
    subst hq
    rw [hfl] at hflow
    exact ⟨h.setEnded hflow, rfl, id⟩
  | returns _ hq =>
    subst hq
    exact ⟨h.setEnded trivial, rfl, id⟩

/-- A handler begins with nothing on its way but the 0 of SIGTERM and SIGHUP. -/
theorem handler_ok (h : Inv σ p) {sig : Sig} {frames : List Frame} {f : Frame}
    (hf : handler sig p frames = some f) : f.Ok σ p := by
  unfold handler at hf
  split at hf
  · split at hf
    · cases hf
    · cases hf
      exact fun hdie => Bool.noConfusion hdie
  · split at hf
    next hsub =>
      cases hf
      exact h.subchildSet hsub.1
    next => cases hf
  · cases hf
    exact rfl
  · cases hf
    exact rfl

/-- **A step of a process** keeps the invariant, whichever thread takes it. -/
theorem procStep_inv (h : Inv σ p) {timeouts : Bool} {th : Thread} {c : Choice}
    (hstep : procStep timeouts th c p = some q) : Inv σ q ∧ Later p q ∧ p.ended = none := by
  obtain ⟨hrun, hborn, hsteps⟩ := procStep_steps hstep
  cases hsteps with
  | killed hstatus hq =>
    subst hq
    exact ⟨h.setEnded hstatus, ⟨rfl, id⟩, hrun⟩
  | signal _ hf hq =>
    subst hq
    refine ⟨h.setHandlers ?_, ⟨rfl, id⟩, hrun⟩
    intro g hg
    rcases List.mem_cons.mp hg with rfl | hg
    · exact handler_ok h hf
    · exact h.handlers g hg
  | signalWatcher _ hf hq =>
    subst hq
    refine ⟨h.setWatcher ?_, ⟨rfl, id⟩, hrun⟩
    intro g hg
    rcases List.mem_cons.mp hg with rfl | hg
    · exact handler_ok h hf
    · exact h.watcher g hg
  | flow _ hflow =>
    obtain ⟨hinv, hlater⟩ := flowStep_inv h hrun hflow
    exact ⟨hinv, hlater, hrun⟩
  -- the function at the top goes on; what is below it has only to stand that the offspring may be
  -- gone
  | @frame _ f fs r hframes hr hq =>
    subst hq
    have hmem : f ∈ p.handlers := hframes ▸ List.mem_cons_self
    obtain ⟨hinv, hlater, hrest⟩ := frameStep_inv h hrun hborn (h.handlers f hmem) hr
    refine ⟨hinv.setHandlers ?_, ⟨hlater.role, hlater.reaped⟩, hrun⟩
    intro g hg
    rcases List.mem_append.mp hg with hg | hg
    · exact hrest g hg
    · exact (h.handlers g (hframes ▸ List.mem_cons_of_mem f hg)).later hlater
  | @frameWatcher _ f fs r hframes hr hq =>
    subst hq
    have hmem : f ∈ p.watcher := hframes ▸ List.mem_cons_self
    obtain ⟨hinv, hlater, hrest⟩ := frameStep_inv h hrun hborn (h.watcher f hmem) hr
    refine ⟨hinv.setWatcher ?_, ⟨hlater.role, hlater.reaped⟩, hrun⟩
    intro g hg
    rcases List.mem_append.mp hg with hg | hg
    · exact hrest g hg
    · exact (h.watcher g (hframes ▸ List.mem_cons_of_mem f hg)).later hlater

/-- A process that is forked begins where it does, with nothing on its way. -/
theorem Inv.begin (h : Inv σ p) {fl : Flow} (hfl : fl = .fork ∨ fl = .shell ∧ p.role = .subchild) :
    Inv σ (p.begin fl) ∧ (p.begin fl).role = p.role ∧ (p.begin fl).ended = p.ended := by
  unfold Proc.begin
  split
  next hunborn =>
    have hflow := h.flow
    rw [hunborn] at hflow
    refine ⟨h.setFlow ?_, rfl, rfl⟩
    rcases hfl with rfl | ⟨rfl, hrole⟩
    · exact hflow.2
    · exact ⟨hrole, hflow.1⟩
  next => exact ⟨h, rfl, rfl⟩

/-- The offspring has ended, and its status waits to be taken. -/
theorem Inv.inform (h : Inv σ p) {ended : Option Leave} (hσ : ∀ l, ended = some l → σ l.status) :
    Inv σ (p.inform ended) ∧ (p.inform ended).role = p.role ∧
      (p.inform ended).ended = p.ended := by
  unfold Proc.inform
  split
  next l hrunning =>
    have hlater : Later p { p with offspring := .zombie l.status } :=
      ⟨rfl, fun hr => Offspring.noConfusion (hrunning.symm.trans hr)⟩
    refine ⟨⟨?_, fun hr => Offspring.noConfusion hr,
      fun hc => Offspring.noConfusion (hrunning.symm.trans (h.canExit hc)), h.subchildSet,
      h.handlers_later hlater, h.watcher_later hlater, ?_,
      h.ended⟩, rfl, rfl⟩
    · intro st hst
      obtain rfl := Offspring.zombie.inj hst
      exact hσ l rfl
    · -- before `fork` nothing can end
      have hflow := h.flow
      show Flow.Ok σ { p with offspring := .zombie l.status } p.flow
      generalize p.flow = fl at hflow ⊢
      cases fl with
      | unborn => exact Offspring.noConfusion (hrunning.symm.trans hflow.2)
      | setup => exact Offspring.noConfusion (hrunning.symm.trans hflow)
      | fork => exact Offspring.noConfusion (hrunning.symm.trans hflow)
      | _ => exact hflow
  next => exact ⟨h, rfl, rfl⟩

end Inv

/-! ### The three of them -/

/-- The status that a process has ended with. -/
def Proc.EndedWith (p : Proc) (status : ℕ) : Prop := ∃ l, p.ended = some l ∧ status = l.status

theorem Proc.EndedWith.mono {p q : Proc} (h : p.ended = none ∨ q.ended = p.ended) (x : ℕ)
    (hx : p.EndedWith x) : q.EndedWith x := by
  obtain ⟨l, hl, rfl⟩ := hx
  rcases h with h | h
  · exact absurd (h.symm.trans hl) (Option.some_ne_none l).symm
  · exact ⟨l, h.trans hl, rfl⟩

/-- The invariant of the session.  The three invariants form a chain: what the parent may hand on is
what the child has ended with, and what the child may hand on is what the subchild has. -/
structure SessionInv (s : Session) : Prop where
  subchild : Inv (fun _ => False) s.subchild
  child : Inv s.subchild.EndedWith s.child
  parent : Inv s.child.EndedWith s.parent
  subchild_role : s.subchild.role = .subchild
  child_role : s.child.role = .child
  parent_role : s.parent.role = .parent

theorem sessionInv_start : SessionInv Session.start := by
  have hfresh : ∀ role installed fl σ, fl = .unborn ∨ fl = .setup →
      Inv σ (Proc.fresh role installed fl) := by
    intro role installed fl σ hfl
    refine ⟨fun _ h => Offspring.noConfusion h, fun h => Offspring.noConfusion h,
      fun h => Bool.noConfusion h, fun h => Bool.noConfusion h,
      fun f hf => absurd hf List.not_mem_nil, fun f hf => absurd hf List.not_mem_nil, ?_,
      fun l hl => absurd hl (Option.some_ne_none l).symm⟩
    rcases hfl with rfl | rfl
    · exact ⟨rfl, rfl⟩
    · exact rfl
  exact ⟨hfresh _ _ _ _ (.inl rfl), hfresh _ _ _ _ (.inl rfl), hfresh _ _ _ _ (.inr rfl), rfl, rfl,
    rfl⟩

/-- **A step of the session.** The process that takes it keeps its own invariant; the one above it
is told of its end, and the one below it may have been forked. -/
theorem sessionInv_step {timeouts : Bool} {s t : Session} {e : Event} (h : SessionInv s)
    (hstep : sessionStep timeouts s e = some t) : SessionInv t := by
  unfold sessionStep at hstep
  split at hstep
  next =>
    obtain ⟨p, hp, rfl⟩ := Option.map_eq_some_iff.mp hstep
    obtain ⟨hparent, hlater, -⟩ := procStep_inv h.parent hp
    -- the child is forked, or is there already
    obtain ⟨hbegin, hrole, hended⟩ := h.child.begin (.inl rfl)
    have hrole' := hlater.role.trans h.parent_role
    split
    · exact ⟨h.subchild, hbegin, hparent.mono (Proc.EndedWith.mono (.inr hended)), h.subchild_role,
        hrole.trans h.child_role, hrole'⟩
    · exact ⟨h.subchild, h.child, hparent, h.subchild_role, h.child_role, hrole'⟩
  next =>
    obtain ⟨p, hp, rfl⟩ := Option.map_eq_some_iff.mp hstep
    obtain ⟨hchild, hlater, hrun⟩ := procStep_inv h.child hp
    -- the parent is told of the end of the child
    obtain ⟨hinform, hrole, -⟩ :=
      (h.parent.mono (Proc.EndedWith.mono (.inl hrun))).inform fun l hl => ⟨l, hl, rfl⟩
    obtain ⟨hbegin, hrole', hended⟩ := h.subchild.begin (.inr ⟨rfl, h.subchild_role⟩)
    have hrole'' := hlater.role.trans h.child_role
    split
    · exact ⟨hbegin, hchild.mono (Proc.EndedWith.mono (.inr hended)), hinform,
        hrole'.trans h.subchild_role, hrole'', hrole.trans h.parent_role⟩
    · exact ⟨h.subchild, hchild, hinform, h.subchild_role, hrole'', hrole.trans h.parent_role⟩
  next =>
    obtain ⟨p, hp, rfl⟩ := Option.map_eq_some_iff.mp hstep
    obtain ⟨hsub, hlater, hrun⟩ := procStep_inv h.subchild hp
    -- and the child of the end of the subchild
    obtain ⟨hinform, hrole, hended⟩ :=
      (h.child.mono (Proc.EndedWith.mono (.inl hrun))).inform fun l hl => ⟨l, hl, rfl⟩
    exact ⟨hsub, hinform, h.parent.mono (Proc.EndedWith.mono (.inr hended)),
      hlater.role.trans h.subchild_role, hrole.trans h.child_role, h.parent_role⟩

theorem sessionInv_exec {timeouts : Bool} {es : List Event} {s : Session}
    (hrun : exec (sessionStep timeouts) Session.start es = some s) : SessionInv s :=
  exec_invariant (fun _ _ _ h hstep => sessionInv_step h hstep) hrun sessionInv_start

/-! ### Who calls `done` -/

def Frame.Calls (A : Origin → Prop) : Frame → Prop
  | .fail => A .fail
  | .done _ origin | .cleanup _ origin => A origin
  | _ => True

def Leave.Calls (A : Origin → Prop) : Leave → Prop
  | .done _ origin => A origin
  | .terminated => A .fail
  | _ => True

/-- `done` is called only by `A`, on either stack, and the process has ended by no other call of it.
-/
structure Calls (A : Origin → Prop) (p : Proc) : Prop where
  handlers : ∀ f ∈ p.handlers, f.Calls A
  watcher : ∀ f ∈ p.watcher, f.Calls A
  failed : p.failed = true → A .fail
  ended : ∀ l, p.ended = some l → l.Calls A

/-- The step leads to no other call. -/
def Choice.Allowed (A : Origin → Prop) : Choice → Prop
  | .fails => A .fail
  | .signal .term => A .term
  | .signal .hup => A .hup
  | _ => True

section Calls

variable {A : Origin → Prop} {p q : Proc} {c : Choice}

theorem Calls.setEnded (h : Calls A p) {l : Leave} (hl : l.Calls A) :
    Calls A { p with ended := some l } := by
  refine ⟨h.handlers, h.watcher, h.failed, ?_⟩
  intro l' hl'
  obtain rfl := Option.some.inj hl'
  exact hl

theorem finish_calls (hA : A .wait) (h : Calls A p) (die : Bool) :
    Calls A (finish die p).1 ∧ ∀ g ∈ (finish die p).2, g.Calls A := by
  unfold finish
  split
  · split
    · refine ⟨⟨h.handlers, h.watcher, h.failed, h.ended⟩, ?_⟩
      exact List.forall_mem_singleton.mpr trivial
    · split
      · refine ⟨⟨h.handlers, h.watcher, h.failed, h.ended⟩, ?_⟩
        exact List.forall_mem_singleton.mpr trivial
      · refine ⟨⟨h.handlers, h.watcher, h.failed, h.ended⟩, ?_⟩
        exact List.forall_mem_singleton.mpr trivial
  · refine ⟨h, ?_⟩
    intro g hg
    dsimp only at hg
    split at hg
    · obtain rfl := List.mem_singleton.mp hg
      exact hA
    · exact absurd hg List.not_mem_nil

/-- A step of the function at the top calls `done` for nobody new, unless it is a rotation that
fails.  The cases are those of `frameStep`. -/
theorem frameStep_calls (hA : A .wait) (h : Calls A p) (hc : c.Allowed A) {f : Frame}
    (hf : f.Calls A) {r : Proc × List Frame} (hstep : frameStep f c p = some r) :
    Calls A r.1 ∧ ∀ g ∈ r.2, g.Calls A := by
  unfold frameStep at hstep
  split at hstep
  next die =>
    cases hstep
    exact finish_calls hA h die
  next =>
    cases hstep
    exact ⟨h, fun g hg => absurd hg List.not_mem_nil⟩
  next =>
    cases hstep
    refine ⟨⟨h.handlers, h.watcher, fun _ => hc, h.ended⟩, ?_⟩
    exact List.forall_mem_singleton.mpr hc
  next =>
    split at hstep
    next =>
      cases hstep
      refine ⟨h, ?_⟩
      intro g hg
      rcases List.mem_pair.mp hg with rfl | rfl
      · exact hf
      · exact hf
    next =>
      cases hstep
      exact ⟨h.setEnded hf, fun g hg => absurd hg List.not_mem_nil⟩
  next =>
    cases hstep
    refine ⟨h, ?_⟩
    exact List.forall_mem_singleton.mpr hf
  next status origin =>
    cases hstep
    unfold done
    split
    · exact ⟨h, fun g hg => absurd hg List.not_mem_nil⟩
    · refine ⟨⟨h.handlers, h.watcher, h.failed, h.ended⟩, ?_⟩
      exact List.forall_mem_singleton.mpr hf
  next =>
    cases hstep
    exact ⟨h.setEnded hf, fun g hg => absurd hg List.not_mem_nil⟩
  next => cases hstep

/-- The main flow calls `fail`, or leaves the functions above it alone. -/
theorem flowStep_cases {timeouts : Bool} (hstep : FlowSteps timeouts p q c) :
    q.watcher = p.watcher ∧
      (c = .fails ∧ q.handlers = [.fail] ∧ q.failed = true ∧ q.ended = p.ended ∨
        q.handlers = p.handlers ∧ q.failed = p.failed ∧
          (q.ended = p.ended ∨ ∃ l, q.ended = some l ∧
            ((∃ status, l = .done status .wait) ∨ l = .returned ∨ ∃ code, l = .exit code))) := by
  cases hstep with
  | fails _ hq | failsReading _ hq =>
    subst hq
    exact ⟨rfl, .inl ⟨rfl, rfl, rfl, rfl⟩⟩
  | exits _ hq | libzstd _ _ _ hq =>
    subst hq
    exact ⟨rfl, .inr ⟨rfl, rfl, .inr ⟨_, rfl, .inr (.inr ⟨_, rfl⟩)⟩⟩⟩
  | exit _ hq =>
    subst hq
    exact ⟨rfl, .inr ⟨rfl, rfl, .inr ⟨_, rfl, .inl ⟨_, rfl⟩⟩⟩⟩
  | returns _ hq =>
    subst hq
    exact ⟨rfl, .inr ⟨rfl, rfl, .inr ⟨_, rfl, .inr (.inl rfl)⟩⟩⟩
  | noChild _ _ hq =>
    rcases hq with rfl | rfl
    · exact ⟨rfl, .inr ⟨rfl, rfl, .inl rfl⟩⟩
    · exact ⟨rfl, .inr ⟨rfl, rfl, .inl rfl⟩⟩
  | install _ hq | fork _ hq | setChild _ hq | setSubchild _ _ hq | assigned _ hq | exec _ hq
  | eof _ _ hq | test _ _ hq | reap _ _ _ hq | refused _ _ hq | enter _ hq =>
    subst hq
    exact ⟨rfl, .inr ⟨rfl, rfl, .inl rfl⟩⟩

theorem handler_calls {sig : Sig} (hc : (Choice.signal sig).Allowed A) {frames : List Frame}
    {f : Frame} (hf : handler sig p frames = some f) : f.Calls A := by
  unfold handler at hf
  split at hf
  · split at hf
    · cases hf
    · cases hf
      trivial
  · split at hf
    · cases hf
      trivial
    · cases hf
  · cases hf
    exact hc
  · cases hf
    exact hc

/-- **Only `A` calls `done`**, as long as no step of the process is one that leads to another call.
-/
theorem procStep_calls (hA : A .wait) (h : Calls A p) (hc : c.Allowed A) {timeouts : Bool}
    {th : Thread} (hstep : procStep timeouts th c p = some q) : Calls A q := by
  obtain ⟨hrun, -, hsteps⟩ := procStep_steps hstep
  cases hsteps with
  | killed _ hq =>
    subst hq
    exact h.setEnded trivial
  | signal _ hf hq =>
    subst hq
    refine ⟨?_, h.watcher, h.failed, h.ended⟩
    intro g hg
    rcases List.mem_cons.mp hg with rfl | hg
    · exact handler_calls hc hf
    · exact h.handlers g hg
  | signalWatcher _ hf hq =>
    subst hq
    refine ⟨h.handlers, ?_, h.failed, h.ended⟩
    intro g hg
    rcases List.mem_cons.mp hg with rfl | hg
    · exact handler_calls hc hf
    · exact h.watcher g hg
  | flow _ hflow =>
    obtain ⟨hwatcher, ⟨rfl, hhandlers, -, hended⟩ | ⟨hhandlers, hfailed, hended⟩⟩ :=
      flowStep_cases hflow
    · -- the main flow calls `fail`
      refine ⟨?_, hwatcher ▸ h.watcher, fun _ => hc, hended ▸ h.ended⟩
      intro f hf
      rw [hhandlers] at hf
      obtain rfl := List.mem_singleton.mp hf
      exact hc
    · refine ⟨hhandlers ▸ h.handlers, hwatcher ▸ h.watcher, hfailed ▸ h.failed, ?_⟩
      rcases hended with hended | ⟨l, hl, hcases⟩
      · exact hended ▸ h.ended
      · intro l' hl'
        obtain rfl := Option.some.inj (hl.symm.trans hl')
        rcases hcases with ⟨status, rfl⟩ | rfl | ⟨code, rfl⟩
        · exact hA
        · trivial
        · trivial
  | @frame _ f fs r hframes hr hq =>
    subst hq
    have hmem : f ∈ p.handlers := hframes ▸ List.mem_cons_self
    obtain ⟨hcalls, hrest⟩ := frameStep_calls hA h hc (h.handlers f hmem) hr
    refine ⟨?_, hcalls.watcher, hcalls.failed, hcalls.ended⟩
    intro g hg
    rcases List.mem_append.mp hg with hg | hg
    · exact hrest g hg
    · exact h.handlers g (hframes ▸ List.mem_cons_of_mem f hg)
  | @frameWatcher _ f fs r hframes hr hq =>
    subst hq
    have hmem : f ∈ p.watcher := hframes ▸ List.mem_cons_self
    obtain ⟨hcalls, hrest⟩ := frameStep_calls hA h hc (h.watcher f hmem) hr
    refine ⟨hcalls.handlers, ?_, hcalls.failed, hcalls.ended⟩
    intro g hg
    rcases List.mem_append.mp hg with hg | hg
    · exact hrest g hg
    · exact h.watcher g (hframes ▸ List.mem_cons_of_mem f hg)

end Calls

end TtyRec.Exits
