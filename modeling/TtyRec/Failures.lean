import TtyRec.ExitCode

/-!
# Failures

`done` takes the exit code out of a wait status.  The status of a command that was killed has
none, and `EXIT_FAILURE`, which `fail` hands to `done`, is no wait status; so a session that
fails ends with 0.  It does not when a process that fails is ended by a signal: by the SIGTERM
of its own `fail`, as long as the parent has not installed its handler.

## Main definitions

* `Failing`, `Reported` — a session that fails, and whose failure is reported.
* `Spared` — the ends for which it is.
* `Spares` — the steps that lead to no other.

## Main results

* `failure_reported` — **a failure before the handlers are installed is reported, and with an
  exit by `done` none is**.
* `killed_reported_as_success` — the caller of a command that was killed is told 0.
-/

namespace TtyRec.Exits

open Run

/-! ### Failures -/

/-- By a signal that is not handled, or by the SIGTERM that `fail` sends. -/
def Leave.BySignal : Leave → Prop
  | .killed _ | .terminated => True
  | _ => False

/-- A process ends through `fail`. -/
def Proc.EndsThroughFail (p : Proc) : Prop :=
  (∃ status, p.ended = some (.done status .fail)) ∨ p.ended = some .terminated ∨
    p.failed = true ∧ ∃ status, p.ended = some (.killed status)

/-- A process ends through `fail`, or is the subchild, which could not execute the command. -/
def Proc.Fails (p : Proc) : Prop := p.EndsThroughFail ∨ p.role = .subchild ∧ p.failed = true

def Session.procs (s : Session) : List Proc := [s.subchild, s.child, s.parent]

/-- The session fails: a process does, or the command is killed. -/
def Failing (s : Session) : Prop :=
  (∃ p ∈ s.procs, p.Fails) ∨ ∃ status, s.subchild.ended = some (.killed status)

/-- The processes that fail, and then ttyrec itself, do not end with 0. -/
def Reported (s : Session) : Prop :=
  (∀ p ∈ s.procs, p.Fails → ∀ l, p.ended = some l → l.status ≠ 0) ∧
    ∀ l, s.parent.ended = some l → l.status ≠ 0

/-- The processes that fail are ended by a signal, and so is ttyrec itself, or libzstd ends the
child and the parent hands that on. -/
def Spared (s : Session) : Prop :=
  (∀ p ∈ s.procs, p.Fails → ∀ l, p.ended = some l → l.BySignal) ∧
    ∀ l, s.parent.ended = some l → l.BySignal ∨
      (∃ status, l = .done status .wait) ∧ ∃ code, s.child.ended = some (.exit code)

/-- Without a signal's help, a status that is not waited for is 0. -/
theorem Origin.Gives.wexitstatus {σ : ℕ → Prop} {status : ℕ} {origin : Origin}
    (h : origin.Gives σ status) (hne : origin ≠ .wait) : wexitstatus status = 0 := by
  cases origin with
  | wait => exact absurd rfl hne
  | term =>
    obtain rfl : status = 0 := h
    rfl
  | hup =>
    obtain rfl : status = 0 := h
    rfl
  | fail =>
    rcases h with rfl | rfl
    · rfl
    · rfl

theorem exited_eq_zero_iff (code : UInt8) : exited code = 0 ↔ code = 0 := by
  unfold exited
  rw [Nat.mul_eq_zero, or_iff_left (by decide), ← UInt8.toNat_inj]
  rfl

/-- A process that has ended by itself, and without `fail`, has not failed. -/
theorem Proc.not_fails {p : Proc} {l : Leave} (hl : p.ended = some l)
    (hfail : ∀ status, l ≠ .done status .fail) (hsignal : ¬ l.BySignal)
    (hsub : p.role = .subchild → p.failed = false) : ¬ p.Fails := by
  rintro ((⟨status, hst⟩ | hst | ⟨-, status, hst⟩) | ⟨hrole, hfailed⟩)
  · exact hfail status (Option.some.inj (hl.symm.trans hst))
  · obtain rfl := Option.some.inj (hl.symm.trans hst)
    exact hsignal trivial
  · obtain rfl := Option.some.inj (hl.symm.trans hst)
    exact hsignal trivial
  · exact absurd (hfailed.symm.trans (hsub hrole)) Bool.noConfusion

section Status

variable {σ : ℕ → Prop} {p : Proc} {l : Leave}

/-- A signal is a status that is not 0. -/
theorem Inv.status_of_bySignal (h : Inv σ p) (hl : p.ended = some l) (hsignal : l.BySignal) :
    l.status ≠ 0 := by
  have hok := h.ended l hl
  cases l with
  | killed status => exact hok.1.ne'
  | terminated => exact (by decide : (15 : ℕ) ≠ 0)
  | done => exact absurd hsignal not_false
  | returned => exact absurd hsignal not_false
  | exit => exact absurd hsignal not_false

/-- A process that fails ends with 0, unless a signal ends it. -/
theorem Inv.status_of_fails (h : Inv σ p) (hsub : p.role = .subchild → ∀ x, ¬ σ x)
    (hfails : p.Fails) (hl : p.ended = some l) : l.status ≠ 0 ↔ l.BySignal := by
  refine ⟨?_, h.status_of_bySignal hl⟩
  intro hne
  have hok := h.ended l hl
  cases l with
  | killed => trivial
  | terminated => trivial
  | returned => exact absurd rfl hne
  -- `done` has been called by `fail`, with 0 or 1, and neither of them has a second byte
  | done status origin =>
    have hwait : origin ≠ .wait := by
      rintro rfl
      rcases hfails with (⟨st, hst⟩ | hst | ⟨-, st, hst⟩) | ⟨hrole, -⟩
      · cases hl.symm.trans hst
      · cases hl.symm.trans hst
      · cases hl.symm.trans hst
      · exact hsub hrole status hok
    rw [Leave.status, hok.wexitstatus hwait] at hne
    exact absurd rfl hne
  -- only the command and a failing libzstd end like this
  | exit code =>
    rcases hfails with (⟨st, hst⟩ | hst | ⟨-, st, hst⟩) | ⟨hrole, hfailed⟩
    · cases hl.symm.trans hst
    · cases hl.symm.trans hst
    · cases hl.symm.trans hst
    · rcases hok with ⟨-, hok⟩ | ⟨hchild, -⟩
      · exact absurd (hfailed.symm.trans hok) Bool.noConfusion
      · exact absurd (hrole.symm.trans hchild) Role.noConfusion

/-- An exit code that is not 0 was waited for, or is the one of the command or of libzstd. -/
theorem Inv.code_ne_zero (h : Inv σ p) (hl : p.ended = some l) (hne : wexitstatus l.status ≠ 0) :
    (∃ status, l = .done status .wait ∧ σ status ∧ wexitstatus status ≠ 0) ∨
      ∃ code, l = .exit code := by
  have hok := h.ended l hl
  cases l with
  | done status origin =>
    rw [Leave.status, wexitstatus_exited] at hne
    have hwait : origin = .wait := by
      by_contra hwait
      exact hne (hok.wexitstatus hwait)
    subst hwait
    exact .inl ⟨status, rfl, hok, hne⟩
  | returned => exact absurd rfl hne
  | exit code => exact .inr ⟨code, rfl⟩
  | killed status => exact absurd (wexitstatus_of_lt hok.2) hne
  | terminated => exact absurd rfl hne

end Status

/-- A session that fails, and whose child hands on an exit code, has lost its child to libzstd. -/
theorem SessionInv.child_exit {s : Session} (h : SessionInv s) (hfail : Failing s) {status : ℕ}
    (hparent : s.parent.ended = some (.done status .wait)) {l : Leave} (hl : s.child.ended = some l)
    (hne : wexitstatus l.status ≠ 0) : ∃ code, s.child.ended = some (.exit code) := by
  rcases h.child.code_ne_zero hl hne with ⟨st, rfl, ⟨l', hl', rfl⟩, hst⟩ | ⟨code, rfl⟩
  · -- the subchild has exited, and nothing has failed
    exfalso
    rcases h.subchild.code_ne_zero hl' hst with ⟨_, -, hfalse, -⟩ | ⟨code, rfl⟩
    · exact hfalse
    have hnot : ∀ p ∈ s.procs, ¬ p.Fails := by
      intro p hp
      rcases List.mem_cons.mp hp with rfl | hp
      · apply Proc.not_fails hl' (fun _ => Leave.noConfusion) not_false
        intro hrole
        rcases h.subchild.ended _ hl' with ⟨-, hok⟩ | ⟨hchild, -⟩
        · exact hok
        · exact absurd (hrole.symm.trans hchild) Role.noConfusion
      rcases List.mem_pair.mp hp with rfl | rfl
      · apply Proc.not_fails hl
        · rintro _ ⟨⟩
        · exact not_false
        · exact fun hrole => Role.noConfusion (hrole.symm.trans h.child_role)
      · apply Proc.not_fails hparent
        · rintro _ ⟨⟩
        · exact not_false
        · exact fun hrole => Role.noConfusion (hrole.symm.trans h.parent_role)
    rcases hfail with ⟨p, hp, hfails⟩ | ⟨_, hkilled⟩
    · exact hnot p hp hfails
    · cases hl'.symm.trans hkilled
  · exact ⟨code, hl⟩

/-- **Which failures are reported.** An exit code that is not 0 would have to be waited for, and
what is waited for comes from the command, which has not been executed or has been killed, or from
libzstd. -/
theorem SessionInv.reported_iff {s : Session} (h : SessionInv s) (hfail : Failing s) :
    Reported s ↔ Spared s := by
  have hprocs : (∀ p ∈ s.procs, p.Fails → ∀ l, p.ended = some l → l.status ≠ 0) ↔
      ∀ p ∈ s.procs, p.Fails → ∀ l, p.ended = some l → l.BySignal := by
    -- a process that fails
    have hiff : ∀ p ∈ s.procs, p.Fails → ∀ l, p.ended = some l → (l.status ≠ 0 ↔ l.BySignal) := by
      intro p hp hfails l hl
      rcases List.mem_cons.mp hp with rfl | hp
      · exact h.subchild.status_of_fails (fun _ _ => id) hfails hl
      rcases List.mem_pair.mp hp with rfl | rfl
      · exact h.child.status_of_fails
          (fun hrole => Role.noConfusion (hrole.symm.trans h.child_role)) hfails hl
      · exact h.parent.status_of_fails
          (fun hrole => Role.noConfusion (hrole.symm.trans h.parent_role)) hfails hl
    constructor
    · intro hne p hp hfails l hl
      exact (hiff p hp hfails l hl).mp (hne p hp hfails l hl)
    · intro hsignal p hp hfails l hl
      exact (hiff p hp hfails l hl).mpr (hsignal p hp hfails l hl)
  -- ttyrec itself
  unfold Reported Spared
  rw [hprocs]
  refine and_congr_right fun _ => forall₂_congr ?_
  intro l hl
  constructor
  · intro hne
    have hok := h.parent.ended l hl
    cases l with
    | killed => exact .inl trivial
    | terminated => exact .inl trivial
    | returned => exact absurd rfl hne
    | exit code =>
      rcases hok with ⟨hrole, -⟩ | ⟨hrole, -⟩
      · exact absurd (hrole.symm.trans h.parent_role) Role.noConfusion
      · exact absurd (hrole.symm.trans h.parent_role) Role.noConfusion
    | done status origin =>
      have hcode : wexitstatus (Leave.done status origin).status ≠ 0 := by
        rw [Leave.status, wexitstatus_exited]
        rwa [Leave.status, Ne, exited_eq_zero_iff] at hne
      rcases h.parent.code_ne_zero hl hcode with ⟨st, heq, ⟨l', hl', rfl⟩, hst⟩ | ⟨code, heq⟩
      · cases heq
        exact .inr ⟨⟨_, rfl⟩, h.child_exit hfail hl hl' hst⟩
      · cases heq
  · rintro (hsignal | ⟨⟨status, rfl⟩, code, hcode⟩)
    · exact h.parent.status_of_bySignal hl hsignal
    · obtain ⟨l', hl', rfl⟩ : s.child.EndedWith status := h.parent.ended _ hl
      obtain rfl := Option.some.inj (hcode.symm.trans hl')
      rw [Leave.status, Leave.status, wexitstatus_exited, Ne, exited_eq_zero_iff]
      rcases h.child.ended _ hcode with ⟨hrole, -⟩ | ⟨-, hne⟩
      · exact absurd (hrole.symm.trans h.child_role) Role.noConfusion
      · exact hne

/-! ### Runs -/

/-- A step after which a failure can still be reported: `fail` is called only by the parent,
before it has installed its handlers, and the SIGTERM that it sends is not blocked or ignored;
the command is not killed. -/
def Spares (s : Session) (e : Event) : Prop :=
  match e.choice with
  | .fails => e.who = .parent ∧ s.parent.flow = .setup
  | .masked => False
  | .killed _ => e.who ≠ .subchild
  | _ => True

instance (s : Session) : DecidablePred (Spares s)
  | ⟨_, _, .fails⟩ => inferInstanceAs (Decidable (_ ∧ _))
  | ⟨_, _, .masked⟩ => .isFalse not_false
  | ⟨_, _, .killed _⟩ => inferInstanceAs (Decidable (_ ≠ _))
  | ⟨_, _, .go⟩ | ⟨_, _, .setChild⟩ | ⟨_, _, .setSubchild⟩ | ⟨_, _, .over⟩ | ⟨_, _, .libzstd _⟩
  | ⟨_, _, .exits _⟩ | ⟨_, _, .signal _⟩ => .isTrue trivial

/-- The parent has called `fail` before it has installed its handlers, so nothing stands between it
and its own SIGTERM. -/
structure Early (p : Proc) : Prop where
  running : p.ended = none
  installed : p.installed = false
  handlers : p.handlers = [.fail]
  threaded : p.threaded = false
  watcher : p.watcher = []

/-- Nothing has happened yet: there are no handlers, nothing is above the main flow, and there is no
second thread. -/
structure AtSetup (p : Proc) : Prop where
  installed : p.installed = false
  handlers : p.handlers = []
  threaded : p.threaded = false
  watcher : p.watcher = []

/-- The parent has not called `fail`, or is ended by the SIGTERM of `fail`. -/
inductive ParentSpared (p : Proc) : Prop where
  | calls (hcalls : Calls (· ≠ .fail) p) (hsetup : p.flow = .setup → AtSetup p)
  | early (hearly : Early p)
  | signal (l : Leave) (hended : p.ended = some l) (hl : l.BySignal)

theorem not_fails_of_calls {p : Proc} (h : Calls (· ≠ .fail) p) : ¬ p.Fails := by
  rintro ((⟨status, hst⟩ | hst | ⟨hfailed, -⟩) | ⟨-, hfailed⟩)
  · exact absurd rfl (h.ended _ hst)
  · exact absurd rfl (h.ended _ hst)
  · exact absurd rfl (h.failed hfailed)
  · exact absurd rfl (h.failed hfailed)

section Step

variable {p q : Proc} {timeouts : Bool} {th : Thread} {c : Choice}

/-- Anything but `fail`. -/
theorem allowed_of_ne {c : Choice} (h : c ≠ .fails) : c.Allowed (· ≠ .fail) := by
  cases c with
  | fails => exact absurd rfl h
  | signal sig =>
    cases sig with
    | term => exact Origin.noConfusion
    | hup => exact Origin.noConfusion
    | chld => trivial
    | usr1 => trivial
  | _ => trivial

/-- The parent that has called `fail` before it has any handler takes its own SIGTERM next. -/
theorem early_step (h : Early p) (hmasked : c ≠ .masked)
    (hstep : procStep timeouts th c p = some q) : ∃ l, q.ended = some l ∧ l.BySignal := by
  obtain ⟨-, -, hsteps⟩ := procStep_steps hstep
  cases hsteps with
  | killed _ hq =>
    subst hq
    exact ⟨_, rfl, trivial⟩
  | signal hinstalled => exact absurd (hinstalled.symm.trans h.installed) Bool.noConfusion
  | signalWatcher hthreaded => exact absurd (hthreaded.symm.trans h.threaded) Bool.noConfusion
  | flow hframes => exact absurd (hframes.symm.trans h.handlers) (List.cons_ne_nil _ _).symm
  | @frame _ f fs r hframes hr hq =>
    subst hq
    obtain ⟨rfl, -⟩ := List.cons.inj (hframes.symm.trans h.handlers)
    cases c with
    | go =>
      rw [frameStep, h.installed, if_neg Bool.false_ne_true] at hr
      cases hr
      exact ⟨_, rfl, trivial⟩
    | masked => exact absurd rfl hmasked
    | _ => cases hr
  | frameWatcher hframes => exact absurd (hframes.symm.trans h.watcher) (List.cons_ne_nil _ _)

/-- The main flow never comes back to its beginning: no case leads there, and those that leave it
where it is begin elsewhere. -/
theorem flowStep_ne_setup (hstep : FlowSteps timeouts p q c) : q.flow ≠ .setup := by
  cases hstep with
  | setChild hfl hq | setSubchild hfl _ hq | exits hfl hq | libzstd hfl _ _ hq | exit hfl hq
  | returns hfl hq =>
    subst hq
    exact fun hsetup => Flow.noConfusion (hfl.symm.trans hsetup)
  | eof _ hfl' hq =>
    subst hq
    rcases hfl' with rfl | rfl
    · exact Flow.noConfusion
    · exact Flow.noConfusion
  | test _ hfl' hq =>
    subst hq
    rcases hfl' with ⟨-, rfl⟩ | rfl
    · exact Flow.noConfusion
    · exact Flow.noConfusion
  | reap _ _ hfl' hq =>
    subst hq
    rcases hfl' with rfl | rfl
    · exact Flow.noConfusion
    · exact Flow.noConfusion
  | noChild _ _ hq =>
    rcases hq with rfl | rfl
    · exact Flow.noConfusion
    · exact Flow.noConfusion
  | install _ hq | fails _ hq | failsReading _ hq | fork _ hq | assigned _ hq | exec _ hq
  | refused _ _ hq | enter _ hq =>
    subst hq
    exact Flow.noConfusion

/-- **A step of the parent**, when only its setup may fail. -/
theorem parentSpared_step (h : ParentSpared p) (hfails : c = .fails → p.flow = .setup)
    (hmasked : c ≠ .masked) (hstep : procStep timeouts th c p = some q) : ParentSpared q := by
  cases h with
  | early hearly =>
    obtain ⟨l, hl, hsignal⟩ := early_step hearly hmasked hstep
    exact .signal l hl hsignal
  | signal l hended =>
    obtain ⟨hrun, -, -⟩ := procStep_steps hstep
    exact absurd (hrun.symm.trans hended) (Option.some_ne_none l).symm
  | calls hcalls hsetup =>
    by_cases hc : c = .fails
    · subst hc
      have hflow := hfails rfl
      -- `fail` is called at the very beginning, where nothing is above the main flow
      have hat := hsetup hflow
      obtain ⟨hrun, -, hsteps⟩ := procStep_steps hstep
      cases hsteps with
      | flow _ hsteps =>
        cases hsteps with
        | fails _ hq =>
          subst hq
          exact .early ⟨hrun, hat.installed, rfl, hat.threaded, hat.watcher⟩
        | failsReading hfl => exact absurd (hfl.symm.trans hflow) Flow.noConfusion
      | frame hframes => exact absurd (hframes.symm.trans hat.handlers) (List.cons_ne_nil _ _)
      | frameWatcher hframes => exact absurd (hframes.symm.trans hat.watcher) (List.cons_ne_nil _ _)
    · refine .calls (procStep_calls Origin.noConfusion hcalls (allowed_of_ne hc) hstep) ?_
      -- nothing else happens at the beginning that would be in the way of a later `fail`
      intro hq
      obtain ⟨-, -, hsteps⟩ := procStep_steps hstep
      cases hsteps with
      | killed _ heq =>
        subst heq
        obtain ⟨hinstalled, hnil, hthreaded, hnil'⟩ := hsetup hq
        exact ⟨hinstalled, hnil, hthreaded, hnil'⟩
      | signal hinstalled _ heq =>
        subst heq
        exact absurd (hinstalled.symm.trans (hsetup hq).installed) Bool.noConfusion
      | signalWatcher hthreaded _ heq =>
        subst heq
        exact absurd (hthreaded.symm.trans (hsetup hq).threaded) Bool.noConfusion
      | flow _ hflow => exact absurd hq (flowStep_ne_setup hflow)
      | frame hframes hr heq =>
        subst heq
        have hflow := (frameStep_entered hr).2.1
        have hnil := (hsetup (hflow.symm.trans hq)).handlers
        exact absurd (hframes.symm.trans hnil) (List.cons_ne_nil _ _)
      | frameWatcher hframes hr heq =>
        subst heq
        have hflow := (frameStep_entered hr).2.1
        have hnil := (hsetup (hflow.symm.trans hq)).watcher
        exact absurd (hframes.symm.trans hnil) (List.cons_ne_nil _ _)

theorem Calls.begin {A : Origin → Prop} (h : Calls A p) (fl : Flow) : Calls A (p.begin fl) := by
  unfold Proc.begin
  split
  · exact ⟨h.handlers, h.watcher, h.failed, h.ended⟩
  · exact h

theorem Calls.inform {A : Origin → Prop} (h : Calls A p) (ended : Option Leave) :
    Calls A (p.inform ended) := by
  unfold Proc.inform
  split
  · exact ⟨h.handlers, h.watcher, h.failed, h.ended⟩
  · exact h

theorem ParentSpared.inform (h : ParentSpared p) (ended : Option Leave) :
    ParentSpared (p.inform ended) := by
  cases h with
  | calls hcalls hsetup =>
    refine .calls (hcalls.inform ended) ?_
    unfold Proc.inform
    split
    · intro hflow
      obtain ⟨hinstalled, hnil, hthreaded, hnil'⟩ := hsetup hflow
      exact ⟨hinstalled, hnil, hthreaded, hnil'⟩
    · exact hsetup
  | early h =>
    unfold Proc.inform
    split
    · exact .early ⟨h.running, h.installed, h.handlers, h.threaded, h.watcher⟩
    · exact .early h
  | signal l hl hsignal =>
    unfold Proc.inform
    split
    · exact .signal l hl hsignal
    · exact .signal l hl hsignal

end Step

/-- The invariant of the session, when nothing fails but the parent before it has handlers.  Then no
process calls `done` for `fail`, which is what would hide a failure. -/
structure SparedSession (s : Session) : Prop where
  inv : SessionInv s
  subchild : Calls (· ≠ .fail) s.subchild
  child : Calls (· ≠ .fail) s.child
  parent : ParentSpared s.parent
  killed : ∀ status, s.subchild.ended ≠ some (.killed status)

theorem sparedSession_start : SparedSession Session.start := by
  have hfresh : ∀ role installed fl, Calls (· ≠ .fail) (Proc.fresh role installed fl) := by
    intro role installed fl
    exact ⟨fun f hf => absurd hf List.not_mem_nil, fun f hf => absurd hf List.not_mem_nil,
      fun h => Bool.noConfusion h, fun l hl => absurd hl (Option.some_ne_none l).symm⟩
  exact ⟨sessionInv_start, hfresh _ _ _, hfresh _ _ _,
    .calls (hfresh _ _ _) fun _ => ⟨rfl, rfl, rfl, rfl⟩,
    fun status => (Option.some_ne_none _).symm⟩

/-- A process of which nobody says that it is killed by a signal ends with an exit code. -/
theorem procStep_killed {timeouts : Bool} {th : Thread} {c : Choice} {p q : Proc}
    (hc : ∀ status, c ≠ .killed status) (hstep : procStep timeouts th c p = some q)
    (status : ℕ) : q.ended ≠ some (.killed status) := by
  obtain ⟨hrun, -, hsteps⟩ := procStep_steps hstep
  -- a function on a stack ends the process through `done` only
  have hframe : ∀ {f : Frame} {r : Proc × List Frame}, frameStep f c p = some r →
      r.1.ended ≠ some (.killed status) := by
    intro f r hr heq
    rcases (frameStep_entered hr).2.2.2.2.2 with ⟨hended, -⟩ | ⟨l, hl, ⟨st, origin, rfl⟩ | rfl⟩
    · exact Option.some_ne_none _ (heq.symm.trans (hended.trans hrun))
    · exact Leave.noConfusion (Option.some.inj (heq.symm.trans hl))
    · exact Leave.noConfusion (Option.some.inj (heq.symm.trans hl))
  cases hsteps with
  | killed => exact absurd rfl (hc _)
  | signal _ _ hq =>
    subst hq
    exact fun heq => Option.some_ne_none _ (heq.symm.trans hrun)
  | signalWatcher _ _ hq =>
    subst hq
    exact fun heq => Option.some_ne_none _ (heq.symm.trans hrun)
  | flow _ hflow =>
    intro heq
    rcases (flowStep_cases hflow).2 with ⟨-, -, -, hended⟩ | ⟨-, -, hended | ⟨l, hl, hcases⟩⟩
    · exact Option.some_ne_none _ (heq.symm.trans (hended.trans hrun))
    · exact Option.some_ne_none _ (heq.symm.trans (hended.trans hrun))
    · rcases hcases with ⟨st, rfl⟩ | rfl | ⟨code, rfl⟩
      · exact Leave.noConfusion (Option.some.inj (heq.symm.trans hl))
      · exact Leave.noConfusion (Option.some.inj (heq.symm.trans hl))
      · exact Leave.noConfusion (Option.some.inj (heq.symm.trans hl))
  | frame _ hr hq =>
    subst hq
    exact hframe hr
  | frameWatcher _ hr hq =>
    subst hq
    exact hframe hr

/-- **A step of the session.** `fail` is called nowhere but in the parent at its beginning, and the
command is not killed. -/
theorem sparedSession_step {timeouts : Bool} {s t : Session} {e : Event} (h : SparedSession s)
    (hok : Spares s e) (hstep : sessionStep timeouts s e = some t) : SparedSession t := by
  have hinv := sessionInv_step h.inv hstep
  have hmasked : e.choice ≠ .masked := by
    intro heq
    rw [Spares, heq] at hok
    exact hok
  have hfails : e.choice = .fails → e.who = .parent ∧ s.parent.flow = .setup := by
    intro heq
    rw [Spares, heq] at hok
    exact hok
  have hkilled : ∀ status, e.choice = .killed status → e.who ≠ .subchild := by
    intro status heq
    rw [Spares, heq] at hok
    exact hok
  -- the other two take only steps that lead to no `fail`
  have hallowed : e.who ≠ .parent → e.choice.Allowed (· ≠ .fail) :=
    fun hwho => allowed_of_ne fun heq => hwho (hfails heq).1
  unfold sessionStep at hstep
  split at hstep
  next hwho =>
    obtain ⟨p, hp, rfl⟩ := Option.map_eq_some_iff.mp hstep
    have hparent := parentSpared_step h.parent (fun heq => (hfails heq).2) hmasked hp
    refine ⟨hinv, h.subchild, ?_, hparent, h.killed⟩
    dsimp only
    split
    · exact h.child.begin _
    · exact h.child
  next hwho =>
    obtain ⟨p, hp, rfl⟩ := Option.map_eq_some_iff.mp hstep
    have hchild := procStep_calls Origin.noConfusion h.child
      (hallowed (by rw [hwho]; exact Role.noConfusion)) hp
    refine ⟨hinv, ?_, hchild, h.parent.inform p.ended, ?_⟩
    · dsimp only
      split
      · exact h.subchild.begin _
      · exact h.subchild
    · have hended : ∀ fl, (s.subchild.begin fl).ended = s.subchild.ended := by
        intro fl
        unfold Proc.begin
        split <;> rfl
      dsimp only
      split
      · rw [hended]
        exact h.killed
      · exact h.killed
  next hwho =>
    obtain ⟨p, hp, rfl⟩ := Option.map_eq_some_iff.mp hstep
    have hsub := procStep_calls Origin.noConfusion h.subchild
      (hallowed (by rw [hwho]; exact Role.noConfusion)) hp
    exact ⟨hinv, hsub, h.child.inform p.ended, h.parent,
      procStep_killed (fun status heq => hkilled status heq hwho) hp⟩

/-- A session that was spared. -/
theorem SparedSession.reported {s : Session} (h : SparedSession s) (hfail : Failing s) :
    Reported s := by
  have hsub := not_fails_of_calls h.subchild
  have hchild := not_fails_of_calls h.child
  -- only the parent can have failed, and the signal of `fail` has ended it
  have hparent : ∀ l, s.parent.ended = some l → l.status ≠ 0 := by
    intro l hl
    cases h.parent with
    | calls hcalls =>
      exfalso
      rcases hfail with ⟨p, hp, hfails⟩ | ⟨status, hkilled⟩
      · rcases List.mem_cons.mp hp with rfl | hp
        · exact hsub hfails
        rcases List.mem_pair.mp hp with rfl | rfl
        · exact hchild hfails
        · exact not_fails_of_calls hcalls hfails
      · exact h.killed status hkilled
    | early hearly => exact absurd (hearly.running.symm.trans hl) (Option.some_ne_none l).symm
    | signal l' hl' hsignal =>
      obtain rfl := Option.some.inj (hl.symm.trans hl')
      exact h.inv.parent.status_of_bySignal hl hsignal
  refine ⟨?_, hparent⟩
  intro p hp hfails l hl
  rcases List.mem_cons.mp hp with rfl | hp
  · exact absurd hfails hsub
  rcases List.mem_pair.mp hp with rfl | rfl
  · exact absurd hfails hchild
  · exact hparent l hl

/-- **Which failures are reported**: in every run in which `fail` is called only by the parent,
before it has installed its handlers and with the SIGTERM of `fail` neither blocked nor
ignored, and in which the command is not killed, every failure is reported.  In any run, a
failure is reported exactly if a signal ends the processes that fail, and ttyrec too, or
libzstd ends the child. -/
theorem failure_reported (timeouts : Bool) {es : List Event} {s : Session}
    (hrun : exec (sessionStep timeouts) Session.start es = some s) (hfail : Failing s) :
    (Along (sessionStep timeouts) Spares Session.start es → Reported s) ∧
      (Reported s ↔ Spared s) := by
  refine ⟨?_, (sessionInv_exec hrun).reported_iff hfail⟩
  intro hok
  have h : SparedSession s :=
    exec_invariant_along (fun _ _ _ h hok hstep => sparedSession_step h hok hstep) hok hrun
      sparedSession_start
  exact h.reported hfail

/-- `fail` in the parent, before it has installed its handlers. -/
theorem failure_reported_early :
    ∃ s, exec (sessionStep false) Session.start
        [⟨.parent, .main, .fails⟩, ⟨.parent, .main, .go⟩] = some s ∧ Failing s ∧ Reported s := by
  obtain ⟨s, hrun⟩ := Option.isSome_iff_exists.mp (show (exec (sessionStep false) Session.start
    [⟨.parent, .main, .fails⟩, ⟨.parent, .main, .go⟩]).isSome = true by decide)
  have hended : (exec (sessionStep false) Session.start
      [⟨.parent, .main, .fails⟩, ⟨.parent, .main, .go⟩]).map (·.parent.ended) =
      some (some .terminated) := by decide
  rw [hrun, Option.map_some, Option.some.injEq] at hended
  have hparent : s.parent ∈ s.procs := List.mem_cons_of_mem _ (List.mem_pair.mpr (.inr rfl))
  have hfail : Failing s := .inl ⟨s.parent, hparent, .inl (.inr (.inl hended))⟩
  exact ⟨s, hrun, hfail, (failure_reported false hrun hfail).1 (by decide)⟩

/-- **A command that was killed is reported as a success**: by SIGKILL, and the child and the
parent wait for it. -/
theorem killed_reported_as_success :
    ∃ s, exec (sessionStep false) Session.start
        (begins ++ ⟨.subchild, .main, .killed 9⟩ :: (childEnds ++ parentFinishes)) = some s ∧
      s.subchild.ended = some (.killed 9) ∧
      (∃ l, s.child.ended = some l ∧ l.status = exited 0) ∧
      (∃ l, s.parent.ended = some l ∧ l.status = exited 0) ∧ Failing s ∧ ¬ Reported s := by
  obtain ⟨s, hrun⟩ := Option.isSome_iff_exists.mp (show (exec (sessionStep false) Session.start
    (begins ++ ⟨.subchild, .main, .killed 9⟩ :: (childEnds ++ parentFinishes))).isSome = true by
      decide)
  have hends : (exec (sessionStep false) Session.start
      (begins ++ ⟨.subchild, .main, .killed 9⟩ :: (childEnds ++ parentFinishes))).map
        (fun s => (s.subchild.ended, s.child.ended, s.parent.ended)) =
      some (some (.killed 9), some (.done 9 .wait), some (.done 0 .wait)) := by decide
  rw [hrun, Option.map_some, Option.some.injEq, Prod.mk.injEq, Prod.mk.injEq] at hends
  obtain ⟨hsub, hchild, hparent⟩ := hends
  exact ⟨s, hrun, hsub, ⟨_, hchild, rfl⟩, ⟨_, hparent, rfl⟩, .inr ⟨9, hsub⟩,
    fun h => h.2 _ hparent rfl⟩

end TtyRec.Exits
