import TtyRec.Lib.SignedExpr
import TtyRec.Timeouts

/-!
# The watcher, statement by statement

`timeout_watcher` is a thread of its own.  It reads the clock once for all of its conditions,
and the other thread and the handlers may change what they compare between any two of them.
Each of the conditions adds and subtracts in a `long`.

## Main definitions

* `WatchVar`, `WatchTest` — what the conditions read, and the conditions.
* `watchValues`, `watchWords` — the values of the variables, and the words that hold them.
* `Watched`, `WatchEvent`, `watchedStep` — the machine: one `if` of the watcher at a time, and
  the events of the parent in between.
* `InRange` — the invariant.

## Main results

* `inRange_exec` — the times are readings of the clock, in every state of a run.
* `exact_watchTest_iff` — only the warning before a lock can overflow.
* `leads_timeoutWatcher` — **without interruption the statements of the watcher do what
  `timeoutWatcher` does**, when it does not.
-/

namespace TtyRec

open Run SignedExpr

/-! ### The conditions -/

/-- The variables in the conditions of `timeout_watcher`. -/
inductive WatchVar where
  | now
  | lastActivity
  | lockedSince
  | timeoutLock
  | timeoutKill
  | warnBeforeLock
  | warnBeforeKill

/-- The conditions of `timeout_watcher`, by what they lead to. -/
inductive WatchTest where
  | warnLock
  | lock
  /-- A session that is locked. -/
  | warnKillLocked
  | killLocked
  /-- A session that is not. -/
  | warnKill
  | kill
  deriving DecidableEq, Repr

namespace WatchTest

open WatchVar Expr

/-- The comparison in the condition, with the sums and differences as they stand in the source. -/
def comparison : WatchTest → Comparison WatchVar
  | warnLock => ⟨var timeoutLock, add (sub (var now) (var lastActivity)) (var warnBeforeLock)⟩
  | lock => ⟨var timeoutLock, sub (var now) (var lastActivity)⟩
  | warnKillLocked =>
    ⟨sub (sub (var timeoutKill) (var timeoutLock)) (var warnBeforeKill),
      sub (var now) (var lockedSince)⟩
  | killLocked => ⟨sub (var timeoutKill) (var timeoutLock), sub (var now) (var lockedSince)⟩
  | warnKill => ⟨sub (var timeoutKill) (var warnBeforeKill), sub (var now) (var lastActivity)⟩
  | kill => ⟨var timeoutKill, sub (var now) (var lastActivity)⟩

/-- What is in front of the comparison: the timeout or the warning is given, and the warning has not
been printed yet. -/
def Guard (o : ParentOptions) (s : Parent) : WatchTest → Prop
  | warnLock => 0 < o.warnBeforeLock ∧ s.lockWarned = false
  | lock => 0 < o.timeoutLock
  | warnKillLocked | warnKill => 0 < o.warnBeforeKill ∧ s.killWarned = false
  | killLocked | kill => True

instance (o : ParentOptions) (s : Parent) : DecidablePred (Guard o s)
  | warnLock | warnKillLocked | warnKill => inferInstanceAs (Decidable (_ ∧ _))
  | lock => inferInstanceAs (Decidable (_ < _))
  | killLocked | kill => .isTrue trivial

/-- What the condition leads to when it is met. -/
def body (o : ParentOptions) (lockNow : ℤ) (s : Parent) : WatchTest → Parent
  | warnLock => { s with lockWarned := true }.act (.warnLock o.warnBeforeLock)
  | lock => doLock lockNow s
  | warnKillLocked | warnKill => { s with killWarned := true }.act (.warnKill o.warnBeforeKill)
  | killLocked | kill => s.act (.signal .term)

end WatchTest

/-- The values of the variables, as integers. -/
def watchValues (o : ParentOptions) (s : Parent) (now : ℤ) : WatchVar → ℤ
  | .now => now
  | .lastActivity => s.lastActivity
  | .lockedSince => s.lockedSince
  | .timeoutLock => o.timeoutLock
  | .timeoutKill => o.timeoutKill
  | .warnBeforeLock => o.warnBeforeLock
  | .warnBeforeKill => o.warnBeforeKill

/-- The 64-bit words that hold them, which is what the machine computes with. -/
def watchWords (o : ParentOptions) (s : Parent) (now : ℤ) : WatchVar → BitVec 64 :=
  fun v => BitVec.ofInt 64 (watchValues o s now v)

/-! ### The machine -/

/-- Where the watcher is: asleep, at one of its branches, or at one of its conditions. -/
inductive WatchPc where
  | asleep
  /-- `if (use_tty && !locked_since)` -/
  | ifUnlocked
  | test (t : WatchTest)
  /-- `if (timeout_kill > 0)`, and `if (locked_since)` -/
  | ifKill
  deriving DecidableEq, Repr

/-- The condition that is next. -/
def WatchTest.next : WatchTest → Bool → WatchPc
  | warnLock, _ => .test .lock
  | lock, _ => .ifKill
  | warnKillLocked, false => .test .killLocked
  | warnKill, false => .test .kill
  | warnKillLocked, true | warnKill, true | killLocked, _ | kill, _ => .asleep

/-- The parent, and its watcher: `now` is the local variable of `timeout_watcher`. -/
structure Watched where
  parent : Parent
  /-- `doinput` has begun. -/
  begun : Bool
  pc : WatchPc
  now : ℤ

/-- When the watcher is created; `last_activity` is still 0. -/
def Watched.start (clock : ℤ) : Watched where
  parent := { Parent.start clock with lastActivity := 0 }
  begun := false
  pc := .asleep
  now := 0

/-- One `if` of the watcher; the clock is read again by `do_lock`. -/
def watch (o : ParentOptions) (lockNow : ℤ) (s : Watched) : Watched :=
  match s.pc with
  | .asleep => s
  | .ifUnlocked =>
    { s with pc := if o.useTty = true ∧ s.parent.lockedSince = 0 then .test .warnLock else .ifKill }
  | .test t =>
    if t.Guard o s.parent ∧ t.comparison.test (watchWords o s.parent s.now) = true then
      { s with parent := t.body o lockNow s.parent, pc := t.next true }
    else { s with pc := t.next false }
  | .ifKill =>
    { s with pc :=
        if 0 < o.timeoutKill then
          if s.parent.lockedSince ≠ 0 then .test .warnKillLocked else .test .warnKill
        else .asleep }

/-- The readings of the clock are below this. -/
def clockMax : ℤ := 2 ^ 44

inductive WatchEvent where
  /-- The beginning of `doinput`. -/
  | begin (now : ℤ)
  /-- The other thread, or a handler. -/
  | other (e : ParentEvent)
  /-- The watcher has slept, and reads the clock. -/
  | wake (now : ℤ)
  /-- The next `if` of the watcher. -/
  | watch (lockNow : ℤ)

/-- What the other thread does needs `doinput`; a handler does not, and a tick is the watcher's. -/
def ParentEvent.CanCome (begun : Bool) : ParentEvent → Prop
  | .input _ _ _ _ | .eof => begun = true
  | .urg _ | .usr2 _ => True
  | .tick _ _ => False

instance (begun : Bool) : DecidablePred (ParentEvent.CanCome begun)
  | .input _ _ _ _ | .eof => inferInstanceAs (Decidable (_ = _))
  | .urg _ | .usr2 _ => .isTrue trivial
  | .tick _ _ => .isFalse id

/-- The clock is read: it does not go back. -/
def Parent.Reads (s : Parent) (now : ℤ) : Prop := s.clock ≤ now ∧ now < clockMax

instance (s : Parent) (now : ℤ) : Decidable (s.Reads now) := inferInstanceAs (Decidable (_ ∧ _))

/-- One step: `doinput` begins, the other thread or a handler does something, or the watcher wakes
up or does its next statement. -/
def watchedStep (o : ParentOptions) (s : Watched) : WatchEvent → Option Watched
  | .begin now =>
    if s.begun = false ∧ s.parent.Reads now then
      some { s with
        parent := { s.parent with
          clock := now
          lastActivity := now
          lockWarned := false
          killWarned := false }
        begun := true }
    else none
  | .other e =>
    if e.CanCome s.begun then
      (parentStep o s.parent e).bind fun p =>
        if p.clock < clockMax then some { s with parent := p } else none
    else none
  | .wake now =>
    if s.pc = .asleep ∧ s.parent.pc ≠ .exited ∧ s.parent.Reads now then
      some { s with parent := { s.parent with clock := now }, pc := .ifUnlocked, now := now }
    else none
  | .watch lockNow =>
    if s.pc ≠ .asleep ∧ s.parent.pc ≠ .exited ∧ s.parent.Reads lockNow then
      some (watch o lockNow { s with parent := { s.parent with clock := lockNow } })
    else none

/-- What a step can do. -/
inductive WatchedSteps (o : ParentOptions) (s : Watched) : WatchEvent → Watched → Prop
  | begin {now : ℤ} (hbegun : s.begun = false) (hreads : s.parent.Reads now) :
    WatchedSteps o s (.begin now) { s with
      parent := { s.parent with
        clock := now
        lastActivity := now
        lockWarned := false
        killWarned := false }
      begun := true }
  | other {e : ParentEvent} {p : Parent} (hcan : e.CanCome s.begun)
      (hp : parentStep o s.parent e = some p) (hlt : p.clock < clockMax) :
    WatchedSteps o s (.other e) { s with parent := p }
  | wake {now : ℤ} (hpc : s.pc = .asleep) (hlive : s.parent.pc ≠ .exited)
      (hreads : s.parent.Reads now) :
    WatchedSteps o s (.wake now)
      { s with parent := { s.parent with clock := now }, pc := .ifUnlocked, now := now }
  | watch {lockNow : ℤ} (hpc : s.pc ≠ .asleep) (hlive : s.parent.pc ≠ .exited)
      (hreads : s.parent.Reads lockNow) :
    WatchedSteps o s (.watch lockNow)
      (watch o lockNow { s with parent := { s.parent with clock := lockNow } })

theorem watchedStep_steps {o : ParentOptions} {s t : Watched} {e : WatchEvent}
    (h : watchedStep o s e = some t) : WatchedSteps o s e t := by
  cases e with
  | begin now =>
    rw [watchedStep, Option.ite_none_right_eq_some, Option.some.injEq] at h
    obtain ⟨⟨hbegun, hreads⟩, rfl⟩ := h
    exact .begin hbegun hreads
  | other e =>
    rw [watchedStep, Option.ite_none_right_eq_some, Option.bind_eq_some_iff] at h
    obtain ⟨hcan, p, hp, h⟩ := h
    rw [Option.ite_none_right_eq_some, Option.some.injEq] at h
    obtain ⟨hlt, rfl⟩ := h
    exact .other hcan hp hlt
  | wake now =>
    rw [watchedStep, Option.ite_none_right_eq_some, Option.some.injEq] at h
    obtain ⟨⟨hpc, hlive, hreads⟩, rfl⟩ := h
    exact .wake hpc hlive hreads
  | watch lockNow =>
    rw [watchedStep, Option.ite_none_right_eq_some, Option.some.injEq] at h
    obtain ⟨⟨hpc, hlive, hreads⟩, rfl⟩ := h
    exact .watch hpc hlive hreads

/-! ### The times are readings of the clock -/

/-- Each of the times is kept, or is a reading of the clock in between; 0 says unlocked. -/
structure Later (s t : Parent) : Prop where
  clock_le : s.clock ≤ t.clock
  lastActivity : t.lastActivity = s.lastActivity ∨
    s.clock ≤ t.lastActivity ∧ t.lastActivity ≤ t.clock
  lockedSince : t.lockedSince = s.lockedSince ∨ t.lockedSince = 0 ∨
    s.clock ≤ t.lockedSince ∧ t.lockedSince ≤ t.clock

/-- The other thread and the handlers.  They set a time to the clock that they have read, or leave
it. -/
theorem ParentSteps.later {o : ParentOptions} {s t : Parent} {e : ParentEvent} {begun : Bool}
    (h : ParentSteps o s e t) (he : e.CanCome begun) : Later s t := by
  cases h with
  | dropped _ hclock hlock _ => exact ⟨hclock.trans hlock, .inl rfl, .inl rfl⟩
  | @sent bytes n now lockNow _ hclock hlock _ =>
    obtain ⟨hsame, hlocked⟩ := afterInput_cases o bytes lockNow ({ s with
      clock := lockNow, lastActivity := now, lockWarned := false, killWarned := false }.act
        (.input (bytes.take n)))
    refine ⟨?_, .inr ?_, ?_⟩
    · rw [hsame.clock]
      exact hclock.trans hlock
    · rw [hsame.lastActivity, hsame.clock]
      exact ⟨hclock, hlock⟩
    · rw [hsame.clock]
      -- the lock code sets `locked_since`
      rcases hlocked with hlocked | ⟨c, -, -, hlocked⟩
      · exact .inl hlocked
      · rw [hlocked]
        exact .inr (.inr ⟨hclock.trans hlock, le_rfl⟩)
  | failed _ hclock hlock _ _ => exact ⟨hclock.trans hlock, .inl rfl, .inl rfl⟩
  | eof => exact ⟨le_rfl, .inl rfl, .inl rfl⟩
  | tick _ _ _ _ => exact he.elim
  | urg hclock =>
    unfold lockSession
    split
    · exact ⟨hclock, .inl rfl, .inl rfl⟩
    · exact ⟨hclock, .inl rfl, .inr (.inr ⟨hclock, le_rfl⟩)⟩
  | usr2 hclock =>
    unfold unlockSession
    dsimp only
    split
    · exact ⟨hclock, .inr ⟨hclock, le_rfl⟩, .inl rfl⟩
    · exact ⟨hclock, .inr ⟨hclock, le_rfl⟩, .inr (.inl rfl)⟩

/-- The watcher; the clock stands at the reading of `do_lock`. -/
theorem WatchTest.later_body (o : ParentOptions) (t : WatchTest) {s : Parent} {now : ℤ}
    (hclock : s.clock ≤ now) : Later s (t.body o now { s with clock := now }) := by
  cases t with
  | lock => exact ⟨hclock, .inl rfl, .inr (.inr ⟨hclock, le_rfl⟩)⟩
  | warnLock | warnKillLocked | warnKill | killLocked | kill =>
    exact ⟨hclock, .inl rfl, .inl rfl⟩

/-- The times of the parent are readings of the clock, or 0 for a session that is not locked. -/
structure TimesIn (s : Parent) : Prop where
  activity_nonneg : 0 ≤ s.lastActivity
  activity_le : s.lastActivity ≤ s.clock
  locked_nonneg : 0 ≤ s.lockedSince
  locked_le : s.lockedSince ≤ s.clock
  clock_lt : s.clock < clockMax

theorem TimesIn.later {s t : Parent} (h : TimesIn s) (hlater : Later s t)
    (hlt : t.clock < clockMax) : TimesIn t := by
  obtain ⟨ha, ha', hl, hl', -⟩ := h
  obtain ⟨hclock, hact, hlock⟩ := hlater
  refine ⟨?_, ?_, ?_, ?_, hlt⟩ <;> omega

/-- The invariant: every time in the state is a reading of the clock, so that the differences of two
of them fit in a word. -/
structure InRange (s : Watched) : Prop where
  times : TimesIn s.parent
  now_nonneg : 0 ≤ s.now
  now_le : s.now ≤ s.parent.clock

theorem inRange_start {clock : ℤ} (h0 : 0 ≤ clock) (hlt : clock < clockMax) :
    InRange (.start clock) :=
  ⟨⟨le_rfl, h0, le_rfl, h0, hlt⟩, le_rfl, h0⟩

theorem watch_cases (o : ParentOptions) (lockNow : ℤ) (s : Watched) :
    (watch o lockNow s).now = s.now ∧
      ((watch o lockNow s).parent = s.parent ∨
        ∃ t : WatchTest, (watch o lockNow s).parent = t.body o lockNow s.parent) := by
  unfold watch
  split
  · exact ⟨rfl, .inl rfl⟩
  · exact ⟨rfl, .inl rfl⟩
  next t _ =>
    split
    · exact ⟨rfl, .inr ⟨t, rfl⟩⟩
    · exact ⟨rfl, .inl rfl⟩
  · exact ⟨rfl, .inl rfl⟩

/-- **One step.** Whatever a time is set to has just been read from the clock, and the clock stays
within range. -/
theorem inRange_step {o : ParentOptions} {s t : Watched} {e : WatchEvent} (h : InRange s)
    (hstep : watchedStep o s e = some t) : InRange t := by
  obtain ⟨htimes, hnow, hnow'⟩ := h
  have hclock : 0 ≤ s.parent.clock := htimes.activity_nonneg.trans htimes.activity_le
  cases watchedStep_steps hstep with
  | @begin now _ hreads =>
    obtain ⟨hle, hlt⟩ := hreads
    exact ⟨htimes.later ⟨hle, .inr ⟨hle, le_rfl⟩, .inl rfl⟩ hlt, hnow, hnow'.trans hle⟩
  | @other e p hcan hp hlt =>
    have hlater := (parentStep_steps hp).later hcan
    exact ⟨htimes.later hlater hlt, hnow, hnow'.trans hlater.clock_le⟩
  | @wake now _ _ hreads =>
    obtain ⟨hle, hlt⟩ := hreads
    exact ⟨htimes.later ⟨hle, .inl rfl, .inl rfl⟩ hlt, hclock.trans hle, le_rfl⟩
  | @watch lockNow _ _ hreads =>
    obtain ⟨hle, hlt⟩ := hreads
    obtain ⟨hkeep, hcases⟩ := watch_cases o lockNow
      { s with parent := { s.parent with clock := lockNow } }
    generalize watch o lockNow { s with parent := { s.parent with clock := lockNow } } = u
      at hkeep hcases ⊢
    have hlater : Later s.parent u.parent ∧ u.parent.clock = lockNow := by
      -- the statement tests and goes on, or it is the body of a test
      rcases hcases with hp | ⟨t, hp⟩
      · rw [hp]
        exact ⟨⟨hle, .inl rfl, .inl rfl⟩, rfl⟩
      · rw [hp]
        refine ⟨t.later_body o hle, ?_⟩
        cases t <;> rfl
    have hclock' : s.parent.clock ≤ u.parent.clock := hlater.1.clock_le
    refine ⟨htimes.later hlater.1 (hlater.2.trans_lt hlt), ?_, ?_⟩
    · rw [hkeep]
      exact hnow
    · rw [hkeep]
      exact hnow'.trans hclock'

/-- **In every state of a run the times are readings of the clock**, which is positive and far from
overflowing. -/
theorem inRange_exec {o : ParentOptions} {clock : ℤ} {es : List WatchEvent} {s : Watched}
    (h0 : 0 ≤ clock) (hlt : clock < clockMax)
    (hrun : exec (watchedStep o) (.start clock) es = some s) : InRange s :=
  exec_invariant (fun _ _ _ h hstep => inRange_step h hstep) hrun (inRange_start h0 hlt)

/-! ### What can overflow -/

/-- The timeouts fit in a `long`, as `strtol` has read them. -/
structure ParentOptions.InLong (o : ParentOptions) : Prop where
  lock_lt : o.timeoutLock < 2 ^ 63
  kill_lt : o.timeoutKill < 2 ^ 63

section Tests

variable {o : ParentOptions} {s : Watched} {lockNow : ℤ}

theorem fits_long_iff {x : ℤ} : Fits 64 x ↔ -2 ^ 63 ≤ x ∧ x < 2 ^ 63 := Iff.rfl

theorem fits_watchValues (ho : o.InLong) (h : InRange s) (v : WatchVar) :
    Fits 64 (watchValues o s.parent s.now v) := by
  obtain ⟨hlock, hkill⟩ := ho
  obtain ⟨⟨ha, ha', hl, hl', hlt⟩, hnow, hnow'⟩ := h
  have := o.lock_nonneg
  have := o.kill_nonneg
  have := o.warnBeforeLock_nonneg
  have := o.warnBeforeLock_le
  have := o.warnBeforeKill_nonneg
  have := o.warnBeforeKill_le
  rw [clockMax] at hlt
  rw [fits_long_iff]
  cases v <;> dsimp only [watchValues] <;> omega

/-- **Only the warning before a lock can overflow.** It is added to the time of inactivity; all
other operations are differences of values in range. -/
theorem exact_watchTest_iff (ho : o.InLong) (h : InRange s) (t : WatchTest) :
    t.comparison.Exact (watchWords o s.parent s.now) ↔
      (t = .warnLock → s.now - s.parent.lastActivity + o.warnBeforeLock < 2 ^ 63) := by
  refine (Comparison.exact_ofInt_iff _ (by decide) (fits_watchValues ho h)).trans ?_
  obtain ⟨hlock, hkill⟩ := ho
  obtain ⟨⟨ha, ha', hl, hl', hlt⟩, hnow, hnow'⟩ := h
  have := o.lock_nonneg
  have := o.kill_nonneg
  have := o.lock_le_kill
  have := o.warnBeforeLock_nonneg
  have := o.warnBeforeKill_nonneg
  have := o.warnBeforeKill_le
  rw [clockMax] at hlt
  cases t <;>
    simp only [WatchTest.comparison, Expr.Bounded, Expr.value, watchValues, fits_long_iff,
      true_and, reduceCtorEq, false_implies, true_implies, iff_true] <;>
    omega

end Tests

/-! ### A pass without interruption -/

/-- The statements of the watcher, one after the other, lead from one state to the other. -/
def Leads (o : ParentOptions) (lockNow : ℤ) (s t : Watched) : Prop :=
  ∃ n, (watch o lockNow)^[n] s = t

theorem Leads.single {o : ParentOptions} {lockNow : ℤ} {s t : Watched}
    (h : watch o lockNow s = t) : Leads o lockNow s t := ⟨1, h⟩

theorem Leads.trans {o : ParentOptions} {lockNow : ℤ} {s t u : Watched} (h : Leads o lockNow s t)
    (h' : Leads o lockNow t u) : Leads o lockNow s u := by
  obtain ⟨m, rfl⟩ := h
  obtain ⟨n, rfl⟩ := h'
  exact ⟨n + m, Function.iterate_add_apply _ _ _ _⟩

theorem TimesIn.of_same {s t : Parent} (h : TimesIn s) (hsame : SameTimes s t)
    (hlocked : t.lockedSince = s.lockedSince ∨ t.lockedSince = s.clock) : TimesIn t := by
  refine h.later ⟨hsame.clock.ge, .inl hsame.lastActivity, ?_⟩ (hsame.clock.trans_lt h.clock_lt)
  rcases hlocked with heq | heq
  · exact .inl heq
  · exact .inr (.inr ⟨heq.ge, heq.trans_le hsame.clock.ge⟩)

section Pass

variable {o : ParentOptions} {s : Parent} {begun : Bool} {now lockNow : ℤ}

/-- A condition, as long as it does not overflow. -/
theorem watch_test (ho : o.InLong) (h : TimesIn s) (hnow : 0 ≤ now) (hle : now ≤ s.clock)
    {t : WatchTest} (hfits : t = .warnLock → now - s.lastActivity + o.warnBeforeLock < 2 ^ 63) :
    watch o lockNow ⟨s, begun, .test t, now⟩ =
      if t.Guard o s ∧ t.comparison.Holds (watchValues o s now) then
        ⟨t.body o lockNow s, begun, t.next true, now⟩
      else ⟨s, begun, t.next false, now⟩ := by
  have hrange : InRange ⟨s, begun, .test t, now⟩ := ⟨h, hnow, hle⟩
  have hexact := (exact_watchTest_iff ho hrange t).mpr hfits
  have htest : t.comparison.test (watchWords o s now) = true ↔
      t.comparison.Holds (watchValues o s now) :=
    hexact.test_ofInt_iff (by decide) (fits_watchValues ho hrange)
  simp only [watch, htest]

/-- The first half: the session is warned and locked. -/
theorem leads_watchLock (ho : o.InLong) (h : TimesIn s) (hnow : 0 ≤ now) (hle : now ≤ s.clock)
    (hfits : now - s.lastActivity + o.warnBeforeLock < 2 ^ 63) :
    Leads o lockNow ⟨s, begun, .ifUnlocked, now⟩
      ⟨watchLock o now lockNow s, begun, .ifKill, now⟩ := by
  by_cases hidle : o.useTty = true ∧ s.lockedSince = 0
  · have hfirst : watch o lockNow ⟨s, begun, .ifUnlocked, now⟩ =
        ⟨s, begun, .test .warnLock, now⟩ := by
      simp [watch, hidle]
    have hwarn : watch o lockNow ⟨s, begun, .test .warnLock, now⟩ =
        ⟨warnLock o now s, begun, .test .lock, now⟩ := by
      rw [watch_test ho h hnow hle fun _ => hfits, warnLock]
      simp only [WatchTest.Guard, WatchTest.comparison, Comparison.Holds, Expr.value, watchValues,
        and_assoc]
      split <;> rfl
    obtain ⟨hsame, hlocked⟩ := warnLock_same o now s
    have htimes : TimesIn (warnLock o now s) := h.of_same hsame (.inl hlocked)
    have hlock : watch o lockNow ⟨warnLock o now s, begun, .test .lock, now⟩ =
        ⟨watchLock o now lockNow s, begun, .ifKill, now⟩ := by
      rw [watch_test ho htimes hnow (hle.trans hsame.clock.ge) WatchTest.noConfusion, watchLock,
        if_pos hidle]
      simp only [WatchTest.Guard, WatchTest.comparison, Comparison.Holds, Expr.value, watchValues]
      split <;> rfl
    exact ((Leads.single hfirst).trans (.single hwarn)).trans (.single hlock)
  · apply Leads.single
    rw [watchLock, if_neg hidle]
    simp [watch, hidle]

/-- A pair of conditions of the second half. -/
theorem leads_watchKillAt {pc pc' : WatchPc} {idle limit : ℤ}
    (hwarn : watch o lockNow ⟨s, begun, pc, now⟩ =
      if (0 < o.warnBeforeKill ∧ s.killWarned = false) ∧ limit - o.warnBeforeKill < idle then
        ⟨{ s with killWarned := true }.act (.warnKill o.warnBeforeKill), begun, .asleep, now⟩
      else ⟨s, begun, pc', now⟩)
    (hkill : watch o lockNow ⟨s, begun, pc', now⟩ =
      if limit < idle then ⟨s.act (.signal .term), begun, .asleep, now⟩
      else ⟨s, begun, .asleep, now⟩) :
    Leads o lockNow ⟨s, begun, pc, now⟩ ⟨watchKillAt o idle limit s, begun, .asleep, now⟩ := by
  unfold watchKillAt
  simp only [and_assoc] at hwarn
  split
  next hw => exact .single (hwarn.trans (if_pos hw))
  next hw =>
    refine (Leads.single (hwarn.trans (if_neg hw))).trans (.single ?_)
    rw [hkill]
    split <;> rfl

/-- The second half: the session is warned, or killed. -/
theorem leads_watchKill (ho : o.InLong) (h : TimesIn s) (hnow : 0 ≤ now) (hle : now ≤ s.clock) :
    Leads o lockNow ⟨s, begun, .ifKill, now⟩ ⟨watchKill o now s, begun, .asleep, now⟩ := by
  unfold watchKill
  split
  next hpos =>
    split
    next hlocked =>
      have hfirst : watch o lockNow ⟨s, begun, .ifKill, now⟩ =
          ⟨s, begun, .test .warnKillLocked, now⟩ := by
        simp [watch, hpos, hlocked]
      refine (Leads.single hfirst).trans (leads_watchKillAt (watch_test ho h hnow hle
        WatchTest.noConfusion) ((watch_test ho h hnow hle WatchTest.noConfusion).trans ?_))
      simp [WatchTest.Guard, WatchTest.comparison, Comparison.Holds, Expr.value, watchValues,
        WatchTest.body, WatchTest.next]
    next hlocked =>
      have hfirst : watch o lockNow ⟨s, begun, .ifKill, now⟩ =
          ⟨s, begun, .test .warnKill, now⟩ := by
        simp [watch, hpos, hlocked]
      refine (Leads.single hfirst).trans (leads_watchKillAt (watch_test ho h hnow hle
        WatchTest.noConfusion) ((watch_test ho h hnow hle WatchTest.noConfusion).trans ?_))
      simp [WatchTest.Guard, WatchTest.comparison, Comparison.Holds, Expr.value, watchValues,
        WatchTest.body, WatchTest.next]
  next hpos =>
    apply Leads.single
    simp [watch, hpos]

/-- **Without interruption the statements of the watcher do what `timeoutWatcher` does**, when
the warning before a lock does not overflow. -/
theorem leads_timeoutWatcher (ho : o.InLong) (h : TimesIn s) (hnow : 0 ≤ now)
    (hle : now ≤ s.clock) (hlock : s.clock = lockNow)
    (hfits : now - s.lastActivity + o.warnBeforeLock < 2 ^ 63) :
    Leads o lockNow ⟨s, begun, .ifUnlocked, now⟩
      ⟨timeoutWatcher o now lockNow s, begun, .asleep, now⟩ := by
  obtain ⟨hsame, hlocked⟩ := watchLock_cases o now lockNow s
  have htimes : TimesIn (watchLock o now lockNow s) := by
    refine h.of_same hsame ?_
    rcases hlocked with ⟨heq, -⟩ | ⟨-, -, -, -, heq⟩
    · exact .inl heq
    · exact .inr (heq.trans hlock.symm)
  exact (leads_watchLock ho h hnow hle hfits).trans
    (leads_watchKill ho htimes hnow (hle.trans hsame.clock.ge))

end Pass

end TtyRec
