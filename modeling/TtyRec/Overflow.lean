import TtyRec.Options
import TtyRec.Watcher
import TtyRec.Zstd.FlushTest

/-!
# Time options that overflow

`main` refuses a time option that does not fit in a `long`, but the watcher adds
`warn_before_lock_seconds` to the time of inactivity, and `fwrite_wrapper_zstd` adds
`zstd_max_flush_seconds` to a reading of the clock.  With a large option these sums do not fit.
The warning before a kill is compared with a difference instead, which always fits.

## Main definitions

* `TimeOptions.parentOptions`, `TimeOptions.zconfig` — the options of the two processes.
* `WatcherExact` — every condition of the watcher is that of the integers, in every run.

## Main results

* `watcherExact_iff` — the conditions of the watcher, for every run.
* `exact_iff_limits` — **no condition overflows in any run exactly if both options leave room for
  a reading of the clock.**
* `largest_options_overflow` — with the largest options, neither test is that of the integers.
-/

namespace TtyRec

open Run SignedExpr StreamCodec

/-! ### The options -/

/-- The options of the parent. -/
def TimeOptions.parentOptions (t : TimeOptions) (h : t.Accepted) (useTty cheatcodes : Bool) :
    ParentOptions where
  useTty := useTty
  cheatcodes := cheatcodes
  timeoutLock := t.timeoutLock
  timeoutKill := t.timeoutKill
  warnBeforeLock := t.warnBeforeLock
  warnBeforeKill := t.warnBeforeKill
  lock_nonneg := h.nonneg .lock
  kill_nonneg := h.nonneg .kill
  lock_le_kill := h.lock_le_kill
  warnBeforeLock_nonneg := h.nonneg .warnBeforeLock
  warnBeforeLock_le := h.warnBeforeLock_le
  warnBeforeKill_nonneg := h.nonneg .warnBeforeKill
  warnBeforeKill_le := h.warnBeforeKill_le

/-- The options of the writing wrapper, the others being those of `cfg`. -/
def TimeOptions.zconfig (t : TimeOptions) (h : t.Accepted) (cfg : ZConfig) : ZConfig :=
  { cfg with maxFlush := t.maxFlush, maxFlush_pos := h.maxFlush_pos }

theorem TimeOptions.Accepted.inLong {t : TimeOptions} (h : t.Accepted) (useTty cheatcodes : Bool) :
    (t.parentOptions h useTty cheatcodes).InLong where
  lock_lt := Int.lt_of_le_sub_one (h.le_max .lock)
  kill_lt := Int.lt_of_le_sub_one (h.le_max .kill)

/-! ### The watcher -/

section Watcher

variable {o : ParentOptions}

/-- Every condition of the watcher is that of the integers: in every state of every run, and
for the condition that is evaluated there. -/
def WatcherExact (o : ParentOptions) : Prop :=
  ∀ (clock : ℤ) (es : List WatchEvent) (s : Watched), 0 ≤ clock → clock < clockMax →
    exec (watchedStep o) (.start clock) es = some s →
    ∀ t : WatchTest, s.pc = .test t → t.Guard o s.parent →
      t.comparison.Exact (watchWords o s.parent s.now)

theorem WatchTest.next_ne_warnLock (t : WatchTest) (b : Bool) : t.next b ≠ .test .warnLock := by
  cases t <;> cases b <;> decide

theorem useTty_of_watch {lockNow : ℤ} {s : Watched}
    (h : s.pc = .test .warnLock → o.useTty = true)
    (hpc : (watch o lockNow s).pc = .test .warnLock) : o.useTty = true := by
  unfold watch at hpc
  split at hpc
  next => exact h hpc
  next =>
    dsimp only at hpc
    split at hpc
    next htty => exact htty.1
    next => cases hpc
  next t _ =>
    split at hpc
    · exact absurd hpc (t.next_ne_warnLock true)
    · exact absurd hpc (t.next_ne_warnLock false)
  next =>
    dsimp only at hpc
    split_ifs at hpc <;> cases hpc

/-- Only a session on a terminal is warned before a lock. -/
theorem useTty_of_warnLock {clock : ℤ} {es : List WatchEvent} {s : Watched}
    (hrun : exec (watchedStep o) (.start clock) es = some s) (hpc : s.pc = .test .warnLock) :
    o.useTty = true := by
  have hstep : ∀ (s : Watched) (e : WatchEvent) (t : Watched),
      (s.pc = .test .warnLock → o.useTty = true) → watchedStep o s e = some t →
      t.pc = .test .warnLock → o.useTty = true := by
    intro s e t h hstep hpc
    cases watchedStep_steps hstep with
    | begin _ _ => exact h hpc
    | other _ _ _ => exact h hpc
    | wake _ _ _ => cases hpc
    | @watch lockNow _ _ _ =>
      have hkeep : (Watched.mk { s.parent with clock := lockNow } s.begun s.pc s.now).pc =
          .test .warnLock → o.useTty = true := h
      exact useTty_of_watch hkeep hpc
  exact exec_invariant hstep hrun (by simp [Watched.start]) hpc

/-- A session that begins at 0, and sleeps as long as the clock goes. -/
theorem exec_longSleep (htty : o.useTty = true) :
    exec (watchedStep o) (.start 0) [.begin 0, .wake (clockMax - 1), .watch (clockMax - 1)] =
      some ⟨{ Parent.start 0 with clock := clockMax - 1 }, true, .test .warnLock, clockMax - 1⟩ := by
  simp [watchedStep, watch, Watched.start, Parent.start, Parent.Reads, clockMax, htty]

/-- **The conditions of the watcher** are exact in every run unless the warning before a lock is so
large that a sum overflows. -/
theorem watcherExact_iff (ho : o.InLong) :
    WatcherExact o ↔ (o.useTty = true → o.warnBeforeLock ≤ 2 ^ 63 - clockMax) := by
  constructor
  · intro hexact htty
    have hrun := exec_longSleep htty
    have hinv := inRange_exec le_rfl (by decide) hrun
    by_cases hpos : 0 < o.warnBeforeLock
    · have hfits := (exact_watchTest_iff ho hinv .warnLock).mp
        (hexact 0 _ _ le_rfl (by decide) hrun .warnLock rfl ⟨hpos, rfl⟩) rfl
      change clockMax - 1 - 0 + o.warnBeforeLock < 2 ^ 63 at hfits
      omega
    · rw [clockMax]
      omega
  · intro hle clock es s h0 hlt hrun t hpc _
    have hinv := inRange_exec h0 hlt hrun
    rw [exact_watchTest_iff ho hinv]
    rintro rfl
    have hwarn := hle (useTty_of_warnLock hrun hpc)
    obtain ⟨⟨ha, ha', -, -, hclock⟩, -, hnow⟩ := hinv
    omega

end Watcher

/-! ### Both processes -/

/-- **Time options without overflow.**  For options that `main` accepts, in no run of the watcher
and in no run of the writing wrapper does a condition overflow, and each of them is that of the
integers, exactly if the warning before a lock, on a terminal, and the limit for a flush leave
room for a reading of the clock. -/
theorem exact_iff_limits {args : List (TimeOption × List Char)} {t : TimeOptions}
    (hargs : timeOptions args = .ok t) (useTty cheatcodes : Bool) (cfg : ZConfig) {C : Type*}
    {enc : Encoder C UInt8 UInt8}
    (hold : HoldsBack enc (t.zconfig (accepted_of_timeOptions hargs) cfg)) :
    (WatcherExact (t.parentOptions (accepted_of_timeOptions hargs) useTty cheatcodes) ∧
        FlushExact enc (t.zconfig (accepted_of_timeOptions hargs) cfg)) ↔
      (useTty = true → t.warnBeforeLock ≤ 2 ^ 63 - clockMax) ∧ t.maxFlush ≤ 2 ^ 63 - clockMax := by
  have hacc := accepted_of_timeOptions hargs
  have hmax : t.maxFlush < 2 ^ 63 := Int.lt_of_le_sub_one (hacc.le_max .maxFlush)
  exact and_congr (watcherExact_iff (hacc.inLong useTty cheatcodes)) (flushExact_iff hold hmax)

/-- `-t 600 --warn-before-lock 60 --max-flush-time 30` -/
def usualArgs : List (TimeOption × List Char) :=
  [(.lock, ['6', '0', '0']), (.warnBeforeLock, ['6', '0']), (.maxFlush, ['3', '0'])]

theorem timeOptions_usualArgs : timeOptions usualArgs = .ok ⟨600, 0, 60, 0, 30⟩ := rfl

/-- Options of minutes. -/
theorem exact_iff_limits_usual :
    WatcherExact (TimeOptions.parentOptions _ (accepted_of_timeOptions timeOptions_usualArgs) true
        true) ∧
      FlushExact rawEncoder
        (TimeOptions.zconfig _ (accepted_of_timeOptions timeOptions_usualArgs) .default) :=
  (exact_iff_limits timeOptions_usualArgs true true .default (rawEncoder_holdsBack _)).mpr
    ⟨fun _ => by decide, by decide⟩

/-- `LONG_MAX`, as it is typed. -/
def longMaxDigits : List Char :=
  ['9', '2', '2', '3', '3', '7', '2', '0', '3', '6', '8', '5', '4', '7', '7', '5', '8', '0', '7']

/-- The same options, with the largest values. -/
def largestArgs : List (TimeOption × List Char) :=
  [(.lock, longMaxDigits), (.warnBeforeLock, longMaxDigits), (.maxFlush, longMaxDigits)]

theorem timeOptions_largestArgs :
    timeOptions largestArgs = .ok ⟨longMax, 0, longMax, 0, longMax⟩ := rfl

/-- The parent with these options. -/
def largestParent : ParentOptions :=
  TimeOptions.parentOptions _ (accepted_of_timeOptions timeOptions_largestArgs) true true

/-- The wrapper with these options. -/
def largestZconfig : ZConfig :=
  TimeOptions.zconfig _ (accepted_of_timeOptions timeOptions_largestArgs) .default

/-- **The largest options.**  After a second without activity the session is not warned, although
the time of inactivity and the warning together exceed the timeout; and the first byte, which is
not a second old, is flushed. -/
theorem largest_options_overflow :
    (∃ s, exec (watchedStep largestParent) (.start 1000) [.begin 1000, .wake 1001, .watch 1001] =
        some s ∧ s.pc = .test .warnLock ∧ WatchTest.warnLock.Guard largestParent s.parent ∧
      WatchTest.warnLock.comparison.Overflows (watchWords largestParent s.parent s.now) ∧
      WatchTest.warnLock.comparison.test (watchWords largestParent s.parent s.now) = false ∧
      WatchTest.warnLock.comparison.Holds (watchValues largestParent s.parent s.now)) ∧
    (testedSync rawEncoder largestZconfig 1 [0x68] (fun _ => 1000) (.ofBytes [], .start) =
        some 1000 ∧
      flushComparison.Overflows (flushWords largestZconfig 1000 1000) ∧
      flushComparison.test (flushWords largestZconfig 1000 1000) = true ∧
      ¬ flushComparison.Holds (flushValues largestZconfig 1000 1000)) ∧
    ¬ WatcherExact largestParent ∧ ¬ FlushExact rawEncoder largestZconfig := by
  have hrun : ∃ s, exec (watchedStep largestParent) (.start 1000)
      [.begin 1000, .wake 1001, .watch 1001] = some s ∧ s.pc = .test .warnLock ∧ s.now = 1001 ∧
      s.parent = { Parent.start 1000 with clock := 1001 } := ⟨_, rfl, rfl, rfl, rfl⟩
  obtain ⟨s, hrun, hpc, hnow, hparent⟩ := hrun
  have hguard : WatchTest.warnLock.Guard largestParent s.parent := by
    rw [hparent]
    decide
  -- the sum of the inactivity and the warning does not fit in a word
  have hover : WatchTest.warnLock.comparison.Overflows
      (watchWords largestParent s.parent s.now) := by
    rw [hnow, hparent]
    exact .inr (.inr (.inr rfl))
  have hsync : testedSync rawEncoder largestZconfig 1 [0x68] (fun _ => 1000)
      (.ofBytes [], .start) = some 1000 := rfl
  have hover' : flushComparison.Overflows (flushWords largestZconfig 1000 1000) :=
    .inl (.inr (.inr rfl))
  refine ⟨⟨s, hrun, hpc, hguard, hover, ?_, ?_⟩, ⟨hsync, hover', by decide, by decide⟩, ?_, ?_⟩
  · rw [hnow, hparent]
    decide
  · rw [hnow, hparent]
    decide
  · intro hexact
    exact (hexact 1000 _ s (by decide) (by decide) hrun .warnLock hpc hguard).not_overflows hover
  · intro hexact
    have hnow : ReadsClock 1000 fun _ => 1000 := by decide
    exact (hexact 1 (.ofBytes []) 1000 [] _ (by decide) (by decide) rfl [0x68] _ 1000 hnow
      hsync).not_overflows hover'

end TtyRec
