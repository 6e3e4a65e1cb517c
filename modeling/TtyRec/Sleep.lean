import TtyRec.Wait
import TtyRec.Lib.Run

/-!
# The time that `select` is given

The records of a file may have any time stamps, and a sleep may end early, so an interval may
be negative, and the drift as well.  `timeval_div` rounds both of its fields toward zero, and
`timeval_diff` borrows one second; `ttywait` replaces what it gets by 0 when its seconds are
negative.

## Main definitions

* `due` — the seconds between two records at the speed of the playback.
* `Sleep`, `Playing`, `sleepStep` — the waits of a playback, each ended by a key, in time or
  early.
* `Sound` — what `select` is given is a time, and the one that it should be.
* `Exact` — when it is.

## Main results

* `sound_iff_exact` — **the waits of a playback are sound exactly as long as every interval
  fits an `int` of seconds, and a negative one takes no second borrow.**
-/

namespace TtyRec

open Run

/-! ### Rounding toward zero -/

theorem truncate_of_nonpos {x : ℚ} (h : x ≤ 0) : truncate x = -⌊-x⌋ := by
  have hneg : truncate (-x) = -truncate x := by
    rw [truncate, truncate, Rat.num_neg_eq_neg_num, Rat.den_neg_eq_den, Int.neg_tdiv]
  rw [← truncate_of_nonneg (neg_nonneg.mpr h), hneg, neg_neg]

/-- The numbers that are converted to an `int`. -/
theorem truncate_int_iff (x : ℚ) :
    (-2 ^ 31 ≤ truncate x ∧ truncate x < 2 ^ 31) ↔ -2 ^ 31 - 1 < x ∧ x < 2 ^ 31 := by
  rcases le_total 0 x with h | h
  · have hfloor : 0 ≤ ⌊x⌋ := Int.floor_nonneg.mpr h
    rw [truncate_of_nonneg h, Int.floor_lt]
    push_cast
    constructor
    · rintro ⟨-, hlt⟩
      exact ⟨by linarith, hlt⟩
    · rintro ⟨-, hlt⟩
      exact ⟨by linarith, hlt⟩
  · have hfloor : 0 ≤ ⌊-x⌋ := Int.floor_nonneg.mpr (neg_nonneg.mpr h)
    have hiff : ⌊-x⌋ < 2 ^ 31 + 1 ↔ -x < 2 ^ 31 + 1 := by
      rw [Int.floor_lt]
      norm_num
    rw [truncate_of_nonpos h]
    constructor
    · rintro ⟨hle, -⟩
      have hlt := hiff.mp (by omega)
      exact ⟨by linarith, by linarith⟩
    · rintro ⟨hlt, -⟩
      have hle := hiff.mpr (by linarith)
      exact ⟨by omega, by omega⟩

/-- A fraction of a second in microseconds. -/
theorem floor_fract_micros (x : ℚ) :
    0 ≤ ⌊Int.fract x * 1000000⌋ ∧ ⌊Int.fract x * 1000000⌋ < 1000000 := by
  have h0 := Int.fract_nonneg x
  have h1 := Int.fract_lt_one x
  refine ⟨Int.floor_nonneg.mpr (by linarith), ?_⟩
  rw [Int.floor_lt]
  push_cast
  linarith

/-! ### The quotient -/

/-- The seconds between two time stamps, at the speed of the playback. -/
def due (prev cur : Timeval) (speed : ℚ) : ℚ := (cur.micros - prev.micros) / 1000000 / speed

/-- What `timeval_div` computes of the interval. -/
theorem quotient_eq (prev cur : Timeval) (speed : ℚ) :
    ((timevalDiff prev cur).tvSec + (timevalDiff prev cur).tvUsec / 1000000) / speed =
      due prev cur speed := by
  have hmicros : ((timevalDiff prev cur).tvSec : ℚ) * 1000000 + (timevalDiff prev cur).tvUsec =
      cur.micros - prev.micros := by
    have h := micros_timevalDiff prev cur
    rw [Timeval.micros] at h
    exact_mod_cast h
  rw [due, ← hmicros]
  congr 1
  ring

/-- An interval that is not negative. -/
theorem timevalDiv_of_nonneg {prev cur : Timeval} {speed : ℚ} (h : 0 ≤ due prev cur speed) :
    timevalDiv (timevalDiff prev cur) speed =
      ⟨⌊due prev cur speed⌋, ⌊Int.fract (due prev cur speed) * 1000000⌋⟩ := by
  have hfract := Int.fract_nonneg (due prev cur speed)
  simp only [timevalDiv, quotient_eq, truncate_of_nonneg h]
  rw [Int.self_sub_floor, truncate_of_nonneg (by linarith)]

/-- A negative interval: both fields are negative, or 0. -/
theorem timevalDiv_of_nonpos {prev cur : Timeval} {speed : ℚ} (h : due prev cur speed ≤ 0) :
    timevalDiv (timevalDiff prev cur) speed =
      ⟨-⌊-due prev cur speed⌋, -⌊Int.fract (-due prev cur speed) * 1000000⌋⟩ := by
  have hfract := Int.fract_nonneg (-due prev cur speed)
  have hrest : (due prev cur speed - (-⌊-due prev cur speed⌋ : ℤ)) * 1000000 =
      -(Int.fract (-due prev cur speed) * 1000000) := by
    rw [Int.fract]
    push_cast
    ring
  simp only [timevalDiv, quotient_eq, truncate_of_nonpos h, hrest]
  rw [truncate_of_nonpos (by linarith), neg_neg]

/-- Seconds and microseconds that are cut off make up the number but for a microsecond. -/
theorem abs_floor_micros (x : ℚ) :
    |((⌊x⌋ * 1000000 + ⌊Int.fract x * 1000000⌋ : ℤ) : ℚ) - x * 1000000| ≤ 1 := by
  have hle := Int.floor_le (Int.fract x * 1000000)
  have hlt := Int.lt_floor_add_one (Int.fract x * 1000000)
  have hx : (⌊x⌋ : ℚ) + Int.fract x = x := Int.floor_add_fract x
  push_cast
  rw [abs_le]
  constructor
  · linarith
  · linarith

/-- **The quotient** is exact up to a microsecond, in spite of the rounding of seconds and
microseconds apart. -/
theorem micros_timevalDiv (prev cur : Timeval) (speed : ℚ) :
    |((timevalDiv (timevalDiff prev cur) speed).micros : ℚ) - due prev cur speed * 1000000| ≤
      1 := by
  rcases le_total 0 (due prev cur speed) with h | h
  · rw [timevalDiv_of_nonneg h, Timeval.micros]
    exact abs_floor_micros _
  · have habs := abs_floor_micros (-due prev cur speed)
    rw [timevalDiv_of_nonpos h, Timeval.micros, ← abs_neg]
    push_cast at habs ⊢
    ring_nf at habs ⊢
    exact habs

/-! ### One wait -/

section Timeout

variable {prev cur : Timeval} {s : Waiter}

/-- The seconds of the interval are converted to an `int`. -/
def FitsInt (prev cur : Timeval) (s : Waiter) : Prop :=
  -2 ^ 31 ≤ (timevalDiv (timevalDiff prev cur) s.speed).tvSec ∧
    (timevalDiv (timevalDiff prev cur) s.speed).tvSec < 2 ^ 31

/-- The time that `select` should sleep, in microseconds. -/
def wanted (prev cur : Timeval) (s : Waiter) : ℚ :=
  max 0 (due prev cur s.speed * 1000000 - s.drift.micros)

/-- What `select` is given is a time, and the one that it should be, up to a microsecond of
rounding. -/
structure Sound (prev cur : Timeval) (s : Waiter) : Prop where
  fits : FitsInt prev cur s
  sec_nonneg : 0 ≤ (timeout prev cur s).tvSec
  normal : (timeout prev cur s).Normalised
  value : |((timeout prev cur s).micros : ℚ) - wanted prev cur s| ≤ 1

/-- An interval that is negative takes no second borrow: either the drift is not more negative,
in whole seconds, or the microseconds of both make up one second at most. -/
def OneBorrow (prev cur : Timeval) (s : Waiter) : Prop :=
  due prev cur s.speed < 0 → s.drift.tvSec + ⌊-due prev cur s.speed⌋ < 0 →
    s.drift.tvUsec + ⌊Int.fract (-due prev cur s.speed) * 1000000⌋ ≤ 1000000

/-- The interval fits an `int` of seconds, and needs no second borrow. -/
structure Exact (prev cur : Timeval) (s : Waiter) : Prop where
  range : -2 ^ 31 - 1 < due prev cur s.speed ∧ due prev cur s.speed < 2 ^ 31
  borrow : OneBorrow prev cur s

theorem fitsInt_iff :
    FitsInt prev cur s ↔ -2 ^ 31 - 1 < due prev cur s.speed ∧ due prev cur s.speed < 2 ^ 31 := by
  rw [FitsInt, ← truncate_int_iff, ← quotient_eq]
  exact Iff.rfl

/-- The difference that is left to wait, before it is compared with 0. -/
def remaining (prev cur : Timeval) (s : Waiter) : Timeval :=
  timevalDiff s.drift (timevalDiv (timevalDiff prev cur) s.speed)

theorem timeout_eq :
    timeout prev cur s = if (remaining prev cur s).tvSec < 0 then ⟨0, 0⟩ else remaining prev cur s :=
  rfl

theorem micros_remaining : (remaining prev cur s).micros =
    (timevalDiv (timevalDiff prev cur) s.speed).micros - s.drift.micros :=
  micros_timevalDiff _ _

/-- The microseconds never make up a second; they are negative only after a second borrow. -/
theorem remaining_usec (prev cur : Timeval) (hdrift : s.drift.Normalised) :
    (remaining prev cur s).tvUsec < 1000000 ∧
      ((0 ≤ (remaining prev cur s).tvSec → 0 ≤ (remaining prev cur s).tvUsec) ↔
        OneBorrow prev cur s) := by
  have hd0 := hdrift.usec_nonneg
  have hd1 := hdrift.usec_lt
  rcases lt_or_ge (due prev cur s.speed) 0 with h | h
  · obtain ⟨hf0, hf1⟩ := floor_fract_micros (-due prev cur s.speed)
    rw [remaining, timevalDiv_of_nonpos h.le, timevalDiff, OneBorrow]
    simp only [h, forall_const]
    split
    · constructor
      · dsimp only
        omega
      · dsimp only
        omega
    · constructor
      · dsimp only
        omega
      · dsimp only
        omega
  · obtain ⟨hf0, hf1⟩ := floor_fract_micros (due prev cur s.speed)
    have hnormal : (remaining prev cur s).Normalised := by
      rw [remaining, timevalDiv_of_nonneg h]
      exact normal_timevalDiff hdrift ⟨hf0, hf1⟩
    exact ⟨hnormal.usec_lt, iff_of_true (fun _ => hnormal.usec_nonneg)
      fun hneg => absurd hneg (not_lt.mpr h)⟩

/-- What is left to wait, or nothing. -/
theorem micros_timeout (hdrift : s.drift.Normalised) (hborrow : OneBorrow prev cur s) :
    0 ≤ (timeout prev cur s).tvSec ∧ (timeout prev cur s).Normalised ∧
      (timeout prev cur s).micros = max 0 (remaining prev cur s).micros := by
  obtain ⟨hlt, husec⟩ := remaining_usec prev cur hdrift
  have hmicros : (remaining prev cur s).micros =
      (remaining prev cur s).tvSec * 1000000 + (remaining prev cur s).tvUsec := rfl
  rw [timeout_eq]
  split
  · exact ⟨le_rfl, Timeval.normal_zero, by rw [Timeval.micros_zero]; omega⟩
  next hsec =>
    have h0 := husec.mpr hborrow (not_lt.mp hsec)
    exact ⟨not_lt.mp hsec, ⟨h0, hlt⟩, by omega⟩

/-- **One wait** is sound exactly when the interval is exact: the conversions to an `int` fit, and
the drift borrows at most once. -/
theorem sound_iff (hdrift : s.drift.Normalised) : Sound prev cur s ↔ Exact prev cur s := by
  constructor
  · intro h
    refine ⟨fitsInt_iff.mp h.fits, (remaining_usec prev cur hdrift).2.mp ?_⟩
    intro hsec
    have husec := h.normal.usec_nonneg
    rw [timeout_eq, if_neg (not_lt.mpr hsec)] at husec
    exact husec
  · intro h
    obtain ⟨hsec, hnormal, hmicros⟩ := micros_timeout hdrift h.borrow
    refine ⟨fitsInt_iff.mpr h.range, hsec, hnormal, ?_⟩
    have hdiv := micros_timevalDiv prev cur s.speed
    rw [hmicros, micros_remaining, wanted]
    push_cast
    rw [max_comm, max_comm (0 : ℚ)]
    refine (abs_max_sub_max_le_abs _ _ _).trans ?_
    rw [sub_sub_sub_cancel_right]
    exact hdiv

end Timeout

/-! ### All the waits of a playback -/

/-- A call of `ttywait`: the time stamp of the record, the clock before, and how `select` ends,
be it early or not. -/
structure Sleep where
  cur : Timeval
  start : Timeval
  wake : Wake
  start_normal : start.Normalised
  stop_normal : ∀ stop, wake = .timeout stop → stop.Normalised

/-- The last time stamp, and what `ttywait` keeps. -/
structure Playing where
  prev : Timeval
  waiter : Waiter

/-- The wait before the next record. -/
def sleepStep (p : Playing) (c : Sleep) : Option Playing :=
  some ⟨c.cur, ttywait p.prev c.cur c.start c.wake p.waiter⟩

/-- A sound wait leaves a drift of less than a second of microseconds. -/
theorem Sound.drift {p : Playing} {c : Sleep} (h : Sound p.prev c.cur p.waiter)
    (hdrift : p.waiter.drift.Normalised) :
    (ttywait p.prev c.cur c.start c.wake p.waiter).drift.Normalised := by
  cases hw : c.wake with
  | key bytes => exact Timeval.normal_zero
  | timeout stop =>
    have hslept := normal_timevalDiff c.start_normal (c.stop_normal stop hw)
    simp only [ttywait]
    split
    · exact normal_timevalDiff (normal_timevalDiff hdrift h.normal) hslept
    · exact normal_timevalDiff h.normal hslept

/-- **The waits of a playback** at any speed, with any time stamps, keys and early returns: they
are all sound exactly when all their intervals are exact. -/
theorem sound_iff_exact (first : Timeval) (speed : ℚ) (cs : List Sleep) :
    Along sleepStep (fun p c => Sound p.prev c.cur p.waiter) ⟨first, ⟨⟨0, 0⟩, speed⟩⟩ cs ↔
      Along sleepStep (fun p c => Exact p.prev c.cur p.waiter) ⟨first, ⟨⟨0, 0⟩, speed⟩⟩ cs := by
  refine along_iff (I := fun p : Playing => p.waiter.drift.Normalised)
    (fun p c hp => sound_iff hp) ?_ Timeval.normal_zero
  intro p c q hp hsound hstep
  cases hstep
  exact hsound.drift hp

/-- A wait that takes some seconds, whatever `select` is given. -/
def Sleep.lasting (cur : Timeval) (sec : ℕ) : Sleep where
  cur := cur
  start := ⟨0, 0⟩
  wake := .timeout ⟨sec, 0⟩
  start_normal := Timeval.normal_zero
  stop_normal := by
    intro stop h
    cases h
    exact ⟨le_rfl, by simp⟩

/-- **A negative time, and one that is no `int`.**  A sleep of 10.3 seconds ends after 5, and the
next record has a time stamp half a second earlier: `select` is given 5 seconds and -200000
microseconds.  And an interval of `2 ^ 31` seconds does not fit an `int`. -/
theorem sleep_unsound :
    (∃ p, exec sleepStep ⟨⟨0, 0⟩, ⟨⟨0, 0⟩, 1⟩⟩ [.lasting ⟨10, 300000⟩ 5] = some p ∧
      timeout p.prev ⟨9, 800000⟩ p.waiter = ⟨5, -200000⟩) ∧
    ¬ Along sleepStep (fun p c => Sound p.prev c.cur p.waiter) ⟨⟨0, 0⟩, ⟨⟨0, 0⟩, 1⟩⟩
      [.lasting ⟨10, 300000⟩ 5, .lasting ⟨9, 800000⟩ 0] ∧
    ¬ Along sleepStep (fun p c => Sound p.prev c.cur p.waiter) ⟨⟨0, 0⟩, ⟨⟨0, 0⟩, 1⟩⟩
      [.lasting ⟨2 ^ 31, 0⟩ 0] := by
  have htimeout : timeout ⟨10, 300000⟩ ⟨9, 800000⟩
      (ttywait ⟨0, 0⟩ ⟨10, 300000⟩ ⟨0, 0⟩ (.timeout ⟨5, 0⟩) ⟨⟨0, 0⟩, 1⟩) = ⟨5, -200000⟩ := by
    decide +kernel
  refine ⟨⟨_, rfl, htimeout⟩, ?_, ?_⟩
  · rintro ⟨-, hrest⟩
    have husec := (hrest _ rfl).1.normal.usec_nonneg
    change 0 ≤ (timeout ⟨10, 300000⟩ ⟨9, 800000⟩
      (ttywait ⟨0, 0⟩ ⟨10, 300000⟩ ⟨0, 0⟩ (.timeout ⟨5, 0⟩) ⟨⟨0, 0⟩, 1⟩)).tvUsec at husec
    rw [htimeout] at husec
    exact absurd husec (by decide)
  · rintro ⟨h, -⟩
    have hsec := h.fits.2
    exact absurd hsec (by decide +kernel)

end TtyRec
