import TtyRec.Player

/-!
# Waiting between records

`ttywait` sleeps in `select` until the next record is due, or a key is hit.  What a sleep
takes too long is remembered in `drift`, and the next sleeps are shorter for it; a sleep
that would end in the past is not made at all.

The time stamps are `timeval`s, and the speed is a `double`, read here as a rational
number; an interval that is divided by it fits an `int`.

## Main definitions

* `timevalDiff`, `timevalDiv` — the arithmetic of the player.
* `Waiter`, `Wake`, `ttywait` — one wait.
* `Pause`, `waits` — the waits of a recording, none of them ended by a key.
* `waited`, `recorded` — how long they took, and how long they should have.

## Main results

* `micros_ttywait` — what a wait adds to the drift.
* `accounts_iff` — **the drift is what was waited too long exactly as long as no record is
  due before its wait begins**, unless it has the time stamp of the one before it.
-/

namespace TtyRec

/-! ### The arithmetic of time stamps -/

/-- `timeval_diff`, with the borrow of the microseconds. -/
def timevalDiff (tv₁ tv₂ : Timeval) : Timeval :=
  if tv₂.tvUsec - tv₁.tvUsec < 0 then
    ⟨tv₂.tvSec - tv₁.tvSec - 1, tv₂.tvUsec - tv₁.tvUsec + 1000000⟩
  else ⟨tv₂.tvSec - tv₁.tvSec, tv₂.tvUsec - tv₁.tvUsec⟩

/-- The conversion of a `double` to an integer, towards zero. -/
def truncate (x : ℚ) : ℤ := x.num.tdiv x.den

/-- `timeval_div`, whose quotient is cut into seconds and microseconds. -/
def timevalDiv (tv : Timeval) (n : ℚ) : Timeval :=
  let x := (tv.tvSec + tv.tvUsec / 1000000) / n
  ⟨truncate x, truncate ((x - truncate x) * 1000000)⟩

/-- The microseconds make up less than a second, as `select` and the comparisons want it. -/
structure Timeval.Normalised (tv : Timeval) : Prop where
  usec_nonneg : 0 ≤ tv.tvUsec
  usec_lt : tv.tvUsec < 1000000

namespace Timeval

variable {tv tv₁ tv₂ : Timeval}

theorem normal_zero : Normalised ⟨0, 0⟩ := ⟨le_rfl, by simp⟩

theorem Normalised.sec_nonneg_iff (h : tv.Normalised) : 0 ≤ tv.tvSec ↔ 0 ≤ tv.micros := by
  have := h.usec_nonneg
  have := h.usec_lt
  unfold micros
  omega

theorem Normalised.eq_zero_iff (h : tv.Normalised) : (tv.tvSec = 0 ∧ tv.tvUsec = 0) ↔ tv.micros = 0 := by
  have := h.usec_nonneg
  have := h.usec_lt
  unfold micros
  omega

end Timeval

section Arithmetic

variable {tv tv₁ tv₂ : Timeval}

@[simp] theorem micros_timevalDiff (tv₁ tv₂ : Timeval) :
    (timevalDiff tv₁ tv₂).micros = tv₂.micros - tv₁.micros := by
  unfold timevalDiff Timeval.micros
  split
  · dsimp only
    omega
  · dsimp only
    omega

theorem normal_timevalDiff (h₁ : tv₁.Normalised) (h₂ : tv₂.Normalised) : (timevalDiff tv₁ tv₂).Normalised := by
  have := h₁.usec_nonneg
  have := h₁.usec_lt
  have := h₂.usec_nonneg
  have := h₂.usec_lt
  unfold timevalDiff
  split
  · constructor
    · dsimp only
      omega
    · dsimp only
      omega
  · constructor
    · dsimp only
      omega
    · dsimp only
      omega

theorem truncate_of_nonneg {x : ℚ} (h : 0 ≤ x) : truncate x = ⌊x⌋ := by
  rw [truncate, Int.tdiv_eq_ediv_of_nonneg (Rat.num_nonneg.mpr h), Rat.floor_def']

theorem truncate_intCast {n : ℤ} (h : 0 ≤ n) : truncate n = n := by
  rw [truncate_of_nonneg (by exact_mod_cast h), Int.floor_intCast]

/-- Dividing by 1 is exact. -/
theorem timevalDiv_one (h : tv.Normalised) (hsec : 0 ≤ tv.tvSec) : timevalDiv tv 1 = tv := by
  obtain ⟨sec, usec⟩ := tv
  obtain ⟨h0, h1⟩ := h
  simp only at h0 h1 hsec
  have h0' : (0 : ℚ) ≤ usec := by exact_mod_cast h0
  have h1' : (usec : ℚ) < 1000000 := by exact_mod_cast h1
  have hsec' : (0 : ℚ) ≤ sec := by exact_mod_cast hsec
  have hx : truncate ((sec + usec / 1000000) / 1) = sec := by
    rw [div_one, truncate_of_nonneg (by positivity), Int.floor_eq_iff]
    constructor
    · have : (0 : ℚ) ≤ usec / 1000000 := by positivity
      linarith
    · have : (usec : ℚ) / 1000000 < 1 := by rw [div_lt_one (by norm_num)]; exact h1'
      linarith
  have hrest : ((sec + usec / 1000000 : ℚ) / 1 - sec) * 1000000 = usec := by ring
  simp only [timevalDiv, hx, hrest, truncate_intCast h0]

end Arithmetic

/-! ### One wait -/

/-- What `ttywait` keeps from one call to the next, and the speed that it returns. -/
structure Waiter where
  drift : Timeval
  speed : ℚ
  deriving DecidableEq

/-- Before the first wait, at the normal speed. -/
def Waiter.fresh : Waiter := ⟨⟨0, 0⟩, 1⟩

/-- How `select` ends: without a key, the clock being read then, or with what is read of
the keyboard. -/
inductive Wake where
  | timeout (stop : Timeval)
  | key (bytes : List UInt8)

/-- The speed after a key. -/
def pressed (c : UInt8) (speed : ℚ) : ℚ :=
  if c = 0x2b ∨ c = 0x66 then speed * 2
  else if c = 0x2d ∨ c = 0x73 then speed / 2
  else if c = 0x31 then 1
  else speed

/-- How long `select` is asked to sleep. -/
def timeout (prev cur : Timeval) (s : Waiter) : Timeval :=
  let diff := timevalDiff s.drift (timevalDiv (timevalDiff prev cur) s.speed)
  if diff.tvSec < 0 then ⟨0, 0⟩ else diff

/-- `ttywait`: it sleeps until the record is due, and what it sleeps too long is taken from the next
time. -/
def ttywait (prev cur start : Timeval) (wake : Wake) (s : Waiter) : Waiter :=
  let diff := timeout prev cur s
  match wake with
  | .key bytes =>
    -- more than one byte is not a human typing
    { drift := ⟨0, 0⟩
      speed := match bytes with
        | [c] => pressed c s.speed
        | _ => s.speed }
  | .timeout stop =>
    let diff := if diff.tvSec = 0 ∧ diff.tvUsec = 0 then timevalDiff s.drift diff else diff
    { s with drift := timevalDiff diff (timevalDiff start stop) }

section OneWait

variable {prev cur start stop : Timeval} {s : Waiter}

/-- At the normal speed, what is asked for is the interval less the drift, if that is
positive. -/
theorem timeout_spec (hprev : prev.Normalised) (hcur : cur.Normalised) (hle : prev.micros ≤ cur.micros)
    (hdrift : s.drift.Normalised) (hspeed : s.speed = 1) :
    (timeout prev cur s).Normalised ∧
      (timeout prev cur s).micros = max 0 (cur.micros - prev.micros - s.drift.micros) := by
  have hnormal := normal_timevalDiff hprev hcur
  have hsec : 0 ≤ (timevalDiff prev cur).tvSec := by
    rw [hnormal.sec_nonneg_iff, micros_timevalDiff]
    omega
  have hdiff := normal_timevalDiff hdrift hnormal
  have hmicros : (timevalDiff s.drift (timevalDiff prev cur)).micros =
      cur.micros - prev.micros - s.drift.micros := by simp
  have hsign := hdiff.sec_nonneg_iff
  rw [hmicros] at hsign
  simp only [timeout, hspeed, timevalDiv_one hnormal hsec]
  split
  · exact ⟨Timeval.normal_zero, by rw [Timeval.micros_zero]; omega⟩
  · exact ⟨hdiff, by rw [hmicros]; omega⟩

/-- **What a wait adds to the drift**: what it took, less the interval if that was more
than the drift. -/
theorem micros_ttywait (hprev : prev.Normalised) (hcur : cur.Normalised) (hle : prev.micros ≤ cur.micros)
    (hdrift : s.drift.Normalised) (hspeed : s.speed = 1) :
    (ttywait prev cur start (.timeout stop) s).drift.micros =
      s.drift.micros + (stop.micros - start.micros) -
        if s.drift.micros < cur.micros - prev.micros then cur.micros - prev.micros else 0 := by
  obtain ⟨hnormal, hmicros⟩ := timeout_spec hprev hcur hle hdrift hspeed
  simp only [ttywait]
  split
  next hzero =>
    rw [hnormal.eq_zero_iff, hmicros] at hzero
    rw [if_neg (by omega)]
    simp [hmicros]
    omega
  next hzero =>
    rw [hnormal.eq_zero_iff, hmicros] at hzero
    rw [if_pos (by omega)]
    simp [hmicros]
    omega

theorem normal_ttywait (hprev : prev.Normalised) (hcur : cur.Normalised) (hle : prev.micros ≤ cur.micros)
    (hdrift : s.drift.Normalised) (hspeed : s.speed = 1) (hstart : start.Normalised) (hstop : stop.Normalised) :
    (ttywait prev cur start (.timeout stop) s).drift.Normalised := by
  obtain ⟨hnormal, -⟩ := timeout_spec hprev hcur hle hdrift hspeed
  simp only [ttywait]
  split
  · exact normal_timevalDiff (normal_timevalDiff hdrift hnormal) (normal_timevalDiff hstart hstop)
  · exact normal_timevalDiff hnormal (normal_timevalDiff hstart hstop)

@[simp] theorem ttywait_timeout_speed :
    (ttywait prev cur start (.timeout stop) s).speed = s.speed := rfl

end OneWait

/-! ### All the waits of a recording -/

/-- The wait before the record with the time stamp `cur`, with the clock before and after. -/
structure Pause where
  cur : Timeval
  start : Timeval
  stop : Timeval
  deriving DecidableEq

/-- How long `select` took, by the two readings of the clock. -/
def Pause.measured (p : Pause) : ℤ := p.stop.micros - p.start.micros

/-- The waits one after the other, none of them ended by a key. -/
def waits (prev : Timeval) (s : Waiter) : List Pause → Waiter
  | [] => s
  | p :: ps => waits p.cur (ttywait prev p.cur p.start (.timeout p.stop) s) ps

/-- How long the waits took, all of them together. -/
def waited (ps : List Pause) : ℤ := (ps.map Pause.measured).sum

/-- The sum of the intervals between the records. -/
def recorded (prev : Timeval) : List Pause → ℤ
  | [] => 0
  | p :: ps => (p.cur.micros - prev.micros) + recorded p.cur ps

/-- The time stamps do not go back, and every `select` takes as long as it was asked to. -/
def Slept (prev : Timeval) (s : Waiter) : List Pause → Prop
  | [] => True
  | p :: ps =>
    (p.cur.Normalised ∧ prev.micros ≤ p.cur.micros ∧ p.start.Normalised ∧ p.stop.Normalised ∧
      (timeout prev p.cur s).micros ≤ p.measured) ∧
    Slept p.cur (ttywait prev p.cur p.start (.timeout p.stop) s) ps

/-- Where the waits are after the first `k` of them: the drift is what they took too long,
and they took long enough. -/
def Accounts (prev : Timeval) (s : Waiter) (ps : List Pause) (k : ℕ) : Prop :=
  (waits prev s (ps.take k)).drift.micros =
      s.drift.micros + waited (ps.take k) - recorded prev (ps.take k) ∧
    recorded prev (ps.take k) ≤ s.drift.micros + waited (ps.take k)

/-- The record after the first `k` waits is not due yet, or has the time stamp of the one
before it. -/
def InTime (prev : Timeval) (s : Waiter) (ps : List Pause) (k : ℕ) : Prop :=
  recorded prev (ps.take (k + 1)) = recorded prev (ps.take k) ∨
    s.drift.micros + waited (ps.take k) < recorded prev (ps.take (k + 1))

@[simp] theorem waited_nil : waited [] = 0 := rfl

@[simp] theorem waited_cons (p : Pause) (ps : List Pause) :
    waited (p :: ps) = p.measured + waited ps := by
  simp [waited]

@[simp] theorem recorded_nil (prev : Timeval) : recorded prev [] = 0 := rfl

@[simp] theorem recorded_cons (prev : Timeval) (p : Pause) (ps : List Pause) :
    recorded prev (p :: ps) = (p.cur.micros - prev.micros) + recorded p.cur ps := rfl

/-- What the waits rely on when they begin: a drift that is normalised and not negative, and the
normal speed. -/
structure Waiter.Steady (s : Waiter) : Prop where
  normal : s.drift.Normalised
  nonneg : 0 ≤ s.drift.micros
  speed : s.speed = 1

theorem Waiter.steady_fresh : Waiter.fresh.Steady := ⟨Timeval.normal_zero, le_rfl, rfl⟩

/-- The first wait keeps that. -/
theorem Slept.steady {prev : Timeval} {s : Waiter} {p : Pause} {ps : List Pause}
    (hprev : prev.Normalised) (hs : s.Steady) (h : Slept prev s (p :: ps)) :
    (ttywait prev p.cur p.start (.timeout p.stop) s).Steady := by
  obtain ⟨⟨hcur, hle, hstart, hstop, hlong⟩, -⟩ := h
  refine ⟨normal_ttywait hprev hcur hle hs.normal hs.speed hstart hstop, ?_, hs.speed⟩
  rw [(timeout_spec hprev hcur hle hs.normal hs.speed).2, Pause.measured] at hlong
  rw [micros_ttywait hprev hcur hle hs.normal hs.speed]
  have hdrift := hs.nonneg
  split
  · omega
  · omega

section Step

variable {prev : Timeval} {s : Waiter} {p : Pause} {ps : List Pause}

/-- A wait that adds to the drift what it took too long leaves the account of the rest. -/
theorem accounts_succ (k : ℕ)
    (hdrift : (ttywait prev p.cur p.start (.timeout p.stop) s).drift.micros =
      s.drift.micros + p.measured - (p.cur.micros - prev.micros)) :
    Accounts prev s (p :: ps) (k + 1) ↔
      Accounts p.cur (ttywait prev p.cur p.start (.timeout p.stop) s) ps k := by
  simp only [Accounts, List.take_succ_cons, waits, waited_cons, recorded_cons, hdrift]
  constructor
  · rintro ⟨h, hle⟩
    exact ⟨by omega, by omega⟩
  · rintro ⟨h, hle⟩
    exact ⟨by omega, by omega⟩

theorem inTime_succ (k : ℕ)
    (hdrift : (ttywait prev p.cur p.start (.timeout p.stop) s).drift.micros =
      s.drift.micros + p.measured - (p.cur.micros - prev.micros)) :
    InTime prev s (p :: ps) (k + 1) ↔
      InTime p.cur (ttywait prev p.cur p.start (.timeout p.stop) s) ps k := by
  simp only [InTime, List.take_succ_cons, waited_cons, recorded_cons, hdrift]
  constructor
  · rintro (h | h)
    · exact .inl (by omega)
    · exact .inr (by omega)
  · rintro (h | h)
    · exact .inl (by omega)
    · exact .inr (by omega)

/-- The first record is in time when no time passes, or more than the drift. -/
theorem inTime_zero : InTime prev s (p :: ps) 0 ↔
    p.cur.micros - prev.micros = 0 ∨ s.drift.micros < p.cur.micros - prev.micros := by
  simp [InTime]

end Step

/-- From any drift on: the account is kept exactly as long as the records are in time. -/
theorem waits_accounts_iff {prev : Timeval} {s : Waiter} {ps : List Pause} (hprev : prev.Normalised)
    (hs : s.Steady) (h : Slept prev s ps) :
    (∀ k, Accounts prev s ps k) ↔ ∀ k < ps.length, InTime prev s ps k := by
  have hzero : Accounts prev s ps 0 := ⟨by simp [waits], by simpa using hs.nonneg⟩
  induction ps generalizing prev s with
  | nil => simpa [Accounts] using hzero
  | cons p ps ih =>
    obtain ⟨⟨hcur, hle, -, -, -⟩, hrest⟩ := id h
    have hs' := h.steady hprev hs
    have hstep : (ttywait prev p.cur p.start (.timeout p.stop) s).drift.micros = _ :=
      micros_ttywait hprev hcur hle hs.normal hs.speed
    by_cases hgood : p.cur.micros - prev.micros = 0 ∨ s.drift.micros < p.cur.micros - prev.micros
    · -- the wait is accounted for, and so are the others if they are
      have hdrift : (ttywait prev p.cur p.start (.timeout p.stop) s).drift.micros =
          s.drift.micros + p.measured - (p.cur.micros - prev.micros) := by
        rw [hstep, Pause.measured]
        split
        · rfl
        · omega
      have hih := ih hcur hs' hrest ⟨by simp [waits], by simpa using hs'.nonneg⟩
      constructor
      · intro hall k hk
        cases k with
        | zero => exact inTime_zero.mpr hgood
        | succ k =>
          rw [inTime_succ k hdrift]
          exact hih.mp (fun k => (accounts_succ k hdrift).mp (hall (k + 1))) k (by simpa using hk)
      · intro hall k
        cases k with
        | zero => exact hzero
        | succ k =>
          rw [accounts_succ k hdrift]
          refine hih.mpr (fun k hk => (inTime_succ k hdrift).mp (hall (k + 1) ?_)) k
          simpa using hk
    · -- the interval is missing in the drift
      constructor
      · intro hall
        have hone := (hall 1).1
        simp only [List.take_succ_cons, List.take_zero, waits, waited_cons, waited_nil,
          recorded_cons, recorded_nil, Pause.measured] at hone
        rw [hstep, if_neg (not_or.mp hgood).2] at hone
        exact absurd (.inl (by omega)) hgood
      · intro hall
        exact absurd (inTime_zero.mp (hall 0 (Nat.succ_pos _))) hgood

/-- **Playback keeps its account exactly when no record is due before its wait begins**,
unless it has the time stamp of the record before it: then, after each wait, the drift is
what was waited less what was recorded, and the waits never took less than the recording. -/
theorem accounts_iff {first : Timeval} {ps : List Pause} (hfirst : first.Normalised)
    (h : Slept first .fresh ps) :
    (∀ k, (waits first .fresh (ps.take k)).drift.micros =
          waited (ps.take k) - recorded first (ps.take k) ∧
        recorded first (ps.take k) ≤ waited (ps.take k)) ↔
      ∀ k < ps.length, recorded first (ps.take (k + 1)) = recorded first (ps.take k) ∨
        waited (ps.take k) < recorded first (ps.take (k + 1)) := by
  have := waits_accounts_iff hfirst Waiter.steady_fresh h
  simpa [Accounts, InTime, Waiter.fresh] using this

/-- Three records, one second apart, and waits that take a second each. -/
def onTime : List Pause := [⟨⟨1, 0⟩, ⟨5, 0⟩, ⟨6, 0⟩⟩, ⟨⟨2, 0⟩, ⟨6, 0⟩, ⟨7, 0⟩⟩]

/-- The same with a fourth record, and a first wait that takes two seconds; the others take no
time. -/
def lateOnce : List Pause :=
  [⟨⟨1, 0⟩, ⟨5, 0⟩, ⟨7, 0⟩⟩, ⟨⟨2, 0⟩, ⟨7, 0⟩, ⟨7, 0⟩⟩, ⟨⟨3, 0⟩, ⟨7, 0⟩, ⟨7, 0⟩⟩]

theorem slept_onTime : Slept ⟨0, 0⟩ .fresh onTime := by
  refine ⟨⟨⟨?_, ?_⟩, ?_, ⟨?_, ?_⟩, ⟨?_, ?_⟩, ?_⟩, ⟨⟨?_, ?_⟩, ?_, ⟨?_, ?_⟩, ⟨?_, ?_⟩, ?_⟩, trivial⟩ <;>
    decide +kernel

theorem accounts_iff_onTime :
    Slept ⟨0, 0⟩ .fresh onTime ∧
      ∀ k, (waits ⟨0, 0⟩ .fresh (onTime.take k)).drift.micros =
          waited (onTime.take k) - recorded ⟨0, 0⟩ (onTime.take k) ∧
        recorded ⟨0, 0⟩ (onTime.take k) ≤ waited (onTime.take k) := by
  refine ⟨slept_onTime, (accounts_iff Timeval.normal_zero slept_onTime).mpr ?_⟩
  intro k hk
  right
  match k, hk with
  | 0, _ => decide
  | 1, _ => decide

/-- The second and the third record are due when the first wait is over, and are played at
once.  The fourth is played at once as well, one second too early. -/
theorem runs_ahead :
    Slept ⟨0, 0⟩ .fresh lateOnce ∧ (waits ⟨0, 0⟩ .fresh lateOnce).drift = ⟨1, 0⟩ ∧
      waited lateOnce = 2000000 ∧ recorded ⟨0, 0⟩ lateOnce = 3000000 := by
  refine ⟨?_, by decide +kernel, by decide, by decide⟩
  refine ⟨⟨⟨?_, ?_⟩, ?_, ⟨?_, ?_⟩, ⟨?_, ?_⟩, ?_⟩, ⟨⟨?_, ?_⟩, ?_, ⟨?_, ?_⟩, ⟨?_, ?_⟩, ?_⟩,
    ⟨⟨?_, ?_⟩, ?_, ⟨?_, ?_⟩, ⟨?_, ?_⟩, ?_⟩, trivial⟩ <;> decide +kernel

end TtyRec
