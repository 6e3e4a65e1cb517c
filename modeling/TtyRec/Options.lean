import Mathlib.Data.List.TakeWhile
import TtyRec.Parent
import TtyRec.Zstd.Write

/-!
# The time options

`main` reads five of its options with `strtol`, and refuses a value that is not strictly
positive or does not fit in a `long`.  Behind the loop over the options it compares them with
each other.  It refuses no value for being large.

## Main definitions

* `strtol` — the library function, for base 10.
* `TimeOption`, `readOption`, `readOptions` — the loop over the options.
* `TimeOptions`, `checkOptions`, `timeOptions` — the values, and the checks behind the loop.
* `TimeOptions.Accepted` — what the checks leave.

## Main results

* `exists_timeOptions_iff` — **`main` accepts exactly the values that are `Accepted`.**
-/

namespace TtyRec

/-! ### Numbers on the command line -/

/-- `LONG_MAX`. -/
def longMax : ℤ := 2 ^ 63 - 1

/-- `LONG_MIN`. -/
def longMin : ℤ := -2 ^ 63

/-- What `strtol` returns, and whether it sets `errno` to `ERANGE`. -/
structure Strtol where
  value : ℤ
  erange : Bool

/-- `isspace`. -/
def isSpace (c : Char) : Bool := c = ' ' || (9 ≤ c.toNat && c.toNat ≤ 13)

/-- The number that the digits at the beginning of a text make. -/
def leadingDigits (s : List Char) : ℕ := Nat.ofDigitChars 10 (s.takeWhile Char.isDigit) 0

/-- The optional sign, and the digits. -/
def signedDigits : List Char → ℤ
  | '-' :: s => -leadingDigits s
  | '+' :: s => leadingDigits s
  | s => leadingDigits s

/-- A number that is out of range becomes the limit it is beyond. -/
def clampLong (n : ℤ) : Strtol :=
  if longMax < n then ⟨longMax, true⟩ else if n < longMin then ⟨longMin, true⟩ else ⟨n, false⟩

/-- `strtol(s, NULL, 10)`; what is behind the digits is ignored. -/
def strtol (s : List Char) : Strtol := clampLong (signedDigits (s.dropWhile isSpace))

theorem clampLong_le (n : ℤ) : (clampLong n).value ≤ longMax := by
  unfold clampLong
  split
  next => exact le_rfl
  next hn =>
    split
    next => decide
    next => exact not_lt.mp hn

theorem clampLong_of_fits {n : ℤ} (hlo : longMin ≤ n) (hhi : n ≤ longMax) :
    clampLong n = ⟨n, false⟩ := by
  rw [clampLong, if_neg hhi.not_gt, if_neg hlo.not_gt]

theorem toNat_of_isDigit {c : Char} (hc : c.isDigit = true) : 48 ≤ c.toNat ∧ c.toNat ≤ 57 := by
  simp only [Char.isDigit, Bool.and_eq_true, decide_eq_true_eq] at hc
  exact hc

/-- A text that begins with a digit has neither blanks nor a sign in front. -/
theorem signedDigits_of_isDigit {c : Char} {s : List Char} (hc : c.isDigit = true) :
    signedDigits ((c :: s).dropWhile isSpace) = leadingDigits (c :: s) := by
  have hrange := toNat_of_isDigit hc
  have hspace : isSpace c = false := by
    have hblank : c ≠ ' ' := by
      rintro rfl
      exact absurd hrange (by decide)
    simp [isSpace, hblank]
    omega
  rw [List.dropWhile_cons_of_neg (by simp [hspace]), signedDigits]
  · rintro s' h
    cases h
    exact absurd hc (by decide)
  · rintro s' h
    cases h
    exact absurd hc (by decide)

/-- A numeral is read back. -/
theorem strtol_toDigits {n : ℕ} (hn : (n : ℤ) ≤ longMax) :
    strtol (Nat.toDigits 10 n) = ⟨n, false⟩ := by
  have hdigit : ∀ c ∈ Nat.toDigits 10 n, c.isDigit = true := fun c hc =>
    Nat.isDigit_of_mem_toDigits (by decide) (by decide) hc
  have hvalue : leadingDigits (Nat.toDigits 10 n) = n := by
    rw [leadingDigits, List.takeWhile_eq_self_iff.mpr hdigit, Nat.ofDigitChars_ten_toDigits]
  have hlo : longMin ≤ (n : ℤ) := by
    have : longMin ≤ 0 := by decide
    omega
  obtain ⟨c, s, hs⟩ := List.exists_cons_of_ne_nil (Nat.toDigits_ne_nil (n := n) (b := 10))
  rw [hs] at hdigit hvalue ⊢
  rw [strtol, signedDigits_of_isDigit (hdigit c List.mem_cons_self), hvalue,
    clampLong_of_fits hlo hn]

/-! ### The options -/

/-- The options that are numbers of seconds. -/
inductive TimeOption where
  | lock
  | kill
  | warnBeforeLock
  | warnBeforeKill
  | maxFlush
  deriving DecidableEq, Repr

/-- How the option is called. -/
def TimeOption.flag : TimeOption → String
  | .lock => "-t"
  | .kill => "-k"
  | .warnBeforeLock => "--warn-before-lock"
  | .warnBeforeKill => "--warn-before-kill"
  | .maxFlush => "--max-flush-time"

/-- The variables; a timeout or a warning that is not given is 0. -/
structure TimeOptions where
  timeoutLock : ℤ
  timeoutKill : ℤ
  warnBeforeLock : ℤ
  warnBeforeKill : ℤ
  maxFlush : ℤ

/-- The variables before the loop; only the flush interval has a default other than 0. -/
def TimeOptions.default : TimeOptions := ⟨0, 0, 0, 0, 15⟩

/-- The variable of an option. -/
def TimeOption.get : TimeOption → TimeOptions → ℤ
  | .lock, t => t.timeoutLock
  | .kill, t => t.timeoutKill
  | .warnBeforeLock, t => t.warnBeforeLock
  | .warnBeforeKill, t => t.warnBeforeKill
  | .maxFlush, t => t.maxFlush

def TimeOption.set : TimeOption → ℤ → TimeOptions → TimeOptions
  | .lock, n, t => { t with timeoutLock := n }
  | .kill, n, t => { t with timeoutKill := n }
  | .warnBeforeLock, n, t => { t with warnBeforeLock := n }
  | .warnBeforeKill, n, t => { t with warnBeforeKill := n }
  | .maxFlush, n, t => { t with maxFlush := n }

/-- One option of the loop: the argument is read by `strtol`, and refused when it is not positive or
does not fit in a `long`. -/
def readOption (opt : TimeOption) (optarg : List Char) (t : TimeOptions) :
    Except String TimeOptions :=
  if (strtol optarg).erange = true ∨ (strtol optarg).value ≤ 0 then
    .error (s!"Invalid value passed to {opt.flag} ({String.ofList optarg}), " ++
      "expected a strictly positive integer\r\n")
  else .ok (opt.set (strtol optarg).value t)

/-- The loop: of an option that is given twice, the second value counts. -/
def readOptions : List (TimeOption × List Char) → TimeOptions → Except String TimeOptions
  | [], t => .ok t
  | (opt, optarg) :: args, t =>
    match readOption opt optarg t with
    | .error message => .error message
    | .ok t' => readOptions args t'

/-- The checks behind the loop, which compare the warnings with their timeouts. -/
def checkOptions (t : TimeOptions) : Except String TimeOptions :=
  if 0 < t.timeoutLock ∧ 0 < t.timeoutKill ∧ t.timeoutKill < t.timeoutLock then
    .error (s!"specified timeout_lock ({t.timeoutLock}) is higher than " ++
      s!"timeout_kill ({t.timeoutKill}), this doesn't make sense\r\n")
  else if 0 < t.warnBeforeLock ∧ t.timeoutLock = 0 then
    .error ("You specified --warn-before-lock without enabling --timeout-lock, " ++
      "this doesn't make sense\r\n")
  else if t.timeoutLock < t.warnBeforeLock then
    .error ("The specified value for --warn-before-lock is higher than " ++
      "--timeout-lock, this doesn't make sense\r\n")
  else if 0 < t.warnBeforeKill ∧ t.timeoutKill = 0 then
    .error ("You specified --warn-before-kill without enabling --timeout-kill, " ++
      "this doesn't make sense\r\n")
  else if t.timeoutKill < t.warnBeforeKill then
    .error ("The specified value for --warn-before-kill is higher than " ++
      "--timeout-kill, this doesn't make sense\r\n")
  else .ok t

/-- The time options that `main` gets from its command line. -/
def timeOptions (args : List (TimeOption × List Char)) : Except String TimeOptions :=
  match readOptions args .default with
  | .error message => .error message
  | .ok t => checkOptions t

/-! ### What is accepted -/

theorem TimeOption.get_set (opt opt' : TimeOption) (n : ℤ) (t : TimeOptions) :
    opt'.get (opt.set n t) = if opt' = opt then n else opt'.get t := by
  cases opt <;> cases opt' <;> rfl

theorem TimeOption.set_get (opt : TimeOption) (t : TimeOptions) : opt.set (opt.get t) t = t := by
  cases opt <;> rfl

theorem readOption_ok_iff {opt : TimeOption} {optarg : List Char} {t t' : TimeOptions} :
    readOption opt optarg t = .ok t' ↔
      (strtol optarg).erange = false ∧ 0 < (strtol optarg).value ∧
        t' = opt.set (strtol optarg).value t := by
  unfold readOption
  split
  next h =>
    refine iff_of_false nofun ?_
    rintro ⟨he, hpos, -⟩
    rcases h with h | h
    · exact absurd (he.symm.trans h) Bool.false_ne_true
    · exact absurd hpos h.not_gt
  next h =>
    rw [not_or, Bool.not_eq_true, not_le] at h
    rw [Except.ok.injEq]
    exact ⟨fun heq => ⟨h.1, h.2, heq.symm⟩, fun heq => heq.2.2.symm⟩

/-- The values in the loop: they fit in a `long`, and `zstd_max_flush_seconds` is positive. -/
structure TimeOptions.InLoop (t : TimeOptions) : Prop where
  nonneg : ∀ opt : TimeOption, 0 ≤ opt.get t
  le_max : ∀ opt : TimeOption, opt.get t ≤ longMax
  maxFlush_pos : 0 < t.maxFlush

theorem inLoop_default : TimeOptions.default.InLoop where
  nonneg opt := by cases opt <;> decide
  le_max opt := by cases opt <;> decide
  maxFlush_pos := by decide

theorem TimeOptions.InLoop.set {t : TimeOptions} (h : t.InLoop) (opt : TimeOption) {n : ℤ}
    (hpos : 0 < n) (hmax : n ≤ longMax) : (opt.set n t).InLoop where
  nonneg opt' := by
    rw [TimeOption.get_set]
    split
    · exact hpos.le
    · exact h.nonneg opt'
  le_max opt' := by
    rw [TimeOption.get_set]
    split
    · exact hmax
    · exact h.le_max opt'
  maxFlush_pos := by
    change 0 < TimeOption.maxFlush.get (opt.set n t)
    rw [TimeOption.get_set]
    split
    · exact hpos
    · exact h.maxFlush_pos

/-- The loop keeps to the range of a `long`. -/
theorem readOptions_inLoop {args : List (TimeOption × List Char)} {t t' : TimeOptions}
    (h : t.InLoop) (hread : readOptions args t = .ok t') : t'.InLoop := by
  induction args generalizing t with
  | nil =>
    cases hread
    exact h
  | cons arg args ih =>
    obtain ⟨opt, optarg⟩ := arg
    rw [readOptions] at hread
    cases hopt : readOption opt optarg t with
    | error message =>
      rw [hopt] at hread
      cases hread
    | ok t₁ =>
      rw [hopt] at hread
      obtain ⟨-, hpos, rfl⟩ := readOption_ok_iff.mp hopt
      exact ih (h.set opt hpos (clampLong_le _)) hread

/-- What the checks leave: each value in its range, and no warning longer than its timeout. -/
structure TimeOptions.Accepted (t : TimeOptions) : Prop extends t.InLoop where
  lock_le_kill : 0 < t.timeoutLock → 0 < t.timeoutKill → t.timeoutLock ≤ t.timeoutKill
  warnBeforeLock_le : t.warnBeforeLock ≤ t.timeoutLock
  warnBeforeKill_le : t.warnBeforeKill ≤ t.timeoutKill

theorem checkOptions_ok_iff {t t' : TimeOptions} (h : t.InLoop) :
    checkOptions t = .ok t' ↔ t' = t ∧ t.Accepted := by
  have hwarnLock : 0 ≤ t.warnBeforeLock := h.nonneg .warnBeforeLock
  have hwarnKill : 0 ≤ t.warnBeforeKill := h.nonneg .warnBeforeKill
  constructor
  · intro hcheck
    unfold checkOptions at hcheck
    split_ifs at hcheck with hlock _ hwarn _ hwarn'
    cases hcheck
    exact ⟨rfl, h, by omega, not_lt.mp hwarn, not_lt.mp hwarn'⟩
  · rintro ⟨rfl, hacc⟩
    have hle := hacc.lock_le_kill
    have hwarn := hacc.warnBeforeLock_le
    have hwarn' := hacc.warnBeforeKill_le
    unfold checkOptions
    rw [if_neg (by omega), if_neg (by omega), if_neg (by omega), if_neg (by omega),
      if_neg (by omega)]

/-- **What `main` accepts** fits in a `long`, and no warning is longer than its timeout. -/
theorem accepted_of_timeOptions {args : List (TimeOption × List Char)} {t : TimeOptions}
    (h : timeOptions args = .ok t) : t.Accepted := by
  unfold timeOptions at h
  cases hread : readOptions args .default with
  | error message =>
    rw [hread] at h
    cases h
  | ok t' =>
    rw [hread] at h
    obtain ⟨rfl, hacc⟩ := (checkOptions_ok_iff (readOptions_inLoop inLoop_default hread)).mp h
    exact hacc

/-- An option is given when its value is positive. -/
def TimeOption.given (opt : TimeOption) (t : TimeOptions) : List (TimeOption × List Char) :=
  if 0 < opt.get t then [(opt, Nat.toDigits 10 (opt.get t).toNat)] else []

theorem readOptions_given {opt : TimeOption} {t u : TimeOptions} (h : t.InLoop)
    (hu : 0 < opt.get t ∨ opt.get u = 0) (args : List (TimeOption × List Char)) :
    readOptions (opt.given t ++ args) u = readOptions args (opt.set (opt.get t) u) := by
  unfold TimeOption.given
  split
  next hpos =>
    have hnat : ((opt.get t).toNat : ℤ) = opt.get t := Int.toNat_of_nonneg hpos.le
    have hnum := strtol_toDigits (hnat.trans_le (h.le_max opt))
    have hread : readOption opt (Nat.toDigits 10 (opt.get t).toNat) u =
        .ok (opt.set (opt.get t) u) := by
      rw [readOption_ok_iff, hnum]
      exact ⟨rfl, hpos.trans_eq hnat.symm, by rw [hnat]⟩
    rw [List.singleton_append, readOptions, hread]
  next hpos =>
    have hzero : opt.get t = opt.get u := by
      rw [hu.resolve_left hpos]
      exact le_antisymm (not_lt.mp hpos) (h.nonneg opt)
    rw [List.nil_append, hzero, TimeOption.set_get]

/-- **`main` accepts exactly these values.** Each is given by an option with its decimal digits. -/
theorem exists_timeOptions_iff {t : TimeOptions} :
    (∃ args, timeOptions args = .ok t) ↔ t.Accepted := by
  constructor
  · rintro ⟨args, hargs⟩
    exact accepted_of_timeOptions hargs
  · intro h
    have hloop := h.toInLoop
    have hflush : 0 < TimeOption.maxFlush.get t := h.maxFlush_pos
    refine ⟨TimeOption.lock.given t ++ (TimeOption.kill.given t ++
      (TimeOption.warnBeforeLock.given t ++ (TimeOption.warnBeforeKill.given t ++
        (TimeOption.maxFlush.given t ++ [])))), ?_⟩
    unfold timeOptions
    rw [readOptions_given hloop (.inr rfl), readOptions_given hloop (.inr rfl),
      readOptions_given hloop (.inr rfl), readOptions_given hloop (.inr rfl),
      readOptions_given hloop (.inl hflush)]
    exact (checkOptions_ok_iff hloop).mpr ⟨rfl, h⟩

end TtyRec
