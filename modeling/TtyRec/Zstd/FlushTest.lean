import TtyRec.Lib.SignedExpr
import TtyRec.Watcher
import TtyRec.Zstd.Flush

/-!
# The test for a flush

`fwrite_wrapper_zstd` adds `zstd_max_flush_seconds` to `last_sync` in a `long`, and compares
the sum with the clock.

## Main definitions

* `FlushVar`, `flushComparison`, `flushWords` — the test, and the words it computes with.
* `testedSync` — `last_sync`, in a call that gets to the test.
* `fwriteWrapperZstd64` — the wrapper, with the test that the machine makes.
* `Writing`, `WritingEvent`, `writingStep` — runs of calls, with every reading of the clock.
* `HoldsBack` — a new compressor holds back a first byte.

## Main results

* `fwriteWrapperZstd64_eq` — the wrapper is `fwriteWrapperZstd`, as long as the sum fits.
* `flushExact_iff` — **no sum overflows in any run exactly up to a limit of
  `2 ^ 63 - 2 ^ 44` seconds.**
-/

namespace TtyRec

open Run SignedExpr StreamCodec

variable {C : Type*}

/-! ### The test -/

inductive FlushVar where
  | lastSync
  | maxFlush
  | now

/-- `last_sync + zstd_max_flush_seconds < time(NULL)`. -/
def flushComparison : Comparison FlushVar :=
  ⟨.add (.var .lastSync) (.var .maxFlush), .var .now⟩

def flushValues (cfg : ZConfig) (lastSync now : ℤ) : FlushVar → ℤ
  | .lastSync => lastSync
  | .maxFlush => cfg.maxFlush
  | .now => now

def flushWords (cfg : ZConfig) (lastSync now : ℤ) : FlushVar → BitVec 64 :=
  fun v => BitVec.ofInt 64 (flushValues cfg lastSync now v)

section Test

variable {cfg : ZConfig} {lastSync now : ℤ}

theorem fits_flushValues (hmax : cfg.maxFlush < 2 ^ 63) (hsync : 0 ≤ lastSync ∧ lastSync < clockMax)
    (hnow : 0 ≤ now ∧ now < clockMax) (v : FlushVar) : Fits 64 (flushValues cfg lastSync now v) := by
  have hpos := cfg.maxFlush_pos
  rw [clockMax] at hsync hnow
  rw [fits_long_iff]
  cases v <;> dsimp only [flushValues] <;> omega

theorem exact_flush_iff (hmax : cfg.maxFlush < 2 ^ 63) (hsync : 0 ≤ lastSync ∧ lastSync < clockMax)
    (hnow : 0 ≤ now ∧ now < clockMax) :
    flushComparison.Exact (flushWords cfg lastSync now) ↔ lastSync + cfg.maxFlush < 2 ^ 63 := by
  have hfits := fits_flushValues hmax hsync hnow
  refine (flushComparison.exact_ofInt_iff (by decide) hfits).trans ?_
  have hpos := cfg.maxFlush_pos
  simp only [flushComparison, Expr.Bounded, Expr.value, flushValues, fits_long_iff, true_and,
    and_true]
  omega

end Test

/-! ### The wrapper -/

section Wrapper

variable (enc : Encoder C UInt8 UInt8) (cfg : ZConfig) (fuel : ℕ)

/-- `last_sync`, when the call gets to the test: all was written, and it was nothing. -/
def testedSync (bytes : List UInt8) (now : ℕ → ℤ) (st : OutFile × ZWriter C) : Option ℤ :=
  match currentCStream enc cfg now st.2 with
  | .ret (c, lastSync) =>
    match compressLoop enc fuel c bytes 0 st.1 with
    | .ret ((true, 0), _) => some lastSync
    | _ => none
  | _ => none

/-- `fwrite_wrapper_zstd`, on a machine with words of 64 bits. -/
def fwriteWrapperZstd64 : FwriteWrapper (ZWriter C) :=
  fun _ bytes now st => do
    let (c, lastSync) ← currentCStream enc cfg now st.2
    let ((whole, written), (c, fp)) ← compressLoop enc fuel c bytes 0 st.1
    if whole = false then
      return (written, (fp, ⟨some c, lastSync⟩))
    else if 0 < written then
      return (written, (fp, ⟨some c, now 1⟩))
    else if flushComparison.test (flushWords cfg lastSync (now 1)) = true then
      match enc.flush c enc.outSize with
      | none => .exit 14
      | some st =>
        let w := fwrite st.out fp
        return (w.1, (w.2, ⟨some st.state, now 2⟩))
    else
      return (written, (fp, ⟨some c, lastSync⟩))

variable {enc cfg fuel} {size : ℕ} {bytes : List UInt8} {now : ℕ → ℤ} {st : OutFile × ZWriter C}

/-- **As long as the test is exact** the wrapper is the one over the integers. -/
theorem fwriteWrapperZstd64_eq
    (h : ∀ lastSync, testedSync enc cfg fuel bytes now st = some lastSync →
      (flushComparison.test (flushWords cfg lastSync (now 1)) = true ↔
        lastSync + cfg.maxFlush < now 1)) :
    fwriteWrapperZstd64 enc cfg fuel size bytes now st =
      fwriteWrapperZstd enc cfg fuel size bytes now st := by
  unfold fwriteWrapperZstd64 fwriteWrapperZstd
  unfold testedSync at h
  cases hcur : currentCStream enc cfg now st.2 with
  | exit status => rfl
  | spin => rfl
  | ret r =>
    obtain ⟨c, lastSync⟩ := r
    simp only [hcur, Outcome.ret_bind] at h ⊢
    cases hloop : compressLoop enc fuel c bytes 0 st.1 with
    | exit status => rfl
    | spin => rfl
    | ret q =>
      obtain ⟨⟨whole, written⟩, c', fp⟩ := q
      simp only [hloop, Outcome.ret_bind] at h ⊢
      cases whole with
      | false => rfl
      | true =>
        cases written with
        | succ n => rfl
        | zero =>
          -- the two differ in the last condition
          refine if_congr Iff.rfl rfl (if_congr Iff.rfl rfl ?_)
          exact if_congr (h lastSync rfl) rfl rfl

/-- `last_sync` is kept, or is a reading of the clock. -/
def KeptOrRead (old : ℤ) (now : ℕ → ℤ) (lastSync : ℤ) : Prop :=
  lastSync = old ∨ lastSync = now 0 ∨ lastSync = now 1 ∨ lastSync = now 2

theorem keptOrRead_current {c : C} {lastSync : ℤ}
    (h : currentCStream enc cfg now st.2 = .ret (c, lastSync)) :
    KeptOrRead st.2.lastSync now lastSync := by
  unfold currentCStream at h
  split at h
  · cases h
    exact .inl rfl
  · split at h
    · cases h
    · cases h
      exact .inr (.inl rfl)

theorem keptOrRead_testedSync {lastSync : ℤ}
    (h : testedSync enc cfg fuel bytes now st = some lastSync) :
    KeptOrRead st.2.lastSync now lastSync := by
  unfold testedSync at h
  cases hcur : currentCStream enc cfg now st.2 with
  | exit status => simp [hcur] at h
  | spin => simp [hcur] at h
  | ret r =>
    obtain ⟨c, sync⟩ := r
    simp only [hcur] at h
    split at h
    · cases h
      exact keptOrRead_current hcur
    · cases h

theorem keptOrRead_fwriteWrapperZstd64 {n : ℕ} {fp : OutFile} {z : ZWriter C}
    (h : fwriteWrapperZstd64 enc cfg fuel size bytes now st = .ret (n, (fp, z))) :
    KeptOrRead st.2.lastSync now z.lastSync := by
  unfold fwriteWrapperZstd64 at h
  cases hcur : currentCStream enc cfg now st.2 with
  | exit status => simp [hcur] at h
  | spin => simp [hcur] at h
  | ret r =>
    obtain ⟨c, sync⟩ := r
    have hsync := keptOrRead_current hcur
    cases hloop : compressLoop enc fuel c bytes 0 st.1 with
    | exit status => simp [hcur, hloop] at h
    | spin => simp [hcur, hloop] at h
    | ret q =>
      simp only [hcur, hloop, Outcome.ret_bind, Outcome.pure_eq] at h
      split at h
      · cases h
        exact hsync
      · split at h
        · cases h
          exact .inr (.inr (.inl rfl))
        · split at h
          · split at h
            · cases h
            · cases h
              exact .inr (.inr (.inr rfl))
          · cases h
            exact hsync

end Wrapper

/-! ### Runs -/

/-- A file that is written to, and the last reading of the clock. -/
structure Writing (C : Type*) where
  file : OutFile
  wrapper : ZWriter C
  clock : ℤ

inductive WritingEvent where
  | write (size : ℕ) (bytes : List UInt8) (now : ℕ → ℤ)
  /-- The file is closed, and `next` comes after it. -/
  | close (next : OutFile)

/-- The clock is read up to three times in a call: it does not go back. -/
def ReadsClock (clock : ℤ) (now : ℕ → ℤ) : Prop :=
  clock ≤ now 0 ∧ now 0 ≤ now 1 ∧ now 1 ≤ now 2 ∧ now 2 < clockMax

instance (clock : ℤ) (now : ℕ → ℤ) : Decidable (ReadsClock clock now) :=
  inferInstanceAs (Decidable (_ ∧ _ ∧ _ ∧ _))

/-- One call, if it returns. -/
def writingStep (enc : Encoder C UInt8 UInt8) (cfg : ZConfig) (fuel : ℕ) (s : Writing C) :
    WritingEvent → Option (Writing C)
  | .write size bytes now =>
    if ReadsClock s.clock now then
      match fwriteWrapperZstd64 enc cfg fuel size bytes now (s.file, s.wrapper) with
      | .ret (_, (fp, z)) => some ⟨fp, z, now 2⟩
      | _ => none
    else none
  | .close next => some { s with
      file := next
      wrapper := (fcloseWrapperZstd enc (s.file, s.wrapper)).2 }

/-- The invariant: `last_sync` is a reading of the clock, or 0 before the first frame. -/
structure SyncInRange (s : Writing C) : Prop where
  sync_nonneg : 0 ≤ s.wrapper.lastSync
  sync_le : s.wrapper.lastSync ≤ s.clock
  clock_lt : s.clock < clockMax

section Runs

variable {enc : Encoder C UInt8 UInt8} {cfg : ZConfig} {fuel : ℕ} {s t : Writing C}

theorem SyncInRange.keptOrRead (h : SyncInRange s) {now : ℕ → ℤ} (hnow : ReadsClock s.clock now)
    {lastSync : ℤ} (hsync : KeptOrRead s.wrapper.lastSync now lastSync) :
    0 ≤ lastSync ∧ lastSync ≤ now 2 := by
  obtain ⟨hnonneg, hle, -⟩ := h
  obtain ⟨h0, h1, h2, -⟩ := hnow
  rcases hsync with rfl | rfl | rfl | rfl <;> omega

theorem SyncInRange.step {e : WritingEvent} (h : SyncInRange s)
    (hstep : writingStep enc cfg fuel s e = some t) : SyncInRange t := by
  cases e with
  | write size bytes now =>
    rw [writingStep, Option.ite_none_right_eq_some] at hstep
    obtain ⟨hnow, hstep⟩ := hstep
    split at hstep
    next n fp z hret =>
      cases hstep
      obtain ⟨hnonneg, hle⟩ := h.keptOrRead hnow (keptOrRead_fwriteWrapperZstd64 hret)
      exact ⟨hnonneg, hle, hnow.2.2.2⟩
    next => cases hstep
  | close next =>
    cases hstep
    have hsame : (fcloseWrapperZstd enc (s.file, s.wrapper)).2.lastSync = s.wrapper.lastSync := by
      unfold fcloseWrapperZstd
      split <;> rfl
    refine ⟨?_, ?_, h.clock_lt⟩
    · rw [hsame]
      exact h.sync_nonneg
    · rw [hsame]
      exact h.sync_le

/-- In every state of a run `last_sync` is in range. -/
theorem syncInRange_exec {fp : OutFile} {clock : ℤ} {es : List WritingEvent} (h0 : 0 ≤ clock)
    (hlt : clock < clockMax) (hrun : exec (writingStep enc cfg fuel) ⟨fp, .start, clock⟩ es = some s) :
    SyncInRange s :=
  exec_invariant (fun _ _ _ h hstep => h.step hstep) hrun ⟨le_rfl, h0, hlt⟩

end Runs

section Exact

variable (enc : Encoder C UInt8 UInt8) (cfg : ZConfig)

/-- Every test that is made in a run is that of the integers: in every state of every run, and
for every call that gets to the test there. -/
def FlushExact : Prop :=
  ∀ (fuel : ℕ) (fp : OutFile) (clock : ℤ) (es : List WritingEvent) (s : Writing C), 0 ≤ clock →
    clock < clockMax → exec (writingStep enc cfg fuel) ⟨fp, .start, clock⟩ es = some s →
    ∀ (bytes : List UInt8) (now : ℕ → ℤ) (lastSync : ℤ), ReadsClock s.clock now →
      testedSync enc cfg fuel bytes now (s.file, s.wrapper) = some lastSync →
      flushComparison.Exact (flushWords cfg lastSync (now 1))

/-- A new compressor puts nothing out for a first byte. -/
def HoldsBack : Prop :=
  ∃ c b st, enc.create cfg.level = some c ∧ enc.compress c [b] enc.outSize = some st ∧
    st.consumed = 1 ∧ st.out = []

variable {enc cfg}

/-- A first byte that is held back leads to the test. -/
theorem testedSync_of_holdsBack (hold : HoldsBack enc cfg) (fp : OutFile) (now : ℕ → ℤ) :
    ∃ b, testedSync enc cfg 1 [b] now (fp, .start) = some (now 0) := by
  obtain ⟨c, b, st, hcreate, hst, hconsumed, hout⟩ := hold
  have hcur : currentCStream enc cfg now (.start : ZWriter C) = .ret (c, now 0) := by
    simp only [currentCStream, ZWriter.start, hcreate]
  have hnone : (fwrite ([] : List UInt8) fp).1 = 0 := Nat.le_zero.mp (fp.takes_le 0)
  have hloop : ∃ fp', compressLoop enc 1 c [b] 0 fp = .ret ((true, 0), (st.state, fp')) := by
    refine ⟨(fwrite st.out fp).2, ?_⟩
    simp [compressLoop, hst, hout, hconsumed, hnone]
  obtain ⟨fp', hloop⟩ := hloop
  exact ⟨b, by simp only [testedSync, hcur, hloop]⟩

/-- **The sums fit in every run exactly up to this limit.** Beyond it the first byte of a session
that begins late enough makes the sum overflow. -/
theorem flushExact_iff (hold : HoldsBack enc cfg) (hmax : cfg.maxFlush < 2 ^ 63) :
    FlushExact enc cfg ↔ cfg.maxFlush ≤ 2 ^ 63 - clockMax := by
  constructor
  · -- the first byte of a session that begins at the end of time
    intro hexact
    have hlast : (0 : ℤ) ≤ clockMax - 1 ∧ clockMax - 1 < clockMax := by decide
    obtain ⟨b, hb⟩ := testedSync_of_holdsBack hold (.ofBytes []) fun _ => clockMax - 1
    have hfits := hexact 1 (.ofBytes []) (clockMax - 1) [] _ hlast.1 hlast.2 rfl [b]
      (fun _ => clockMax - 1) _ ⟨le_rfl, le_rfl, le_rfl, hlast.2⟩ hb
    rw [exact_flush_iff hmax hlast hlast] at hfits
    omega
  · intro hle fuel fp clock es s h0 hlt hrun bytes now lastSync hnow htest
    have hinv := syncInRange_exec h0 hlt hrun
    obtain ⟨hsync, hsync'⟩ := hinv.keptOrRead hnow (keptOrRead_testedSync htest)
    have hclock : 0 ≤ s.clock := hinv.sync_nonneg.trans hinv.sync_le
    obtain ⟨h0', h1, h2, h3⟩ := hnow
    rw [exact_flush_iff hmax ⟨hsync, by omega⟩ ⟨by omega, by omega⟩]
    omega

end Exact

/-- The compressor of raw blocks holds back what does not fill a block. -/
theorem rawEncoder_holdsBack (cfg : ZConfig) : HoldsBack rawEncoder cfg :=
  ⟨_, 0, _, rfl, rfl, rfl, rfl⟩

end TtyRec
