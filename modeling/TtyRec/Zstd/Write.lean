import TtyRec.Compress
import TtyRec.Lib.StreamCodec

/-!
# Writing through zstd

`fwrite_wrapper_zstd` creates a compressor at the first write of a file, compresses
what it is given and writes what the compressor puts out.  When nothing comes out
for a while it flushes the compressor, so that an idle session is on disk.
`fclose_wrapper_zstd` closes the frame.  A write that is cut short makes the call
return at once, in the middle of its input.

## Main definitions

* `ZWriter`, `ZConfig` — the static variables, and the options.
* `compressLoop`, `fwriteWrapperZstd`, `fcloseWrapperZstd` — the functions.
* `emissions` — what the compressor puts out for an input, one write each.

## Main results

* `compressLoop_emissions` — the loop makes these writes, up to the first that is cut short.
* `keeps_fwriteWrapperZstd` — **as long as no write is cut short, a closed file has
  gained a complete frame with the plaintext it was given**, or nothing.
-/

namespace TtyRec

open StreamCodec

variable {C : Type*}

/-- The static variables of the writing wrappers: `cstream`, `none` when it is
`NULL`, and `last_sync`. -/
structure ZWriter (C : Type*) where
  cstream : Option C
  lastSync : ℤ

/-- Before the first call: no compression stream, and nothing synced. -/
def ZWriter.start : ZWriter C := ⟨none, 0⟩

/-- The options, as `main` lets them through: the level, if it was given, and the seconds between
two flushes. -/
structure ZConfig where
  /-- `compress_level`, negative when it was not given. -/
  compressLevel : ℤ
  /-- `zstd_max_flush_seconds`. -/
  maxFlush : ℤ
  level_ok : compressLevel < 0 ∨ 1 ≤ compressLevel ∧ compressLevel ≤ 19
  maxFlush_pos : 0 < maxFlush

/-- The options when none is given. -/
def ZConfig.default : ZConfig where
  compressLevel := -1
  maxFlush := 15
  level_ok := by decide
  maxFlush_pos := by decide

/-- The level that `ZSTD_initCStream` is given. -/
def ZConfig.level (cfg : ZConfig) : ℤ := if cfg.compressLevel < 0 then 3 else cfg.compressLevel

theorem ZConfig.level_range (cfg : ZConfig) : 1 ≤ cfg.level ∧ cfg.level ≤ 19 := by
  unfold ZConfig.level
  rcases cfg.level_ok with h | h
  · rw [if_pos h]; decide
  · rw [if_neg (by omega)]; exact h

section Definitions

variable (enc : Encoder C UInt8 UInt8)

/-- The loop over the input.  The flag is `false` when a short `fwrite` ended it;
the number is then what that `fwrite` wrote, and otherwise what all of them wrote. -/
def compressLoop : ℕ → C → List UInt8 → ℕ → OutFile → Outcome ((Bool × ℕ) × (C × OutFile))
  | _, c, [], written, fp => .ret ((true, written), (c, fp))
  | 0, _, _ :: _, _, _ => .spin
  | n + 1, c, b :: bs, written, fp =>
    match enc.compress c (b :: bs) enc.outSize with
    | none => .exit 13
    | some st =>
      let w := fwrite st.out fp
      if w.1 ≠ st.out.length then .ret ((false, w.1), (st.state, w.2))
      else compressLoop n st.state ((b :: bs).drop st.consumed) (written + w.1) w.2

/-- The compressor to use, and `last_sync`: a new one when there is none. -/
def currentCStream (cfg : ZConfig) (now : ℕ → ℤ) (z : ZWriter C) : Outcome (C × ℤ) :=
  match z.cstream with
  | some c => .ret (c, z.lastSync)
  | none =>
    match enc.create cfg.level with
    | none => .exit 11
    | some c => .ret (c, now 0)

/-- `fwrite_wrapper_zstd`, with at most `fuel` iterations of its loop. -/
def fwriteWrapperZstd (cfg : ZConfig) (fuel : ℕ) : FwriteWrapper (ZWriter C) :=
  fun _ bytes now st => do
    let (c, lastSync) ← currentCStream enc cfg now st.2
    let ((whole, written), (c, fp)) ← compressLoop enc fuel c bytes 0 st.1
    if whole = false then
      return (written, (fp, ⟨some c, lastSync⟩))
    else if 0 < written then
      return (written, (fp, ⟨some c, now 1⟩))
    else if lastSync + cfg.maxFlush < now 1 then
      match enc.flush c enc.outSize with
      | none => .exit 14
      | some st =>
        let w := fwrite st.out fp
        return (w.1, (w.2, ⟨some st.state, now 2⟩))
    else
      return (written, (fp, ⟨some c, lastSync⟩))

/-- `fclose_wrapper_zstd`: the frame is ended and the stream is freed, if there is one. -/
def fcloseWrapperZstd : FcloseWrapper (ZWriter C) := fun st =>
  match st.2.cstream with
  | none => st
  | some c => ((fwrite (enc.finish c enc.outSize).1 st.1).2, { st.2 with cstream := none })

/-- What the compressor puts out while it consumes an input, call by call, and the compressor
then. -/
def emissions : ℕ → C → List UInt8 → Option (C × List (List UInt8))
  | _, c, [] => some (c, [])
  | 0, _, _ :: _ => none
  | n + 1, c, b :: bs =>
    match enc.compress c (b :: bs) enc.outSize with
    | none => none
    | some st =>
      match emissions n st.state ((b :: bs).drop st.consumed) with
      | none => none
      | some (c', outs) => some (c', st.out :: outs)

end Definitions

/-! ### What is in the file -/

/-- `p` was given to the wrapper since the file was opened with the content `base`:
the file has gained what the compressor of `p` has put out. -/
def ZRep (enc : Encoder C UInt8 UInt8) (st : OutFile × ZWriter C) (base p : List UInt8) : Prop :=
  match st.2.cstream with
  | none => st.1.data = base ∧ p = []
  | some c => ∃ e, st.1.data = base ++ e ∧ enc.At c p e

variable {enc : Encoder C UInt8 UInt8} {Frame : List UInt8 → List UInt8 → Prop}

/-- **The loop writes what the compressor puts out**, up to the first write that is cut short. -/
theorem compressLoop_emissions :
    ∀ {m n : ℕ} {c c' : C} {input : List UInt8} {outs : List (List UInt8)} (written : ℕ)
      (fp : OutFile), emissions enc m c input = some (c', outs) → m ≤ n →
      match fp.cut outs with
      | none => compressLoop enc n c input written fp =
          .ret ((true, written + outs.flatten.length), (c', fp.gained outs))
      | some k => ∃ c'' fp', compressLoop enc n c input written fp =
          .ret ((false, k), (c'', fp')) ∧
            fp'.data.length < fp.data.length + outs.flatten.length := by
  intro m
  induction m with
  | zero =>
    intro n c c' input outs written fp h _
    cases input with
    | nil =>
      cases h
      simp [compressLoop]
    | cons b bs => cases h
  | succ m ih =>
    intro n c c' input outs written fp h hmn
    cases input with
    | nil =>
      cases h
      simp [compressLoop]
    | cons b bs =>
      obtain ⟨n, rfl⟩ : ∃ k, n = k + 1 := ⟨n - 1, by omega⟩
      unfold emissions at h
      cases hst : enc.compress c (b :: bs) enc.outSize with
      | none => simp [hst] at h
      | some st =>
        rw [hst] at h
        dsimp only at h
        cases hrest : emissions enc m st.state ((b :: bs).drop st.consumed) with
        | none => simp [hrest] at h
        | some r =>
          rw [hrest] at h
          obtain ⟨c₁, outs'⟩ := r
          cases h
          rw [compressLoop, hst]
          dsimp only
          by_cases htakes : fp.takes st.out.length = st.out.length
          · -- this write is complete
            have hloop := ih (written + st.out.length) (fp.gained [st.out]) hrest
              (Nat.le_of_succ_le_succ hmn)
            rw [OutFile.cut_cons_of_takes _ htakes, fwrite_of_takes htakes]
            simp only [ne_eq, not_true_eq_false, if_false]
            cases hcut : (fp.gained [st.out]).cut outs' with
            | none =>
              simp only [hcut] at hloop ⊢
              rw [hloop, OutFile.gained_gained, List.singleton_append, List.flatten_cons,
                List.length_append, Nat.add_assoc]
            | some k =>
              simp only [hcut] at hloop ⊢
              obtain ⟨c'', fp', hret, hlt⟩ := hloop
              refine ⟨c'', fp', hret, ?_⟩
              simp at hlt ⊢
              omega
          · -- this one is cut short, and the last
            have hle := fp.takes_le st.out.length
            have hw : (fwrite st.out fp).1 ≠ st.out.length := htakes
            rw [OutFile.cut_cons_of_short _ htakes, if_pos hw]
            refine ⟨st.state, (fwrite st.out fp).2, rfl, ?_⟩
            simp [fwrite]
            omega

/-- The compressor takes any input, whatever it was given before. -/
theorem emissions_of_at (law : enc.Lawful Frame) :
    ∀ {n : ℕ} {c : C} {input a e : List UInt8}, enc.At c a e → input.length ≤ n →
      ∃ c' outs, emissions enc n c input = some (c', outs) ∧
        enc.At c' (a ++ input) (e ++ outs.flatten) := by
  intro n
  induction n with
  | zero =>
    intro c input a e hat hlen
    obtain rfl : input = [] := by simpa using hlen
    exact ⟨c, [], rfl, by simpa using hat⟩
  | succ n ih =>
    intro c input a e hat hlen
    cases input with
    | nil => exact ⟨c, [], rfl, by simpa using hat⟩
    | cons b bs =>
      obtain ⟨st, hst, hpos, -, -⟩ := law.compress hat (b :: bs) (List.cons_ne_nil b bs)
      -- the rest of the input, behind what this call has accepted
      have hrest : ((b :: bs).drop st.consumed).length ≤ n := by
        rw [List.length_drop]
        omega
      obtain ⟨c', outs, hem, hat'⟩ := ih (.compress hat hst) hrest
      rw [List.append_assoc, List.take_append_drop, List.append_assoc, ← List.flatten_cons] at hat'
      exact ⟨c', st.out :: outs, by simp only [emissions, hst, hem], hat'⟩

/-- The loop accepts all of its input, and writes what the compressor puts out. -/
theorem compressLoop_spec (law : enc.Lawful Frame) (base : List UInt8) (n : ℕ) (c : C)
    (input : List UInt8) (written : ℕ) (fp : OutFile) (a e : List UInt8) (hn : input.length ≤ n)
    (hat : enc.At c a e) (hdata : fp.data = base ++ e) (hfp : fp.Complete) :
    ∃ w c' fp' e', compressLoop enc n c input written fp = .ret ((true, w), (c', fp')) ∧
      enc.At c' (a ++ input) e' ∧ fp'.data = base ++ e' ∧ fp'.Complete := by
  obtain ⟨c', outs, hem, hat'⟩ := emissions_of_at law hat hn
  have hloop := compressLoop_emissions written fp hem le_rfl
  rw [OutFile.cut_of_complete outs hfp] at hloop
  refine ⟨_, c', fp.gained outs, e ++ outs.flatten, hloop, hat', ?_, hfp⟩
  rw [OutFile.data_gained, hdata, List.append_assoc]

/-- There is a compressor to use, and it stands where the file says. -/
theorem currentCStream_spec (law : enc.Lawful Frame) (cfg : ZConfig) (now : ℕ → ℤ)
    {st : OutFile × ZWriter C} {base p : List UInt8} (h : ZRep enc st base p) :
    ∃ c lastSync e, currentCStream enc cfg now st.2 = .ret (c, lastSync) ∧ enc.At c p e ∧
      st.1.data = base ++ e := by
  unfold ZRep at h
  unfold currentCStream
  cases hc : st.2.cstream with
  | none =>
    rw [hc] at h
    obtain ⟨hdata, rfl⟩ := h
    obtain ⟨c, hcreate⟩ := law.create cfg.level cfg.level_range.1 cfg.level_range.2
    simp only [hcreate]
    exact ⟨c, now 0, [], rfl, .create hcreate, by rw [hdata, List.append_nil]⟩
  | some c =>
    rw [hc] at h
    obtain ⟨e, hdata, hat⟩ := h
    exact ⟨c, st.2.lastSync, e, rfl, hat, hdata⟩

/-- **As long as no write is cut short, a closed file has gained a complete frame
with the plaintext it was given**, or nothing when it was given nothing. -/
theorem keeps_fwriteWrapperZstd (law : enc.Lawful Frame) (cfg : ZConfig) (fuel : ℕ) :
    Keeps fuel (fwriteWrapperZstd enc cfg fuel) (fcloseWrapperZstd enc)
      (fun z => z.cstream = none) (ZRep enc) (Concat Frame) where
  opened := by
    intro fp s hs
    simp [ZRep, hs]
  write := by
    intro st base p size bs now hbs h hc
    obtain ⟨c, lastSync, e, hcur, hat, hdata⟩ := currentCStream_spec law cfg now h
    obtain ⟨w, c', fp', e', hloop, hat', hdata', hfp'⟩ :=
      compressLoop_spec law base fuel c bs 0 st.1 p e hbs hat hdata hc
    simp only [fwriteWrapperZstd, hcur, Outcome.ret_bind, hloop, Bool.true_eq_false, if_false,
      Outcome.pure_eq]
    by_cases hw : 0 < w
    · rw [if_pos hw]
      exact ⟨_, _, rfl, ⟨e', hdata', hat'⟩, hfp'⟩
    · rw [if_neg hw]
      by_cases hflush : lastSync + cfg.maxFlush < now 1
      · -- nothing came out for a while: flush
        obtain ⟨st', hst', -, -⟩ := law.flush hat'
        rw [if_pos hflush]
        simp only [hst', fwrite_of_complete hfp']
        refine ⟨_, _, rfl, ⟨e' ++ st'.out, ?_, .flush hat' hst'⟩, hfp'⟩
        simp only [hdata', List.append_assoc]
      · rw [if_neg hflush]
        exact ⟨_, _, rfl, ⟨e', hdata', hat'⟩, hfp'⟩
  close := by
    intro st base p h hc
    unfold ZRep at h
    unfold fcloseWrapperZstd
    cases hcs : st.2.cstream with
    | none =>
      rw [hcs] at h
      obtain ⟨hdata, rfl⟩ := h
      exact ⟨[], by simpa using hdata, .nil, hcs, hc⟩
    | some c =>
      rw [hcs] at h
      obtain ⟨e, hdata, hat⟩ := h
      obtain ⟨out, hfin, -, hframe⟩ := law.finish hat
      simp only [hfin, fwrite_of_complete hc, hdata, List.append_assoc]
      exact ⟨e ++ out, rfl, .single hframe, trivial, hc⟩

end TtyRec
