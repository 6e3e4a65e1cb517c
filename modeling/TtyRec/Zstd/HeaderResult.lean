import TtyRec.Zstd.Raw
import TtyRec.Zstd.Write

/-!
# What `write_header` returns

`write_header` returns 0 when the wrapper returned 0, and 1 otherwise.  The wrappers do not
count the same: `fwrite` returns how many of the three words were written, so that a single word
is success; `fwrite_wrapper_zstd` returns how many bytes it has written behind the compressor,
which is 0 as long as the compressor only collects, and what the failed `fwrite` could write when
one is cut short.

## Main definitions

* `handed` — all that a call has to write, one `fwrite` each.
* `Reports` — the result says whether the header went through.

## Main results

* `fwriteWrapperZstd_handed` — the wrapper in terms of what is handed to `fwrite`.
* `writeHeader_reports_iff` — **when the result of `write_header` is right**, for both wrappers.
-/

namespace TtyRec

open StreamCodec

variable {C : Type*}

/-! ### What is handed to `fwrite` -/

/-- All that a call has to write, the forced flush included, and the compressor then. -/
def handed (enc : Encoder C UInt8 UInt8) (cfg : ZConfig) (now : ℕ → ℤ) (z : ZWriter C)
    (bytes : List UInt8) : Option (C × List (List UInt8)) :=
  match currentCStream enc cfg now z with
  | .ret (c₀, lastSync) =>
    match emissions enc bytes.length c₀ bytes with
    | none => none
    | some (c, outs) =>
      if outs.flatten = [] ∧ lastSync + cfg.maxFlush < now 1 then
        match enc.flush c enc.outSize with
        | none => none
        | some f => some (f.state, outs ++ [f.out])
      else some (c, outs)
  | _ => none

variable {enc : Encoder C UInt8 UInt8} {Frame : List UInt8 → List UInt8 → Prop}

/-- What a call has to write: what comes out while the input is consumed, and the flush if that
is nothing and the limit has passed. -/
theorem handed_cases {cfg : ZConfig} {now : ℕ → ℤ} {z : ZWriter C} {bytes : List UInt8} {c : C}
    {outs : List (List UInt8)} (h : handed enc cfg now z bytes = some (c, outs)) :
    ∃ c₀ lastSync c₁ outs₁, currentCStream enc cfg now z = .ret (c₀, lastSync) ∧
      emissions enc bytes.length c₀ bytes = some (c₁, outs₁) ∧
      ((outs₁.flatten = [] ∧ lastSync + cfg.maxFlush < now 1 ∧
          ∃ f, enc.flush c₁ enc.outSize = some f ∧ c = f.state ∧ outs = outs₁ ++ [f.out]) ∨
        (¬ (outs₁.flatten = [] ∧ lastSync + cfg.maxFlush < now 1) ∧ c = c₁ ∧ outs = outs₁)) := by
  unfold handed at h
  cases hcur : currentCStream enc cfg now z with
  | exit status => simp [hcur] at h
  | spin => simp [hcur] at h
  | ret r =>
    obtain ⟨c₀, lastSync⟩ := r
    rw [hcur] at h
    dsimp only at h
    cases hem : emissions enc bytes.length c₀ bytes with
    | none => simp [hem] at h
    | some r =>
      obtain ⟨c₁, outs₁⟩ := r
      rw [hem] at h
      dsimp only at h
      refine ⟨c₀, lastSync, c₁, outs₁, rfl, hem, ?_⟩
      -- is there a flush
      by_cases hflush : outs₁.flatten = [] ∧ lastSync + cfg.maxFlush < now 1
      · rw [if_pos hflush] at h
        cases hf : enc.flush c₁ enc.outSize with
        | none => simp [hf] at h
        | some f =>
          rw [hf] at h
          cases h
          exact .inl ⟨hflush.1, hflush.2, f, rfl, rfl, rfl⟩
      · rw [if_neg hflush] at h
        cases h
        exact .inr ⟨hflush, rfl, rfl⟩

/-- **The wrapper writes all that it has to, or stops at the first write that is cut short.** -/
theorem fwriteWrapperZstd_handed {cfg : ZConfig} {fuel : ℕ} (size : ℕ) {bytes : List UInt8}
    {now : ℕ → ℤ} (fp : OutFile) {z : ZWriter C} {c : C} {outs : List (List UInt8)}
    (hfuel : bytes.length ≤ fuel) (h : handed enc cfg now z bytes = some (c, outs)) :
    ∃ w fp' z', fwriteWrapperZstd enc cfg fuel size bytes now (fp, z) = .ret (w, (fp', z')) ∧
      match fp.cut outs with
      | none => w = outs.flatten.length ∧ z'.cstream = some c ∧
          fp'.data = fp.data ++ outs.flatten
      | some k => w = k ∧ fp'.data.length < fp.data.length + outs.flatten.length := by
  obtain ⟨c₀, lastSync, c₁, outs₁, hcur, hem, hcases⟩ := handed_cases h
  have hloop := compressLoop_emissions 0 fp hem hfuel
  simp only [fwriteWrapperZstd, hcur, Outcome.ret_bind, Outcome.pure_eq]
  rcases hcases with ⟨hnil, hlimit, f, hf, rfl, rfl⟩ | ⟨hflush, rfl, rfl⟩
  · -- nothing came out, and it is time to flush
    have hcut : ∀ outs', fp.cut (outs₁ ++ outs') = (fp.gained outs₁).cut outs' :=
      OutFile.cut_append_of_flatten hnil fp
    have hnone : fp.cut outs₁ = none := by simpa using hcut []
    rw [hnone] at hloop
    have hlen : (outs₁ ++ [f.out]).flatten = f.out := by simp [hnil]
    have hdata : (fp.gained outs₁).data = fp.data := by simp [hnil]
    simp only [hloop, hnil, List.length_nil, Outcome.ret_bind, Bool.true_eq_false, if_false,
      Nat.lt_irrefl, Nat.add_zero, hlimit, if_true, hf]
    refine ⟨_, _, _, rfl, ?_⟩
    rw [hcut, hlen]
    by_cases htakes : (fp.gained outs₁).takes f.out.length = f.out.length
    · rw [OutFile.cut_cons_of_takes _ htakes, fwrite_of_takes htakes]
      simp [hnil]
    · have hle := (fp.gained outs₁).takes_le f.out.length
      rw [OutFile.cut_cons_of_short _ htakes]
      refine ⟨rfl, ?_⟩
      simp only [fwrite, hdata, List.length_append, List.length_take]
      omega
  · cases hcut : fp.cut outs with
    | none =>
      simp only [hcut, Nat.zero_add] at hloop
      simp only [hloop, Outcome.ret_bind, Bool.true_eq_false, if_false]
      by_cases hpos : 0 < outs.flatten.length
      · rw [if_pos hpos]
        exact ⟨_, _, _, rfl, rfl, rfl, rfl⟩
      · have hnil : outs.flatten = [] := List.eq_nil_of_length_eq_zero (Nat.eq_zero_of_not_pos hpos)
        have hlimit : ¬ lastSync + cfg.maxFlush < now 1 := fun hlt => hflush ⟨hnil, hlt⟩
        rw [if_neg hpos, if_neg hlimit]
        exact ⟨_, _, _, rfl, rfl, rfl, rfl⟩
    | some k =>
      simp only [hcut] at hloop
      obtain ⟨c'', fp', hret, hlt⟩ := hloop
      simp only [hret, Outcome.ret_bind, if_true]
      exact ⟨_, _, _, rfl, rfl, hlt⟩

theorem handed_of_at (law : enc.Lawful Frame) (cfg : ZConfig) (now : ℕ → ℤ) {z : ZWriter C}
    (hz : ∀ c, z.cstream = some c → ∃ a e, enc.At c a e) (bytes : List UInt8) :
    ∃ c outs, handed enc cfg now z bytes = some (c, outs) := by
  have hcur : ∃ c lastSync a e, currentCStream enc cfg now z = .ret (c, lastSync) ∧
      enc.At c a e := by
    unfold currentCStream
    cases hc : z.cstream with
    | none =>
      obtain ⟨c, hcreate⟩ := law.create cfg.level cfg.level_range.1 cfg.level_range.2
      exact ⟨c, now 0, [], [], by simp [hcreate], .create hcreate⟩
    | some c =>
      obtain ⟨a, e, hat⟩ := hz c hc
      exact ⟨c, z.lastSync, a, e, rfl, hat⟩
  obtain ⟨c₀, lastSync, a, e, hret, hat⟩ := hcur
  obtain ⟨c, outs, hem, hat'⟩ := emissions_of_at law hat (le_refl bytes.length)
  obtain ⟨f, hf, -, -⟩ := law.flush hat'
  simp only [handed, hret, hem, hf]
  split
  · exact ⟨_, _, rfl⟩
  · exact ⟨_, _, rfl⟩

/-! ### The result -/

/-- The result `r` says whether the header went through. -/
def Reports (r : ℕ) (through : Prop) : Prop := (r = 1 ↔ through) ∧ (r = 0 ↔ ¬ through)

/-- In a compressed recording the header went through when the compressor has consumed it, and
all that it has put out is in the file. -/
def WentThrough (fp fp' : OutFile) (z' : ZWriter C) (c : C) (outs : List (List UInt8)) : Prop :=
  z'.cstream = some c ∧ fp'.data = fp.data ++ outs.flatten

/-- The number of bytes that the compressor puts out tells whether they are in the file. -/
def OutFile.Tells (fp : OutFile) (outs : List (List UInt8)) : Prop :=
  match fp.cut outs with
  | none => outs.flatten ≠ []
  | some k => k = 0

/-- `write_header` only looks whether the wrapper has returned 0. -/
theorem writeHeader_of_ret {S : Type*} {host : Host} {fwriteWrapper : FwriteWrapper S} {h : Header}
    {now : ℕ → ℤ} {st st' : OutFile × S} {w : ℕ}
    (hw : fwriteWrapper 4 (headerBytes host h) now st = .ret (w, st')) :
    writeHeader host fwriteWrapper h now st = .ret (if w = 0 then 0 else 1, st') := by
  simp only [writeHeader, hw, Outcome.ret_bind, Outcome.pure_eq]
  split <;> rfl

theorem reports_iff (w : ℕ) (through : Prop) :
    Reports (if w = 0 then 0 else 1) through ↔ (w ≠ 0 ↔ through) := by
  by_cases hw : w = 0 <;> simp [Reports, hw]

/-- **When the result of `write_header` is right.**  With plain `fwrite`, when it has written
less than one word, or all three.  With the zstd wrapper, when something comes out of the
compressor and all of it is written, or nothing of the first write that is cut short. -/
theorem writeHeader_reports_iff (law : enc.Lawful Frame) (host : Host) (h : Header) (now : ℕ → ℤ)
    (cfg : ZConfig) {fuel : ℕ} (hfuel : 12 ≤ fuel) (fp : OutFile) {z : ZWriter C}
    (hz : ∀ c, z.cstream = some c → ∃ a e, enc.At c a e) :
    (∃ r fp', writeHeader host fwriteNone h now (fp, ()) = .ret (r, (fp', ())) ∧
      (Reports r (fp'.data = fp.data ++ headerBytes .little h) ↔
        fp.takes 12 < 4 ∨ fp.takes 12 = 12)) ∧
    ∃ c outs, handed enc cfg now z (headerBytes .little h) = some (c, outs) ∧
      ∃ r fp' z', writeHeader host (fwriteWrapperZstd enc cfg fuel) h now (fp, z) =
          .ret (r, (fp', z')) ∧
        (Reports r (WentThrough fp fp' z' c outs) ↔ fp.Tells outs) := by
  constructor
  · have hle := fp.takes_le 12
    have hw : fwriteNone 4 (headerBytes host h) now (fp, ()) =
        .ret (fp.takes 12 / 4, ((fwrite (headerBytes host h) fp).2, ())) := by
      simp [fwriteNone, fwrite]
    refine ⟨_, _, writeHeader_of_ret hw, ?_⟩
    -- plain `fwrite` counts whole words, so what is written of 4 to 11 bytes looks like a success
    have hdata : (fwrite (headerBytes host h) fp).2.data = fp.data ++ headerBytes .little h ↔
        fp.takes 12 = 12 := by
      rw [← headerBytes_host host h]
      simp [fwrite, List.take_eq_self_iff]
      omega
    rw [reports_iff, hdata]
    omega
  · obtain ⟨c, outs, hh⟩ := handed_of_at law cfg now hz (headerBytes .little h)
    have hlen : (headerBytes .little h).length ≤ fuel := by simpa using hfuel
    obtain ⟨w, fp', z', hret, hcut⟩ := fwriteWrapperZstd_handed 4 fp hlen hh
    rw [← headerBytes_host host h] at hret
    refine ⟨c, outs, hh, _, fp', z', writeHeader_of_ret hret, ?_⟩
    rw [reports_iff, OutFile.Tells]
    -- all writes are complete, or the first that is not decides
    cases hc : fp.cut outs with
    | none =>
      simp only [hc] at hcut ⊢
      obtain ⟨rfl, hstream, hdata⟩ := hcut
      have hthrough : WentThrough fp fp' z' c outs := ⟨hstream, hdata⟩
      simp only [hthrough, iff_true, ne_eq, List.length_eq_zero_iff]
    | some k =>
      simp only [hc] at hcut ⊢
      obtain ⟨rfl, hlt⟩ := hcut
      have hnot : ¬ WentThrough fp fp' z' c outs := by
        rintro ⟨-, hdata⟩
        rw [hdata, List.length_append] at hlt
        exact lt_irrefl _ hlt
      simp [hnot]

/-- A header that goes through whole, to a file and to a compressor that had put out nothing:
the first result is right, and about the second the theorem says that it is not. -/
theorem writeHeader_reports_whole :
    (∃ r fp', writeHeader .little fwriteNone ⟨⟨1, 2⟩, 3⟩ (fun _ => 0) (.ofBytes [], ()) =
        .ret (r, (fp', ())) ∧
      (Reports r (fp'.data = headerBytes .little ⟨⟨1, 2⟩, 3⟩) ↔
        (OutFile.ofBytes []).takes 12 < 4 ∨ (OutFile.ofBytes []).takes 12 = 12)) ∧
    ∃ c outs, handed rawEncoder .default (fun _ => 0) .start (headerBytes .little ⟨⟨1, 2⟩, 3⟩) =
        some (c, outs) ∧
      ∃ r fp' z', writeHeader .little (fwriteWrapperZstd rawEncoder .default 12) ⟨⟨1, 2⟩, 3⟩
          (fun _ => 0) (.ofBytes [], .start) = .ret (r, (fp', z')) ∧
        (Reports r (WentThrough (.ofBytes []) fp' z' c outs) ↔ (OutFile.ofBytes []).Tells outs) :=
  writeHeader_reports_iff rawEncoder_lawful .little ⟨⟨1, 2⟩, 3⟩ (fun _ => 0) .default le_rfl
    (.ofBytes []) fun _ hc => absurd hc.symm (Option.some_ne_none _)

/-- One word of three is success, and a header that the compressor keeps is failure. -/
theorem writeHeader_misreports :
    (∃ r fp', writeHeader .little fwriteNone ⟨⟨1, 2⟩, 3⟩ (fun _ => 0)
        (⟨[], 0, fun _ => some 4, false⟩, ()) = .ret (r, (fp', ())) ∧
      ¬ Reports r (fp'.data = headerBytes .little ⟨⟨1, 2⟩, 3⟩)) ∧
    ∃ c outs, handed rawEncoder .default (fun _ => 0) .start (headerBytes .little ⟨⟨1, 2⟩, 3⟩) =
        some (c, outs) ∧
      ∃ r fp' z', writeHeader .little (fwriteWrapperZstd rawEncoder .default 12) ⟨⟨1, 2⟩, 3⟩
          (fun _ => 0) (.ofBytes [], .start) = .ret (r, (fp', z')) ∧
        ¬ Reports r (WentThrough (.ofBytes []) fp' z' c outs) := by
  refine ⟨⟨1, _, rfl, ?_⟩, _, _, rfl, 0, _, _, rfl, ?_⟩
  · intro h
    exact absurd (h.1.mp rfl) (by decide)
  · intro h
    exact h.2.mp rfl ⟨rfl, rfl⟩

end TtyRec
