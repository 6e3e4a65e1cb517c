import TtyRec.Follow

/-!
# Reading again after a failure

`ttypread` calls `ttyread` until it returns a record, so a call that returns 0 has to
leave the stream where the record begins.  A short header and a short payload go through
the label `err`, where the stream is put back.  A header with a length that is not valid,
or too long for `malloc`, does not: `ttyread` returns at once, and the next call begins
behind that header.

## Main definitions

* `TurnsDown` — the bytes begin with a header that `ttyread` turns down.
* `PlainRead` — what a call on a plain recording can be.
* `retries` — the streams on which `ttypread` calls `ttyread`.

## Main results

* `ttyread_stays_iff` — **a call that fails leaves the position alone, and so do all
  the retries, unless the header there is turned down.**
-/

namespace TtyRec

/-- There is a header in full, but its length is not valid, or `malloc` fails. -/
def TurnsDown (malloc : ℕ → Bool) (bs : List UInt8) : Prop :=
  12 ≤ bs.length ∧
    ((decodeHeader .little (bs.take 12)).len ≤ 0 ∨
      maxRecordLen < (decodeHeader .little (bs.take 12)).len ∨
      malloc (decodeHeader .little (bs.take 12)).len.toNat = false)

instance (malloc : ℕ → Bool) (bs : List UInt8) : Decidable (TurnsDown malloc bs) :=
  inferInstanceAs (Decidable (_ ∧ _))

/-- More bytes do not change what becomes of the header. -/
theorem TurnsDown.of_prefix {malloc : ℕ → Bool} {bs bs' : List UInt8} (h : TurnsDown malloc bs)
    (hp : bs <+: bs') : TurnsDown malloc bs' := by
  obtain ⟨rest, rfl⟩ := hp
  obtain ⟨h12, hlen⟩ := h
  refine ⟨by simp; omega, ?_⟩
  rwa [List.take_append_of_le_length h12]

/-- Nor do fewer, as long as the header is there. -/
theorem TurnsDown.of_prefix_of_le {malloc : ℕ → Bool} {bs bs' : List UInt8}
    (h : TurnsDown malloc bs') (hp : bs <+: bs') (h12 : 12 ≤ bs.length) : TurnsDown malloc bs := by
  obtain ⟨rest, rfl⟩ := hp
  refine ⟨h12, ?_⟩
  rw [← List.take_append_of_le_length h12]
  exact h.2

/-! ### One call -/

section Call

variable {host : Host} {malloc : ℕ → Bool} {fp : InFile}

/-- What a call of `ttyread` on a plain recording returns, and how it leaves the stream. -/
inductive PlainRead (malloc : ℕ → Bool) (fp : InFile) : Option Record → InFile → Prop
  /-- The header is turned down, and the stream is behind it. -/
  | turnedDown {fp' : InFile} (h : TurnsDown malloc fp.unread) (herr : fp'.error = false)
      (hpos : fp'.pos = fp.pos + 12) : PlainRead malloc fp none fp'
  /-- A read failed. -/
  | failed {fp' : InFile} (h : ¬ TurnsDown malloc fp.unread) (herr : fp'.error = true)
      (hfault : ∃ n, fp.fault n = true) : PlainRead malloc fp none fp'
  /-- A read fell short, and the stream is put back. -/
  | back {fp' : InFile} (h : ¬ TurnsDown malloc fp.unread) (herr : fp'.error = false)
      (hpos : fp'.pos = fp.pos) : PlainRead malloc fp none fp'
  | record {r : Record} {fp' : InFile} (h : ¬ TurnsDown malloc fp.unread)
      (h12 : 12 ≤ fp.unread.length) : PlainRead malloc fp (some r) fp'

/-- The label `err`, reached with the stream `fp'`. -/
theorem plainRead_err {fp' : InFile} (h : ¬ TurnsDown malloc fp.unread)
    (hl : (clearerr fp).Later fp') (hlt : fp.reads < fp'.reads) :
    ∃ fp'', ttyreadErr (some fp.pos) (fp', ()) = (fp'', ()) ∧ PlainRead malloc fp none fp'' ∧
      fp.Later fp'' ∧ fp.reads < fp''.reads := by
  have hl' : fp.Later fp' := fp.later_clearerr.trans hl
  cases herr : fp'.error with
  | true =>
    have hfault : ∃ n, fp.fault n = true := by
      by_contra hno
      have := hl.error (fun n => by simpa using not_exists.mp hno n) rfl
      simp [herr] at this
    refine ⟨fp', ?_, .failed h herr hfault, hl', hlt⟩
    simp [ttyreadErr, herr]
  | false =>
    refine ⟨fsetpos fp.pos fp', ?_, .back h herr rfl, hl'.fsetpos _, hlt⟩
    simp [ttyreadErr, herr]

variable (host malloc) in
/-- Every call on a seekable plain recording is one of these. -/
theorem ttyread_plainRead (hseek : fp.seekable = true) (u : Unit) :
    ∃ r fp', ttyread host freadNone malloc (fp, u) = .ret (r, (fp', ())) ∧
      PlainRead malloc fp r fp' ∧ fp.Later fp' ∧ fp.reads < fp'.reads := by
  have hget : fgetpos fp = some fp.pos := if_pos hseek
  -- the header
  generalize hfp₁ : (fread 4 3 (clearerr fp)).2 = fp₁
  have hl₁ : (clearerr fp).Later fp₁ := by
    rw [← hfp₁]
    exact InFile.later_fread _ _ _
  have hreads₁ : fp₁.reads = fp.reads + 1 := by rw [← hfp₁]; rfl
  have hcall₁ : freadNone 4 3 (clearerr fp, u) =
      .ret (((fp.unread.take 12).length / 4, fp.unread.take 12), (fp₁, ())) := by
    rw [freadNone, ← hfp₁]
    rfl
  by_cases h12 : fp.unread.length < 12
  · have hn : (fp.unread.take 12).length / 4 ≠ 3 := by
      rw [List.length_take]
      omega
    have hread : ttyread host freadNone malloc (fp, u) = _ := ttyread_of_header_short hcall₁ hn
    have hdown : ¬ TurnsDown malloc fp.unread := fun h => absurd h.1 (by omega)
    obtain ⟨fp', herr, hway⟩ := plainRead_err hdown hl₁ (by omega)
    rw [hget, herr] at hread
    exact ⟨none, fp', hread, hway⟩
  · have hn : (fp.unread.take 12).length / 4 = 3 := by
      rw [List.length_take]
      omega
    rw [hn] at hcall₁
    have herr₁ : fp₁.error = false := by
      rw [← hfp₁]
      have : ¬ (fp.unread.take 12).length < 12 := by rw [List.length_take]; omega
      simp only [fread, clearerr_unread, this, decide_false, Bool.false_and, clearerr_error,
        Bool.or_false]
    have hpos₁ : fp₁.pos = fp.pos + 12 := by
      rw [← hfp₁]
      simp only [fread, clearerr_pos, clearerr_unread, List.length_take]
      omega
    by_cases hdown : TurnsDown malloc fp.unread
    · refine ⟨none, fp₁, ?_, .turnedDown hdown herr₁ hpos₁, ?_, by omega⟩
      swap
      · exact fp.later_clearerr.trans hl₁
      by_cases hlen : (decodeHeader .little (fp.unread.take 12)).len ≤ 0 ∨
          maxRecordLen < (decodeHeader .little (fp.unread.take 12)).len
      · exact ttyread_of_invalid hcall₁ hlen
      · have hm : malloc (decodeHeader .little (fp.unread.take 12)).len.toNat = false := by
          rcases hdown.2 with h | h | h
          · exact absurd (.inl h) hlen
          · exact absurd (.inr h) hlen
          · exact h
        exact ttyread_of_malloc hcall₁ hlen hm
    · have hdown' := hdown
      simp only [TurnsDown, not_and, not_or, Bool.not_eq_false] at hdown'
      obtain ⟨hlow, hhigh, hm⟩ := hdown' (by omega)
      -- the payload
      generalize hh : decodeHeader .little (fp.unread.take 12) = h at hlow hhigh hm
      generalize hfp₂ : (fread 1 h.len.toNat fp₁).2 = fp₂
      have hl₂ : (clearerr fp).Later fp₂ := by
        rw [← hfp₂]
        exact hl₁.trans (InFile.later_fread _ _ _)
      have hreads₂ : fp₂.reads = fp₁.reads + 1 := by rw [← hfp₂]; rfl
      have hcall₂ : freadNone 1 h.len.toNat (fp₁, ()) =
          .ret ((fread 1 h.len.toNat fp₁).1, (fp₂, ())) := by
        rw [freadNone, ← hfp₂]
      have hread : ttyread host freadNone malloc (fp, u) = _ :=
        ttyread_of_header host malloc hcall₁ hh (not_or.mpr ⟨hlow, hhigh⟩) hm hcall₂
      split at hread
      · exact ⟨_, fp₂, hread, .record hdown (by omega), fp.later_clearerr.trans hl₂, by omega⟩
      · obtain ⟨fp', herr, hway⟩ := plainRead_err hdown hl₂ (by omega)
        rw [hget, herr] at hread
        exact ⟨none, fp', hread, hway⟩

end Call

/-! ### The retries -/

section Retries

variable (host : Host) (malloc : ℕ → Bool)

/-- The streams on which `ttypread` calls `ttyread`, with at most so many tries. -/
def retries : ℕ → InFile × Unit → List (InFile × Unit)
  | 0, _ => []
  | tries + 1, st =>
    st ::
      match ttyread host freadNone malloc st with
      | .ret (none, st') => retries tries (clearerr st'.1, st'.2)
      | _ => []

variable {host malloc}

/-- The bytes at the position of a stream, as the `n`-th read sees them. -/
def InFile.seenAt (fp : InFile) (n : ℕ) : List UInt8 :=
  (fp.data.take (fp.growth.size n)).drop fp.pos

theorem InFile.seenAt_mono (fp : InFile) {m n : ℕ} (h : m ≤ n) : fp.seenAt m <+: fp.seenAt n := by
  unfold InFile.seenAt
  rw [List.drop_take, List.drop_take]
  have := fp.growth.mono h
  exact List.take_prefix_take_left (by omega)

theorem InFile.Later.seenAt_eq {fp fp' : InFile} (h : fp.Later fp') (hpos : fp'.pos = fp.pos)
    (n : ℕ) : fp'.seenAt n = fp.seenAt n := by
  rw [InFile.seenAt, InFile.seenAt, h.data, h.growth, hpos]

/-- As long as no read sees a header that is turned down, the calls stay where they are. -/
theorem retries_stay : ∀ (tries : ℕ) (fp : InFile), fp.seekable = true →
    (∀ n, fp.fault n = false) → (∀ n, ¬ TurnsDown malloc (fp.seenAt n)) →
    ∀ c ∈ retries host malloc tries (fp, ()), c.1.pos = fp.pos := by
  intro tries
  induction tries with
  | zero =>
    intro fp _ _ _ c hc
    cases hc
  | succ tries ih =>
    intro fp hseek hfault hdown c hc
    obtain ⟨r, fp', hread, hway, hl, -⟩ := ttyread_plainRead host malloc hseek ()
    rw [retries, hread, List.mem_cons] at hc
    rcases hc with rfl | hc
    · rfl
    · cases hway with
      | turnedDown h => exact absurd h (hdown fp.reads)
      | failed _ _ hf =>
        obtain ⟨n, hn⟩ := hf
        simp [hfault] at hn
      | back _ _ hpos =>
        rw [← hpos]
        refine ih (clearerr fp') (hl.seekable.trans hseek) ?_ ?_ c hc
        · intro n
          rw [clearerr_fault, hl.fault, hfault]
        · intro n h
          apply hdown n
          rwa [← hl.seenAt_eq hpos]
      | record => cases hc

variable (host) in
/-- Once a read sees a header that is turned down, a retry begins behind it. -/
theorem retries_move : ∀ (k n : ℕ) (fp : InFile), fp.seekable = true →
    (∀ m, fp.fault m = false) → TurnsDown malloc (fp.seenAt n) → n ≤ fp.reads + k →
    ∃ tries, ∃ c ∈ retries host malloc tries (fp, ()), c.1.pos = fp.pos + 12 := by
  intro k
  induction k with
  | zero =>
    intro n fp hseek hfault hdown hk
    have hnow : TurnsDown malloc fp.unread := hdown.of_prefix (fp.seenAt_mono hk)
    obtain ⟨r, fp', hread, hway, -, -⟩ := ttyread_plainRead host malloc hseek ()
    cases hway with
    | turnedDown _ _ hpos =>
      refine ⟨2, (clearerr fp', ()), ?_, hpos⟩
      simp [retries, hread]
    | failed h => exact absurd hnow h
    | back h => exact absurd hnow h
    | record h => exact absurd hnow h
  | succ k ih =>
    intro n fp hseek hfault hdown hk
    obtain ⟨r, fp', hread, hway, hl, hreads⟩ := ttyread_plainRead host malloc hseek ()
    cases hway with
    | turnedDown _ _ hpos =>
      refine ⟨2, (clearerr fp', ()), ?_, hpos⟩
      simp [retries, hread]
    | failed _ _ hf =>
      obtain ⟨m, hm⟩ := hf
      simp [hfault] at hm
    | back _ _ hpos =>
      -- the next call has one read less to wait for
      have hdown' : TurnsDown malloc ((clearerr fp').seenAt n) := by
        have := hl.seenAt_eq hpos n
        rw [← this] at hdown
        exact hdown
      obtain ⟨tries, c, hc, hcpos⟩ := ih n (clearerr fp') (hl.seekable.trans hseek)
        (fun m => by rw [clearerr_fault, hl.fault, hfault]) hdown' (by rw [clearerr_reads]; omega)
      refine ⟨tries + 1, c, ?_, by rw [hcpos, clearerr_pos, hpos]⟩
      rw [retries, hread]
      exact List.mem_cons_of_mem _ hc
    | record h h12 =>
      -- it would have seen the same header
      have hsame : ¬ fp.reads ≤ n := fun hle =>
        h (hdown.of_prefix_of_le (fp.seenAt_mono hle) h12)
      exact absurd (hdown.of_prefix (fp.seenAt_mono (Nat.le_of_not_le hsame))) h

end Retries

/-- **A call that fails leaves the position alone exactly when the header there is not
turned down**; and the calls of `ttypread` all begin there exactly when no read ever sees
a header that is. -/
theorem ttyread_stays_iff (host : Host) (malloc : ℕ → Bool) (fp : InFile)
    (hseek : fp.seekable = true) :
    ((∀ fp', ttyread host freadNone malloc (fp, ()) = .ret (none, (fp', ())) →
        fp'.error = false → fp'.pos = fp.pos) ↔ ¬ TurnsDown malloc fp.unread) ∧
      ((∀ n, fp.fault n = false) →
        ((∀ tries, ∀ c ∈ retries host malloc tries (fp, ()), c.1.pos = fp.pos) ↔
          ∀ n, ¬ TurnsDown malloc (fp.seenAt n))) := by
  constructor
  · -- what a call does is settled by what is unread when it begins
    obtain ⟨r, fp', hread, hway, -, -⟩ := ttyread_plainRead host malloc hseek ()
    constructor
    · intro hstays hdown
      cases hway with
      | turnedDown _ herr hpos =>
        have := hstays fp' hread herr
        omega
      | failed h => exact h hdown
      | back h => exact h hdown
      | record h => exact h hdown
    · intro hdown fp'' hread' herr
      rw [hread, Outcome.ret.injEq, Prod.mk.injEq, Prod.mk.injEq] at hread'
      obtain ⟨rfl, rfl, -⟩ := hread'
      cases hway with
      | turnedDown h => exact absurd h hdown
      | failed _ herr' => simp [herr] at herr'
      | back _ _ hpos => exact hpos
  · intro hfault
    constructor
    · intro hstays n hdown
      -- the read that sees the header leaves the position behind it
      obtain ⟨tries, c, hc, hpos⟩ :=
        retries_move host n n fp hseek hfault hdown (Nat.le_add_left _ _)
      have := hstays tries c hc
      omega
    · intro hdown tries
      exact retries_stay tries fp hseek hfault hdown

/-- On a plain recording without a header that is turned down, both hold. -/
theorem ttyread_stays_iff_truncated :
    (∀ fp', ttyread .little freadNone (fun _ => true) (InFile.ofBytes [65], ()) =
        .ret (none, (fp', ())) → fp'.error = false → fp'.pos = 0) ∧
      ∀ tries, ∀ c ∈ retries .little (fun _ => true) tries (InFile.ofBytes [65], ()), c.1.pos = 0 := by
  obtain ⟨hcall, hretry⟩ := ttyread_stays_iff .little (fun _ => true) (InFile.ofBytes [65]) rfl
  constructor
  · exact hcall.mpr (by decide)
  · refine (hretry fun _ => rfl).mpr fun n => ?_
    intro h
    have hlen := h.1
    simp [InFile.seenAt, InFile.ofBytes, Growth.still] at hlen

/-- A file of twelve zeros and a record behind them: the first call of `ttyread` returns 0
at position 12 without an error, and there the next one begins. -/
theorem ttyread_moves :
    ∃ fp', ttyread .little freadNone (fun _ => true)
        (InFile.ofBytes (List.replicate 12 0 ++ oneByteRecord.encode), ()) =
          .ret (none, (fp', ())) ∧ fp'.error = false ∧ fp'.pos = 12 ∧
      (clearerr fp', ()) ∈ retries .little (fun _ => true) 2
        (InFile.ofBytes (List.replicate 12 0 ++ oneByteRecord.encode), ()) := by
  have hseek : (InFile.ofBytes (List.replicate 12 0 ++ oneByteRecord.encode)).seekable = true := rfl
  have hdown : TurnsDown (fun _ => true)
      (InFile.ofBytes (List.replicate 12 0 ++ oneByteRecord.encode)).unread := by decide
  obtain ⟨r, fp', hread, hway, -, -⟩ := ttyread_plainRead .little (fun _ => true) hseek ()
  cases hway with
  | turnedDown _ herr hpos =>
    refine ⟨fp', hread, herr, hpos, ?_⟩
    rw [retries, hread]
    exact List.mem_cons_of_mem _ List.mem_cons_self
  | failed h => exact absurd hdown h
  | back h => exact absurd hdown h
  | record h => exact absurd hdown h

end TtyRec
