import TtyRec.Compress
import TtyRec.Record

/-!
# The player

`ttyread` reads one record, and goes back to the beginning of the record when it
is not there in full; `ttypread` retries it until the record is there; `ttyplay`
is the loop over either.  All of them are written over the reading wrapper, so
they are the same for plain and for compressed recordings.

The loops carry fuel: `ttypread` the number of its tries and `ttyplay` the number
of its iterations.  `ttypread` has no other way to stop, and neither has `ttyplay`
over it; `ttyplay` over `ttyread` stops by itself, and `ttyplay_serves` says with
how much fuel.

## Main definitions

* `ttyread`, `ttypread` — the two read functions.
* `ttyplay`, `ttyskipall`, `ttyplayback`, `ttypeek` — the loop and its three uses.

## Main results

* `ttyread_of_next_some`, `ttyread_of_next_none` — one record, when the wrapper
  serves a byte string.
* `ttyplay_serves` — **the player reads exactly the records that the byte string
  begins with, and then stops at its end.**
-/

namespace TtyRec

variable {S W : Type*}

/-! ### Reading a record -/

/-- Where `ttyread` goes on a short read: back to before the header, unless the
read failed or the file is not seekable. -/
def ttyreadErr (pos : Option ℕ) (st : InFile × S) : InFile × S :=
  if st.1.error then st
  else match pos with
    | some p => (fsetpos p st.1, st.2)
    | none => st

/-- `ttyread`: the record, or `none` where it returns 0.  `malloc n` says whether
the allocation of `n` bytes succeeds. -/
def ttyread (host : Host) (freadWrapper : FreadWrapper S) (malloc : ℕ → Bool) (st : InFile × S) :
    Outcome (Option Record × (InFile × S)) := do
  let pos := fgetpos st.1
  let (hdr, st) ← readHeader host freadWrapper (clearerr st.1, st.2)
  match hdr with
  | none => return (none, ttyreadErr pos st)
  | some h =>
    if h.len ≤ 0 ∨ maxRecordLen < h.len then
      -- invalid record length
      return (none, st)
    else if malloc h.len.toNat = false then
      return (none, st)
    else
      let ((n, buf), st) ← freadWrapper 1 h.len.toNat st
      if n ≠ h.len.toNat then
        return (none, ttyreadErr pos st)
      return (some ⟨h, buf⟩, st)

/-- `ttypread`: retry until `ttyread` succeeds. -/
def ttypread (host : Host) (freadWrapper : FreadWrapper S) (malloc : ℕ → Bool) :
    ℕ → InFile × S → Outcome (Option Record × (InFile × S))
  | 0, _ => .spin
  | tries + 1, st => do
    let (r, st) ← ttyread host freadWrapper malloc st
    match r with
    | some r => return (some r, st)
    | none => ttypread host freadWrapper malloc tries (clearerr st.1, st.2)

/-! ### The loop -/

/-- How a playing loop stops. -/
inductive Stop where
  /-- The read function returned 0. -/
  | eof
  /-- The process ended with this status. -/
  | exit (status : ℕ)
  /-- The fuel was used up. -/
  | spin
  deriving DecidableEq, Repr

/-- What a playing loop has done: the records read, how it stopped, the stream
where it left it, and the world that writing and waiting acted on. -/
structure Play (S W : Type*) where
  records : List Record
  stop : Stop
  state : InFile × S
  world : W

/-- `ttyplay`, with at most so many iterations.  The previous time stamp is `none`
the first time. -/
def ttyplay (readFunc : InFile × S → Outcome (Option Record × (InFile × S)))
    (writeFunc : List UInt8 → W → W) (waitFunc : Timeval → Timeval → W → W) :
    ℕ → Option Timeval → InFile × S → W → Play S W
  | 0, _, st, w => ⟨[], .spin, st, w⟩
  | n + 1, prev, st, w =>
    match readFunc st with
    | .exit c => ⟨[], .exit c, st, w⟩
    | .spin => ⟨[], .spin, st, w⟩
    | .ret (none, st') => ⟨[], .eof, st', w⟩
    | .ret (some r, st') =>
      let w' := match prev with
        | none => w
        | some p => waitFunc p r.hdr.tv w
      let rest := ttyplay readFunc writeFunc waitFunc n (some r.hdr.tv) st' (writeFunc r.payload w')
      { rest with records := r :: rest.records }

/-- `ttywrite`, on the writes to standard output so far. -/
def ttywrite (buf : List UInt8) (out : List (List UInt8)) : List (List UInt8) := out ++ [buf]

/-- `ttynowrite`. -/
def ttynowrite (_ : List UInt8) (w : W) : W := w

/-- `ttynowait`. -/
def ttynowait (_ _ : Timeval) (w : W) : W := w

section Uses

variable (host : Host) (freadWrapper : FreadWrapper S) (malloc : ℕ → Bool)

/-- `ttyskipall`. -/
def ttyskipall (n : ℕ) (st : InFile × S) : Play S Unit :=
  ttyplay (ttyread host freadWrapper malloc) ttynowrite ttynowait n none st ()

/-- `ttyplayback`, writing to standard output. -/
def ttyplayback (waitFunc : Timeval → Timeval → List (List UInt8) → List (List UInt8)) (n : ℕ)
    (st : InFile × S) : Play S (List (List UInt8)) :=
  ttyplay (ttyread host freadWrapper malloc) ttywrite waitFunc n none st []

/-- `ttypeek`: what it skips, and then what it plays, with at most `tries` tries
for a record and at most `m` records. -/
def ttypeek (n tries m : ℕ) (st : InFile × S) : Play S Unit × Play S (List (List UInt8)) :=
  let skip := ttyskipall host freadWrapper malloc n st
  (skip,
    match skip.stop with
    | .eof =>
      ttyplay (ttypread host freadWrapper malloc tries) ttywrite ttynowait m none skip.state []
    | stop => ⟨[], stop, skip.state, []⟩)

end Uses

/-! ### The loop, step by step -/

section Loop

variable {readFunc : InFile × S → Outcome (Option Record × (InFile × S))}
  {writeFunc : List UInt8 → W → W} {waitFunc : Timeval → Timeval → W → W}

theorem ttyplay_of_none {st st' : InFile × S} (h : readFunc st = .ret (none, st')) (n : ℕ)
    (prev : Option Timeval) (w : W) :
    ttyplay readFunc writeFunc waitFunc (n + 1) prev st w = ⟨[], .eof, st', w⟩ := by
  rw [ttyplay, h]

theorem ttyplay_of_spin {st : InFile × S} (h : readFunc st = .spin) (n : ℕ)
    (prev : Option Timeval) (w : W) :
    ttyplay readFunc writeFunc waitFunc (n + 1) prev st w = ⟨[], .spin, st, w⟩ := by
  rw [ttyplay, h]

variable (writeFunc waitFunc) in
/-- One iteration that reads a record. -/
theorem ttyplay_of_some {st st' : InFile × S} {r : Record} (h : readFunc st = .ret (some r, st'))
    (n : ℕ) (prev : Option Timeval) (w : W) :
    ∃ w', (ttyplay readFunc writeFunc waitFunc (n + 1) prev st w).records =
        r :: (ttyplay readFunc writeFunc waitFunc n (some r.hdr.tv) st' w').records ∧
      (ttyplay readFunc writeFunc waitFunc (n + 1) prev st w).stop =
        (ttyplay readFunc writeFunc waitFunc n (some r.hdr.tv) st' w').stop ∧
      (ttyplay readFunc writeFunc waitFunc (n + 1) prev st w).state =
        (ttyplay readFunc writeFunc waitFunc n (some r.hdr.tv) st' w').state := by
  rw [ttyplay, h]
  exact ⟨_, rfl, rfl, rfl⟩

/-- **Every record that is read is written, once and as it was read**, when the
waits leave standard output alone. -/
theorem ttyplay_ttywrite {waitFunc : Timeval → Timeval → List (List UInt8) → List (List UInt8)}
    (hwait : ∀ p c out, waitFunc p c out = out) (n : ℕ) (prev : Option Timeval) (st : InFile × S)
    (out : List (List UInt8)) :
    (ttyplay readFunc ttywrite waitFunc n prev st out).world =
      out ++ (ttyplay readFunc ttywrite waitFunc n prev st out).records.map Record.payload := by
  induction n generalizing prev st out with
  | zero => simp [ttyplay]
  | succ n ih =>
    rw [ttyplay]
    cases h : readFunc st with
    | exit c => simp
    | spin => simp
    | ret r =>
      obtain ⟨r, st'⟩ := r
      cases r with
      | none => simp
      | some r =>
        -- the wait before the record changes nothing
        have hw : (match prev with
            | none => out
            | some p => waitFunc p r.hdr.tv out) = out := by
          cases prev with
          | none => rfl
          | some p => exact hwait p r.hdr.tv out
        simp only [hw]
        rw [ih, ttywrite]
        simp

end Loop

/-! ### The ways through `ttyread` -/

section Read

variable {host : Host} {freadWrapper : FreadWrapper S} {malloc : ℕ → Bool} {st st₁ st₂ : InFile × S}
  {bs buf : List UInt8} {n : ℕ}

/-- The header is not there in full. -/
theorem ttyread_of_header_short
    (h₁ : freadWrapper 4 3 (clearerr st.1, st.2) = .ret ((n, bs), st₁)) (hn : n ≠ 3) :
    ttyread host freadWrapper malloc st = .ret (none, ttyreadErr (fgetpos st.1) st₁) := by
  simp only [ttyread, readHeader, h₁, Outcome.ret_bind, ne_eq, hn, not_false_eq_true, if_true,
    Outcome.pure_eq]

/-- The header is there, but its length is not one that a record can have. -/
theorem ttyread_of_invalid
    (h₁ : freadWrapper 4 3 (clearerr st.1, st.2) = .ret ((3, bs), st₁))
    (hlen : (decodeHeader .little bs).len ≤ 0 ∨ maxRecordLen < (decodeHeader .little bs).len) :
    ttyread host freadWrapper malloc st = .ret (none, st₁) := by
  simp only [ttyread, readHeader, h₁, Outcome.ret_bind, ne_eq, not_true_eq_false, if_false,
    Outcome.pure_eq]
  rw [decodeHeader_host, if_pos hlen]

/-- The header is there, but there is no memory for the payload. -/
theorem ttyread_of_malloc
    (h₁ : freadWrapper 4 3 (clearerr st.1, st.2) = .ret ((3, bs), st₁))
    (hlen : ¬ ((decodeHeader .little bs).len ≤ 0 ∨ maxRecordLen < (decodeHeader .little bs).len))
    (hm : malloc (decodeHeader .little bs).len.toNat = false) :
    ttyread host freadWrapper malloc st = .ret (none, st₁) := by
  simp only [ttyread, readHeader, h₁, Outcome.ret_bind, ne_eq, not_true_eq_false, if_false,
    Outcome.pure_eq]
  rw [decodeHeader_host, if_neg hlen, if_pos hm]

variable (host malloc) in
/-- The header is there, and the payload is read. -/
theorem ttyread_of_header {h : Header}
    (h₁ : freadWrapper 4 3 (clearerr st.1, st.2) = .ret ((3, bs), st₁))
    (hbs : decodeHeader .little bs = h) (hlen : ¬ (h.len ≤ 0 ∨ maxRecordLen < h.len))
    (hm : malloc h.len.toNat = true)
    (h₂ : freadWrapper 1 h.len.toNat st₁ = .ret ((n, buf), st₂)) :
    ttyread host freadWrapper malloc st =
      .ret (if n = h.len.toNat then (some ⟨h, buf⟩, st₂)
        else (none, ttyreadErr (fgetpos st.1) st₂)) := by
  simp only [ttyread, readHeader, h₁, Outcome.ret_bind, ne_eq, not_true_eq_false, if_false,
    Outcome.pure_eq]
  rw [decodeHeader_host, hbs, if_neg hlen, if_neg (by simp [hm]), h₂]
  simp only [Outcome.ret_bind, ite_not]
  split <;> rfl

end Read

/-! ### Playing what a wrapper serves -/

section Serves

variable (host : Host) {freadWrapper : FreadWrapper S} {R : InFile × S → List UInt8 → Prop}
  {malloc : ℕ → Bool}

/-- When the bytes to come begin with a record, `ttyread` reads it. -/
theorem ttyread_of_next_some (hs : Serves freadWrapper R) (hm : ∀ n, malloc n = true)
    {st : InFile × S} {rest rest' : List UInt8} {r : Record} (hR : R st rest)
    (hn : nextRecord rest = some (r, rest')) :
    ∃ st', ttyread host freadWrapper malloc st = .ret (some r, st') ∧ R st' rest' := by
  obtain ⟨h12, hh, hpos, hle, hpay, hp, hr⟩ := nextRecord_eq_some.mp hn
  obtain ⟨hdr, payload⟩ := r
  simp only at hh hpos hle hpay hp hr
  -- the header
  obtain ⟨st₁, hread₁, hR₁⟩ := hs.full 4 3 (hs.clearerr hR) (by decide)
    (by decide) h12
  -- the payload
  obtain ⟨st₂, hread₂, hR₂⟩ := hs.full 1 hdr.len.toNat hR₁ (by decide)
    (by omega) ((one_mul _).trans_le hpay)
  refine ⟨st₂, ?_, ?_⟩
  · rw [ttyread_of_header host malloc hread₁ hh.symm (by omega) (hm _) hread₂, if_pos rfl, one_mul, ← hp]
  · rw [hr]
    simpa using hR₂

/-- When they do not, `ttyread` returns 0. -/
theorem ttyread_of_next_none (malloc : ℕ → Bool) (hs : Serves freadWrapper R) {st : InFile × S}
    {rest : List UInt8} (hR : R st rest) (hn : nextRecord rest = none) :
    ∃ st', ttyread host freadWrapper malloc st = .ret (none, st') := by
  unfold nextRecord at hn
  by_cases h12 : rest.length < 12
  · -- no complete header
    obtain ⟨n, bs, st₁, hread₁, hne⟩ := hs.short 4 3 (hs.clearerr hR) (by decide) (by decide) h12
    exact ⟨_, ttyread_of_header_short hread₁ hne⟩
  · rw [if_neg h12] at hn
    obtain ⟨st₁, hread₁, hR₁⟩ := hs.full 4 3 (hs.clearerr hR) (by decide) (by decide) (by omega)
    rw [show 4 * 3 = 12 from rfl] at hread₁ hR₁
    dsimp only at hn
    by_cases hlen : (decodeHeader .little (rest.take 12)).len ≤ 0 ∨
        maxRecordLen < (decodeHeader .little (rest.take 12)).len
    · exact ⟨_, ttyread_of_invalid hread₁ hlen⟩
    · rw [if_neg hlen] at hn
      -- the payload is not complete
      have hpay : (rest.drop 12).length < 1 * (decodeHeader .little (rest.take 12)).len.toNat := by
        by_contra hc
        rw [if_neg (by omega)] at hn
        cases hn
      obtain ⟨n, bs, st₂, hread₂, hne⟩ := hs.short 1 (decodeHeader .little (rest.take 12)).len.toNat
        hR₁ (by decide) (by omega) hpay
      by_cases hm : malloc (decodeHeader .little (rest.take 12)).len.toNat = true
      · rw [ttyread_of_header host malloc hread₁ rfl hlen hm hread₂, if_neg hne]
        exact ⟨_, rfl⟩
      · exact ⟨_, ttyread_of_malloc hread₁ hlen (by simpa using hm)⟩

/-- **The player reads exactly the records that the byte string begins with, and
then stops at its end.** -/
theorem ttyplay_serves (hs : Serves freadWrapper R) (hm : ∀ n, malloc n = true)
    {writeFunc : List UInt8 → W → W} {waitFunc : Timeval → Timeval → W → W} {st : InFile × S}
    {rest : List UInt8} (hR : R st rest) {n : ℕ} (hn : (records rest).length < n)
    (prev : Option Timeval) (w : W) :
    (ttyplay (ttyread host freadWrapper malloc) writeFunc waitFunc n prev st w).records =
        records rest ∧
      (ttyplay (ttyread host freadWrapper malloc) writeFunc waitFunc n prev st w).stop = .eof := by
  induction n generalizing prev st rest w with
  | zero => omega
  | succ n ih =>
    cases h : nextRecord rest with
    | none =>
      obtain ⟨st', hread⟩ := ttyread_of_next_none host malloc hs hR h
      rw [ttyplay_of_none hread, records_of_next_none h]
      exact ⟨rfl, rfl⟩
    | some rr =>
      obtain ⟨r, rest'⟩ := rr
      obtain ⟨st', hread, hR'⟩ := ttyread_of_next_some host hs hm hR h
      rw [records_of_next_some h] at hn ⊢
      obtain ⟨w', hrec, hstop, -⟩ := ttyplay_of_some writeFunc waitFunc hread n prev w
      obtain ⟨hrec', hstop'⟩ := ih hR' (by simpa using hn) (some r.hdr.tv) w'
      rw [hrec, hstop, hrec', hstop']
      exact ⟨rfl, rfl⟩

/-- The same for `ttyplayback`, when the allocations succeed. -/
theorem ttyplayback_serves (hs : Serves freadWrapper R) {st : InFile × S} {rest : List UInt8}
    (hR : R st rest) (waitFunc : Timeval → Timeval → List (List UInt8) → List (List UInt8)) {n : ℕ}
    (hn : (records rest).length < n) :
    (ttyplayback host freadWrapper (fun _ => true) waitFunc n st).records = records rest ∧
      (ttyplayback host freadWrapper (fun _ => true) waitFunc n st).stop = .eof :=
  ttyplay_serves host hs (fun _ => rfl) hR hn none []

end Serves

end TtyRec
