import TtyRec.Player
import TtyRec.Zstd.Read

/-!
# Files that libzstd rejects

`fread_wrapper_zstd` calls `exit` when the decompressor reports an error.  What the
decompressor makes of a file does not depend on how much its caller asks for, only how far it
gets does: the caller meets the error exactly when it asks for more than there is before it.

## Main definitions

* `Corrupt` — the decompression of what is left fails, after so much plaintext.
* `RunsOut` — the player asks for more than these bytes.
* `Breaks` — it asks for more than what comes before the error.

## Main results

* `freadLoop_corrupt` — what a call of the wrapper does.
* `ttyplay_breaks` — **playback ends the process exactly if it asks for more than what comes
  before an error.**
-/

namespace TtyRec

open StreamCodec

variable {D : Type*} {dec : Decoder D UInt8 UInt8}

/-! ### What the decompressor makes of a file -/

/-- The decompressor that reads on: a new one at the end of a frame. -/
def ZReader.next (dec : Decoder D UInt8 UInt8) (z : ZReader D) : ZReader D :=
  if z.toRead = 0 then { z with dstream := dec.create, toRead := dec.initHint } else z

/-- The decompression fails, and `p` is the plaintext before that; `rest` is what is left of
the file. -/
inductive Corrupt (dec : Decoder D UInt8 UInt8) : ZReader D → List UInt8 → List UInt8 → Prop
  | error {z rest} : z.input ≠ [] → dec.decompress z.dstream z.input dec.outSize = none →
      Corrupt dec z rest z.out
  | decompress {z rest p st} : z.input ≠ [] →
      dec.decompress z.dstream z.input dec.outSize = some st →
      Corrupt dec ⟨st.state, st.ret, z.input.drop st.consumed, st.out⟩ rest p →
      Corrupt dec z rest (z.out ++ p)
  | read {z rest p} : z.input = [] → rest.take (z.next dec).toRead ≠ [] →
      Corrupt dec { z.next dec with input := rest.take (z.next dec).toRead, out := [] }
        (rest.drop (z.next dec).toRead) p →
      Corrupt dec z rest (z.out ++ p)

variable {z : ZReader D} {rest : List UInt8}

@[simp] theorem ZReader.next_out (z : ZReader D) : (z.next dec).out = z.out := by
  unfold ZReader.next
  split <;> rfl

@[simp] theorem ZReader.next_with_out (z : ZReader D) (o : List UInt8) :
    ({ z with out := o } : ZReader D).next dec = { z.next dec with out := o } := by
  unfold ZReader.next
  split <;> rfl

/-- Plaintext that is not handed out yet comes first. -/
theorem corrupt_iff {q : List UInt8} :
    Corrupt dec z rest q ↔ ∃ p, q = z.out ++ p ∧ Corrupt dec { z with out := [] } rest p := by
  constructor
  · intro h
    cases h with
    | error hin hd => exact ⟨[], (List.append_nil _).symm, .error hin hd⟩
    | decompress hin hd hp => exact ⟨_, rfl, .decompress hin hd hp⟩
    | read hin hne hp =>
      refine ⟨_, rfl, .read hin ?_ ?_⟩
      · rw [ZReader.next_with_out]
        exact hne
      · rw [ZReader.next_with_out]
        exact hp
  · rintro ⟨p, rfl, h⟩
    generalize hz : ({ z with out := [] } : ZReader D) = z' at h
    cases h with
    | error hin hd =>
      subst hz
      rw [List.append_nil]
      exact .error hin hd
    | decompress hin hd hp =>
      subst hz
      exact .decompress hin hd hp
    | read hin hne hp =>
      subst hz
      rw [ZReader.next_with_out] at hne hp
      exact .read hin hne hp

/-- With input left, the next call of the decompressor decides. -/
theorem corrupt_of_error (hz : z.out = []) (hin : z.input ≠ [])
    (hd : dec.decompress z.dstream z.input dec.outSize = none) : Corrupt dec z rest [] := by
  have h : Corrupt dec z rest z.out := .error hin hd
  rwa [hz] at h

theorem corrupt_decompress_iff (hz : z.out = []) (hin : z.input ≠ []) {st : DStep D UInt8}
    (hd : dec.decompress z.dstream z.input dec.outSize = some st) {q : List UInt8} :
    Corrupt dec z rest q ↔
      Corrupt dec ⟨st.state, st.ret, z.input.drop st.consumed, st.out⟩ rest q := by
  constructor
  · intro h
    cases h with
    | error _ hd' =>
      rw [hd] at hd'
      cases hd'
    | decompress _ hd' hp =>
      rw [hd, Option.some.injEq] at hd'
      rw [hz, List.nil_append, hd']
      exact hp
    | read hin' => exact absurd hin' hin
  · intro h
    have h' : Corrupt dec z rest (z.out ++ q) := .decompress hin hd h
    rwa [hz, List.nil_append] at h'

/-- Without, the file is read, if there is anything left of it. -/
theorem corrupt_read_iff (hz : z.out = []) (hin : z.input = []) {q : List UInt8} :
    Corrupt dec z rest q ↔ rest.take (z.next dec).toRead ≠ [] ∧
      Corrupt dec { z.next dec with input := rest.take (z.next dec).toRead }
        (rest.drop (z.next dec).toRead) q := by
  have hout : ({ z.next dec with input := rest.take (z.next dec).toRead } : ZReader D) =
      { z.next dec with input := rest.take (z.next dec).toRead, out := [] } := by
    have hnext : (z.next dec).out = z.out := z.next_out
    rw [← hz, ← hnext]
  rw [hout]
  constructor
  · intro h
    cases h with
    | error hin' | decompress hin' => exact absurd hin hin'
    | read _ hne hp =>
      rw [hz, List.nil_append]
      exact ⟨hne, hp⟩
  · rintro ⟨hne, hp⟩
    have h : Corrupt dec z rest (z.out ++ q) := .read hin hne hp
    rwa [hz, List.nil_append] at h

/-! ### A call of the wrapper -/

/-- The wrapper hands out `o`, and what comes before the error is less by that. -/
def Passes (dec : Decoder D UInt8 UInt8) (z : ZReader D) (rest o : List UInt8) (z' : ZReader D)
    (rest' : List UInt8) : Prop :=
  ∀ q, Corrupt dec z rest q ↔ ∃ q', q = o ++ q' ∧ Corrupt dec z' rest' q'

theorem Passes.refl (dec : Decoder D UInt8 UInt8) (z : ZReader D) (rest : List UInt8) :
    Passes dec z rest [] z rest := by
  intro q
  simp

theorem Passes.trans {z z₁ z₂ : ZReader D} {rest rest₁ rest₂ o₁ o₂ : List UInt8}
    (h₁ : Passes dec z rest o₁ z₁ rest₁) (h₂ : Passes dec z₁ rest₁ o₂ z₂ rest₂) :
    Passes dec z rest (o₁ ++ o₂) z₂ rest₂ := by
  intro q
  rw [h₁ q]
  constructor
  · rintro ⟨q₁, rfl, hq₁⟩
    obtain ⟨q₂, rfl, hq₂⟩ := (h₂ q₁).mp hq₁
    exact ⟨q₂, by rw [List.append_assoc], hq₂⟩
  · rintro ⟨q₂, rfl, hq₂⟩
    exact ⟨o₂ ++ q₂, by rw [List.append_assoc], (h₂ _).mpr ⟨q₂, rfl, hq₂⟩⟩

/-- The beginning of the plaintext that waits is handed out. -/
theorem passes_out {o out : List UInt8} (h : z.out = o ++ out) :
    Passes dec z rest o { z with out := out } rest := by
  intro q
  rw [corrupt_iff, h]
  constructor
  · rintro ⟨p, rfl, hp⟩
    exact ⟨out ++ p, by rw [List.append_assoc], corrupt_iff.mpr ⟨p, rfl, hp⟩⟩
  · rintro ⟨q', rfl, hq'⟩
    obtain ⟨p, rfl, hp⟩ := corrupt_iff.mp hq'
    exact ⟨p, by rw [List.append_assoc], hp⟩

/-- What the way to the next jump does. -/
def ZStep.Meets (dec : Decoder D UInt8 UInt8) (z : ZReader D) (rest : List UInt8) (want : ℕ)
    (copied : List UInt8) : ZStep D → Prop
  | .error => Corrupt dec z rest []
  | .full copied' fp' z' => ∃ o, copied' = copied ++ o ∧ o.length = want ∧ fp'.At rest ∧
      Passes dec z rest o z' rest
  | .eof _ _ _ => ∀ q, ¬ Corrupt dec z rest q
  | .jump l' want' copied' fp' z' => ∃ o rest', copied' = copied ++ o ∧ want' + o.length = want ∧
      0 < want' ∧ fp'.At rest' ∧ (l' = .decompress → z'.out = []) ∧ Passes dec z rest o z' rest'

/-- One jump.  What is left to be decompressed after it fails exactly if what was left before it
does, with the bytes handed out in front. -/
theorem zstep_meets {l : Label} {want : ℕ} (copied : List UInt8) {fp : InFile} (hat : fp.At rest)
    (hl : l = .decompress → z.out = []) (hwant : 0 < want) :
    (zstep dec l want copied fp z).Meets dec z rest want copied := by
  cases l with
  | gotdata =>
    rw [zstep]
    split
    · split
      -- there is enough, or all of it is handed out and more is needed
      next hle =>
        refine ⟨z.out.take want, rfl, List.length_take_of_le hle, hat, ?_⟩
        exact passes_out (List.take_append_drop _ _).symm
      next hle =>
        exact ⟨z.out, rest, rfl, by omega, by omega, hat, fun _ => rfl,
          passes_out (List.append_nil _).symm⟩
    next hlen =>
      have hnil : z.out = [] := List.length_eq_zero_iff.mp (by omega)
      exact ⟨[], rest, by simp, by simp, hwant, hat, fun _ => hnil, .refl dec z rest⟩
  | decompress =>
    have hz := hl rfl
    rw [zstep]
    split
    next hin =>
      cases hd : dec.decompress z.dstream z.input dec.outSize with
      | none => exact corrupt_of_error hz hin hd
      | some st =>
        -- the decoder gets the rest of its input
        have hpass : Passes dec z rest []
            ⟨st.state, st.ret, z.input.drop st.consumed, st.out⟩ rest := by
          intro q
          rw [corrupt_decompress_iff hz hin hd]
          simp
        dsimp only
        split
        next hlen =>
          exact ⟨[], rest, by simp, by simp, hwant, hat,
            fun _ => List.length_eq_zero_iff.mp hlen, hpass⟩
        next => exact ⟨[], rest, by simp, by simp, hwant, hat, Label.noConfusion, hpass⟩
    next hin =>
      rw [not_not] at hin
      -- the input buffer is filled again
      obtain ⟨hread, hat'⟩ := hat.fread 1 (z.next dec).toRead
      rw [one_mul, Nat.div_one] at hread
      rw [one_mul] at hat'
      change ZStep.Meets dec z rest want copied
        (if (fread 1 (z.next dec).toRead fp).1.1 = 0 then
          .eof copied (fread 1 (z.next dec).toRead fp).2 (z.next dec)
        else
          .jump .decompress want copied (fread 1 (z.next dec).toRead fp).2
            { z.next dec with input := (fread 1 (z.next dec).toRead fp).1.2 })
      rw [hread]
      split
      next hlen =>
        intro q hq
        exact ((corrupt_read_iff hz hin).mp hq).1 (List.length_eq_zero_iff.mp hlen)
      next hlen =>
        refine ⟨[], _, by simp, by simp, hwant, hat', fun _ => ?_, ?_⟩
        · have hnext : (z.next dec).out = z.out := z.next_out
          exact hnext.trans hz
        · intro q
          have hne : rest.take (z.next dec).toRead ≠ [] := fun h => hlen (by rw [h]; rfl)
          rw [corrupt_read_iff hz hin]
          simp [hne]

/-- What a call does that wants so many bytes. -/
def LoopMeets (dec : Decoder D UInt8 UInt8) (z : ZReader D) (rest : List UInt8) (want : ℕ)
    (copied : List UInt8) : Outcome ((Bool × List UInt8) × (InFile × ZReader D)) → Prop
  | .exit c => c = 16 ∧ ∃ p, Corrupt dec z rest p ∧ p.length < want
  | .ret ((true, bs), (fp', z')) => ∃ o rest', bs = copied ++ o ∧ o.length = want ∧ fp'.At rest' ∧
      Passes dec z rest o z' rest'
  | .ret ((false, _), _) => ∀ q, ¬ Corrupt dec z rest q
  | .spin => True

/-- **A call** that returns hands out what it was asked for, or the decompression of the file does
not fail; one that ends the process was asked for more than what comes before the error.  The
induction is on the fuel, with what has been copied so far in the statement. -/
theorem freadLoop_corrupt (n : ℕ) {l : Label} {want : ℕ} {copied : List UInt8} {fp : InFile}
    (hat : fp.At rest) (hl : l = .decompress → z.out = []) (hwant : 0 < want) :
    LoopMeets dec z rest want copied (freadLoop dec n l want copied fp z) := by
  induction n generalizing l want copied fp z rest with
  | zero => trivial
  | succ n ih =>
    have hstep : (zstep dec l want copied fp z).Meets dec z rest want copied :=
      zstep_meets copied hat hl hwant
    rw [freadLoop]
    cases h : zstep dec l want copied fp z with
    | error =>
      rw [h] at hstep
      exact ⟨rfl, [], hstep, hwant⟩
    | full copied' fp' z' =>
      rw [h] at hstep
      obtain ⟨o, hcopied, hlen, hat', hpass⟩ := hstep
      exact ⟨o, rest, hcopied, hlen, hat', hpass⟩
    | eof copied' fp' z' =>
      rw [h] at hstep
      exact hstep
    -- what this jump has handed out comes before what the rest of the call does
    | jump l' want' copied' fp' z' =>
      rw [h] at hstep
      obtain ⟨o, rest', rfl, hsum, hwant', hat', hl', hpass⟩ := hstep
      have hih : LoopMeets dec z' rest' want' (copied ++ o)
          (freadLoop dec n l' want' (copied ++ o) fp' z') := ih hat' hl' hwant'
      dsimp only
      cases hloop : freadLoop dec n l' want' (copied ++ o) fp' z' with
      | spin => trivial
      | exit c =>
        rw [hloop] at hih
        obtain ⟨rfl, p, hp, hlen⟩ := hih
        refine ⟨rfl, o ++ p, (hpass _).mpr ⟨p, rfl, hp⟩, ?_⟩
        rw [List.length_append]
        omega
      | ret r =>
        rw [hloop] at hih
        obtain ⟨⟨all, bs⟩, fp'', z''⟩ := r
        cases all with
        | true =>
          obtain ⟨o', rest'', rfl, hlen, hat'', hpass'⟩ := hih
          refine ⟨o ++ o', rest'', by rw [List.append_assoc], ?_, hat'', hpass.trans hpass'⟩
          rw [List.length_append]
          omega
        | false =>
          intro q hq
          obtain ⟨q', -, hq'⟩ := (hpass q).mp hq
          exact hih q' hq'

/-! ### Playback -/

/-- The player asks for more than these bytes: they end inside a header, or inside a payload
that there is memory for. -/
def RunsOut (malloc : ℕ → Bool) (p : List UInt8) : Prop :=
  if p.length < 12 then True
  else
    let h := decodeHeader .little (p.take 12)
    if h.len ≤ 0 ∨ maxRecordLen < h.len ∨ malloc h.len.toNat = false then False
    else if (p.drop 12).length < h.len.toNat then True
    else RunsOut malloc ((p.drop 12).drop h.len.toNat)
termination_by p.length
decreasing_by
  simp only [List.length_drop]
  omega

section RunsOut

variable {malloc : ℕ → Bool} {p q : List UInt8} {h : Header}

theorem runsOut_of_lt (hp : p.length < 12) : RunsOut malloc p := by
  rw [RunsOut, if_pos hp]
  trivial

/-- Behind a header that the player turns down, it stops. -/
theorem not_runsOut (hp : p.length = 12) (hh : decodeHeader .little p = h)
    (hbad : h.len ≤ 0 ∨ maxRecordLen < h.len ∨ malloc h.len.toNat = false) :
    ¬ RunsOut malloc (p ++ q) := by
  rw [RunsOut, if_neg (by simp [hp]), List.take_left' hp, hh, if_pos hbad]
  exact id

/-- A header that it accepts, and what is there of the payload. -/
theorem runsOut_payload (hp : p.length = 12) (hh : decodeHeader .little p = h)
    (hgood : ¬ (h.len ≤ 0 ∨ maxRecordLen < h.len ∨ malloc h.len.toNat = false))
    (hq : q.length < h.len.toNat) : RunsOut malloc (p ++ q) := by
  rw [RunsOut, if_neg (by simp [hp]), List.take_left' hp, List.drop_left' hp, hh, if_neg hgood,
    if_pos hq]
  trivial

theorem runsOut_record (hp : p.length = 12) (hh : decodeHeader .little p = h)
    (hgood : ¬ (h.len ≤ 0 ∨ maxRecordLen < h.len ∨ malloc h.len.toNat = false))
    (hq : q.length = h.len.toNat) (rest : List UInt8) :
    RunsOut malloc (p ++ (q ++ rest)) ↔ RunsOut malloc rest := by
  rw [RunsOut, if_neg (by simp [hp]), List.take_left' hp, List.drop_left' hp, hh, if_neg hgood,
    if_neg (by simp [hq]), List.drop_left' hq]

end RunsOut

/-- The player asks for more than what comes before an error. -/
def Breaks (dec : Decoder D UInt8 UInt8) (malloc : ℕ → Bool) (z : ZReader D) (rest : List UInt8) :
    Prop :=
  ∃ p, Corrupt dec z rest p ∧ RunsOut malloc p

/-- What a call of the wrapper does that wants something. -/
def CallMeets (dec : Decoder D UInt8 UInt8) (z : ZReader D) (rest : List UInt8) (size nmemb : ℕ) :
    Outcome ((ℕ × List UInt8) × (InFile × Option (ZReader D))) → Prop
  | .exit c => c = 16 ∧ ∃ p, Corrupt dec z rest p ∧ p.length < size * nmemb
  | .ret ((n, o), st') =>
    if n = nmemb then
      ∃ rest', o.length = size * nmemb ∧ st'.1.At rest' ∧ Passes dec z rest o (zstate dec st') rest'
    else ∀ q, ¬ Corrupt dec z rest q
  | .spin => True

theorem CallMeets.full {z : ZReader D} {size nmemb : ℕ} {o : List UInt8}
    {st' : InFile × Option (ZReader D)}
    (h : CallMeets dec z rest size nmemb (.ret ((nmemb, o), st'))) :
    ∃ rest', o.length = size * nmemb ∧ st'.1.At rest' ∧
      Passes dec z rest o (zstate dec st') rest' := by
  rw [CallMeets, if_pos rfl] at h
  exact h

theorem CallMeets.short {z : ZReader D} {size nmemb n : ℕ} {o : List UInt8}
    {st' : InFile × Option (ZReader D)} (hn : n ≠ nmemb)
    (h : CallMeets dec z rest size nmemb (.ret ((n, o), st'))) : ∀ q, ¬ Corrupt dec z rest q := by
  rw [CallMeets, if_neg hn] at h
  exact h

section Playback

variable (dec) (host : Host) (malloc : ℕ → Bool) {fuel : ℕ} {st : InFile × Option (ZReader D)}

theorem freadWrapperZstd_corrupt (hat : st.1.At rest) {size nmemb : ℕ} (hsize : 0 < size)
    (hn : 0 < nmemb) :
    CallMeets dec (zstate dec st) rest size nmemb (freadWrapperZstd dec fuel size nmemb st) := by
  have hloop : LoopMeets dec (zstate dec st) rest (size * nmemb) []
      (freadLoop dec fuel .gotdata (size * nmemb) [] st.1 (zstate dec st)) :=
    freadLoop_corrupt fuel hat nofun (Nat.mul_pos hsize hn)
  cases h : freadLoop dec fuel .gotdata (size * nmemb) [] st.1 (zstate dec st) with
  | spin =>
    rw [zstate] at h
    simp only [freadWrapperZstd, h, Outcome.spin_bind]
    trivial
  | exit c =>
    rw [h] at hloop
    rw [zstate] at h
    simp only [freadWrapperZstd, h, Outcome.exit_bind]
    exact hloop
  | ret r =>
    rw [h] at hloop
    obtain ⟨⟨all, bs⟩, fp', z'⟩ := r
    rw [freadWrapperZstd_of_loop h]
    cases all with
    | true =>
      obtain ⟨o, rest', rfl, hlen, hat', hpass⟩ := hloop
      exact (if_pos rfl).mpr ⟨rest', hlen, hat', hpass⟩
    | false => exact (if_neg hn.ne).mpr hloop

/-- What `ttyread` does: the process ends, with status 16, only if what is left breaks the
decompressor, and a call that returns a record leaves that question to the rest. -/
def ReadMeets (z : ZReader D) (rest : List UInt8) :
    Outcome (Option Record × (InFile × Option (ZReader D))) → Prop
  | .exit c => c = 16 ∧ Breaks dec malloc z rest
  | .ret (none, _) => ¬ Breaks dec malloc z rest
  | .ret (some _, st') => ∃ rest', st'.1.At rest' ∧
      (Breaks dec malloc z rest ↔ Breaks dec malloc (zstate dec st') rest')
  | .spin => True

/-- The header is there and is accepted, so the payload is asked for. -/
theorem readMeets_payload {bs rest₁ : List UInt8} {st₁ : InFile × Option (ZReader D)}
    (hcall : freadWrapperZstd dec fuel 4 3 (clearerr st.1, st.2) = .ret ((3, bs), st₁))
    (h12 : bs.length = 12) (hat₁ : st₁.1.At rest₁)
    (hpass : Passes dec (zstate dec st) rest bs (zstate dec st₁) rest₁)
    (hgood : ¬ ((decodeHeader .little bs).len ≤ 0 ∨ maxRecordLen < (decodeHeader .little bs).len ∨
      malloc (decodeHeader .little bs).len.toNat = false)) :
    ReadMeets dec malloc (zstate dec st) rest
      (ttyread host (freadWrapperZstd dec fuel) malloc st) := by
  have hlen : ¬ ((decodeHeader .little bs).len ≤ 0 ∨
      maxRecordLen < (decodeHeader .little bs).len) := by tauto
  have hm : malloc (decodeHeader .little bs).len.toNat = true := by
    rw [← Bool.not_eq_false]
    tauto
  have hpay : CallMeets dec (zstate dec st₁) rest₁ 1 (decodeHeader .little bs).len.toNat
      (freadWrapperZstd dec fuel 1 (decodeHeader .little bs).len.toNat st₁) :=
    freadWrapperZstd_corrupt dec hat₁ Nat.one_pos (by omega)
  cases hcall₂ : freadWrapperZstd dec fuel 1 (decodeHeader .little bs).len.toNat st₁ with
  | spin =>
    simp only [ttyread, readHeader, hcall, Outcome.ret_bind, ne_eq, not_true_eq_false,
      if_false, Outcome.pure_eq, decodeHeader_host, if_neg hlen, hm, hcall₂,
      Outcome.spin_bind, Bool.true_eq_false]
    trivial
  -- the error is behind the header and within the payload
  | exit c =>
    rw [hcall₂] at hpay
    obtain ⟨rfl, p, hp, hplen⟩ := hpay
    rw [one_mul] at hplen
    simp only [ttyread, readHeader, hcall, Outcome.ret_bind, ne_eq, not_true_eq_false,
      if_false, Outcome.pure_eq, decodeHeader_host, if_neg hlen, hm, hcall₂,
      Outcome.exit_bind, Bool.true_eq_false]
    exact ⟨rfl, bs ++ p, (hpass _).mpr ⟨p, rfl, hp⟩, runsOut_payload h12 rfl hgood hplen⟩
  | ret r =>
    rw [hcall₂] at hpay
    obtain ⟨⟨k, buf⟩, st₂⟩ := r
    rw [ttyread_of_header host malloc hcall rfl hlen hm hcall₂]
    -- the payload is there in full, or the file ends in it
    by_cases hk : k = (decodeHeader .little bs).len.toNat
    · rw [if_pos hk]
      subst hk
      obtain ⟨rest₂, hbuf, hat₂, hpass₂⟩ := hpay.full
      rw [one_mul] at hbuf
      refine ⟨rest₂, hat₂, ?_⟩
      constructor
      · rintro ⟨p, hp, hruns⟩
        obtain ⟨q, rfl, hq⟩ := (hpass p).mp hp
        obtain ⟨q', rfl, hq'⟩ := (hpass₂ q).mp hq
        exact ⟨q', hq', (runsOut_record h12 rfl hgood hbuf q').mp hruns⟩
      · rintro ⟨q', hq', hruns⟩
        refine ⟨bs ++ (buf ++ q'), ?_, (runsOut_record h12 rfl hgood hbuf q').mpr hruns⟩
        exact (hpass _).mpr ⟨_, rfl, (hpass₂ _).mpr ⟨q', rfl, hq'⟩⟩
    · rw [if_neg hk]
      have hnone := hpay.short hk
      rintro ⟨p, hp, -⟩
      obtain ⟨q, -, hq⟩ := (hpass p).mp hp
      exact hnone q hq

theorem ttyread_corrupt (hat : st.1.At rest) :
    ReadMeets dec malloc (zstate dec st) rest
      (ttyread host (freadWrapperZstd dec fuel) malloc st) := by
  have hat₀ : (clearerr st.1, st.2).1.At rest := ⟨hat.rest_eq, hat.visible⟩
  have hhead : CallMeets dec (zstate dec st) rest 4 3
      (freadWrapperZstd dec fuel 4 3 (clearerr st.1, st.2)) :=
    freadWrapperZstd_corrupt dec hat₀ (by decide) (by decide)
  cases hcall : freadWrapperZstd dec fuel 4 3 (clearerr st.1, st.2) with
  | spin =>
    simp only [ttyread, readHeader, hcall, Outcome.spin_bind]
    trivial
  | exit c =>
    rw [hcall] at hhead
    obtain ⟨rfl, p, hp, hlen⟩ := hhead
    simp only [ttyread, readHeader, hcall, Outcome.exit_bind]
    exact ⟨rfl, p, hp, runsOut_of_lt hlen⟩
  | ret r =>
    rw [hcall] at hhead
    obtain ⟨⟨n, bs⟩, st₁⟩ := r
    by_cases hn : n = 3
    · subst hn
      obtain ⟨rest₁, hbs, hat₁, hpass⟩ := hhead.full
      have h12 : bs.length = 12 := hbs
      -- the header is there
      by_cases hbad : (decodeHeader .little bs).len ≤ 0 ∨
          maxRecordLen < (decodeHeader .little bs).len ∨
          malloc (decodeHeader .little bs).len.toNat = false
      · have hstop : ¬ Breaks dec malloc (zstate dec st) rest := by
          rintro ⟨p, hp, hruns⟩
          obtain ⟨q, rfl, -⟩ := (hpass p).mp hp
          exact not_runsOut h12 rfl hbad hruns
        by_cases hlen : (decodeHeader .little bs).len ≤ 0 ∨
            maxRecordLen < (decodeHeader .little bs).len
        · rw [ttyread_of_invalid hcall hlen]
          exact hstop
        · rw [ttyread_of_malloc hcall hlen (by tauto)]
          exact hstop
      · exact readMeets_payload dec host malloc hcall h12 hat₁ hpass hbad
    · -- the file ends before it
      have hnone := hhead.short hn
      rw [ttyread_of_header_short hcall hn]
      rintro ⟨p, hp, -⟩
      exact hnone p hp

/-- **Playback ends the process** exactly if it asks for more than what comes before an error. -/
theorem ttyplay_breaks {W : Type*} (writeFunc : List UInt8 → W → W)
    (waitFunc : Timeval → Timeval → W → W) (n : ℕ) (prev : Option Timeval) (hat : st.1.At rest)
    (w : W) :
    (∀ c, (ttyplay (ttyread host (freadWrapperZstd dec fuel) malloc) writeFunc waitFunc n prev st
        w).stop = .exit c → c = 16 ∧ Breaks dec malloc (zstate dec st) rest) ∧
      ((ttyplay (ttyread host (freadWrapperZstd dec fuel) malloc) writeFunc waitFunc n prev st
        w).stop = .eof → ¬ Breaks dec malloc (zstate dec st) rest) := by
  induction n generalizing prev st rest w with
  | zero => simp [ttyplay]
  | succ n ih =>
    have hread : ReadMeets dec malloc (zstate dec st) rest
        (ttyread host (freadWrapperZstd dec fuel) malloc st) :=
      ttyread_corrupt dec host malloc hat
    cases h : ttyread host (freadWrapperZstd dec fuel) malloc st with
    | spin =>
      rw [ttyplay_of_spin h]
      simp
    -- the call of `ttyread` that ends the process
    | exit c =>
      rw [h] at hread
      rw [ttyplay, h]
      constructor
      · intro c' hc
        cases hc
        exact hread
      · intro hc
        cases hc
    | ret r =>
      rw [h] at hread
      obtain ⟨_ | r, st'⟩ := r
      · rw [ttyplay_of_none h]
        exact ⟨fun c hc => by simp at hc, fun _ => hread⟩
      · obtain ⟨rest', hat', hiff⟩ := hread
        obtain ⟨w', -, hstop, -⟩ := ttyplay_of_some writeFunc waitFunc h n prev w
        rw [hstop, hiff]
        exact ih (some r.hdr.tv) hat' w'

end Playback

end TtyRec
