import TtyRec.Stdio
import TtyRec.Header

/-!
# The wrappers around `stdio`

Recorder and player do not call `fread`, `fwrite` and `fclose` themselves: they
go through function pointers that `set_compress_mode` points either at `stdio` or
at the zstd wrappers.  A wrapper works on the stream and on the static variables
`S` of its own file; the plain wrappers have none.

What the programs rely on is stated once, for any wrapper: `Serves` says that a
reading wrapper delivers a given byte string, `Keeps` that a pair of writing
wrappers leaves in the file what it was given.

## Main definitions

* `FreadWrapper`, `FwriteWrapper`, `FcloseWrapper` — the three pointers.
* `freadNone`, `fwriteNone`, `fcloseNone` — what they are under `COMPRESS_NONE`.
* `writeHeader`, `readHeader` — the two users of the wrappers in `io.c`.
* `Serves`, `Keeps` — the contracts.

## Main results

* `serves_freadNone` — `stdio` itself meets the contract of a reading wrapper.
* `writeHeader_readHeader` — **the header codec is a bijection**, and agrees with the
  classic format.
-/

namespace TtyRec

/-- The reading wrapper: item size and number of items, on a stream and the
static variables of the wrapper. -/
abbrev FreadWrapper (S : Type*) := ℕ → ℕ → InFile × S → Outcome ((ℕ × List UInt8) × (InFile × S))

/-- The writing wrapper: item size and bytes.  `now n` is what the `n`-th reading
of the clock during the call gives. -/
abbrev FwriteWrapper (S : Type*) :=
  ℕ → List UInt8 → (ℕ → ℤ) → OutFile × S → Outcome (ℕ × (OutFile × S))

/-- The closing wrapper, and what is left of the file. -/
abbrev FcloseWrapper (S : Type*) := OutFile × S → OutFile × S

def freadNone : FreadWrapper Unit := fun size nmemb st =>
  .ret ((fread size nmemb st.1).1, ((fread size nmemb st.1).2, ()))

def fwriteNone : FwriteWrapper Unit := fun size bytes _ st =>
  .ret ((fwrite bytes st.1).1 / size, ((fwrite bytes st.1).2, ()))

def fcloseNone : FcloseWrapper Unit := id

/-! ### The header through the wrappers -/

variable {S : Type*}

/-- `read_header`. -/
def readHeader (host : Host) (freadWrapper : FreadWrapper S) (st : InFile × S) :
    Outcome (Option Header × (InFile × S)) := do
  let ((n, buf), st) ← freadWrapper 4 3 st
  if n ≠ 3 then
    return (none, st)
  return (some (decodeHeader host buf), st)

/-- `write_header`. -/
def writeHeader (host : Host) (fwriteWrapper : FwriteWrapper S) (h : Header) (now : ℕ → ℤ)
    (st : OutFile × S) : Outcome (ℕ × (OutFile × S)) := do
  let (n, st) ← fwriteWrapper 4 (headerBytes host h) now st
  if n = 0 then
    return (0, st)
  return (1, st)

theorem writeHeader_fwriteNone (host : Host) (h : Header) (now : ℕ → ℤ) {fp : OutFile}
    (hc : fp.Complete) (u : Unit) :
    writeHeader host fwriteNone h now (fp, u) = .ret (1,
      ({ fp with data := fp.data ++ headerBytes .little h, writes := fp.writes + 1 }, ())) := by
  simp only [writeHeader, fwriteNone, fwrite_of_complete hc, length_headerBytes, Outcome.ret_bind,
    headerBytes_host host]
  rfl

/-! ### Contracts -/

/-- A reading wrapper that delivers a byte string: in a state of `R st rest`, the
bytes `rest` are still to come, and a request for more than that falls short. -/
structure Serves (freadWrapper : FreadWrapper S) (R : InFile × S → List UInt8 → Prop) : Prop where
  clearerr : ∀ {st rest}, R st rest → R (clearerr st.1, st.2) rest
  full : ∀ {st rest} (size nmemb : ℕ), R st rest → 0 < size → 0 < nmemb →
    size * nmemb ≤ rest.length →
    ∃ st', freadWrapper size nmemb st = .ret ((nmemb, rest.take (size * nmemb)), st') ∧
      R st' (rest.drop (size * nmemb))
  short : ∀ {st rest} (size nmemb : ℕ), R st rest → 0 < size → 0 < nmemb →
    rest.length < size * nmemb →
    ∃ n bs st', freadWrapper size nmemb st = .ret ((n, bs), st') ∧ n ≠ nmemb

/-- Writing wrappers that leave in a file what they were given, in requests of at
most `limit` bytes.  `Rep st base p` says that `p` was written since the file was
opened with the content `base`; `Closed x p` relates the bytes a closed file has
gained to what was written. -/
structure Keeps (limit : ℕ) (fwriteWrapper : FwriteWrapper S) (fcloseWrapper : FcloseWrapper S)
    (Idle : S → Prop) (Rep : OutFile × S → List UInt8 → List UInt8 → Prop)
    (Closed : List UInt8 → List UInt8 → Prop) : Prop where
  opened : ∀ (fp : OutFile) {s}, Idle s → Rep (fp, s) fp.data []
  write : ∀ {st base p} (size : ℕ) (bs : List UInt8) (now : ℕ → ℤ), bs.length ≤ limit →
    Rep st base p → st.1.Complete →
    ∃ n st', fwriteWrapper size bs now st = .ret (n, st') ∧ Rep st' base (p ++ bs) ∧ st'.1.Complete
  close : ∀ {st base p}, Rep st base p → st.1.Complete →
    ∃ x, (fcloseWrapper st).1.data = base ++ x ∧ Closed x p ∧ Idle (fcloseWrapper st).2 ∧
      (fcloseWrapper st).1.Complete

/-! ### The plain wrappers -/

/-- The stream is at the bytes `rest` of a file that does not grow any more, and
no read of it fails. -/
structure InFile.At (fp : InFile) (rest : List UInt8) : Prop where
  rest_eq : fp.data.drop fp.pos = rest
  visible : ∀ n, fp.reads ≤ n → fp.data.length ≤ fp.growth.size n

theorem InFile.At.unread {fp : InFile} {rest : List UInt8} (h : fp.At rest) : fp.unread = rest := by
  unfold InFile.unread
  rw [List.take_of_length_le (h.visible _ le_rfl), h.rest_eq]

theorem InFile.at_ofBytes (data : List UInt8) : (InFile.ofBytes data).At data :=
  ⟨rfl, fun _ _ => le_rfl⟩

theorem InFile.At.fread {fp : InFile} {rest : List UInt8} (h : fp.At rest) (size nmemb : ℕ) :
    (fread size nmemb fp).1 =
        ((rest.take (size * nmemb)).length / size, rest.take (size * nmemb)) ∧
      (fread size nmemb fp).2.At (rest.drop (size * nmemb)) := by
  have hu := h.unread
  refine ⟨by simp only [TtyRec.fread, hu], ?_, ?_⟩
  · simp only [TtyRec.fread, hu]
    rw [← List.drop_drop, h.rest_eq, List.length_take]
    rcases le_total (size * nmemb) rest.length with hle | hle
    · rw [min_eq_left hle]
    · rw [min_eq_right hle, List.drop_of_length_le hle, List.drop_length]
  · intro n hn
    simp only [TtyRec.fread] at hn ⊢
    exact h.visible n (by omega)

/-- **`stdio` delivers the bytes of the file**, as many as are asked for and never the same twice.
-/
theorem serves_freadNone : Serves freadNone fun st rest => st.1.At rest where
  clearerr h := ⟨h.rest_eq, h.visible⟩
  full := by
    intro st rest size nmemb h hs _ hle
    obtain ⟨hread, hat⟩ := h.fread size nmemb
    refine ⟨((TtyRec.fread size nmemb st.1).2, ()), ?_, hat⟩
    rw [freadNone, hread, List.length_take, min_eq_left hle, Nat.mul_div_cancel_left _ hs]
  short := by
    intro st rest size nmemb h hs _ hlt
    obtain ⟨hread, -⟩ := h.fread size nmemb
    refine ⟨_, _, ((TtyRec.fread size nmemb st.1).2, ()), by rw [freadNone, hread], ?_⟩
    rw [List.length_take, min_eq_right hlt.le]
    exact (Nat.div_lt_of_lt_mul hlt).ne

/-! ### A header through `stdio` -/

/-- The next 12 bytes of a file are read as a header. -/
theorem readHeader_freadNone (host : Host) {bs rest : List UInt8} (h : bs.length = 12)
    {fp : InFile} (hat : fp.At (bs ++ rest)) (u : Unit) :
    ∃ fp', readHeader host freadNone (fp, u) = .ret (some (decodeHeader host bs), (fp', ())) ∧
      fp'.At rest := by
  have hle : 4 * 3 ≤ (bs ++ rest).length := by
    rw [List.length_append, h]
    omega
  have hat₀ : (fp, u).1.At (bs ++ rest) := hat
  obtain ⟨⟨fp', _⟩, hread, hat'⟩ := serves_freadNone.full 4 3 hat₀ (by decide) (by decide) hle
  rw [show 4 * 3 = bs.length from h.symm, List.take_left] at hread
  rw [show 4 * 3 = bs.length from h.symm, List.drop_left] at hat'
  refine ⟨fp', ?_, hat'⟩
  simp only [readHeader, hread, Outcome.ret_bind, ne_eq, not_true_eq_false, if_false,
    Outcome.pure_eq]

/-- **The header codec.**  What `writeHeader` writes, `readHeader` reads back; what
`readHeader` reads, `writeHeader` writes back; the host that writes does not matter;
and up to 32 bits of seconds the bytes are those of the classic format. -/
theorem writeHeader_readHeader (writer reader : Host) (now : ℕ → ℤ) (base rest : List UInt8) :
    (∀ h : Header, h.Fits → ∃ bs fp fp',
      writeHeader writer fwriteNone h now (OutFile.ofBytes base, ()) = .ret (1, (fp, ())) ∧
        fp.data = base ++ bs ∧
        readHeader reader freadNone (InFile.ofBytes (bs ++ rest), ()) =
          .ret (some h, (fp', ())) ∧ fp'.At rest) ∧
    (∀ bs : List UInt8, bs.length = 12 → ∃ h fp' fp,
      readHeader reader freadNone (InFile.ofBytes (bs ++ rest), ()) = .ret (some h, (fp', ())) ∧
        fp'.At rest ∧
        writeHeader writer fwriteNone h now (OutFile.ofBytes base, ()) = .ret (1, (fp, ())) ∧
        fp.data = base ++ bs) ∧
    (∀ h : Header, writeHeader .little fwriteNone h now (OutFile.ofBytes base, ()) =
      writeHeader .big fwriteNone h now (OutFile.ofBytes base, ())) ∧
    (∀ h : Header, h.Fits → h.tv.tvSec < 2 ^ 32 → ∃ fp,
      writeHeader writer fwriteNone h now (OutFile.ofBytes base, ()) = .ret (1, (fp, ())) ∧
        fp.data = base ++ classicBytes h) := by
  -- the bytes are written in little endian, whatever the host
  have hwrite := fun host h => writeHeader_fwriteNone host h now (OutFile.complete_ofBytes base) ()
  refine ⟨?_, ?_, ?_, ?_⟩
  · intro h hf
    obtain ⟨fp', hread, hat⟩ := readHeader_freadNone reader (length_headerBytes .little h)
      (InFile.at_ofBytes (headerBytes .little h ++ rest)) ()
    rw [decodeHeader_headerBytes .little reader hf] at hread
    exact ⟨headerBytes .little h, _, fp', hwrite writer h, rfl, hread, hat⟩
  · intro bs hbs
    obtain ⟨fp', hread, hat⟩ := readHeader_freadNone reader hbs (InFile.at_ofBytes (bs ++ rest)) ()
    refine ⟨decodeHeader reader bs, fp', _, hread, hat, hwrite writer _, ?_⟩
    rw [headerBytes_decodeHeader reader .little hbs]
    rfl
  · intro h
    rw [hwrite, hwrite]
  · intro h hf hsec
    refine ⟨_, hwrite writer h, ?_⟩
    rw [headerBytes_classic .little hf hsec]
    rfl

/-- Such headers are on both sides of the limit of the classic format. -/
theorem writeHeader_readHeader_far :
    ∃ bs fp fp',
      writeHeader .big fwriteNone ⟨⟨2 ^ 32 + 5, 999999⟩, 7⟩ (fun _ => 0) (OutFile.ofBytes [], ()) =
          .ret (1, (fp, ())) ∧
        fp.data = [] ++ bs ∧
        readHeader .little freadNone (InFile.ofBytes (bs ++ [1]), ()) =
          .ret (some ⟨⟨2 ^ 32 + 5, 999999⟩, 7⟩, (fp', ())) ∧ fp'.At [1] :=
  (writeHeader_readHeader .big .little (fun _ => 0) [] [1]).1 _
    ⟨by decide, by decide, by decide, by decide, by decide, by decide⟩

end TtyRec
