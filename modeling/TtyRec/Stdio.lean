import Mathlib.Tactic

/-!
# Standard input and output

What the programs see of `stdio`: a stream that is read may belong to a file
that is still growing, or fail; a stream that is written may take only part of
what it is given.  Both are driven by a schedule that the stream carries, so a
statement about every schedule is a statement about every behaviour of the file
system.

A call of the program ends in one of three ways: it returns, it ends the process
through `exit`, or it is still in a loop when the fuel given to the loop is used
up.

## Main definitions

* `Outcome` — how a call ends.
* `InFile`, `fread`, `fgetpos`, `fsetpos`, `clearerr` — a stream that is read.
* `OutFile`, `fwrite` — a stream that is written.
* `OutFile.cut`, `OutFile.gained` — what becomes of writes one after the other.
-/

namespace TtyRec

/-! ### How a call ends -/

/-- How a call ends. -/
inductive Outcome (α : Type*) where
  /-- The call returns. -/
  | ret (a : α) : Outcome α
  /-- The process ends with this status. -/
  | exit (status : ℕ) : Outcome α
  /-- The fuel of a loop is used up. -/
  | spin : Outcome α
  deriving DecidableEq, Repr

namespace Outcome

/-- Go on with the value returned. -/
protected def bind {α β : Type*} : Outcome α → (α → Outcome β) → Outcome β
  | ret a, f => f a
  | exit c, _ => exit c
  | spin, _ => spin

instance : Monad Outcome where
  pure := ret
  bind := Outcome.bind

variable {α β : Type _}

@[simp] theorem pure_eq (a : α) : (pure a : Outcome α) = ret a := rfl

@[simp] theorem ret_bind (a : α) (f : α → Outcome β) : (ret a >>= f) = f a := rfl

@[simp] theorem exit_bind (c : ℕ) (f : α → Outcome β) : (exit c >>= f) = exit c := rfl

@[simp] theorem spin_bind (f : α → Outcome β) : ((spin : Outcome α) >>= f) = spin := rfl

/-- Whether the call returns something that passes the check. -/
def check (p : α → Bool) : Outcome α → Bool
  | ret a => p a
  | exit _ => false
  | spin => false

theorem exists_of_check {o : Outcome α} {p : α → Bool} (h : o.check p = true) :
    ∃ a, o = ret a ∧ p a = true := by
  cases o with
  | ret a => exact ⟨a, rfl, h⟩
  | exit _ => cases h
  | spin => cases h

end Outcome

/-! ### Streams that are read -/

/-- How a file grows while it is read: `size n` is the number of its bytes that
the `n`-th `fread` can see.  A file never shrinks. -/
structure Growth where
  size : ℕ → ℕ
  mono : Monotone size

/-- A file that does not grow. -/
def Growth.still (n : ℕ) : Growth := ⟨fun _ => n, monotone_const⟩

/-- A stream opened for reading. -/
structure InFile where
  /-- The bytes that the file holds in the end. -/
  data : List UInt8
  growth : Growth
  /-- The reads on which a short transfer is an error, not the end of the file. -/
  fault : ℕ → Bool
  seekable : Bool
  /-- The number of reads so far. -/
  reads : ℕ
  /-- The file position. -/
  pos : ℕ
  /-- The error indicator of the stream. -/
  error : Bool

/-- A seekable file with this content, opened; it does not grow and no read
fails. -/
def InFile.ofBytes (data : List UInt8) : InFile where
  data := data
  growth := .still data.length
  fault := fun _ => false
  seekable := true
  reads := 0
  pos := 0
  error := false

/-- A seekable file that grows as scheduled into this content, opened; no read
fails. -/
def InFile.growing (data : List UInt8) (growth : Growth) : InFile :=
  { InFile.ofBytes data with growth := growth }

/-- The bytes that the next read can see and that are not read yet. -/
def InFile.unread (fp : InFile) : List UInt8 := (fp.data.take (fp.growth.size fp.reads)).drop fp.pos

/-- `fread(ptr, size, nmemb, fp)`: the number of complete items, and the bytes
stored at `ptr`. -/
def fread (size nmemb : ℕ) (fp : InFile) : (ℕ × List UInt8) × InFile :=
  let got := fp.unread.take (size * nmemb)
  ((got.length / size, got),
    { fp with
      reads := fp.reads + 1
      pos := fp.pos + got.length
      error := fp.error || (decide (got.length < size * nmemb) && fp.fault fp.reads) })

/-- `fgetpos`: the position, or `none` when the file is not seekable. -/
def fgetpos (fp : InFile) : Option ℕ := if fp.seekable then some fp.pos else none

/-- `fsetpos`. -/
def fsetpos (pos : ℕ) (fp : InFile) : InFile := { fp with pos := pos }

/-- `clearerr`. -/
def clearerr (fp : InFile) : InFile := { fp with error := false }

@[simp] theorem clearerr_data (fp : InFile) : (clearerr fp).data = fp.data := rfl

@[simp] theorem clearerr_growth (fp : InFile) : (clearerr fp).growth = fp.growth := rfl

@[simp] theorem clearerr_reads (fp : InFile) : (clearerr fp).reads = fp.reads := rfl

@[simp] theorem clearerr_pos (fp : InFile) : (clearerr fp).pos = fp.pos := rfl

@[simp] theorem clearerr_fault (fp : InFile) : (clearerr fp).fault = fp.fault := rfl

@[simp] theorem clearerr_error (fp : InFile) : (clearerr fp).error = false := rfl

@[simp] theorem clearerr_unread (fp : InFile) : (clearerr fp).unread = fp.unread := rfl

@[simp] theorem fgetpos_clearerr (fp : InFile) : fgetpos (clearerr fp) = fgetpos fp := rfl

@[simp] theorem fsetpos_pos (pos : ℕ) (fp : InFile) : (fsetpos pos fp).pos = pos := rfl

@[simp] theorem fsetpos_data (pos : ℕ) (fp : InFile) : (fsetpos pos fp).data = fp.data := rfl

@[simp] theorem fsetpos_growth (pos : ℕ) (fp : InFile) :
    (fsetpos pos fp).growth = fp.growth := rfl

@[simp] theorem fsetpos_reads (pos : ℕ) (fp : InFile) : (fsetpos pos fp).reads = fp.reads := rfl

@[simp] theorem fsetpos_fault (pos : ℕ) (fp : InFile) : (fsetpos pos fp).fault = fp.fault := rfl

@[simp] theorem fsetpos_seekable (pos : ℕ) (fp : InFile) :
    (fsetpos pos fp).seekable = fp.seekable := rfl

/-- What can be seen of a file is the beginning of what it holds in the end. -/
theorem InFile.unread_prefix (fp : InFile) : fp.unread <+: fp.data.drop fp.pos := by
  unfold InFile.unread
  rw [List.drop_take]
  exact List.take_prefix _ _

/-- A read of a file that does not fail raises no error. -/
theorem fread_error {fp : InFile} (hfault : ∀ n, fp.fault n = false) (herr : fp.error = false)
    (size nmemb : ℕ) : (fread size nmemb fp).2.error = false := by
  simp [fread, herr, hfault]

/-- The stream `fp'` is `fp` after some reads. -/
structure InFile.Later (fp fp' : InFile) : Prop where
  data : fp'.data = fp.data
  growth : fp'.growth = fp.growth
  fault : fp'.fault = fp.fault
  seekable : fp'.seekable = fp.seekable
  reads : fp.reads ≤ fp'.reads
  error : (∀ n, fp.fault n = false) → fp.error = false → fp'.error = false

theorem InFile.Later.refl (fp : InFile) : fp.Later fp :=
  ⟨rfl, rfl, rfl, rfl, le_rfl, fun _ herr => herr⟩

theorem InFile.Later.trans {fp fp' fp'' : InFile} (h : fp.Later fp') (h' : fp'.Later fp'') :
    fp.Later fp'' :=
  ⟨h'.data.trans h.data, h'.growth.trans h.growth, h'.fault.trans h.fault,
    h'.seekable.trans h.seekable, h.reads.trans h'.reads,
    fun hfault herr => h'.error (fun n => by rw [h.fault, hfault]) (h.error hfault herr)⟩

theorem InFile.later_fread (fp : InFile) (size nmemb : ℕ) : fp.Later (fread size nmemb fp).2 :=
  ⟨rfl, rfl, rfl, rfl, Nat.le_succ _, fun hfault herr => fread_error hfault herr size nmemb⟩

theorem InFile.later_clearerr (fp : InFile) : fp.Later (clearerr fp) :=
  ⟨rfl, rfl, rfl, rfl, le_rfl, fun _ _ => rfl⟩

theorem InFile.Later.fsetpos {fp fp' : InFile} (h : fp.Later fp') (pos : ℕ) :
    fp.Later (TtyRec.fsetpos pos fp') :=
  ⟨h.data, h.growth, h.fault, h.seekable, h.reads, h.error⟩

/-! ### Streams that are written -/

/-- A stream opened for writing, unbuffered: `short n` is how many bytes the
`n`-th `fwrite` can write, or `none` when it is not cut short. -/
structure OutFile where
  /-- The bytes of the file. -/
  data : List UInt8
  /-- The number of writes so far. -/
  writes : ℕ
  short : ℕ → Option ℕ
  /-- The error indicator of the stream. -/
  error : Bool

/-- A stream on a file with this content, every write complete. -/
def OutFile.ofBytes (data : List UInt8) : OutFile := ⟨data, 0, fun _ => none, false⟩

/-- How many bytes of `n` the `i`-th write takes. -/
def OutFile.takesAt (fp : OutFile) (i n : ℕ) : ℕ :=
  match fp.short i with
  | none => n
  | some k => min k n

/-- How many bytes of `n` the next write takes. -/
def OutFile.takes (fp : OutFile) (n : ℕ) : ℕ := fp.takesAt fp.writes n

theorem OutFile.takes_le (fp : OutFile) (n : ℕ) : fp.takes n ≤ n := by
  unfold OutFile.takes OutFile.takesAt
  split
  · exact le_rfl
  · exact min_le_right _ _

/-- `fwrite(ptr, 1, n, fp)`: the number of bytes written. -/
def fwrite (bytes : List UInt8) (fp : OutFile) : ℕ × OutFile :=
  let n := fp.takes bytes.length
  (n,
    { fp with
      data := fp.data ++ bytes.take n
      writes := fp.writes + 1
      error := fp.error || decide (n < bytes.length) })

/-- No write on this stream is cut short. -/
def OutFile.Complete (fp : OutFile) : Prop := ∀ n, fp.short n = none

theorem OutFile.complete_ofBytes (data : List UInt8) : (OutFile.ofBytes data).Complete :=
  fun _ => rfl

theorem fwrite_of_complete {fp : OutFile} (h : fp.Complete) (bytes : List UInt8) :
    fwrite bytes fp =
      (bytes.length, { fp with data := fp.data ++ bytes, writes := fp.writes + 1 }) := by
  simp [fwrite, OutFile.takes, OutFile.takesAt, h fp.writes]

/-! ### Writes one after the other -/

/-- Of writes that take so much, how much the first one takes that is cut short. -/
def firstCut (takes : ℕ → ℕ → ℕ) : ℕ → List (List UInt8) → Option ℕ
  | _, [] => none
  | i, out :: outs =>
    if takes i out.length = out.length then firstCut takes (i + 1) outs
    else some (takes i out.length)

/-- Of the writes that come next on a stream, how much the first one takes that is cut short. -/
def OutFile.cut (fp : OutFile) (outs : List (List UInt8)) : Option ℕ :=
  firstCut fp.takesAt fp.writes outs

/-- The stream when all of these writes were complete. -/
def OutFile.gained (fp : OutFile) (outs : List (List UInt8)) : OutFile :=
  { fp with data := fp.data ++ outs.flatten, writes := fp.writes + outs.length }

@[simp] theorem OutFile.gained_nil (fp : OutFile) : fp.gained [] = fp := by
  simp [OutFile.gained]

@[simp] theorem OutFile.data_gained (fp : OutFile) (outs : List (List UInt8)) :
    (fp.gained outs).data = fp.data ++ outs.flatten := rfl

theorem OutFile.gained_gained (fp : OutFile) (outs outs' : List (List UInt8)) :
    (fp.gained outs).gained outs' = fp.gained (outs ++ outs') := by
  simp [OutFile.gained, Nat.add_assoc]

@[simp] theorem OutFile.cut_nil (fp : OutFile) : fp.cut [] = none := rfl

/-- A write that is not cut short. -/
theorem fwrite_of_takes {fp : OutFile} {out : List UInt8} (h : fp.takes out.length = out.length) :
    fwrite out fp = (out.length, fp.gained [out]) := by
  simp [fwrite, h, OutFile.gained]

theorem OutFile.cut_cons_of_takes {fp : OutFile} {out : List UInt8} (outs : List (List UInt8))
    (h : fp.takes out.length = out.length) :
    fp.cut (out :: outs) = (fp.gained [out]).cut outs := by
  rw [OutFile.takes] at h
  simp only [OutFile.cut, firstCut, if_pos h]
  rfl

theorem OutFile.cut_cons_of_short {fp : OutFile} {out : List UInt8} (outs : List (List UInt8))
    (h : fp.takes out.length ≠ out.length) :
    fp.cut (out :: outs) = some (fp.takes out.length) := by
  rw [OutFile.takes] at h ⊢
  simp only [OutFile.cut, firstCut, if_neg h]

/-- Writes of nothing are not cut short. -/
theorem OutFile.cut_append_of_flatten {outs : List (List UInt8)} (h : outs.flatten = []) :
    ∀ (fp : OutFile) (outs' : List (List UInt8)),
      fp.cut (outs ++ outs') = (fp.gained outs).cut outs' := by
  induction outs with
  | nil => simp
  | cons out outs ih =>
    intro fp outs'
    obtain ⟨rfl, hrest⟩ : out = [] ∧ outs.flatten = [] := by simpa using h
    have htakes : fp.takes ([] : List UInt8).length = ([] : List UInt8).length :=
      Nat.le_zero.mp (fp.takes_le 0)
    rw [List.cons_append, OutFile.cut_cons_of_takes _ htakes, ih hrest, OutFile.gained_gained,
      List.singleton_append]

/-- On a stream where no write is cut short. -/
theorem OutFile.cut_of_complete (outs : List (List UInt8)) :
    ∀ {fp : OutFile}, fp.Complete → fp.cut outs = none := by
  induction outs with
  | nil => simp
  | cons out outs ih =>
    intro fp h
    have htakes : fp.takes out.length = out.length := by
      simp [OutFile.takes, OutFile.takesAt, h fp.writes]
    have hrest : (fp.gained [out]).Complete := h
    rw [OutFile.cut_cons_of_takes _ htakes]
    exact ih hrest

end TtyRec
