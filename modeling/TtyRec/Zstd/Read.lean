import TtyRec.Compress
import TtyRec.Lib.StreamCodec

/-!
# Reading through zstd

`fread_wrapper_zstd` keeps three things between its calls: compressed bytes that
are read from the file and not decompressed yet, plaintext that is decompressed
and not handed out yet, and the last hint of the decompressor, which is how much
it reads from the file next and which is 0 at the end of a frame.  Its body jumps
between two labels; `zstep` is the way from one jump to the next, and `freadLoop`
follows the jumps.

The invariant `ZInv` says that the decompressor stands in the sequence of frames
exactly where the file position and the unread compressed bytes say, so nothing
is lost or repeated between the file and the decompressor.  It does not ask for
the whole sequence to be visible, or even to be in the file.

## Main definitions

* `ZReader` — the static variables.
* `zstep`, `freadLoop`, `freadWrapperZstd` — the function.
* `ZInv` — the invariant.

## Main results

* `zstep_spec` — what one jump does.
* `freadLoop_spec` — a call hands out what it is asked for, or finds the end of the
  file.
* `serves_freadWrapperZstd` — **on a file of complete frames the wrapper delivers
  their plaintexts.**
-/

namespace TtyRec

open StreamCodec

variable {D : Type*}

/-! ### The function -/

/-- The static variables of `fread_wrapper_zstd`, which stay from call to call. -/
structure ZReader (D : Type*) where
  dstream : D
  /-- How much to read from the file next. -/
  toRead : ℕ
  /-- The bytes of `input.src` from `input.pos` to `input.size`. -/
  input : List UInt8
  /-- The `buffOutPtrLen` bytes at `buffOutPtr`. -/
  out : List UInt8

/-- The two labels of the function, between which it jumps with `goto`. -/
inductive Label where
  | gotdata
  | decompress
  deriving DecidableEq, Repr

/-- What happens between two jumps: the process ends, the call returns `nmemb` or
0 with these bytes copied, or it jumps, with so many bytes still to return. -/
inductive ZStep (D : Type*) where
  | error
  | full (copied : List UInt8) (fp : InFile) (z : ZReader D)
  | eof (copied : List UInt8) (fp : InFile) (z : ZReader D)
  | jump (label : Label) (want : ℕ) (copied : List UInt8) (fp : InFile) (z : ZReader D)

section Definitions

variable (dec : Decoder D UInt8 UInt8)

/-- The static variables after the initialisation of the first call. -/
def ZReader.start : ZReader D := ⟨dec.create, dec.initHint, [], []⟩

/-- From a label to the next jump or return. -/
def zstep : Label → ℕ → List UInt8 → InFile → ZReader D → ZStep D
  | .gotdata, want, copied, fp, z =>
    if 0 < z.out.length then
      if want ≤ z.out.length then
        .full (copied ++ z.out.take want) fp { z with out := z.out.drop want }
      else
        .jump .decompress (want - z.out.length) (copied ++ z.out) fp { z with out := [] }
    else .jump .decompress want copied fp z
  | .decompress, want, copied, fp, z =>
    if z.input ≠ [] then
      match dec.decompress z.dstream z.input dec.outSize with
      | none => .error
      | some st =>
        let z' : ZReader D := ⟨st.state, st.ret, z.input.drop st.consumed, st.out⟩
        -- an empty frame, or the beginning of the stream: decompress again
        if st.out.length = 0 then .jump .decompress want copied fp z'
        else .jump .gotdata want copied fp z'
    else
      -- at the end of a frame, start a new decompressor for what may follow
      let z' := if z.toRead = 0 then { z with dstream := dec.create, toRead := dec.initHint } else z
      let r := fread 1 z'.toRead fp
      if r.1.1 = 0 then .eof copied r.2 z'
      else .jump .decompress want copied r.2 { z' with input := r.1.2 }

/-- Follow the jumps; the flag says whether the call returns `nmemb`. -/
def freadLoop : ℕ → Label → ℕ → List UInt8 → InFile → ZReader D →
    Outcome ((Bool × List UInt8) × (InFile × ZReader D))
  | 0, _, _, _, _, _ => .spin
  | n + 1, l, want, copied, fp, z =>
    match zstep dec l want copied fp z with
    | .error => .exit 16
    | .full copied fp z => .ret ((true, copied), (fp, z))
    | .eof copied fp z => .ret ((false, copied), (fp, z))
    | .jump l want copied fp z => freadLoop n l want copied fp z

/-- `fread_wrapper_zstd`, with at most `fuel` jumps; the static variables are
`none` before the first call. -/
def freadWrapperZstd (fuel : ℕ) : FreadWrapper (Option (ZReader D)) := fun size nmemb st => do
  let ((all, copied), (fp, z)) ←
    freadLoop dec fuel .gotdata (size * nmemb) [] st.1 (st.2.getD (.start dec))
  return ((if all then nmemb else 0, copied), (fp, some z))

end Definitions

/-! ### The invariant -/

/-- The decompressor stands in the sequence of frames `X`, of which the file is a
beginning, where the file position and the unread input say; `q` is the plaintext
that it has still to put out. -/
structure ZInv (dec : Decoder D UInt8 UInt8) (Frame : List UInt8 → List UInt8 → Prop)
    (X : List UInt8) (fp : InFile) (z : ZReader D) (q : List UInt8) : Prop where
  data_prefix : fp.data <+: X
  pos_le : fp.pos ≤ fp.data.length
  toRead_le : z.toRead ≤ dec.inSize
  expects : dec.Expects Frame z.dstream (z.input ++ X.drop fp.pos) q
  between : z.toRead = 0 → Concat Frame (z.input ++ X.drop fp.pos) q

/-- How many bytes have still to move, from the file to the input buffer, through
the decompressor, and out of the output buffer. -/
def ZReader.cost (z : ZReader D) (fp : InFile) (q : List UInt8) : ℕ :=
  z.input.length + 2 * (fp.data.length - fp.pos) + 2 * q.length + z.out.length

/-- The number of jumps that are left at most: each one reads, decompresses or hands out something.
-/
def jumps (l : Label) (z : ZReader D) (fp : InFile) (q : List UInt8) : ℕ :=
  2 * z.cost fp q + match l with
    | .gotdata => 1
    | .decompress => 0

variable {dec : Decoder D UInt8 UInt8} {Frame : List UInt8 → List UInt8 → Prop}
  {X : List UInt8} {fp : InFile} {z : ZReader D} {q : List UInt8}

/-- The next bytes of the file are the next bytes of the sequence of frames. -/
theorem ZInv.drop_eq (h : ZInv dec Frame X fp z q) {got : List UInt8} (hgot : got <+: fp.unread) :
    got ++ X.drop (fp.pos + got.length) = X.drop fp.pos := by
  obtain ⟨t, ht⟩ := h.data_prefix
  have hX : X.drop fp.pos = fp.data.drop fp.pos ++ t := by
    rw [← ht, List.drop_append_of_le_length h.pos_le]
  obtain ⟨s, hs⟩ := (hgot.trans fp.unread_prefix).trans ⟨t, hX.symm⟩
  rw [← List.drop_drop, ← hs, List.drop_left]

/-- What is read of a file lies in the file. -/
theorem ZInv.pos_add_le (h : ZInv dec Frame X fp z q) {got : List UInt8}
    (hgot : got <+: fp.unread) : fp.pos + got.length ≤ fp.data.length := by
  have h1 := (hgot.trans fp.unread_prefix).length_le
  rw [List.length_drop] at h1
  have := h.pos_le
  omega

/-- What a step guarantees, for each way it can end. -/
def ZStep.Ok (dec : Decoder D UInt8 UInt8) (Frame : List UInt8 → List UInt8 → Prop)
    (X : List UInt8) (l : Label) (want : ℕ) (copied : List UInt8) (fp : InFile) (z : ZReader D)
    (q : List UInt8) : ZStep D → Prop
  | .error => False
  | .full copied' fp' z' =>
    want ≤ z.out.length ∧ copied' = copied ++ z.out.take want ∧ fp' = fp ∧
      ZInv dec Frame X fp' z' q ∧ z'.out = z.out.drop want ∧ z'.input = z.input
  | .eof copied' fp' z' =>
    copied' = copied ∧ fp.unread = [] ∧ z.input = [] ∧ ZInv dec Frame X fp' z' q ∧
      z'.out = z.out ∧ z'.input = [] ∧ fp'.pos = fp.pos ∧ fp.Later fp' ∧ fp.reads < fp'.reads
  | .jump l' want' copied' fp' z' =>
    ∃ o q', z.out ++ q = o ++ (z'.out ++ q') ∧ copied' = copied ++ o ∧ want' + o.length = want ∧
      0 < want' ∧ ZInv dec Frame X fp' z' q' ∧ (l' = .decompress → z'.out = []) ∧
      jumps l' z' fp' q' < jumps l z fp q ∧ fp.Later fp'

/-- From `GOTDATA`: plaintext that is left over is handed out first. -/
private theorem zstep_gotdata {want : ℕ} (copied : List UInt8) (hinv : ZInv dec Frame X fp z q)
    (hwant : 0 < want) :
    (zstep dec .gotdata want copied fp z).Ok dec Frame X .gotdata want copied fp z q := by
  -- neither case touches what the invariant is about
  have hout' : ∀ out, ZInv dec Frame X fp { z with out := out } q := fun _ =>
    ⟨hinv.data_prefix, hinv.pos_le, hinv.toRead_le, hinv.expects, hinv.between⟩
  rw [zstep]
  by_cases hout : 0 < z.out.length
  · rw [if_pos hout]
    by_cases hle : want ≤ z.out.length
    · -- all the wanted bytes are there
      rw [if_pos hle]
      exact ⟨hle, rfl, rfl, hout' _, rfl, rfl⟩
    · -- some of them are
      rw [if_neg hle]
      refine ⟨z.out, q, by simp, rfl, by omega, by omega, hout' _, fun _ => rfl, ?_, .refl fp⟩
      simp only [jumps, ZReader.cost, List.length_nil]
      omega
  · rw [if_neg hout]
    have hnil : z.out = [] := List.length_eq_zero_iff.mp (by omega)
    refine ⟨[], q, by simp, by simp, by simp, hwant, hinv, fun _ => hnil, ?_, .refl fp⟩
    simp [jumps]

/-- From `DECOMPRESS`, with input left: the decompressor goes on where it was. -/
private theorem zstep_decompress (law : dec.Lawful Frame) {want : ℕ} (copied : List UInt8)
    (hinv : ZInv dec Frame X fp z q) (hz : z.out = []) (hwant : 0 < want) (hin : z.input ≠ []) :
    (zstep dec .decompress want copied fp z).Ok dec Frame X .decompress want copied fp z q := by
  rw [zstep, if_pos hin]
  obtain ⟨st, hst, hk, hout, hprog, hhint, hexp, hbetween⟩ :=
    hinv.expects.decompress law hin (List.prefix_append _ _) law.outSize_pos
  rw [hst]
  have hdrop : (z.input ++ X.drop fp.pos).drop st.consumed =
      z.input.drop st.consumed ++ X.drop fp.pos := List.drop_append_of_le_length hk
  rw [hdrop] at hexp hbetween
  -- `q` is what is put out now, followed by what is put out later
  obtain ⟨q', rfl⟩ := hout
  rw [List.drop_left] at hexp hbetween
  have hinv' : ZInv dec Frame X fp ⟨st.state, st.ret, z.input.drop st.consumed, st.out⟩ q' :=
    ⟨hinv.data_prefix, hinv.pos_le, hhint, hexp, hbetween⟩
  dsimp only
  by_cases hlen : st.out.length = 0
  · rw [if_pos hlen]
    have hnil : st.out = [] := List.length_eq_zero_iff.mp hlen
    have hpos : 0 < st.consumed := by
      rcases hprog with hp | hp
      · exact hp
      · exact absurd hnil hp
    refine ⟨[], q', by simp [hz], by simp, by simp, hwant, hinv', fun _ => hnil, ?_, .refl fp⟩
    simp only [jumps, ZReader.cost, List.length_drop, List.length_append]
    omega
  · rw [if_neg hlen]
    refine ⟨[], q', by simp [hz], by simp, by simp, hwant, hinv', (fun h => nomatch h), ?_,
      .refl fp⟩
    simp only [jumps, ZReader.cost, List.length_drop, List.length_append, hz, List.length_nil]
    omega

/-- From `DECOMPRESS`, with no input left: the next part of the file is read,
after a new start if a frame is over. -/
private theorem zstep_refill (law : dec.Lawful Frame) {want : ℕ} (copied : List UInt8)
    (hinv : ZInv dec Frame X fp z q) (hz : z.out = []) (hwant : 0 < want) (hin : z.input = []) :
    (zstep dec .decompress want copied fp z).Ok dec Frame X .decompress want copied fp z q := by
  rw [zstep, if_neg (not_not.mpr hin)]
  dsimp only
  generalize hz' : (if z.toRead = 0 then
    { z with dstream := dec.create, toRead := dec.initHint } else z) = z'
  have hsame : z'.out = [] ∧ z'.input = [] ∧ 0 < z'.toRead ∧ ZInv dec Frame X fp z' q := by
    subst hz'
    by_cases h0 : z.toRead = 0
    · rw [if_pos h0]
      exact ⟨hz, hin, law.initHint_pos, hinv.data_prefix, hinv.pos_le, law.initHint_le,
        Decoder.expects_of_concat law .create (hinv.between h0),
        fun h => absurd h law.initHint_pos.ne'⟩
    · rw [if_neg h0]
      exact ⟨hz, hin, Nat.pos_of_ne_zero h0, hinv⟩
  obtain ⟨hzout, hzin, hpos, hinv'⟩ := hsame
  have hexp := hinv'.expects
  have hbet := hinv'.between
  by_cases h0 : (fread 1 z'.toRead fp).1.1 = 0
  · -- the end of the file
    rw [if_pos h0]
    have hunread : fp.unread = [] := by
      simp only [fread, Nat.div_one, List.length_eq_zero_iff, List.take_eq_nil_iff] at h0
      rcases h0 with h0 | h0
      · omega
      · exact h0
    have hp : (fread 1 z'.toRead fp).2.pos = fp.pos := by simp [fread, hunread]
    refine ⟨rfl, hunread, hin, ⟨hinv'.data_prefix, ?_, hinv'.toRead_le, ?_, ?_⟩,
      hzout.trans hz.symm, hzin, hp, fp.later_fread _ _, Nat.lt_succ_self _⟩
    · rw [hp]; exact hinv'.pos_le
    · rw [hp]; exact hexp
    · rw [hp]; exact hbet
  · rw [if_neg h0]
    have hgot : fp.unread.take (1 * z'.toRead) <+: fp.unread := List.take_prefix _ _
    have hne : 0 < (fp.unread.take (1 * z'.toRead)).length := by
      simp only [fread, Nat.div_one] at h0
      omega
    have hmove := hinv'.drop_eq hgot
    have hle := hinv'.pos_add_le hgot
    rw [hzin, List.nil_append] at hexp hbet
    refine ⟨[], q, by simp [hz, hzout], by simp, by simp, hwant, ⟨hinv'.data_prefix, hle,
      hinv'.toRead_le, ?_, ?_⟩, fun _ => hzout, ?_, fp.later_fread _ _⟩
    · simp only [fread]
      rw [hmove]
      exact hexp
    · simp only [fread]
      rw [hmove]
      exact hbet
    · simp only [jumps, ZReader.cost, fread, hz, hzout, hin, List.length_nil] at hne hle ⊢
      omega

/-- **One jump.** It keeps the invariant and makes the measure smaller, or the call returns what it
was asked for. -/
theorem zstep_spec (law : dec.Lawful Frame) {l : Label} {want : ℕ} (copied : List UInt8)
    (hinv : ZInv dec Frame X fp z q) (hl : l = .decompress → z.out = []) (hwant : 0 < want) :
    (zstep dec l want copied fp z).Ok dec Frame X l want copied fp z q := by
  cases l with
  | gotdata => exact zstep_gotdata copied hinv hwant
  | decompress =>
    by_cases hin : z.input = []
    · exact zstep_refill law copied hinv (hl rfl) hwant hin
    · exact zstep_decompress law copied hinv (hl rfl) hwant hin

/-! ### A call -/

/-- Everything that the file shows to its `m`-th read is behind the position. -/
def InFile.UsedUp (fp : InFile) (m : ℕ) : Prop :=
  (fp.data.take (fp.growth.size m)).length ≤ fp.pos

/-- What a call that was asked for `want` bytes has done: `o` are the bytes it has
copied, and `all` says whether these are all the bytes wanted. -/
structure Handed (dec : Decoder D UInt8 UInt8) (Frame : List UInt8 → List UInt8 → Prop)
    (X : List UInt8) (want : ℕ) (fp : InFile) (z : ZReader D) (q : List UInt8) (all : Bool)
    (o : List UInt8) (fp' : InFile) (z' : ZReader D) (q' : List UInt8) : Prop where
  split : z.out ++ q = o ++ (z'.out ++ q')
  inv : ZInv dec Frame X fp' z' q'
  later : fp.Later fp'
  cost_le : z'.cost fp' q' ≤ z.cost fp q
  full : all = true → o.length = want
  eof : all = false → o.length < want ∧ z'.out = [] ∧ z'.input = [] ∧
    ∃ m, fp.reads ≤ m ∧ m < fp'.reads ∧ fp'.UsedUp m

/-- **A call hands out the bytes it is asked for, or finds the end of the file.**
The fuel is only used up when there is too little of it. -/
theorem freadLoop_spec (law : dec.Lawful Frame) :
    ∀ (n : ℕ) (l : Label) (want : ℕ) (copied : List UInt8) (fp : InFile) (z : ZReader D)
      (q : List UInt8), ZInv dec Frame X fp z q → (l = .decompress → z.out = []) → 0 < want →
      jumps l z fp q < n → ∃ all o fp' z' q',
        freadLoop dec n l want copied fp z = .ret ((all, copied ++ o), (fp', z')) ∧
          Handed dec Frame X want fp z q all o fp' z' q' := by
  intro n
  induction n with
  | zero => intro l want copied fp z q _ _ _ hn; omega
  | succ n ih =>
    intro l want copied fp z q hinv hl hwant hn
    have hstep := zstep_spec law copied hinv hl hwant
    rw [freadLoop]
    cases h : zstep dec l want copied fp z with
    | error => rw [h] at hstep; exact hstep.elim
    | full copied' fp' z' =>
      rw [h] at hstep
      obtain ⟨hle, rfl, rfl, hinv', hout, hinput⟩ := hstep
      refine ⟨true, z.out.take want, fp', z', q, rfl, ?_, hinv', .refl fp', ?_, ?_, nofun⟩
      · rw [hout, ← List.append_assoc, List.take_append_drop]
      · simp only [ZReader.cost, hout, hinput, List.length_drop]
        omega
      · intro _
        rw [List.length_take, min_eq_left hle]
    | eof copied' fp' z' =>
      rw [h] at hstep
      obtain ⟨rfl, hunread, hin, hinv', hout, hin', hpos, hlater, hreads⟩ := hstep
      -- the end of the file is met only from `DECOMPRESS`, with nothing left over
      have hz : z.out = [] := by
        cases l with
        | decompress => exact hl rfl
        | gotdata =>
          rw [zstep] at h
          split at h
          · split at h <;> cases h
          · cases h
      refine ⟨false, [], fp', z', q, by simp, by simp [hout], hinv', hlater, ?_, nofun, fun _ =>
        ⟨by simpa using hwant, hout.trans hz, hin', fp.reads, le_rfl, hreads, ?_⟩⟩
      · simp only [ZReader.cost, hout, hin, hin', hpos, hlater.data]
        omega
      · have hlen := congrArg List.length hunread
        rw [InFile.unread, List.length_drop, List.length_nil] at hlen
        rw [InFile.UsedUp, hlater.data, hlater.growth, hpos]
        omega
    | jump l' want' copied' fp' z' =>
      rw [h] at hstep
      obtain ⟨o, q', hsplit, rfl, hwant', hpos, hinv', hl', hj, hlater⟩ := hstep
      obtain ⟨all, o', fp'', z'', q'', hloop, hd⟩ :=
        ih l' want' (copied ++ o) fp' z' q' hinv' hl' hpos (by omega)
      have hcost : z'.cost fp' q' ≤ z.cost fp q := by
        unfold jumps at hj
        cases l <;> cases l' <;> simp only at hj <;> omega
      refine ⟨all, o ++ o', fp'', z'', q'', by rw [← List.append_assoc]; exact hloop, ?_, hd.inv,
        hlater.trans hd.later, hd.cost_le.trans hcost, ?_, ?_⟩
      · rw [hsplit, hd.split, List.append_assoc]
      · intro hall
        rw [List.length_append, hd.full hall]
        omega
      · intro hall
        obtain ⟨hlt, hz, hi, m, hm, hm', hused⟩ := hd.eof hall
        have := hlater.reads
        exact ⟨by rw [List.length_append]; omega, hz, hi, m, by omega, hm', hused⟩

/-- The static variables, initialised if this is the first call. -/
def zstate (dec : Decoder D UInt8 UInt8) (st : InFile × Option (ZReader D)) : ZReader D :=
  st.2.getD (.start dec)

/-- A call is its loop. -/
theorem freadWrapperZstd_of_loop {fuel size nmemb : ℕ} {st : InFile × Option (ZReader D)}
    {all : Bool} {o : List UInt8} {fp' : InFile} {z' : ZReader D}
    (h : freadLoop dec fuel .gotdata (size * nmemb) [] st.1 (zstate dec st) =
      .ret ((all, o), (fp', z'))) :
    freadWrapperZstd dec fuel size nmemb st =
      .ret ((if all then nmemb else 0, o), (fp', some z')) := by
  rw [zstate] at h
  simp only [freadWrapperZstd, h, Outcome.ret_bind, Outcome.pure_eq]

/-- **One call of the wrapper** returns the next bytes of the plaintext, as many as there are up to
what was asked for. -/
theorem freadWrapperZstd_spec (law : dec.Lawful Frame) {fuel size nmemb : ℕ} (hs : 0 < size)
    (hn : 0 < nmemb) (st : InFile × Option (ZReader D))
    (hinv : ZInv dec Frame X st.1 (zstate dec st) q)
    (hfuel : 2 * (zstate dec st).cost st.1 q + 1 < fuel) :
    ∃ all o fp' z' q',
      freadLoop dec fuel .gotdata (size * nmemb) [] st.1 (zstate dec st) =
          .ret ((all, o), (fp', z')) ∧
        Handed dec Frame X (size * nmemb) st.1 (zstate dec st) q all o fp' z' q' :=
  freadLoop_spec law fuel .gotdata (size * nmemb) [] st.1 (zstate dec st) q hinv nofun
    (Nat.mul_pos hs hn) hfuel

/-! ### Files that do not grow -/

/-- The wrapper stands in the file `X` of complete frames, all of which can be seen,
and the bytes `rest` are still to come. -/
def ZServes (dec : Decoder D UInt8 UInt8) (Frame : List UInt8 → List UInt8 → Prop)
    (X : List UInt8) (fuel : ℕ) (st : InFile × Option (ZReader D)) (rest : List UInt8) : Prop :=
  st.1.data = X ∧ (∀ n, st.1.reads ≤ n → X.length ≤ st.1.growth.size n) ∧
    ∃ q, ZInv dec Frame X st.1 (zstate dec st) q ∧ rest = (zstate dec st).out ++ q ∧
      2 * (zstate dec st).cost st.1 q + 1 < fuel

/-- A decompressor that expects no more input has no more to put out. -/
theorem expects_nil {d : D} (h : dec.Expects Frame d [] q) : q = [] := by
  generalize hx : ([] : List UInt8) = x at h
  cases h with
  | finished _ => rfl
  | inside _ _ hlt _ hcx _ =>
    have := congrArg List.length hcx
    rw [← hx] at this
    simp only [List.length_append, List.length_nil] at this
    omega

/-- **On a file of complete frames the wrapper delivers their plaintexts**, given
enough fuel. -/
theorem serves_freadWrapperZstd (law : dec.Lawful Frame) (X : List UInt8) (fuel : ℕ) :
    Serves (freadWrapperZstd dec fuel) (ZServes dec Frame X fuel) where
  clearerr := by
    rintro ⟨fp, z⟩ rest ⟨hX, hvis, q, hinv, hrest, hfuel⟩
    exact ⟨hX, hvis, q, ⟨hinv.data_prefix, hinv.pos_le, hinv.toRead_le, hinv.expects,
      hinv.between⟩, hrest, hfuel⟩
  full := by
    rintro st rest size nmemb ⟨hX, hvis, q, hinv, rfl, hfuel⟩ hs hn hle
    obtain ⟨all, o, fp', z', q', hloop, hd⟩ := freadWrapperZstd_spec law hs hn st hinv hfuel
    have hcall := freadWrapperZstd_of_loop hloop
    cases all with
    | true =>
      have hlen := hd.full rfl
      refine ⟨(fp', some z'), ?_, hd.later.data.trans hX, ?_, q', hd.inv, ?_, ?_⟩
      · rw [hcall, hd.split, ← hlen, List.take_left]
        rfl
      · intro n hn'
        rw [hd.later.growth]
        exact hvis n (hd.later.reads.trans hn')
      · rw [hd.split, ← hlen, List.drop_left]
        rfl
      · exact (Nat.add_le_add_right (Nat.mul_le_mul_left 2 hd.cost_le) 1).trans_lt hfuel
    | false =>
      -- the file is used up, so all that was left has been copied
      obtain ⟨hlt, hz, hi, m, hm, -, hused⟩ := hd.eof rfl
      have hpos : X.length ≤ fp'.pos := by
        have h := hused
        rw [InFile.UsedUp, hd.later.data, hd.later.growth, hX,
          List.take_of_length_le (hvis m hm)] at h
        exact h
      have hq' : q' = [] := by
        have hexp := hd.inv.expects
        rw [hi, List.drop_of_length_le hpos] at hexp
        exact expects_nil hexp
      have hall := congrArg List.length hd.split
      rw [hz, hq'] at hall
      simp only [List.append_nil] at hall
      omega
  short := by
    rintro st rest size nmemb ⟨hX, hvis, q, hinv, rfl, hfuel⟩ hs hn hlt
    obtain ⟨all, o, fp', z', q', hloop, hd⟩ := freadWrapperZstd_spec law hs hn st hinv hfuel
    have hcall := freadWrapperZstd_of_loop hloop
    cases all with
    | true =>
      have hlen := hd.full rfl
      have hall := congrArg List.length hd.split
      simp only [List.length_append] at hall hlt
      omega
    | false => exact ⟨0, o, (fp', some z'), by rw [hcall]; rfl, hn.ne⟩

/-- A file of complete frames, opened: the plaintexts are to come. -/
theorem zserves_ofBytes (law : dec.Lawful Frame) {X q : List UInt8} (h : Concat Frame X q)
    {fuel : ℕ} (hfuel : 4 * X.length + 4 * q.length + 1 < fuel) :
    ZServes dec Frame X fuel (InFile.ofBytes X, none) q := by
  refine ⟨rfl, fun _ _ => le_rfl, q, ⟨List.prefix_rfl, Nat.zero_le _, law.initHint_le, ?_, ?_⟩, rfl,
    ?_⟩
  · exact Decoder.expects_of_concat law .create h
  · intro _
    exact h
  · simp only [zstate, ZReader.start, ZReader.cost, InFile.ofBytes, Option.getD_none,
      List.length_nil]
    omega

end TtyRec
