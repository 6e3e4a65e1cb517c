import TtyRec.Zstd.Raw
import TtyRec.Zstd.Read

/-!
# Calls in a row

What a caller sees of a sequence of calls of `fread_wrapper_zstd`, and what `fread`
sees of it.

The caller sees a reader of the plaintext: `freadCalls` makes the calls, and `pieces`
is the plaintext cut up between them.

`fread` sees the hints of the decompressor: `refills` lists how much the calls ask it
for, with the bytes of the current frame that the decompressor has consumed by then.
The input buffer has room for `ZSTD_DStreamInSize` bytes.  Inside a frame of blocks the
hints stay within that; inside a skippable frame they are bounded only by what is left
of the frame, and its size is whatever four bytes of the file say.

## Main definitions

* `freadCalls`, `pieces` — calls in a row, and what they should return.
* `Refill`, `refills` — what the calls ask the file for.
* `skippableLeft`, `HintBounded` — what the interface says of the hints.
* `skipDecoder` — a decompressor of skippable frames.

## Main results

* `freadCalls_freadWrapperZstd` — **on a file of complete frames the calls return the
  plaintext in order, and the first call that asks for too much returns 0.**
* `refills_fit` — **the requests fit the input buffer** as long as no skippable frame
  has more left than the buffer holds.
-/

namespace TtyRec

open StreamCodec

variable {S D : Type*}

/-! ### What the caller sees -/

/-- Calls of a reading wrapper, each with its `size` and `nmemb`: what they return and
store. -/
def freadCalls (freadWrapper : FreadWrapper S) :
    List (ℕ × ℕ) → InFile × S → Outcome (List (ℕ × List UInt8) × (InFile × S))
  | [], st => return ([], st)
  | (size, nmemb) :: calls, st => do
    let (r, st) ← freadWrapper size nmemb st
    let (rs, st) ← freadCalls freadWrapper calls st
    return (r :: rs, st)

/-- How many bytes the calls ask for. -/
def requested (calls : List (ℕ × ℕ)) : ℕ := (calls.map fun c => c.1 * c.2).sum

@[simp] theorem requested_cons (size nmemb : ℕ) (calls : List (ℕ × ℕ)) :
    requested ((size, nmemb) :: calls) = size * nmemb + requested calls := rfl

/-- The bytes `p` cut up between the calls, each of which returns its `nmemb`. -/
def pieces : List (ℕ × ℕ) → List UInt8 → List (ℕ × List UInt8)
  | [], _ => []
  | (size, nmemb) :: calls, p =>
    (nmemb, p.take (size * nmemb)) :: pieces calls (p.drop (size * nmemb))

/-- **A wrapper that serves a byte string returns it piece by piece**, and what the calls return put
together is its beginning. -/
theorem Serves.freadCalls {freadWrapper : FreadWrapper S} {R : InFile × S → List UInt8 → Prop}
    (hs : Serves freadWrapper R) {calls : List (ℕ × ℕ)} (hpos : ∀ c ∈ calls, 0 < c.1 ∧ 0 < c.2) :
    ∀ {st : InFile × S} {p : List UInt8}, R st p → requested calls ≤ p.length →
      ∃ st', freadCalls freadWrapper calls st = .ret (pieces calls p, st') ∧
        R st' (p.drop (requested calls)) := by
  induction calls with
  | nil =>
    intro st p hR _
    exact ⟨st, rfl, hR⟩
  | cons c calls ih =>
    intro st p hR hle
    obtain ⟨size, nmemb⟩ := c
    obtain ⟨hsize, hnmemb⟩ := hpos _ List.mem_cons_self
    rw [requested_cons] at hle
    obtain ⟨st₁, hcall, hR₁⟩ := hs.full size nmemb hR hsize hnmemb (by omega)
    have hle₁ : requested calls ≤ (p.drop (size * nmemb)).length := by
      rw [List.length_drop]
      omega
    obtain ⟨st₂, hcalls, hR₂⟩ := ih (fun c hc => hpos c (List.mem_cons_of_mem _ hc)) hR₁ hle₁
    refine ⟨st₂, ?_, ?_⟩
    · simp only [TtyRec.freadCalls, hcall, hcalls, Outcome.ret_bind, Outcome.pure_eq, pieces]
    · rwa [requested_cons, ← List.drop_drop]

/-- The wrapper returns `nmemb` or 0. -/
theorem freadWrapperZstd_ret {dec : Decoder D UInt8 UInt8} {fuel size nmemb n : ℕ}
    {st st' : InFile × Option (ZReader D)} {bs : List UInt8}
    (h : freadWrapperZstd dec fuel size nmemb st = .ret ((n, bs), st')) : n = nmemb ∨ n = 0 := by
  unfold freadWrapperZstd at h
  cases hloop : freadLoop dec fuel .gotdata (size * nmemb) [] st.1 (st.2.getD (.start dec)) with
  | exit c => rw [hloop] at h; cases h
  | spin => rw [hloop] at h; cases h
  | ret r =>
    obtain ⟨⟨all, copied⟩, fp, z⟩ := r
    rw [hloop] at h
    simp only [Outcome.ret_bind, Outcome.pure_eq, Outcome.ret.injEq, Prod.mk.injEq] at h
    cases all with
    | true => exact .inl h.1.1.symm
    | false => exact .inr h.1.1.symm

/-- **A reader of the plaintext.**  On a file of complete frames with the plaintext `p`,
calls that do not ask for more than `p` return its bytes in order, and a call after them
that asks for more than what is left returns 0; all of them end with the same bound on
their loops. -/
theorem freadCalls_freadWrapperZstd {dec : Decoder D UInt8 UInt8}
    {Frame : List UInt8 → List UInt8 → Prop} (law : dec.Lawful Frame) {x p : List UInt8}
    (hx : Concat Frame x p) {fuel : ℕ} (hfuel : 4 * x.length + 4 * p.length + 1 < fuel)
    {calls : List (ℕ × ℕ)} (hpos : ∀ c ∈ calls, 0 < c.1 ∧ 0 < c.2)
    (hle : requested calls ≤ p.length) :
    ∃ st, freadCalls (freadWrapperZstd dec fuel) calls (InFile.ofBytes x, none) =
        .ret (pieces calls p, st) ∧
      ∀ size nmemb, 0 < size → 0 < nmemb → p.length < requested calls + size * nmemb →
        ∃ bs st', freadWrapperZstd dec fuel size nmemb st = .ret ((0, bs), st') := by
  have hserves := serves_freadWrapperZstd law x fuel
  obtain ⟨st, hcalls, hst⟩ := hserves.freadCalls hpos (zserves_ofBytes law hx hfuel) hle
  refine ⟨st, hcalls, ?_⟩
  intro size nmemb hsize hnmemb hmore
  have hshort : (p.drop (requested calls)).length < size * nmemb := by
    rw [List.length_drop]
    omega
  obtain ⟨n, bs, st', hcall, hne⟩ := hserves.short size nmemb hst hsize hnmemb hshort
  rcases freadWrapperZstd_ret hcall with rfl | rfl
  · exact absurd rfl hne
  · exact ⟨bs, st', hcall⟩

/-- Two frames, the first of them empty, and calls that do not respect their borders. -/
theorem freadCalls_freadWrapperZstd_frames :
    ∃ st, freadCalls (freadWrapperZstd rawDecoder 200) [(1, 2), (3, 1)]
        (InFile.ofBytes (rawFrame [] ++ (rawFrame [1, 2, 3] ++ rawFrame [4, 5, 6])), none) =
          .ret (pieces [(1, 2), (3, 1)] [1, 2, 3, 4, 5, 6], st) ∧
      ∀ size nmemb, 0 < size → 0 < nmemb →
        [1, 2, 3, 4, 5, 6].length < requested [(1, 2), (3, 1)] + size * nmemb →
        ∃ bs st', freadWrapperZstd rawDecoder 200 size nmemb st = .ret ((0, bs), st') :=
  freadCalls_freadWrapperZstd rawDecoder_lawful
    (.cons (frame_rawFrame (by decide)) (.cons (frame_rawFrame (by decide))
      (.single (frame_rawFrame (by decide))))) (by decide) (by decide) (by decide)

/-! ### What `fread` sees -/

/-- A refill of the input buffer: how much `fread` is asked for, and what the
decompressor has consumed of the current frame. -/
structure Refill where
  request : ℕ
  frame : List UInt8
  deriving DecidableEq, Repr

section Definitions

variable (dec : Decoder D UInt8 UInt8)

/-- The static variables when `fread` is called: at the end of a frame, with a new
decompressor. -/
def ZReader.renewed (z : ZReader D) : ZReader D :=
  if z.toRead = 0 then { z with dstream := dec.create, toRead := dec.initHint } else z

/-- The refill at a label, if there is one; `c` is what is consumed of the frame. -/
def refill : Label → ZReader D → List UInt8 → List Refill
  | .gotdata, _, _ => []
  | .decompress, z, c => if z.input ≠ [] then [] else [⟨(z.renewed dec).toRead, c⟩]

/-- What is consumed of the current frame at the next jump. -/
def consumedAfter : Label → ZReader D → List UInt8 → List UInt8
  | .gotdata, _, c => c
  | .decompress, z, c =>
    if z.input ≠ [] then
      match dec.decompress z.dstream z.input dec.outSize with
      | none => c
      | some st => if st.ret = 0 then [] else c ++ z.input.take st.consumed
    else c

/-- The refills of `freadLoop`, in order, and what is consumed of the frame in the
end. -/
def loopRefills : ℕ → Label → ℕ → List UInt8 → InFile → ZReader D → List UInt8 →
    List Refill × List UInt8
  | 0, _, _, _, _, _, c => ([], c)
  | n + 1, l, want, copied, fp, z, c =>
    match zstep dec l want copied fp z with
    | .jump l' want' copied' fp' z' =>
      let rest := loopRefills n l' want' copied' fp' z' (consumedAfter dec l z c)
      (refill dec l z c ++ rest.1, rest.2)
    | _ => (refill dec l z c, consumedAfter dec l z c)

/-- The refills of calls in a row, each with its `size`, its `nmemb` and the stream as
the caller left it. -/
def refills (fuel : ℕ) :
    List (ℕ × ℕ × InFile) → Option (ZReader D) → List UInt8 → List Refill
  | [], _, _ => []
  | (size, nmemb, fp) :: calls, z, c =>
    let r := loopRefills dec fuel .gotdata (size * nmemb) [] fp (z.getD (.start dec)) c
    match freadWrapperZstd dec fuel size nmemb (fp, z) with
    | .ret (_, (_, z')) => r.1 ++ refills fuel calls z' r.2
    | _ => r.1

/-- With no input left, `fread` is asked for what the refill says. -/
theorem zstep_of_input_nil {z : ZReader D} (hin : z.input = []) (want : ℕ) (copied : List UInt8)
    (fp : InFile) :
    zstep dec .decompress want copied fp z =
      if (fread 1 (z.renewed dec).toRead fp).1.1 = 0 then
        .eof copied (fread 1 (z.renewed dec).toRead fp).2 (z.renewed dec)
      else
        .jump .decompress want copied (fread 1 (z.renewed dec).toRead fp).2
          { z.renewed dec with input := (fread 1 (z.renewed dec).toRead fp).1.2 } := by
  rw [zstep, if_neg (not_not.mpr hin)]
  rfl

end Definitions

/-! ### What the interface says of the hints -/

/-- The size that the header of a skippable frame declares. -/
def skippableSize : List UInt8 → Option ℕ
  | [m₀, m₁, m₂, m₃, n₀, n₁, n₂, n₃] =>
    if m₀.toNat / 16 = 5 ∧ m₁ = 0x2A ∧ m₂ = 0x4D ∧ m₃ = 0x18 then
      some (n₀.toNat + 2 ^ 8 * n₁.toNat + 2 ^ 16 * n₂.toNat + 2 ^ 24 * n₃.toNat)
    else none
  | _ => none

/-- What is left of a skippable frame that begins with these bytes; 0 for other frames,
and while the header is not complete. -/
def skippableLeft (c : List UInt8) : ℕ :=
  match skippableSize (c.take 8) with
  | some n => n + 8 - c.length
  | none => 0

/-- A hint stays within the recommended input buffer, or, in a skippable frame, within
what is left of the frame. -/
structure HintBounded (dec : Decoder D UInt8 UInt8) : Prop where
  initHint_le : dec.initHint ≤ dec.inSize
  ret_le : ∀ {d c e inp cap st}, dec.At d c e → dec.decompress d inp cap = some st →
    st.ret ≤ max dec.inSize (skippableLeft (c ++ inp.take st.consumed))

/-- Beyond the size of the input buffer, the hint is what is left of the skippable
frame. -/
def HintExact (dec : Decoder D UInt8 UInt8) : Prop :=
  ∀ {d c e inp cap st}, dec.At d c e → dec.decompress d inp cap = some st → st.ret ≠ 0 →
    dec.inSize < skippableLeft (c ++ inp.take st.consumed) →
      st.ret = skippableLeft (c ++ inp.take st.consumed)

@[simp] theorem skippableLeft_nil : skippableLeft [] = 0 := rfl

/-! ### A skippable frame -/

/-- Where a decompressor is in a skippable frame; in its content, one byte more is left
than the number. -/
inductive SkipState where
  | header (bytes : List UInt8)
  | content (left : ℕ)
  | done
  deriving DecidableEq, Repr

/-- One byte of a skippable frame. -/
def skipStep : SkipState → UInt8 → Option (SkipState × Option UInt8)
  | .header bytes, b =>
    if bytes.length < 7 then some (.header (bytes ++ [b]), none)
    else
      match skippableSize (bytes ++ [b]) with
      | none => none
      | some 0 => some (.done, none)
      | some (n + 1) => some (.content n, none)
  | .content 0, _ => some (.done, none)
  | .content (n + 1), _ => some (.content n, none)
  | .done, _ => none

/-- In the header, its rest and the header of a block; in the content, all of it. -/
def skipHint : SkipState → ℕ
  | .header [] => 5
  | .header bytes => 8 - bytes.length + 3
  | .content n => n + 1
  | .done => 1

def skipTransducer : Transducer SkipState UInt8 UInt8 where
  start := .header []
  step := skipStep
  final s := decide (s = .done)
  hint := skipHint
  start_not_final := rfl
  hint_pos s := by
    cases s with
    | header bytes => cases bytes <;> simp [skipHint]
    | content n => simp [skipHint]
    | done => simp [skipHint]

/-- A decompressor of skippable frames, with the buffers of the library. -/
def skipDecoder : Decoder SkipState UInt8 UInt8 := skipTransducer.decoder 131075 131072

/-- What the state of the decompressor says of the bytes that it has consumed. -/
def SkipState.After (c : List UInt8) : SkipState → Prop
  | .header bytes => bytes = c ∧ c.length < 8
  | .content n => skippableLeft c = n + 1
  | .done => True

theorem skippableLeft_of_length_lt {c : List UInt8} (h : c.length < 8) : skippableLeft c = 0 := by
  match c, h with
  | [], _ | [_], _ | [_, _], _ | [_, _, _], _ | [_, _, _, _], _ | [_, _, _, _, _], _
  | [_, _, _, _, _, _], _ | [_, _, _, _, _, _, _], _ => rfl
  | _ :: _ :: _ :: _ :: _ :: _ :: _ :: _ :: _, h => simp at h; omega

/-- One byte more of a skippable frame. -/
theorem skippableLeft_append {c : List UInt8} (b : UInt8) {n : ℕ} (h : skippableLeft c = n + 1) :
    skippableLeft (c ++ [b]) = n := by
  have h8 : 8 ≤ c.length := by
    by_contra hlt
    rw [skippableLeft_of_length_lt (not_le.mp hlt)] at h
    cases h
  unfold skippableLeft at h ⊢
  rw [List.take_append_of_le_length h8]
  cases hsize : skippableSize (c.take 8) with
  | none =>
    rw [hsize] at h
    cases h
  | some m =>
    rw [hsize] at h
    simp only [List.length_append, List.length_singleton] at h ⊢
    omega

theorem SkipState.After.step {s s' : SkipState} {c : List UInt8} {b : UInt8} {o : Option UInt8}
    (h : s.After c) (hs : skipStep s b = some (s', o)) : s'.After (c ++ [b]) := by
  cases s with
  | header bytes =>
    obtain ⟨rfl, hlen⟩ := h
    rw [skipStep] at hs
    split at hs
    next h7 =>
      cases hs
      refine ⟨rfl, ?_⟩
      rw [List.length_append, List.length_singleton]
      omega
    next h7 =>
      -- the eighth byte completes the size
      have h8 : (bytes ++ [b]).length = 8 := by
        rw [List.length_append, List.length_singleton]
        omega
      have hleft : ∀ n, skippableSize (bytes ++ [b]) = some n → skippableLeft (bytes ++ [b]) = n := by
        intro n hn
        unfold skippableLeft
        rw [List.take_of_length_le h8.le, hn]
        simp only [h8]
        omega
      split at hs
      · cases hs
      next h0 =>
        cases hs
        trivial
      next n hn =>
        cases hs
        exact hleft _ hn
  | content n =>
    cases n with
    | zero =>
      cases hs
      trivial
    | succ n =>
      cases hs
      exact skippableLeft_append b h
  | done => cases hs

theorem SkipState.After.steps {s t : SkipState} {d : List UInt8} {e : List UInt8}
    (h : skipTransducer.Steps s d t e) : ∀ {c : List UInt8}, s.After c → t.After (c ++ d) := by
  induction h with
  | nil =>
    intro c hc
    rwa [List.append_nil]
  | cons _ hs _ ih =>
    intro c hc
    rw [List.append_cons]
    exact ih (hc.step hs)

/-- What the decompressor of skippable frames returns. -/
theorem skipDecoder_ret {d : SkipState} {c e inp : List UInt8} {cap : ℕ} {st : DStep SkipState UInt8}
    (h : skipDecoder.At d c e) (hst : skipDecoder.decompress d inp cap = some st) (h0 : st.ret ≠ 0) :
    st.ret ≤ 11 ∧ skippableLeft (c ++ inp.take st.consumed) = 0 ∨
      st.ret = skippableLeft (c ++ inp.take st.consumed) := by
  obtain ⟨hret, hsteps⟩ := Transducer.decoder_ret h hst h0
  have hnf := (Transducer.steps_of_at (h.more hst h0)).2
  have hafter : st.state.After ([] ++ (c ++ inp.take st.consumed)) :=
    SkipState.After.steps hsteps ⟨rfl, Nat.zero_lt_succ 7⟩
  rw [List.nil_append] at hafter
  rw [hret]
  change skipHint st.state ≤ 11 ∧ _ ∨ skipHint st.state = _
  cases hs : st.state with
  | header bytes =>
    rw [hs] at hafter
    refine .inl ⟨?_, skippableLeft_of_length_lt hafter.2⟩
    cases bytes <;> simp only [skipHint] <;> omega
  | content n =>
    rw [hs] at hafter
    exact .inr hafter.symm
  | done =>
    rw [hs] at hnf
    cases hnf

theorem skipDecoder_bounded : HintBounded skipDecoder where
  initHint_le := by decide
  ret_le := by
    intro d c e inp cap st hat hst
    by_cases h0 : st.ret = 0
    · rw [h0]
      exact Nat.zero_le _
    · rcases skipDecoder_ret hat hst h0 with ⟨hle, -⟩ | heq
      · exact le_max_of_le_left (hle.trans (by decide))
      · exact le_max_of_le_right heq.le

/-! ### The bound on the requests -/

/-- How much may be asked for while `c` is consumed of the frame: `n` is bounded by the
input buffer and what is left of a skippable frame, and equal to that if the hints are
`exact`. -/
structure Bounded (dec : Decoder D UInt8 UInt8) (exact : Prop) (c : List UInt8) (n : ℕ) : Prop where
  le : n ≤ max dec.inSize (skippableLeft c)
  eq : exact → dec.inSize < skippableLeft c → n = skippableLeft c

/-- The invariant: the decompressor has consumed `c` of the current frame, and `toRead`
is bounded. -/
structure HintInv (dec : Decoder D UInt8 UInt8) (exact : Prop) (z : ZReader D) (c : List UInt8) :
    Prop where
  hist : ∃ e, dec.At z.dstream c e
  bounded : Bounded dec exact c z.toRead
  between : z.toRead = 0 → c = []

variable {dec : Decoder D UInt8 UInt8} {exact : Prop} {z : ZReader D} {c : List UInt8}

/-- At the beginning of a frame nothing is special. -/
theorem bounded_nil {n : ℕ} (hn : n ≤ dec.inSize) : Bounded dec exact [] n where
  le := hn.trans (le_max_left _ _)
  eq _ h := by
    rw [skippableLeft_nil] at h
    omega

theorem HintInv.start (hb : HintBounded dec) : HintInv dec exact (.start dec) [] :=
  ⟨⟨[], .create⟩, bounded_nil hb.initHint_le, fun _ => rfl⟩

/-- A new decompressor after the end of a frame. -/
theorem HintInv.renewed (hb : HintBounded dec) (h : HintInv dec exact z c) :
    HintInv dec exact (z.renewed dec) c := by
  unfold ZReader.renewed
  by_cases h0 : z.toRead = 0
  · rw [if_pos h0, h.between h0]
    exact ⟨⟨[], .create⟩, bounded_nil hb.initHint_le, fun _ => rfl⟩
  · rwa [if_neg h0]

/-- The invariant is not about the two buffers. -/
theorem HintInv.buffers (h : HintInv dec exact z c) (input out : List UInt8) :
    HintInv dec exact { z with input := input, out := out } c :=
  ⟨h.hist, h.bounded, h.between⟩

/-- The static variables after a jump or return. -/
def ZStep.reader? : ZStep D → Option (ZReader D)
  | .error => none
  | .full _ _ z => some z
  | .eof _ _ z => some z
  | .jump _ _ _ _ z => some z

/-- A call of the decompressor. -/
theorem HintInv.decompress (hb : HintBounded dec) (hx : exact → HintExact dec)
    (h : HintInv dec exact z c) {inp out : List UInt8} {cap : ℕ} {st : DStep D UInt8}
    (hst : dec.decompress z.dstream z.input cap = some st) :
    HintInv dec exact ⟨st.state, st.ret, inp, out⟩
      (if st.ret = 0 then [] else c ++ z.input.take st.consumed) := by
  obtain ⟨e, hat⟩ := h.hist
  by_cases h0 : st.ret = 0
  · rw [if_pos h0]
    refine ⟨⟨[], hat.done hst h0⟩, bounded_nil ?_, fun _ => rfl⟩
    rw [h0]
    exact Nat.zero_le _
  · rw [if_neg h0]
    exact ⟨⟨_, hat.more hst h0⟩, ⟨hb.ret_le hat hst, fun he hlt => hx he hat hst h0 hlt⟩,
      fun h => absurd h h0⟩

/-- **One jump keeps the invariant**: `toRead` is as it was, or the hint of a call of the
decompressor, or what a new one asks for first. -/
theorem HintInv.step (hb : HintBounded dec) (hx : exact → HintExact dec)
    (h : HintInv dec exact z c) (l : Label) (want : ℕ) (copied : List UInt8) (fp : InFile)
    {z' : ZReader D} (hz' : (zstep dec l want copied fp z).reader? = some z') :
    HintInv dec exact z' (consumedAfter dec l z c) := by
  cases l with
  | gotdata =>
    rw [zstep] at hz'
    split at hz'
    · split at hz' <;>
      · cases hz'
        exact h.buffers _ _
    · cases hz'
      exact h
  | decompress =>
    by_cases hin : z.input = []
    · rw [consumedAfter, if_neg (not_not.mpr hin)]
      rw [zstep_of_input_nil dec hin] at hz'
      -- the input is used up: the buffer is filled with as much as the hint says
      have h' := h.renewed hb
      split at hz'
      · cases hz'
        exact h'
      · cases hz'
        exact h'.buffers _ _
    · rw [consumedAfter, if_pos hin]
      rw [zstep, if_pos hin] at hz'
      cases hst : dec.decompress z.dstream z.input dec.outSize with
      | none =>
        rw [hst] at hz'
        cases hz'
      | some st =>
        rw [hst] at hz'
        dsimp only at hz' ⊢
        split at hz' <;>
        · cases hz'
          exact h.decompress hb hx hst

/-- A refill asks for what the invariant allows. -/
theorem HintInv.refill (hb : HintBounded dec) (h : HintInv dec exact z c) {l : Label} {r : Refill}
    (hr : r ∈ refill dec l z c) : Bounded dec exact r.frame r.request := by
  cases l with
  | gotdata => exact absurd hr List.not_mem_nil
  | decompress =>
    rw [TtyRec.refill] at hr
    split at hr
    · exact absurd hr List.not_mem_nil
    · rw [List.mem_singleton] at hr
      subst hr
      exact (h.renewed hb).bounded

/-- The loop keeps the invariant, and its refills are bounded.  One jump is `HintInv.step`; the
induction is on the fuel. -/
theorem HintInv.loop (hb : HintBounded dec) (hx : exact → HintExact dec) :
    ∀ (n : ℕ) (l : Label) (want : ℕ) (copied : List UInt8) (fp : InFile) {z : ZReader D}
      {c : List UInt8}, HintInv dec exact z c →
      (∀ r ∈ (loopRefills dec n l want copied fp z c).1, Bounded dec exact r.frame r.request) ∧
        ∀ {res fp' z'}, freadLoop dec n l want copied fp z = .ret (res, (fp', z')) →
          HintInv dec exact z' (loopRefills dec n l want copied fp z c).2 := by
  intro n
  induction n with
  | zero =>
    intro l want copied fp z c _
    refine ⟨fun r hr => absurd hr List.not_mem_nil, ?_⟩
    intro res fp' z' h
    cases h
  | succ n ih =>
    intro l want copied fp z c h
    have hstep : ∀ {z'}, (zstep dec l want copied fp z).reader? = some z' →
        HintInv dec exact z' (consumedAfter dec l z c) := h.step hb hx l want copied fp
    rw [loopRefills, freadLoop]
    cases hz : zstep dec l want copied fp z with
    | error =>
      refine ⟨fun r hr => h.refill hb hr, ?_⟩
      intro res fp' z' hret
      cases hret
    | full copied' fp' z' =>
      refine ⟨fun r hr => h.refill hb hr, ?_⟩
      intro res fp'' z'' hret
      cases hret
      exact hstep (by rw [hz]; rfl)
    | eof copied' fp' z' =>
      refine ⟨fun r hr => h.refill hb hr, ?_⟩
      intro res fp'' z'' hret
      cases hret
      exact hstep (by rw [hz]; rfl)
    | jump l' want' copied' fp' z' =>
      -- the refills of this jump come before those of the rest
      obtain ⟨hrefills, hfinal⟩ := ih l' want' copied' fp' (hstep (by rw [hz]; rfl))
      refine ⟨?_, hfinal⟩
      intro r hr
      rcases List.mem_append.mp hr with hr | hr
      · exact h.refill hb hr
      · exact hrefills r hr

/-- The refills of calls in a row are bounded. -/
theorem bounded_of_mem_refills (hb : HintBounded dec) (hx : exact → HintExact dec) (fuel : ℕ)
    (calls : List (ℕ × ℕ × InFile)) :
    ∀ {z : Option (ZReader D)} {c : List UInt8}, HintInv dec exact (z.getD (.start dec)) c →
      ∀ r ∈ refills dec fuel calls z c, Bounded dec exact r.frame r.request := by
  induction calls with
  | nil =>
    intro z c _ r hr
    exact absurd hr List.not_mem_nil
  | cons call calls ih =>
    obtain ⟨size, nmemb, fp⟩ := call
    intro z c h r hr
    obtain ⟨hrefills, hfinal⟩ := HintInv.loop hb hx fuel .gotdata (size * nmemb) [] fp h
    rw [refills, freadWrapperZstd] at hr
    cases hloop : freadLoop dec fuel .gotdata (size * nmemb) [] fp (z.getD (.start dec)) with
    | exit s =>
      rw [hloop] at hr
      exact hrefills r hr
    | spin =>
      rw [hloop] at hr
      exact hrefills r hr
    | ret res =>
      obtain ⟨⟨all, copied⟩, fp', z'⟩ := res
      rw [hloop] at hr
      rcases List.mem_append.mp hr with hr | hr
      · exact hrefills r hr
      · exact ih (hfinal hloop) r hr

/-- **A request fits the input buffer as long as no skippable frame has more left than
the buffer holds.**  Where the hint is all that is left of such a frame, it does not fit
it otherwise. -/
theorem refills_fit (hb : HintBounded dec) (fuel : ℕ) (calls : List (ℕ × ℕ × InFile)) :
    (∀ r ∈ refills dec fuel calls none [],
      skippableLeft r.frame ≤ dec.inSize → r.request ≤ dec.inSize) ∧
    (HintExact dec → ∀ r ∈ refills dec fuel calls none [],
      (r.request ≤ dec.inSize ↔ skippableLeft r.frame ≤ dec.inSize)) := by
  have hfit : ∀ r ∈ refills dec fuel calls none [],
      skippableLeft r.frame ≤ dec.inSize → r.request ≤ dec.inSize := by
    intro r hr hleft
    have h := (bounded_of_mem_refills hb (fun h : False => h.elim) fuel calls
      (HintInv.start hb) r hr).le
    rwa [max_eq_left hleft] at h
  refine ⟨hfit, ?_⟩
  intro hx r hr
  refine ⟨?_, hfit r hr⟩
  intro hreq
  by_contra hlt
  rw [not_le] at hlt
  have h := (bounded_of_mem_refills hb (fun _ : True => hx) fuel calls (HintInv.start hb) r hr).eq
    trivial hlt
  omega

/-- A file that begins with a skippable frame of 200000 bytes makes the third request
larger than the input buffer. -/
theorem refills_overflow :
    ¬ ∀ {D : Type} {dec : Decoder D UInt8 UInt8}, HintBounded dec → ∀ fuel calls,
      ∀ r ∈ refills dec fuel calls none [], r.request ≤ dec.inSize := by
  intro h
  have hmem : (⟨199997, [0x50, 0x2A, 0x4D, 0x18, 0x40, 0x0D, 0x03, 0x00, 1, 2, 3]⟩ : Refill) ∈
      refills skipDecoder 10 [(4, 3, InFile.ofBytes
        [0x50, 0x2A, 0x4D, 0x18, 0x40, 0x0D, 0x03, 0x00, 1, 2, 3, 4])] none [] := by
    decide +kernel
  exact absurd (h skipDecoder_bounded 10 _ _ hmem) (by decide)

/-- A skippable frame that is not too large. -/
theorem refills_fit_small :
    ∃ calls, (refills skipDecoder 20 calls none []).length = 3 ∧
      ∀ r ∈ refills skipDecoder 20 calls none [], r.request ≤ skipDecoder.inSize := by
  have hlength : (refills skipDecoder 20 [(4, 3, InFile.ofBytes
      [0x5F, 0x2A, 0x4D, 0x18, 0x03, 0x00, 0x00, 0x00, 1, 2, 3])] none []).length = 3 := by
    decide +kernel
  have hleft : ∀ r ∈ refills skipDecoder 20 [(4, 3, InFile.ofBytes
      [0x5F, 0x2A, 0x4D, 0x18, 0x03, 0x00, 0x00, 0x00, 1, 2, 3])] none [],
      skippableLeft r.frame ≤ skipDecoder.inSize := by
    decide +kernel
  refine ⟨_, hlength, ?_⟩
  intro r hr
  exact (refills_fit skipDecoder_bounded 20 _).1 r hr (hleft r hr)

end TtyRec
