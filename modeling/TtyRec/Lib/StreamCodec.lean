import Mathlib.Tactic

/-!
# Streaming compressors and decompressors

A streaming codec works through calls that take what they can from an input
buffer and put what they have into an output buffer.  What its interface
promises is not about one call but about the history of the calls: the bytes
consumed since the frame began, and the bytes put out for them.  `Decoder.At`
and `Encoder.At` are these histories; the laws are stated over them, for an
arbitrary notion `Frame f p` of "`f` is a complete frame with plaintext `p`".

## Main definitions

* `Concat Frame x q` — `x` is a sequence of frames back to back, `q` their
  plaintexts.
* `Decoder`, `Decoder.At`, `Decoder.Lawful` — a decompressor, its histories, and
  the promises of its interface.
* `Decoder.Expects d x q` — the decoder will have put out `q` once it has
  consumed `x`; this is the invariant a reader of a compressed file keeps.
* `Encoder`, `Encoder.At`, `Encoder.Lawful` — the same for a compressor.

## Main results

* `Decoder.Expects.decompress` — what one call does, on any part of any sequence
  of frames.
-/

namespace StreamCodec

variable {α β : Type*}

/-! ### Frames back to back -/

/-- `x` is a sequence of complete frames, and `q` the plaintexts in order. -/
inductive Concat (Frame : List α → List β → Prop) : List α → List β → Prop
  | nil : Concat Frame [] []
  | cons {f p x q} : Frame f p → Concat Frame x q → Concat Frame (f ++ x) (p ++ q)

theorem Concat.append {Frame : List α → List β → Prop} {x y : List α} {q r : List β}
    (hx : Concat Frame x q) (hy : Concat Frame y r) : Concat Frame (x ++ y) (q ++ r) := by
  induction hx with
  | nil => exact hy
  | cons hf _ ih =>
    rw [List.append_assoc, List.append_assoc]
    exact .cons hf ih

theorem Concat.single {Frame : List α → List β → Prop} {f : List α} {p : List β}
    (h : Frame f p) : Concat Frame f p := by
  simpa using Concat.cons h .nil

/-! ### Decompression -/

/-- The result of one decompression call. -/
structure DStep (D β : Type*) where
  /-- The decoder afterwards. -/
  state : D
  /-- How much of the input was consumed. -/
  consumed : ℕ
  /-- What was put out. -/
  out : List β
  /-- `0` at the end of a frame, otherwise a hint for the next input size. -/
  ret : ℕ

/-- A streaming decompressor. -/
structure Decoder (D α β : Type*) where
  /-- A decoder at the beginning of a frame. -/
  create : D
  /-- The input size recommended for the first call. -/
  initHint : ℕ
  /-- One call, on the unread input and with room for so much output; `none` is
  an error. -/
  decompress : D → List α → ℕ → Option (DStep D β)
  /-- The recommended size of an input buffer. -/
  inSize : ℕ
  /-- The recommended size of an output buffer. -/
  outSize : ℕ

namespace Decoder

variable {D : Type*} (dec : Decoder D α β)

/-- `dec.At d c e`: the decoder `d` has consumed `c` of the current frame and
put out `e`. -/
inductive At : D → List α → List β → Prop
  | create : At dec.create [] []
  | more {d c e inp cap st} : At d c e → dec.decompress d inp cap = some st → st.ret ≠ 0 →
      At st.state (c ++ inp.take st.consumed) (e ++ st.out)
  | done {d c e inp cap st} : At d c e → dec.decompress d inp cap = some st → st.ret = 0 →
      At st.state [] []

/-- What one call does inside the frame `f` with plaintext `p`, of which `c` is
consumed and `e` put out. -/
structure Advance (f : List α) (p : List β) (c : List α) (e : List β) (inp : List α) (cap : ℕ)
    (st : DStep D β) : Prop where
  consumed_le : st.consumed ≤ inp.length
  out_le : st.out.length ≤ cap
  /-- The input is consumed in order, and not beyond the frame. -/
  input : c ++ inp.take st.consumed <+: f
  /-- The plaintext is put out in order. -/
  output : e ++ st.out <+: p
  progress : 0 < st.consumed ∨ st.out ≠ []
  /-- `0` means that the frame is decoded and flushed. -/
  ret_eq_zero : st.ret = 0 ↔ c ++ inp.take st.consumed = f ∧ e ++ st.out = p
  /-- The last byte of a frame is held back until its output is flushed. -/
  held : c ++ inp.take st.consumed = f → e ++ st.out = p
  hint_le : st.ret ≤ dec.inSize

/-- The promises of a streaming decompressor. -/
structure Lawful (Frame : List α → List β → Prop) : Prop where
  frame_ne_nil : ∀ {f p}, Frame f p → f ≠ []
  initHint_pos : 0 < dec.initHint
  initHint_le : dec.initHint ≤ dec.inSize
  outSize_pos : 0 < dec.outSize
  decompress : ∀ {d c e f p inp cap}, dec.At d c e → Frame f p → c.length < f.length →
    (∃ s t, c ++ inp ++ s = f ++ t) → inp ≠ [] → 0 < cap →
    ∃ st, dec.decompress d inp cap = some st ∧ dec.Advance f p c e inp cap st

/-- The decoder stands in a sequence of frames: `x` is still to be consumed, and
`q` still to be put out. -/
inductive Expects (Frame : List α → List β → Prop) (d : D) : List α → List β → Prop
  | finished : dec.At d [] [] → Expects Frame d [] []
  | inside {c e f p x q y r} : dec.At d c e → Frame f p → c.length < f.length →
      Concat Frame y r → c ++ x = f ++ y → e ++ q = p ++ r → Expects Frame d x q

variable {dec} {Frame : List α → List β → Prop}

/-- Between two frames, a decoder expects the frames that follow. -/
theorem expects_of_concat (law : dec.Lawful Frame) {d : D} (hd : dec.At d [] []) {x : List α}
    {q : List β} (h : Concat Frame x q) : dec.Expects Frame d x q := by
  cases h with
  | nil => exact .finished hd
  | cons hf hx =>
    exact .inside hd hf (List.length_pos_iff.mpr (law.frame_ne_nil hf)) hx rfl rfl

/-- **One call inside a sequence of frames.**  Given input that is next in the
sequence, and room, the call succeeds, takes the next input and puts out the next
plaintext; and when it returns `0` the decoder is between two frames. -/
theorem Expects.decompress (law : dec.Lawful Frame) {d : D} {x inp : List α} {q : List β}
    {cap : ℕ} (h : dec.Expects Frame d x q) (hinp : inp ≠ []) (hpre : inp <+: x)
    (hcap : 0 < cap) :
    ∃ st, dec.decompress d inp cap = some st ∧ st.consumed ≤ inp.length ∧ st.out <+: q ∧
      (0 < st.consumed ∨ st.out ≠ []) ∧ st.ret ≤ dec.inSize ∧
      dec.Expects Frame st.state (x.drop st.consumed) (q.drop st.out.length) ∧
      (st.ret = 0 → Concat Frame (x.drop st.consumed) (q.drop st.out.length)) := by
  cases h with
  | finished _ => exact absurd (List.prefix_nil.mp hpre) hinp
  | @inside c e f p _ _ y r hat hf hlt hy hx hq =>
    have hstream : ∃ s t, c ++ inp ++ s = f ++ t := by
      obtain ⟨s, rfl⟩ := hpre
      exact ⟨s, y, by rw [← hx, List.append_assoc]⟩
    obtain ⟨st, hst, adv⟩ := law.decompress hat hf hlt hstream hinp hcap
    have hk := adv.consumed_le
    -- what was taken, and what was put out, are the heads of `x` and `q`
    have htake : inp.take st.consumed = x.take st.consumed := by
      obtain ⟨s, rfl⟩ := hpre
      rw [List.take_append_of_le_length hk]
    have hout : st.out <+: q := by
      have : e ++ st.out <+: e ++ q := hq ▸ adv.output.trans (List.prefix_append _ _)
      exact (List.prefix_append_right_inj e).mp this
    have hx' : (c ++ inp.take st.consumed) ++ x.drop st.consumed = f ++ y := by
      rw [htake, List.append_assoc, List.take_append_drop, hx]
    have hq' : (e ++ st.out) ++ q.drop st.out.length = p ++ r := by
      obtain ⟨s, rfl⟩ := hout
      rw [List.drop_left, List.append_assoc, hq]
    refine ⟨st, hst, hk, hout, adv.progress, adv.hint_le, ?_⟩
    by_cases hret : st.ret = 0
    · obtain ⟨hc, he⟩ := adv.ret_eq_zero.mp hret
      rw [hc] at hx'
      rw [he] at hq'
      have hrest : Concat Frame (x.drop st.consumed) (q.drop st.out.length) := by
        rw [List.append_cancel_left hx', List.append_cancel_left hq']
        exact hy
      exact ⟨expects_of_concat law (.done hat hst hret) hrest, fun _ => hrest⟩
    · have hne : c ++ inp.take st.consumed ≠ f := fun hc =>
        hret (adv.ret_eq_zero.mpr ⟨hc, adv.held hc⟩)
      have hlt' : (c ++ inp.take st.consumed).length < f.length :=
        lt_of_le_of_ne adv.input.length_le fun hl => hne (adv.input.eq_of_length hl)
      exact ⟨.inside (.more hat hst hret) hf hlt' hy hx' hq', fun h0 => absurd h0 hret⟩

end Decoder

/-! ### Compression -/

/-- The result of one compression call. -/
structure CStep (C α : Type*) where
  /-- The encoder afterwards. -/
  state : C
  /-- How much of the input was accepted. -/
  consumed : ℕ
  /-- What was put out. -/
  out : List α

/-- The result of a flush. -/
structure FStep (C α : Type*) where
  /-- The encoder afterwards. -/
  state : C
  /-- What was put out. -/
  out : List α
  /-- How much is still to be flushed. -/
  remaining : ℕ

/-- A streaming compressor; every call but `create` is given the room there is
for output. -/
structure Encoder (C α β : Type*) where
  /-- A compressor at the beginning of a frame, for a compression level. -/
  create : ℤ → Option C
  /-- One call on unread input; `none` is an error. -/
  compress : C → List β → ℕ → Option (CStep C α)
  /-- Put out what is held back; `none` is an error. -/
  flush : C → ℕ → Option (FStep C α)
  /-- Put out what is held back and close the frame; the second component is how
  much is still to be flushed. -/
  finish : C → ℕ → List α × ℕ
  /-- The recommended size of an output buffer. -/
  outSize : ℕ

namespace Encoder

variable {C : Type*} (enc : Encoder C α β)

/-- `enc.At c a e`: the compressor `c` has accepted `a` since it was created and
put out `e`. -/
inductive At : C → List β → List α → Prop
  | create {lvl c} : enc.create lvl = some c → At c [] []
  | compress {c a e inp cap st} : At c a e → enc.compress c inp cap = some st →
      At st.state (a ++ inp.take st.consumed) (e ++ st.out)
  | flush {c a e cap st} : At c a e → enc.flush c cap = some st → At st.state a (e ++ st.out)

/-- The promises of a streaming compressor, given output buffers of the
recommended size. -/
structure Lawful (Frame : List α → List β → Prop) : Prop where
  create : ∀ lvl, 1 ≤ lvl → lvl ≤ 19 → ∃ c, enc.create lvl = some c
  compress : ∀ {c a e}, enc.At c a e → ∀ inp, inp ≠ [] →
    ∃ st, enc.compress c inp enc.outSize = some st ∧ 0 < st.consumed ∧
      st.consumed ≤ inp.length ∧ st.out.length ≤ enc.outSize
  flush : ∀ {c a e}, enc.At c a e →
    ∃ st, enc.flush c enc.outSize = some st ∧ st.remaining = 0 ∧ st.out.length ≤ enc.outSize
  finish : ∀ {c a e}, enc.At c a e →
    ∃ out, enc.finish c enc.outSize = (out, 0) ∧ out.length ≤ enc.outSize ∧ Frame (e ++ out) a

/-! #### What a compressor holds back -/

/-- Calls that feed `input` to the compressor `c₀`, up to `rest`, and what they put out. -/
inductive Fed (c₀ : C) (input : List β) : C → List β → List α → Prop
  | start : Fed c₀ input c₀ input []
  | compress {c rest out st} : Fed c₀ input c rest out → rest ≠ [] →
      enc.compress c rest enc.outSize = some st →
      Fed c₀ input st.state (rest.drop st.consumed) (out ++ st.out)

/-- The compressor is between two inputs. -/
inductive Between : C → Prop
  | create {lvl c} : enc.create lvl = some c → Between c
  | fed {c₀ input c out} : Between c₀ → enc.Fed c₀ input c [] out → Between c
  | flush {c st} : Between c → enc.flush c enc.outSize = some st → Between st.state

/-- `held c` is how many of the elements that were accepted last are not put out yet.  A call
that puts something out leaves at most elements of the input that it belongs to, and a flush
leaves none. -/
structure Buffers (held : C → ℕ) : Prop where
  create : ∀ {lvl c}, enc.create lvl = some c → held c = 0
  compress : ∀ {c₀ input c rest out st}, enc.Between c₀ → enc.Fed c₀ input c rest out →
    rest ≠ [] → enc.compress c rest enc.outSize = some st →
    held st.state ≤ held c + (rest.take st.consumed).length
  spontaneous : ∀ {c₀ input c rest out st}, enc.Between c₀ → enc.Fed c₀ input c rest out →
    rest ≠ [] → enc.compress c rest enc.outSize = some st → st.out ≠ [] →
    held st.state ≤ input.length - (rest.drop st.consumed).length
  flush : ∀ {c st}, enc.Between c → enc.flush c enc.outSize = some st → held st.state = 0

variable {enc}

/-- What was fed was accepted. -/
theorem Fed.at {c₀ c : C} {input rest a : List β} {out e : List α} (hat : enc.At c₀ a e)
    (h : enc.Fed c₀ input c rest out) :
    ∃ taken, input = taken ++ rest ∧ enc.At c (a ++ taken) (e ++ out) := by
  induction h with
  | start => exact ⟨[], rfl, by simpa using hat⟩
  | @compress c rest out st _ _ hst ih =>
    obtain ⟨taken, hinput, hat'⟩ := ih
    refine ⟨taken ++ rest.take st.consumed, ?_, ?_⟩
    · rw [List.append_assoc, List.take_append_drop, hinput]
    · rw [← List.append_assoc, ← List.append_assoc]
      exact .compress hat' hst

/-- **What is held back while an input is fed**: at most what was held back and what was
accepted since, and only the latter once something was put out. -/
theorem Buffers.fed {held : C → ℕ} (hb : enc.Buffers held) {c₀ c : C} {input rest : List β}
    {out : List α} (hc₀ : enc.Between c₀) (h : enc.Fed c₀ input c rest out) :
    rest.length ≤ input.length ∧ held c ≤ held c₀ + (input.length - rest.length) ∧
      (out ≠ [] → held c ≤ input.length - rest.length) := by
  induction h with
  | start => simp
  | @compress c rest out st hfed hne hst ih =>
    obtain ⟨hle, hheld, hout⟩ := ih
    have hstep := hb.compress hc₀ hfed hne hst
    have hlen : (rest.take st.consumed).length + (rest.drop st.consumed).length = rest.length := by
      rw [← List.length_append, List.take_append_drop]
    refine ⟨by omega, by omega, ?_⟩
    intro hne'
    by_cases hnow : st.out = []
    · have hbefore : out ≠ [] := by simpa [hnow] using hne'
      have := hout hbefore
      omega
    · exact hb.spontaneous hc₀ hfed hne hst hnow

end Encoder

end StreamCodec
