import TtyRec.Lib.Transducer

/-!
# Zstd frames of raw blocks

The smallest part of the zstd format that a compressor can use: a frame header
without checksum or content size, and blocks that are stored as they are, which is
what the compressor does with blocks that do not get smaller.  It has the buffer
sizes and the first hint of the library.  The laws that the library promises are
proved for it, so they can be met, and what the wrappers do can be computed.

## Main definitions

* `RawState`, `rawTransducer`, `rawDecoder` — the decompressor.
* `RawBuffer`, `rawEncoder` — the compressor.

## Main results

* `rawDecoder_lawful`, `rawEncoder_lawful` — both keep the promises, for the same
  frames.
-/

namespace TtyRec

open StreamCodec

/-! ### Decompression -/

/-- The magic number, the frame header descriptor, and the window descriptor of the
default level. -/
def rawHeader : List UInt8 := [0x28, 0xB5, 0x2F, 0xFD, 0x00, 0x58]

/-- The largest block of the format, 128 KiB. -/
def blockMax : ℕ := 131072

/-- Where the decompressor is in a frame: in its header, in the header of a block, in a block, or
behind the last one. -/
inductive RawState where
  | header (k : ℕ)
  | blockHeader (bytes : List UInt8)
  | block (last : Bool) (left : ℕ)
  | done
  deriving DecidableEq, Repr

/-- Where it is with so much of a block left. -/
def inBlock (last : Bool) : ℕ → RawState
  | 0 => if last then .done else .blockHeader []
  | n + 1 => .block last (n + 1)

/-- The 24 bits of a block header: whether it is the last block, its type, and its
size. -/
def startBlock (v : ℕ) : Option RawState :=
  if v / 2 % 4 = 0 ∧ v / 8 ≤ blockMax then some (inBlock (v % 2 = 1) (v / 8)) else none

/-- One byte of a frame. -/
def rawStep : RawState → UInt8 → Option (RawState × Option UInt8)
  | .header k, b =>
    if rawHeader[k]? = some b then
      some (if k = 5 then .blockHeader [] else .header (k + 1), none)
    else none
  | .blockHeader [], b => some (.blockHeader [b], none)
  | .blockHeader [x], b => some (.blockHeader [x, b], none)
  | .blockHeader [x, y], b =>
    (startBlock (x.toNat + 256 * y.toNat + 65536 * b.toNat)).map fun s => (s, none)
  | .blockHeader _, _ => none
  | .block _ 0, _ => none
  | .block last (n + 1), b => some (inBlock last n, some b)
  | .done, _ => none

/-- How much input the decompressor could use next. -/
def rawHint : RawState → ℕ
  | .header 0 => 5
  | .header k => 6 - k + 3
  | .blockHeader bytes => max 1 (3 - bytes.length)
  | .block _ n => min n blockMax + 3
  | .done => 1

def rawTransducer : Transducer RawState UInt8 UInt8 where
  start := .header 0
  step := rawStep
  final s := decide (s = .done)
  hint := rawHint
  start_not_final := rfl
  hint_pos s := by
    cases s with
    | header k => cases k <;> simp [rawHint]
    | blockHeader bytes => simp [rawHint]
    | block last n => simp [rawHint]
    | done => simp [rawHint]

/-- The decompressor, with buffers of the sizes that the library recommends. -/
def rawDecoder : Decoder RawState UInt8 UInt8 := rawTransducer.decoder 131075 131072

theorem rawDecoder_lawful : rawDecoder.Lawful rawTransducer.Frame := by
  refine Transducer.decoder_lawful ?_ (by decide)
  intro s
  cases s with
  | header k => cases k <;> simp only [rawTransducer, rawHint] <;> omega
  | blockHeader bytes => simp only [rawTransducer, rawHint]; omega
  | block last n => simp only [rawTransducer, rawHint, blockMax]; omega
  | done => simp only [rawTransducer, rawHint]; omega

/-! ### Frames -/

/-- A raw block: its header says whether it is the last and how long it is, and the bytes follow. -/
def rawBlock (last : Bool) (bs : List UInt8) : List UInt8 :=
  let v := 8 * bs.length + last.toNat
  [UInt8.ofNat v, UInt8.ofNat (v / 256), UInt8.ofNat (v / 65536)] ++ bs

theorem length_rawBlock (last : Bool) (bs : List UInt8) :
    (rawBlock last bs).length = bs.length + 3 := by
  simp [rawBlock]

theorem steps_rawHeader : rawTransducer.Steps (.header 0) rawHeader (.blockHeader []) [] :=
  .silent rfl rfl (.silent rfl rfl (.silent rfl rfl (.silent rfl rfl (.silent rfl rfl
    (.silent rfl rfl .nil)))))

/-- The bytes of a block are put out as they are. -/
theorem steps_inBlock (last : Bool) (bs : List UInt8) :
    rawTransducer.Steps (inBlock last bs.length) bs (inBlock last 0) bs := by
  induction bs with
  | nil => exact .nil
  | cons b bs ih => exact .put rfl rfl ih

/-- The header of a block says how long it is. -/
theorem startBlock_eq (last : Bool) {n : ℕ} (hn : n ≤ blockMax) :
    startBlock (8 * n + last.toNat) = some (inBlock last n) := by
  have hlast : last.toNat ≤ 1 := Bool.toNat_le last
  have hdiv : (8 * n + last.toNat) / 8 = n := by omega
  have htype : (8 * n + last.toNat) / 2 % 4 = 0 := by omega
  have hmod : (8 * n + last.toNat) % 2 = last.toNat := by omega
  rw [startBlock, hdiv, hmod, if_pos ⟨htype, hn⟩]
  cases last <;> rfl

theorem steps_rawBlock (last : Bool) {bs : List UInt8} (hbs : bs.length ≤ blockMax) :
    rawTransducer.Steps (.blockHeader []) (rawBlock last bs) (inBlock last 0) bs := by
  have hlast : last.toNat ≤ 1 := Bool.toNat_le last
  have hmax : bs.length ≤ 131072 := hbs
  -- three bytes hold the number
  have hv : (UInt8.ofNat (8 * bs.length + last.toNat)).toNat +
      256 * (UInt8.ofNat ((8 * bs.length + last.toNat) / 256)).toNat +
      65536 * (UInt8.ofNat ((8 * bs.length + last.toNat) / 65536)).toNat =
      8 * bs.length + last.toNat := by
    simp only [UInt8.toNat_ofNat']
    omega
  have hstart : rawTransducer.step (.blockHeader [UInt8.ofNat (8 * bs.length + last.toNat),
      UInt8.ofNat ((8 * bs.length + last.toNat) / 256)])
      (UInt8.ofNat ((8 * bs.length + last.toNat) / 65536)) =
      some (inBlock last bs.length, none) := by
    simp only [rawTransducer, rawStep, hv, startBlock_eq last hbs, Option.map_some]
  exact .silent rfl rfl (.silent rfl rfl (.silent rfl hstart (steps_inBlock last bs)))

/-- A frame of one block, for short inputs. -/
def rawFrame (bs : List UInt8) : List UInt8 := rawHeader ++ rawBlock true bs

theorem frame_rawFrame {bs : List UInt8} (hbs : bs.length ≤ blockMax) :
    rawTransducer.Frame (rawFrame bs) bs := by
  have hsteps := steps_rawHeader.append (steps_rawBlock true hbs)
  have hpath := hsteps.path (f := []) (o := []) (.nil rfl)
  rwa [List.append_nil, List.append_nil] at hpath

/-! ### Compression -/

/-- What the compressor keeps: whether the frame header is out, and the beginning of
a block. -/
structure RawBuffer where
  started : Bool
  buf : List UInt8
  buf_lt : buf.length < blockMax

def RawBuffer.empty (started : Bool) : RawBuffer := ⟨started, [], by decide⟩

/-- A block, behind the frame header if that is not out yet. -/
def RawBuffer.emit (c : RawBuffer) (last : Bool) (bs : List UInt8) : List UInt8 :=
  (if c.started then [] else rawHeader) ++ rawBlock last bs

/-- The compressor: it puts a block out when the block is full, when it is flushed,
and at the end. -/
def rawEncoder : Encoder RawBuffer UInt8 UInt8 where
  create _ := some (.empty false)
  compress c inp _ :=
    let n := min (blockMax - c.buf.length) inp.length
    if h : (c.buf ++ inp.take n).length < blockMax then
      some ⟨⟨c.started, c.buf ++ inp.take n, h⟩, n, []⟩
    else some ⟨.empty true, n, c.emit false (c.buf ++ inp.take n)⟩
  flush c _ :=
    if c.buf = [] then some ⟨c, [], 0⟩ else some ⟨.empty true, c.emit false c.buf, 0⟩
  finish c _ := (c.emit true c.buf, 0)
  outSize := 131591

/-- What is out are the header and the blocks before the buffer. -/
def RawBuffer.Holds (c : RawBuffer) (a e : List UInt8) : Prop :=
  ∃ p, a = p ++ c.buf ∧
    if c.started then rawTransducer.Steps (.header 0) e (.blockHeader []) p else e = [] ∧ p = []

/-- A block goes out. -/
theorem RawBuffer.Holds.emit {c : RawBuffer} {a e : List UInt8} (h : c.Holds a e) (last : Bool)
    {bs : List UInt8} (hbs : bs.length ≤ blockMax) (hbuf : c.buf <+: bs) :
    rawTransducer.Steps (.header 0) (e ++ c.emit last bs) (inBlock last 0)
      (a ++ bs.drop c.buf.length) := by
  obtain ⟨p, rfl, hp⟩ := h
  obtain ⟨s, rfl⟩ := hbuf
  rw [List.drop_left, List.append_assoc]
  unfold RawBuffer.emit
  cases hs : c.started with
  | true =>
    rw [hs, if_pos rfl] at hp
    rw [if_pos rfl, List.nil_append]
    exact hp.append (steps_rawBlock last hbs)
  | false =>
    rw [hs, if_neg Bool.false_ne_true] at hp
    obtain ⟨rfl, rfl⟩ := hp
    rw [if_neg Bool.false_ne_true, List.nil_append]
    exact steps_rawHeader.append (steps_rawBlock last hbs)

theorem RawBuffer.length_emit_le (c : RawBuffer) (last : Bool) {bs : List UInt8}
    (hbs : bs.length ≤ blockMax) : (c.emit last bs).length ≤ rawEncoder.outSize := by
  have hmax : bs.length ≤ 131072 := hbs
  unfold RawBuffer.emit
  rw [List.length_append, length_rawBlock]
  cases c.started with
  | true =>
    simp only [rawEncoder, if_true, List.length_nil]
    omega
  | false =>
    simp only [rawEncoder, Bool.false_eq_true, if_false, rawHeader, List.length_cons,
      List.length_nil]
    omega

/-- The history of the compressor is what it holds.  Input is buffered up to a block, and a block or
a flush gives out everything that is in the buffer. -/
theorem holds_of_at {c : RawBuffer} {a e : List UInt8} (h : rawEncoder.At c a e) :
    c.Holds a e := by
  induction h with
  | create hc =>
    cases hc
    exact ⟨[], rfl, rfl, rfl⟩
  | @compress c a e inp cap st _ hst ih =>
    simp only [rawEncoder] at hst
    have hlt := c.buf_lt
    split at hst
    next hlen =>
      cases hst
      obtain ⟨p, rfl, hp⟩ := ih
      exact ⟨p, by rw [List.append_assoc], by simpa using hp⟩
    next hlen =>
      cases hst
      -- the buffer is filled to a block at most
      have hbs : (c.buf ++ inp.take (min (blockMax - c.buf.length) inp.length)).length ≤
          blockMax := by
        rw [List.length_append, List.length_take]
        omega
      have hsteps := ih.emit false hbs (List.prefix_append _ _)
      rw [List.drop_left] at hsteps
      exact ⟨_, (List.append_nil _).symm, hsteps⟩
  | @flush c a e cap st _ hst ih =>
    simp only [rawEncoder] at hst
    split at hst
    · cases hst
      simpa using ih
    · cases hst
      have hsteps := ih.emit false c.buf_lt.le List.prefix_rfl
      rw [List.drop_length, List.append_nil] at hsteps
      exact ⟨_, (List.append_nil _).symm, hsteps⟩

theorem rawEncoder_lawful : rawEncoder.Lawful rawTransducer.Frame where
  create _ _ _ := ⟨_, rfl⟩
  compress := by
    intro c a e _ inp hinp
    have hlt := c.buf_lt
    have hpos : 0 < inp.length := List.length_pos_iff.mpr hinp
    simp only [rawEncoder]
    split
    · exact ⟨_, rfl, by dsimp only; omega, min_le_right _ _, Nat.zero_le _⟩
    · refine ⟨_, rfl, by dsimp only; omega, min_le_right _ _, ?_⟩
      apply c.length_emit_le false
      rw [List.length_append, List.length_take]
      omega
  flush := by
    intro c a e _
    simp only [rawEncoder]
    split
    · exact ⟨_, rfl, rfl, Nat.zero_le _⟩
    · exact ⟨_, rfl, rfl, c.length_emit_le false c.buf_lt.le⟩
  finish := by
    intro c a e hat
    refine ⟨_, rfl, c.length_emit_le true c.buf_lt.le, ?_⟩
    have hsteps := (holds_of_at hat).emit true c.buf_lt.le List.prefix_rfl
    rw [List.drop_length, List.append_nil] at hsteps
    have hpath := hsteps.path (f := []) (o := []) (.nil rfl)
    rwa [List.append_nil, List.append_nil] at hpath

end TtyRec
