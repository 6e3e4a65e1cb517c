import TtyRec.Header
import TtyRec.Lib.Framing

/-!
# Records

A recording is a sequence of records, each a header of 12 bytes followed by as
many bytes of payload as the header says.  This is the abstract side of the
development: what a byte string *means* as a recording, independently of the
loops that write and read it.  `recordFraming` recognises the record at the head
of a byte string, and the general theory of `Framing` does the rest.

## Main definitions

* `Record`, `Record.Valid`, `Record.encode` — a record and its bytes.
* `nextRecord`, `recordFraming` — the record at the head of a byte string.
* `records bs`, `leftover bs` — the records that a byte string begins with, and the rest.

## Main results

* `nextRecord_encode` — a valid record is recognised in front of anything.
* `records_flatMap_encode` — a concatenation of valid records is decoded to these
  records.
* `records_append_leftover`, `prefix_records` — the records of a byte string are the
  longest sequence of valid records that it begins with.
-/

namespace TtyRec

/-- `MAX_RECORD_LEN`. -/
def maxRecordLen : ℤ := 16 * 1024 * 1024

/-- A record: its header and the bytes that follow it. -/
structure Record where
  hdr : Header
  payload : List UInt8
  deriving DecidableEq, Repr

/-- The bytes of a record. -/
def Record.encode (r : Record) : List UInt8 := headerBytes .little r.hdr ++ r.payload

/-- A record that the player accepts: the header fits its format and announces
the payload, which is neither empty nor longer than `MAX_RECORD_LEN`. -/
structure Record.Valid (r : Record) : Prop where
  fits : r.hdr.Fits
  len_eq : r.hdr.len = r.payload.length
  len_pos : 1 ≤ r.hdr.len
  len_le : r.hdr.len ≤ maxRecordLen

/-- The record at the head of a byte string, and what follows it. -/
def nextRecord (bs : List UInt8) : Option (Record × List UInt8) :=
  if bs.length < 12 then none
  else
    let h := decodeHeader .little (bs.take 12)
    if h.len ≤ 0 ∨ maxRecordLen < h.len then none
    else if (bs.drop 12).length < h.len.toNat then none
    else some (⟨h, (bs.drop 12).take h.len.toNat⟩, (bs.drop 12).drop h.len.toNat)

/-- When there is a record at the head of a byte string, and which. -/
theorem nextRecord_eq_some {bs rest : List UInt8} {r : Record} :
    nextRecord bs = some (r, rest) ↔
      12 ≤ bs.length ∧ r.hdr = decodeHeader .little (bs.take 12) ∧ 0 < r.hdr.len ∧
        r.hdr.len ≤ maxRecordLen ∧ r.hdr.len.toNat ≤ (bs.drop 12).length ∧
        r.payload = (bs.drop 12).take r.hdr.len.toNat ∧
        rest = (bs.drop 12).drop r.hdr.len.toNat := by
  obtain ⟨h, payload⟩ := r
  unfold nextRecord
  constructor
  · intro hn
    split at hn
    · cases hn
    next h12 =>
      dsimp only at hn
      split at hn
      · cases hn
      next hlen =>
        split at hn
        · cases hn
        next hpay =>
          rw [Option.some.injEq, Prod.mk.injEq, Record.mk.injEq] at hn
          obtain ⟨⟨rfl, rfl⟩, rfl⟩ := hn
          rw [not_or, not_le, not_lt] at hlen
          exact ⟨by omega, rfl, hlen.1, hlen.2, not_lt.mp hpay, rfl, rfl⟩
  · rintro ⟨h12, hh, hpos, hle, hpay, hp, hr⟩
    simp only at hh hpos hle hpay hp hr
    subst hh hp hr
    rw [if_neg (by omega)]
    dsimp only
    rw [if_neg (by omega), if_neg (by omega)]

/-- The records at the head of a byte string form a framing. -/
def recordFraming : Framing UInt8 Record where
  next := nextRecord
  next_append := by
    intro xs r ys h zs
    obtain ⟨h12, hh, hpos, hle, hpay, hp, hr⟩ := nextRecord_eq_some.mp h
    have htake : (xs ++ zs).take 12 = xs.take 12 := List.take_append_of_le_length h12
    have hdrop : (xs ++ zs).drop 12 = xs.drop 12 ++ zs := List.drop_append_of_le_length h12
    refine nextRecord_eq_some.mpr ⟨?_, ?_, hpos, hle, ?_, ?_, ?_⟩
    · rw [List.length_append]; omega
    · rw [htake, hh]
    · rw [hdrop, List.length_append]; omega
    · rw [hdrop, List.take_append_of_le_length hpay, hp]
    · rw [hdrop, List.drop_append_of_le_length hpay, hr]
  next_length := by
    intro xs r ys h
    obtain ⟨h12, -, -, -, -, -, hr⟩ := nextRecord_eq_some.mp h
    rw [hr, List.length_drop, List.length_drop]
    omega

/-- The records that a byte string begins with. -/
def records (bs : List UInt8) : List Record := (recordFraming.parse bs).1

theorem records_of_next_none {bs : List UInt8} (h : nextRecord bs = none) : records bs = [] := by
  unfold records
  rw [Framing.parse_of_next_none (F := recordFraming) h]

theorem records_of_next_some {bs rest : List UInt8} {r : Record}
    (h : nextRecord bs = some (r, rest)) : records bs = r :: records rest := by
  unfold records
  rw [Framing.parse_of_next_some (F := recordFraming) h]

@[simp] theorem records_nil : records [] = [] := records_of_next_none rfl

/-- A valid record is recognised in front of anything. -/
theorem nextRecord_encode {r : Record} (hr : r.Valid) (zs : List UInt8) :
    nextRecord (r.encode ++ zs) = some (r, zs) := by
  have hlen := length_headerBytes .little r.hdr
  have htake : (r.encode ++ zs).take 12 = headerBytes .little r.hdr := by
    rw [Record.encode, List.append_assoc, List.take_left' hlen]
  have hdrop : (r.encode ++ zs).drop 12 = r.payload ++ zs := by
    rw [Record.encode, List.append_assoc, List.drop_left' hlen]
  have hpay : r.hdr.len.toNat = r.payload.length := by rw [hr.len_eq, Int.toNat_natCast]
  have hpos := hr.len_pos
  refine nextRecord_eq_some.mpr ⟨?_, ?_, ?_, hr.len_le, ?_, ?_, ?_⟩
  · rw [Record.encode, List.length_append, List.length_append, hlen]; omega
  · rw [htake, decodeHeader_headerBytes _ _ hr.fits]
  · omega
  · rw [hdrop, hpay, List.length_append]; omega
  · rw [hdrop, hpay, List.take_left]
  · rw [hdrop, hpay, List.drop_left]

/-- A record that is recognised is valid, and the byte string begins with its bytes. -/
theorem encode_of_nextRecord {bs rest : List UInt8} {r : Record}
    (h : nextRecord bs = some (r, rest)) : r.Valid ∧ bs = r.encode ++ rest := by
  obtain ⟨h12, hh, hpos, hle, hpay, hp, hr⟩ := nextRecord_eq_some.mp h
  have hlen : (r.payload.length : ℤ) = r.hdr.len := by
    rw [hp, List.length_take, min_eq_left hpay, Int.toNat_of_nonneg hpos.le]
  refine ⟨⟨?_, hlen.symm, hpos, hle⟩, ?_⟩
  · rw [hh]
    exact decodeHeader_fits _ _
  · have h12' : (bs.take 12).length = 12 := by simp [h12]
    rw [Record.encode, hh, headerBytes_decodeHeader .little .little h12', hp, hr,
      List.append_assoc, List.take_append_drop, List.take_append_drop]

/-- A record is not recognised before all of it is there. -/
theorem nextRecord_of_prefix {r : Record} (hr : r.Valid) (zs : List UInt8) {bs : List UInt8}
    (hbs : bs <+: r.encode ++ zs) (hlen : bs.length < 12 + r.payload.length) :
    nextRecord bs = none := by
  cases hn : nextRecord bs with
  | none => rfl
  | some q =>
    obtain ⟨r', ys⟩ := q
    have hsame := Framing.eq_of_next_prefix (F := recordFraming) hbs hn (nextRecord_encode hr zs)
    obtain ⟨h12, -, -, -, hpay, -, -⟩ := nextRecord_eq_some.mp hn
    rw [hsame.1, hr.len_eq, Int.toNat_natCast, List.length_drop] at hpay
    omega

/-- **A concatenation of valid records is decoded to these records**, followed by what the rest is
decoded to. -/
theorem records_flatMap_encode {rs : List Record} (hrs : ∀ r ∈ rs, r.Valid) (zs : List UInt8) :
    records (rs.flatMap Record.encode ++ zs) = rs ++ records zs := by
  have h : recordFraming.parse (rs.flatMap Record.encode ++ zs) =
      (rs ++ (recordFraming.parse zs).1, (recordFraming.parse zs).2) :=
    Framing.parse_flatMap_append (fun _ hr zs => nextRecord_encode hr zs) hrs zs
  rw [records, h, records]

/-- What follows the records that a byte string begins with. -/
def leftover (bs : List UInt8) : List UInt8 := (recordFraming.parse bs).2

/-- Behind valid records, the beginning of a record is left over. -/
theorem leftover_flatMap_encode {rs : List Record} (hrs : ∀ r ∈ rs, r.Valid) {zs : List UInt8}
    (hzs : nextRecord zs = none) : leftover (rs.flatMap Record.encode ++ zs) = zs := by
  have h : recordFraming.parse (rs.flatMap Record.encode ++ zs) =
      (rs ++ (recordFraming.parse zs).1, (recordFraming.parse zs).2) :=
    Framing.parse_flatMap_append (fun _ hr zs => nextRecord_encode hr zs) hrs zs
  rw [leftover, h, Framing.parse_of_next_none (F := recordFraming) hzs]

theorem nextRecord_leftover (bs : List UInt8) : nextRecord (leftover bs) = none :=
  Framing.next_leftover (F := recordFraming) bs

/-- The records of a byte string are valid. -/
theorem records_valid (bs : List UInt8) : ∀ r ∈ records bs, r.Valid :=
  Framing.forall_mem_parse (F := recordFraming) (fun h => (encode_of_nextRecord h).1) bs

/-- The records and what is left over make up the byte string. -/
theorem records_append_leftover (bs : List UInt8) :
    (records bs).flatMap Record.encode ++ leftover bs = bs :=
  Framing.flatMap_parse (F := recordFraming) (fun h => (encode_of_nextRecord h).2) bs

/-- **No longer sequence of valid records begins the byte string** than the one that is decoded. -/
theorem prefix_records {rs : List Record} (hrs : ∀ r ∈ rs, r.Valid) {bs : List UInt8}
    (h : rs.flatMap Record.encode <+: bs) : rs <+: records bs := by
  have henc : ∀ r : Record, r.Valid → ∀ zs, recordFraming.next (r.encode ++ zs) = some (r, zs) :=
    fun _ hr zs => nextRecord_encode hr zs
  exact Framing.prefix_parse henc hrs h

/-- A longer beginning of the same byte string has at least the same records. -/
theorem records_mono {xs ys : List UInt8} (h : xs <+: ys) : records xs <+: records ys :=
  Framing.parse_prefix h

end TtyRec
