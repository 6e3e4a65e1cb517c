import TtyRec.Player

/-!
# The length of a recording

`calc_time` of ttytime goes from header to header and seeks over the payloads, while the
player reads them.  A seek may go beyond the end of the file, and `calc_time` rejects only
negative lengths, so it may find headers behind the last record that the player plays.

`headers` are the headers that it finds, as a function of the bytes of the file:
`headers_eq` says that they are those of the records played, followed by those that it
finds in what is left over.

## Main definitions

* `calcTime` — the function.
* `headers`, `span` — the headers that can be found without the payloads, and the seconds
  between the first and the last.
* `SameSpan` — what is left over does not change the result.
* `calcTimeSeeks` — the function where seeks may fail, with the offsets of its iterations.

## Main results

* `calcTime_ofBytes` — what `calc_time` returns for any file.
* `calcTime_eq_span_iff` — **when this is the span of the records that the player plays.**
* `calcTimeSeeks_ends` — **it ends for every file**, after at most one iteration for every 12
  bytes and one more.
-/

namespace TtyRec

/-! ### The function -/

/-- `fseek(fp, off, SEEK_CUR)`, which may go beyond the end of the file. -/
def fseek (off : ℤ) (fp : InFile) : InFile :=
  if fp.seekable then { fp with pos := (fp.pos + off).toNat } else fp

/-- A difference of times as an `int`, which keeps its lowest 32 bits. -/
def castInt (d : ℤ) : ℤ := (BitVec.ofInt 32 d).toInt

/-- The loop of `calc_time`, with at most so many iterations: the last header. -/
def calcLoop (host : Host) : ℕ → Header → InFile → Outcome Header
  | 0, _, _ => .spin
  | n + 1, last, fp => do
    let (h, st) ← readHeader host freadNone (fp, ())
    match h with
    | none => return last
    | some h => if h.len < 0 then return last else calcLoop host n h (fseek h.len st.1)

/-- `calc_time`, on the stream that it opens. -/
def calcTime (host : Host) (n : ℕ) (fp : InFile) : Outcome ℤ := do
  let (h, st) ← readHeader host freadNone (fp, ())
  match h with
  | none => return 0
  | some start =>
    if start.len < 0 then return 0
    else
      let last ← calcLoop host n start (fseek start.len st.1)
      return castInt (last.tv.tvSec - start.tv.tvSec)

/-! ### The headers of a file -/

/-- The headers that are found by going over each payload, whether it is there or not. -/
def headers (bs : List UInt8) : List Header :=
  if bs.length < 12 then []
  else
    let h := decodeHeader .little (bs.take 12)
    if h.len < 0 then [] else h :: headers ((bs.drop 12).drop h.len.toNat)
termination_by bs.length
decreasing_by
  simp only [List.length_drop]
  omega

theorem headers_of_length_lt {bs : List UInt8} (h : bs.length < 12) : headers bs = [] := by
  rw [headers, if_pos h]

theorem headers_of_neg {bs : List UInt8} (hneg : (decodeHeader .little (bs.take 12)).len < 0) :
    headers bs = [] := by
  rw [headers]
  dsimp only
  rw [if_pos hneg, ite_self]

theorem headers_of_nonneg {bs : List UInt8} {h : Header} (h12 : 12 ≤ bs.length)
    (hh : decodeHeader .little (bs.take 12) = h) (hlen : 0 ≤ h.len) :
    headers bs = h :: headers ((bs.drop 12).drop h.len.toNat) := by
  rw [headers, if_neg (not_lt.mpr h12)]
  dsimp only
  rw [hh, if_neg (not_lt.mpr hlen)]

/-- The seconds from the first header to the last. -/
def span (hs : List Header) : ℤ :=
  match hs.head?, hs.getLast? with
  | some first, some last => last.tv.tvSec - first.tv.tvSec
  | _, _ => 0

theorem span_cons (h : Header) (hs : List Header) :
    span (h :: hs) = (hs.getLast?.getD h).tv.tvSec - h.tv.tvSec := by
  rw [span, List.head?_cons, List.getLast?_cons]

/-! ### What `calc_time` returns -/

/-- A seek within or beyond the file. -/
theorem InFile.At.fseek {fp : InFile} {rest : List UInt8} (h : fp.At rest)
    (hseek : fp.seekable = true) {off : ℤ} (hoff : 0 ≤ off) :
    (TtyRec.fseek off fp).At (rest.drop off.toNat) ∧ (TtyRec.fseek off fp).seekable = true := by
  rw [TtyRec.fseek, if_pos hseek]
  have hpos : (fp.pos + off).toNat = fp.pos + off.toNat := by omega
  refine ⟨⟨?_, h.visible⟩, hseek⟩
  rw [← h.rest_eq, List.drop_drop, ← hpos]

/-- A header that is there is read. -/
theorem readHeader_of_le (host : Host) {fp : InFile} {rest : List UInt8} (hat : fp.At rest)
    (hseek : fp.seekable = true) (h12 : 12 ≤ rest.length) :
    ∃ fp', readHeader host freadNone (fp, ()) =
        .ret (some (decodeHeader .little (rest.take 12)), (fp', ())) ∧
      fp'.At (rest.drop 12) ∧ fp'.seekable = true := by
  have hsplit : rest.take 12 ++ rest.drop 12 = rest := List.take_append_drop 12 rest
  have htake : (rest.take 12).length = 12 := by
    rw [List.length_take]
    omega
  obtain ⟨fp', hread, hat'⟩ := readHeader_freadNone host htake (hsplit ▸ hat) ()
  rw [decodeHeader_host] at hread
  refine ⟨fp', hread, hat', ?_⟩
  have hfp : (fread 4 3 fp).2 = fp' := by
    simp only [readHeader, freadNone, Outcome.ret_bind] at hread
    split at hread
    · cases hread
    · rw [Outcome.pure_eq, Outcome.ret.injEq, Prod.mk.injEq, Prod.mk.injEq] at hread
      exact hread.2.1
  rw [← hfp]
  exact hseek

/-- A header that is not there in full is not. -/
theorem readHeader_of_lt (host : Host) {fp : InFile} {rest : List UInt8} (hat : fp.At rest)
    (h12 : rest.length < 12) :
    ∃ st, readHeader host freadNone (fp, ()) = .ret (none, st) := by
  have hat₀ : (fp, ()).1.At rest := hat
  obtain ⟨n, bs, st, hread, hne⟩ := serves_freadNone.short 4 3 hat₀ (by decide) (by decide) h12
  refine ⟨st, ?_⟩
  simp only [readHeader, hread, Outcome.ret_bind, ne_eq, hne, not_false_eq_true, if_true,
    Outcome.pure_eq]

/-- **The loop** finds the last of the headers, whether or not its payload is there. -/
theorem calcLoop_spec (host : Host) : ∀ {n : ℕ} {fp : InFile} {rest : List UInt8} (last : Header),
    fp.At rest → fp.seekable = true → rest.length < n →
      calcLoop host n last fp = .ret ((headers rest).getLast?.getD last) := by
  intro n
  induction n with
  | zero => intro fp rest last _ _ hn; omega
  | succ n ih =>
    intro fp rest last hat hseek hn
    rw [calcLoop]
    by_cases h12 : rest.length < 12
    · obtain ⟨st, hread⟩ := readHeader_of_lt host hat h12
      rw [hread, headers_of_length_lt h12]
      rfl
    · rw [not_lt] at h12
      obtain ⟨fp', hread, hat', hseek'⟩ := readHeader_of_le host hat hseek h12
      rw [hread]
      simp only [Outcome.ret_bind]
      by_cases hneg : (decodeHeader .little (rest.take 12)).len < 0
      · rw [if_pos hneg, headers_of_neg hneg]
        rfl
      · rw [if_neg hneg]
        rw [not_lt] at hneg
        obtain ⟨hat'', hseek''⟩ := hat'.fseek hseek' hneg
        have hlen : ((rest.drop 12).drop (decodeHeader .little (rest.take 12)).len.toNat).length <
            n := by
          rw [List.length_drop, List.length_drop]
          omega
        rw [ih _ hat'' hseek'' hlen, headers_of_nonneg h12 rfl hneg, List.getLast?_cons,
          Option.getD_some]

/-- **What `calc_time` returns**, as a function of the bytes of the file: the time from the first
header to the last, as an `int`. -/
theorem calcTime_ofBytes (host : Host) {x : List UInt8} {n : ℕ} (hn : x.length < n) :
    calcTime host n (InFile.ofBytes x) = .ret (castInt (span (headers x))) := by
  have hat := InFile.at_ofBytes x
  have hzero : castInt (span []) = 0 := rfl
  rw [calcTime]
  by_cases h12 : x.length < 12
  · obtain ⟨st, hread⟩ := readHeader_of_lt host hat h12
    rw [hread, headers_of_length_lt h12, hzero]
    rfl
  · rw [not_lt] at h12
    obtain ⟨fp', hread, hat', hseek'⟩ := readHeader_of_le host hat rfl h12
    rw [hread]
    simp only [Outcome.ret_bind]
    by_cases hneg : (decodeHeader .little (x.take 12)).len < 0
    · rw [if_pos hneg, headers_of_neg hneg, hzero]
      rfl
    · rw [if_neg hneg]
      rw [not_lt] at hneg
      obtain ⟨hat'', hseek''⟩ := hat'.fseek hseek' hneg
      have hlen : ((x.drop 12).drop (decodeHeader .little (x.take 12)).len.toNat).length < n := by
        rw [List.length_drop, List.length_drop]
        omega
      rw [calcLoop_spec host _ hat'' hseek'' hlen, Outcome.ret_bind,
        headers_of_nonneg h12 rfl hneg, span_cons]
      rfl

/-! ### The records that are played -/

/-- The record at the head of a byte string begins with the first header. -/
theorem headers_of_next_some {bs rest : List UInt8} {r : Record}
    (h : nextRecord bs = some (r, rest)) : headers bs = r.hdr :: headers rest := by
  obtain ⟨h12, hh, hpos, -, -, -, hr⟩ := nextRecord_eq_some.mp h
  rw [headers_of_nonneg h12 hh.symm hpos.le, hr]

/-- **The headers of a file** are those of its records, and those that are found in what is
left over. -/
theorem headers_eq (x : List UInt8) :
    headers x = (records x).map Record.hdr ++ headers (leftover x) := by
  induction x using recordFraming.induction with
  | none x h =>
    rw [records_of_next_none h, leftover, Framing.parse_of_next_none h]
    rfl
  | some x r rest h ih =>
    have hleft : leftover x = leftover rest := by
      rw [leftover, Framing.parse_of_next_some h]
      rfl
    rw [headers_of_next_some h, records_of_next_some h, hleft, ih]
    rfl

theorem records_length_le (x : List UInt8) : (records x).length ≤ x.length := by
  induction x using recordFraming.induction with
  | none x h => simp [records_of_next_none h]
  | some x r rest h ih =>
    have hlt : rest.length < x.length := recordFraming.next_length h
    rw [records_of_next_some h, List.length_cons]
    omega

/-- When the result is the span of the records: it fits an `int`, and the headers in what is
left over, if there are any, end in the second of the last record, or of the first of them
when there is no record, but for multiples of `2 ^ 32`. -/
structure SameSpan (x : List UInt8) : Prop where
  fits : -2 ^ 31 ≤ span ((records x).map Record.hdr) ∧ span ((records x).map Record.hdr) < 2 ^ 31
  beyond : ∀ last ∈ (headers (leftover x)).getLast?,
    ∀ h ∈ ((records x).map Record.hdr).getLast?.or (headers (leftover x)).head?,
      last.tv.tvSec ≡ h.tv.tvSec [ZMOD 2 ^ 32]

theorem castInt_eq_iff (d e : ℤ) :
    castInt d = e ↔ (-2 ^ 31 ≤ e ∧ e < 2 ^ 31) ∧ d ≡ e [ZMOD 2 ^ 32] := by
  rw [castInt, BitVec.toInt_ofInt, Int.bmod_def, Int.ModEq]
  norm_num
  split <;> omega

/-- Headers that follow `hs` change the span by the seconds from the last of `hs`. -/
theorem span_append_modEq_iff (hs es : List Header) :
    span (hs ++ es) ≡ span hs [ZMOD 2 ^ 32] ↔
      ∀ last ∈ es.getLast?, ∀ h ∈ hs.getLast?.or es.head?,
        last.tv.tvSec ≡ h.tv.tvSec [ZMOD 2 ^ 32] := by
  cases hs with
  | nil =>
    cases es with
    | nil => simp [span]
    | cons e es =>
      rw [List.nil_append, span_cons]
      simp only [List.getLast?_cons, Option.mem_some_iff, forall_eq', List.getLast?_nil,
        Option.none_or, List.head?_cons, span, List.head?_nil, Int.ModEq]
      omega
  | cons a hs =>
    cases es with
    | nil => simp
    | cons e es =>
      rw [List.cons_append, span_cons, span_cons]
      simp only [List.getLast?_append, List.getLast?_cons, Option.mem_some_iff, forall_eq',
        Option.some_or, Option.getD_some, Int.ModEq]
      omega

/-- **ttytime and ttyplay agree** on a file exactly when its records span few enough seconds,
and what is left over holds no header of another second. -/
theorem calcTime_eq_span_iff (host : Host)
    (waitFunc : Timeval → Timeval → List (List UInt8) → List (List UInt8)) {x : List UInt8} {n : ℕ}
    (hn : x.length < n) :
    calcTime host n (InFile.ofBytes x) = .ret (span ((ttyplayback host freadNone (fun _ => true)
        waitFunc n (InFile.ofBytes x, ())).records.map Record.hdr)) ↔ SameSpan x := by
  have hat : (InFile.ofBytes x, ()).1.At x := InFile.at_ofBytes x
  have hplay := (ttyplayback_serves host serves_freadNone hat waitFunc
    ((records_length_le x).trans_lt hn)).1
  rw [hplay, calcTime_ofBytes host hn, Outcome.ret.injEq, castInt_eq_iff, headers_eq,
    span_append_modEq_iff]
  constructor
  · rintro ⟨hfits, hbeyond⟩
    exact ⟨hfits, hbeyond⟩
  · rintro ⟨hfits, hbeyond⟩
    exact ⟨hfits, hbeyond⟩

/-- A record of one byte, which is enough to see the time stamps. -/
def tick (sec : ℤ) : Record := ⟨⟨⟨sec, 0⟩, 1⟩, [65]⟩

theorem tick_valid {sec : ℤ} (h0 : 0 ≤ sec) (h : sec < 2 ^ 44) : (tick sec).Valid where
  fits := by constructor <;> simp only [tick] <;> omega
  len_eq := rfl
  len_pos := le_rfl
  len_le := by
    simp only [tick, maxRecordLen]
    norm_num

/-- Two whole records, almost as far apart as an `int` can say, and two bytes behind them. -/
theorem calcTime_eq_span_iff_whole :
    calcTime .big 40 (InFile.ofBytes ([tick 5, tick (2 ^ 31)].flatMap Record.encode ++ [1, 2])) =
      .ret (span ((ttyplayback .big freadNone (fun _ => true) (fun _ _ out => out) 40
        (InFile.ofBytes ([tick 5, tick (2 ^ 31)].flatMap Record.encode ++ [1, 2]),
          ())).records.map Record.hdr)) := by
  have hvalid : ∀ r ∈ [tick 5, tick (2 ^ 31)], r.Valid := by
    intro r hr
    simp only [List.mem_cons, List.not_mem_nil, or_false] at hr
    rcases hr with rfl | rfl
    · exact tick_valid (by norm_num) (by norm_num)
    · exact tick_valid (by norm_num) (by norm_num)
  have hnext : nextRecord [1, 2] = none := rfl
  have hrecords := records_flatMap_encode hvalid [1, 2]
  rw [records_of_next_none hnext, List.append_nil] at hrecords
  have hleft : headers (leftover ([tick 5, tick (2 ^ 31)].flatMap Record.encode ++ [1, 2])) = [] := by
    rw [leftover_flatMap_encode hvalid hnext]
    exact headers_of_length_lt (by decide)
  refine (calcTime_eq_span_iff .big (fun _ _ out => out) (by decide)).mpr ⟨?_, ?_⟩
  · rw [hrecords]
    decide
  · intro last hlast
    rw [hleft] at hlast
    cases hlast

/-- A record that is cut behind its header counts, but is not played. -/
theorem calcTime_cut :
    ¬ ∀ (host : Host) (waitFunc : Timeval → Timeval → List (List UInt8) → List (List UInt8))
      (x : List UInt8) (n : ℕ), x.length < n →
      calcTime host n (InFile.ofBytes x) = .ret (span ((ttyplayback host freadNone (fun _ => true)
        waitFunc n (InFile.ofBytes x, ())).records.map Record.hdr)) := by
  intro h
  have hcut := h .little (fun _ _ out => out) ((tick 0).encode ++ headerBytes .little (tick 10).hdr) 30
    (by decide)
  exact absurd hcut (by decide +kernel)

/-! ### Termination -/

/-- `fseek(fp, off, SEEK_CUR)`, which may fail and leave the stream where it is. -/
def fseekOr (moves : Bool) (off : ℤ) (fp : InFile) : InFile := if moves then fseek off fp else fp

/-- The loop of `calc_time`, given which seeks succeed: the last header, and the offsets at which
the iterations begin. -/
def calcLoopSeeks (host : Host) : List Bool → Header → InFile → Outcome (Header × List ℕ)
  | [], _, _ => .spin
  | m :: ms, last, fp => do
    let (h, st) ← readHeader host freadNone (fp, ())
    match h with
    | none => return (last, [fp.pos])
    | some h =>
      if h.len < 0 then return (last, [fp.pos])
      else
        let (last, offsets) ← calcLoopSeeks host ms h (fseekOr m h.len st.1)
        return (last, fp.pos :: offsets)

/-- `calc_time`, given which seeks succeed: what it returns, and the offsets at which the
iterations of its loop begin. -/
def calcTimeSeeks (host : Host) (m : Bool) (ms : List Bool) (fp : InFile) :
    Outcome (ℤ × List ℕ) := do
  let (h, st) ← readHeader host freadNone (fp, ())
  match h with
  | none => return (0, [])
  | some start =>
    if start.len < 0 then return (0, [])
    else
      let (last, offsets) ← calcLoopSeeks host ms start (fseekOr m start.len st.1)
      return (castInt (last.tv.tvSec - start.tv.tvSec), offsets)

/-- Where every seek succeeds, this is the loop. -/
theorem calcLoop_eq_seeks (host : Host) (n : ℕ) (last : Header) (fp : InFile) :
    calcLoop host n last fp = do
      let r ← calcLoopSeeks host (List.replicate n true) last fp
      return r.1 := by
  induction n generalizing last fp with
  | zero => rfl
  | succ n ih =>
    rw [List.replicate_succ, calcLoop, calcLoopSeeks]
    rcases readHeader host freadNone (fp, ()) with ⟨_ | h, st⟩ | status | _
    · rfl
    · simp only [Outcome.ret_bind]
      split
      · rfl
      · rw [ih]
        unfold fseekOr
        rw [if_pos rfl]
        rcases calcLoopSeeks host (List.replicate n true) h (fseek h.len st.1) with r | status | _
        · rfl
        · rfl
        · rfl
    · rfl
    · rfl

theorem calcTime_eq_seeks (host : Host) (n : ℕ) (fp : InFile) :
    calcTime host n fp = do
      let r ← calcTimeSeeks host true (List.replicate n true) fp
      return r.1 := by
  rw [calcTime, calcTimeSeeks]
  rcases readHeader host freadNone (fp, ()) with ⟨_ | start, st⟩ | status | _
  · rfl
  · simp only [Outcome.ret_bind]
    split
    · rfl
    · rw [calcLoop_eq_seeks]
      unfold fseekOr
      rw [if_pos rfl]
      rcases calcLoopSeeks host (List.replicate n true) start (fseek start.len st.1) with
        r | status | _
      · rfl
      · rfl
      · rfl
  · rfl
  · rfl

/-- Reading a header returns; one that is there takes 12 bytes of the file. -/
theorem readHeader_pos (host : Host) (fp : InFile) :
    ∃ h fp', readHeader host freadNone (fp, ()) = .ret (h, (fp', ())) ∧
      (h ≠ none → fp'.data = fp.data ∧ fp'.pos = fp.pos + 12 ∧ fp.pos + 12 ≤ fp.data.length) := by
  have hgot : (fread 4 3 fp).1.2.length ≤ fp.data.length - fp.pos := by
    have hle := fp.unread_prefix.length_le
    rw [List.length_drop] at hle
    exact (List.length_take_le' _ _).trans hle
  have hmax : (fread 4 3 fp).1.2.length ≤ 12 := List.length_take_le _ _
  have hcount : (fread 4 3 fp).1.1 = (fread 4 3 fp).1.2.length / 4 := rfl
  have hpos : (fread 4 3 fp).2.pos = fp.pos + (fread 4 3 fp).1.2.length := rfl
  simp only [readHeader, freadNone, Outcome.ret_bind]
  split
  · exact ⟨none, _, rfl, fun h => absurd rfl h⟩
  · refine ⟨some _, _, rfl, fun _ => ⟨rfl, ?_, ?_⟩⟩ <;> omega

/-- A seek over a payload leaves the file alone, and does not go back. -/
theorem fseekOr_pos (m : Bool) {off : ℤ} (hoff : 0 ≤ off) (fp : InFile) :
    (fseekOr m off fp).data = fp.data ∧ fp.pos ≤ (fseekOr m off fp).pos := by
  unfold fseekOr fseek
  split
  · split
    · refine ⟨rfl, ?_⟩
      dsimp only
      omega
    · exact ⟨rfl, le_rfl⟩
  · exact ⟨rfl, le_rfl⟩

/-- **The iterations**: they begin at growing offsets, and every one but the last takes a header
of the file. -/
theorem calcLoopSeeks_spec (host : Host) : ∀ {ms : List Bool} (last : Header) {fp : InFile},
    (fp.data.length - fp.pos) / 12 < ms.length →
      ∃ last' offsets, calcLoopSeeks host ms last fp = .ret (last', offsets) ∧
        offsets.length ≤ (fp.data.length - fp.pos) / 12 + 1 ∧
        (∀ p ∈ offsets, fp.pos ≤ p) ∧ offsets.Pairwise (· < ·) := by
  intro ms
  induction ms with
  | nil => intro last fp hms; exact absurd hms (Nat.not_lt_zero _)
  | cons m ms ih =>
    intro last fp hms
    have hlast : ([fp.pos] : List ℕ).length ≤ (fp.data.length - fp.pos) / 12 + 1 ∧
        (∀ p ∈ [fp.pos], fp.pos ≤ p) ∧ [fp.pos].Pairwise (· < ·) := by simp
    obtain ⟨h, fp', hread, hpos⟩ := readHeader_pos host fp
    rw [calcLoopSeeks, hread]
    simp only [Outcome.ret_bind]
    cases h with
    | none => exact ⟨last, [fp.pos], rfl, hlast⟩
    | some h =>
      dsimp only
      split
      · exact ⟨last, [fp.pos], rfl, hlast⟩
      next hneg =>
        obtain ⟨hdata, hpos', hle⟩ := hpos (Option.some_ne_none h)
        obtain ⟨hdata', hseek⟩ := fseekOr_pos m (not_lt.mp hneg) fp'
        rw [hdata] at hdata'
        -- what is left is smaller by a header at least
        have hms' : ((fseekOr m h.len fp').data.length - (fseekOr m h.len fp').pos) / 12 <
            ms.length := by
          rw [List.length_cons] at hms
          rw [hdata']
          omega
        obtain ⟨last', offsets, hloop, hlen, hge, hsorted⟩ := ih h hms'
        rw [hdata'] at hlen
        refine ⟨last', fp.pos :: offsets, by rw [hloop]; rfl, ?_, ?_, ?_⟩
        · rw [List.length_cons]
          omega
        · intro p hp
          rcases List.mem_cons.mp hp with rfl | hp
          · exact le_rfl
          · have := hge p hp
            omega
        · refine List.pairwise_cons.mpr ⟨?_, hsorted⟩
          intro p hp
          have := hge p hp
          omega

/-- **`calc_time` ends** for every file, whichever seeks fail: after at most one iteration for
every 12 bytes and one more, and each iteration begins behind the one before it. -/
theorem calcTimeSeeks_ends (host : Host) (fp : InFile) (m : Bool) {ms : List Bool}
    (hms : fp.data.length / 12 + 1 ≤ ms.length) :
    ∃ d offsets, calcTimeSeeks host m ms fp = .ret (d, offsets) ∧
      offsets.length ≤ fp.data.length / 12 + 1 ∧ offsets.Pairwise (· < ·) := by
  obtain ⟨h, fp', hread, hpos⟩ := readHeader_pos host fp
  rw [calcTimeSeeks, hread]
  simp only [Outcome.ret_bind]
  cases h with
  | none => exact ⟨0, [], rfl, Nat.zero_le _, List.Pairwise.nil⟩
  | some start =>
    dsimp only
    split
    · exact ⟨0, [], rfl, Nat.zero_le _, List.Pairwise.nil⟩
    next hneg =>
      have hdata := (fseekOr_pos m (not_lt.mp hneg) fp').1.trans (hpos (Option.some_ne_none _)).1
      have hms' : ((fseekOr m start.len fp').data.length - (fseekOr m start.len fp').pos) / 12 <
          ms.length := by
        rw [hdata]
        omega
      obtain ⟨last, offsets, hloop, hlen, -, hsorted⟩ := calcLoopSeeks_spec host start hms'
      rw [hdata] at hlen
      refine ⟨_, offsets, by rw [hloop]; rfl, ?_, hsorted⟩
      omega

/-- Three headers, of which two claim payloads of `2 ^ 31 - 1` bytes: the first seek over one of
them fails, the second goes far beyond the end of the file. -/
theorem calcTimeSeeks_ends_failing :
    ∃ d offsets, calcTimeSeeks .little true [false, true, true, true]
        (InFile.ofBytes ([⟨⟨5, 0⟩, 0⟩, ⟨⟨6, 0⟩, 2 ^ 31 - 1⟩, ⟨⟨7, 0⟩, 2 ^ 31 - 1⟩].flatMap
          (headerBytes .little))) = .ret (d, offsets) ∧
      offsets.length ≤ 36 / 12 + 1 ∧ offsets.Pairwise (· < ·) :=
  calcTimeSeeks_ends .little _ true (by decide)

end TtyRec
