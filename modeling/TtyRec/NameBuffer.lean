import TtyRec.FileName
import TtyRec.Lib.CString
import Mathlib.Data.UInt

/-!
# The buffer of a name

`set_ttyrec_file_name` builds the name in a buffer of `BUFSIZ` bytes: it writes at most
`BUFSIZ - 4` of them, replaces `#usec#` in place, and appends `.zst` without looking how much
room there is.

## Main definitions

* `NameConfig.CStrings` — what comes from outside are strings of C.
* `nameInBuffer` — the function, with its two buffers; an access beyond one of them is `none`.

## Main results

* `nameInBuffer_eq` — it builds what `setTtyrecFileName` says, inside the buffers.
* `name_inBounds` — **the name and its suffix have room, and of the expansion of a format exactly
  the places of `#usec#` are changed.**
-/

namespace TtyRec

open CString Decimal Replace

/-- The strings from outside have no zero in them. -/
structure NameConfig.CStrings (c : NameConfig) : Prop where
  generated : ∀ dname uuid, c.naming = .generated dname uuid → 0 ∉ dname ∧ 0 ∉ uuid
  format : ∀ namefmt, c.naming = .format namefmt → ∀ sec, 0 ∉ c.strftime namefmt sec

/-- `if (opt_zstd) strcat(*nameptr, ".zst")` -/
def appendSuffix (c : NameConfig) (name : List UInt8) : Option (List UInt8) :=
  if c.zstd = true then strcat [0x2e, 0x7a, 0x73, 0x74] name else some name

/-- `set_ttyrec_file_name`, given what is in `*nameptr` behind `malloc`, and in the array `usec`;
`some none` when it fails because `strftime` does. -/
def nameInBuffer (c : NameConfig) (tv : Timeval) (name usec : List UInt8) :
    Option (Option (List UInt8)) :=
  match c.naming with
  | .generated dname uuid => do
    let name ← snprintf (bufsiz - 4) (stampedPath c dname tv ++ 0x2e :: (uuid ++ ttyrecSuffix)) name
    let name ← appendSuffix c name
    return some name
  | .format namefmt =>
    if FormatFits c namefmt tv then do
      -- `strftime` has room
      let name ← put 0 (c.strftime namefmt tv.tvSec ++ [0]) name
      let name ← put (bufsiz - 5) [0] name
      let usec ← snprintf 7 (padded 6 tv.tvUsec.toNat) usec
      let ptr ← strstr 0 usecMark name
      let name ← substitute usecMark (usec.take 6) bufsiz name ptr
      let name ← appendSuffix c name
      return some name
    else some none

/-! ### Strings without a zero -/

theorem zero_not_mem_padded (w n : ℕ) : 0 ∉ padded w n := by
  intro h
  exact absurd (mem_padded h).1 (by decide)

theorem zero_not_mem_stamp (tm : Calendar.Tm) (usec : ℤ) : 0 ∉ stamp tm usec := by
  simp [stamp, zero_not_mem_padded]

theorem zero_not_mem_path {c : NameConfig} {dname uuid : List UInt8} (hdname : 0 ∉ dname)
    (huuid : 0 ∉ uuid) (tv : Timeval) :
    0 ∉ stampedPath c dname tv ++ 0x2e :: (uuid ++ ttyrecSuffix) := by
  simp [stampedPath, ttyrecSuffix, zero_not_mem_stamp, hdname, huuid]

/-- The digits have nothing in common with `#usec#`. -/
theorem not_mem_usecMark {w n : ℕ} {x : UInt8} (hx : x ∈ padded w n) : x ∉ usecMark := by
  intro hmem
  have hrange := mem_padded hx
  simp only [usecMark, List.mem_cons, List.not_mem_nil, or_false] at hmem
  rcases hmem with rfl | rfl | rfl | rfl | rfl | rfl <;> exact absurd hrange (by decide)

/-! ### In the buffer -/

section Buffer

variable {c : NameConfig} {tv : Timeval} {buf usec name : List UInt8}

/-- The suffix has the room that was kept for it. -/
theorem appendSuffix_eq (hbuf : buf.length = bufsiz) (h : Holds buf name)
    (hroom : name.length ≤ bufsiz - 5) :
    ∃ buf', appendSuffix c buf = some buf' ∧ buf'.length = bufsiz ∧
      Holds buf' (name ++ c.suffix) := by
  unfold appendSuffix NameConfig.suffix
  split
  · have hlt : name.length + [(0x2e : UInt8), 0x7a, 0x73, 0x74].length < buf.length := by
      rw [hbuf]
      unfold bufsiz at hroom ⊢
      simp only [List.length_cons, List.length_nil]
      omega
    obtain ⟨buf', hcat, hlen, hholds⟩ := strcat_eq h (by decide) hlt
    exact ⟨buf', hcat, hlen.trans hbuf, hholds⟩
  · exact ⟨buf, rfl, hbuf, by rwa [List.append_nil]⟩

/-- What `strftime` makes of the format has room. -/
theorem strftime_put_eq {expansion : List UInt8} (h0 : 0 ∉ expansion)
    (hlen : expansion.length < bufsiz - 4) (hbuf : buf.length = bufsiz) :
    ∃ buf₁ buf₂, put 0 (expansion ++ [0]) buf = some buf₁ ∧ put (bufsiz - 5) [0] buf₁ = some buf₂ ∧
      buf₂.length = bufsiz ∧ Holds buf₂ expansion := by
  have hroom : (expansion ++ [0]).length ≤ buf.length := by
    rw [hbuf, List.length_append, List.length_singleton]
    unfold bufsiz at hlen ⊢
    omega
  have hput := put_zero_eq hroom
  have hholds : Holds (expansion ++ [0] ++ buf.drop (expansion ++ [0]).length) expansion :=
    ⟨h0, _, List.append_assoc _ _ _⟩
  have hlen₁ := (length_put hput).trans hbuf
  have hle : expansion.length ≤ bufsiz - 5 := Nat.le_sub_one_of_lt hlen
  obtain ⟨buf₂, hput₂, hlen₂, hholds₂⟩ := put_zero_behind hholds hle (by rw [hlen₁]; decide)
  exact ⟨_, buf₂, hput, hput₂, hlen₂.trans hlen₁, hholds₂⟩

/-- The array `usec` gets the digits. -/
theorem usec_snprintf_eq {digits : List UInt8} (h0 : 0 ∉ digits) (hlen : digits.length = 6)
    (husec : usec.length = 7) :
    ∃ usec', snprintf 7 digits usec = some usec' ∧ usec'.take 6 = digits := by
  obtain ⟨usec', hprint, -, -, r, hr⟩ := snprintf_eq h0 (by decide) husec.ge
  refine ⟨usec', hprint, ?_⟩
  have hall : digits.take (7 - 1) = digits := List.take_of_length_le hlen.le
  rw [hr, hall, List.take_left' hlen]

/-- With a format that `strftime` takes, nothing is cut off. -/
theorem setTtyrecFileName_format {namefmt : List UInt8} (hnaming : c.naming = .format namefmt)
    (hfits : FormatFits c namefmt tv) (hdigits : (padded 6 tv.tvUsec.toNat).length = 6) :
    setTtyrecFileName c tv = some (replaceAll usecMark (padded 6 tv.tvUsec.toNat) 0
      (c.strftime namefmt tv.tvSec) ++ c.suffix) := by
  have hexp : (c.strftime namefmt tv.tvSec).length ≤ bufsiz - 5 := Nat.le_sub_one_of_lt hfits.2
  unfold setTtyrecFileName
  rw [hnaming]
  dsimp only
  rw [if_pos hfits, List.take_of_length_le hexp, List.take_of_length_le hdigits.le]

/-- **The function builds the name inside its buffers.** Each call of the C library is met by its
lemma on buffers, and the name is what the model on strings says. -/
theorem nameInBuffer_eq (hc : c.CStrings) (husec0 : 0 ≤ tv.tvUsec) (husec1 : tv.tvUsec < 10 ^ 6)
    (hbuf : buf.length = bufsiz) (husec : usec.length = 7) :
    match setTtyrecFileName c tv with
    | none => nameInBuffer c tv buf usec = some none
    | some name => ∃ buf', nameInBuffer c tv buf usec = some (some buf') ∧ buf'.length = bufsiz ∧
        Holds buf' name := by
  cases hnaming : c.naming with
  | generated dname uuid =>
    obtain ⟨hdname, huuid⟩ := hc.generated dname uuid hnaming
    unfold setTtyrecFileName nameInBuffer
    rw [hnaming]
    dsimp only
    -- `snprintf` into a buffer that leaves four bytes for the suffix
    have hsize : bufsiz - 4 ≤ buf.length := by
      rw [hbuf]
      exact Nat.sub_le _ _
    obtain ⟨buf₁, hprint, hlen₁, hholds₁⟩ :=
      snprintf_eq (zero_not_mem_path hdname huuid tv) (by decide) hsize
    obtain ⟨buf₂, hcat, hlen₂, hholds₂⟩ :=
      appendSuffix_eq (c := c) (hlen₁.trans hbuf) hholds₁ (List.length_take_le _ _)
    refine ⟨buf₂, ?_, hlen₂, hholds₂⟩
    rw [hprint]
    simp [hcat]
  | format namefmt =>
    by_cases hfits : FormatFits c namefmt tv
    · -- the mark and the digits have the same length, so nothing moves in the buffer
      have hdigits : (padded 6 tv.tvUsec.toNat).length = 6 := length_padded (by omega)
      have hexp : (c.strftime namefmt tv.tvSec).length ≤ bufsiz - 5 := Nat.le_sub_one_of_lt hfits.2
      obtain ⟨buf₁, buf₂, hput₁, hput₂, hlen₂, hholds₂⟩ :=
        strftime_put_eq (hc.format namefmt hnaming tv.tvSec) hfits.2 hbuf
      obtain ⟨usec', hprint, htake⟩ :=
        usec_snprintf_eq (zero_not_mem_padded 6 tv.tvUsec.toNat) hdigits husec
      have hfuel : (c.strftime namefmt tv.tvSec).length ≤ bufsiz := hexp.trans (Nat.sub_le _ _)
      obtain ⟨ptr, buf₃, hptr, hloop, hlen₃, hholds₃⟩ :=
        substitute_holds (p := usecMark) (by decide) hdigits
          (zero_not_mem_padded 6 tv.tvUsec.toNat) hholds₂ hfuel
      have hlength := (replaceAll_spec (p := usecMark) (by decide) hdigits
        (c.strftime namefmt tv.tvSec)).length
      obtain ⟨buf₄, hcat, hlen₄, hholds₄⟩ :=
        appendSuffix_eq (c := c) (hlen₃.trans hlen₂) hholds₃ (hlength.trans_le hexp)
      rw [setTtyrecFileName_format hnaming hfits hdigits]
      refine ⟨buf₄, ?_, hlen₄, hholds₄⟩
      unfold nameInBuffer
      rw [hnaming]
      dsimp only
      rw [if_pos hfits]
      simp only [hput₁, hput₂, hprint, hptr, htake, hloop, hcat, Option.bind_eq_bind,
        Option.bind_some, Option.pure_def]
    · -- `strftime` says that the name does not fit
      unfold setTtyrecFileName nameInBuffer
      rw [hnaming]
      dsimp only
      rw [if_neg hfits, if_neg hfits]

/-- **Names within bounds.**  The function never writes or reads beyond its buffers, and the name
it builds has room, with the suffix and the zero behind it.  With a format that `strftime` takes,
the name in front of the suffix is as long as the expansion, has the digits of the microseconds at
the leftmost places of `#usec#` that do not overlap, is the expansion everywhere else, and has no
`#usec#` left. -/
theorem name_inBounds (hc : c.CStrings) (husec0 : 0 ≤ tv.tvUsec) (husec1 : tv.tvUsec < 10 ^ 6)
    (hbuf : buf.length = bufsiz) (husec : usec.length = 7) :
    (∀ dname uuid, c.naming = .generated dname uuid →
      ∃ buf' name, nameInBuffer c tv buf usec = some (some buf') ∧ Holds buf' name ∧
        name.length + 1 ≤ bufsiz) ∧
    ∀ namefmt, c.naming = .format namefmt → FormatFits c namefmt tv →
      ∃ buf' name, nameInBuffer c tv buf usec = some (some buf') ∧ Holds buf' (name ++ c.suffix) ∧
        (name ++ c.suffix).length + 1 ≤ bufsiz ∧
        (padded 6 tv.tvUsec.toNat).length = 6 ∧
        Replaced usecMark (padded 6 tv.tvUsec.toNat) (c.strftime namefmt tv.tvSec) name ∧
        ¬ usecMark <:+: name := by
  have hbuilt := nameInBuffer_eq hc husec0 husec1 hbuf husec
  constructor
  · intro dname uuid hnaming
    unfold setTtyrecFileName at hbuilt
    rw [hnaming] at hbuilt
    obtain ⟨buf', hname, hlen, hholds⟩ := hbuilt
    exact ⟨buf', _, hname, hholds, hlen ▸ hholds.length_lt⟩
  · intro namefmt hnaming hfits
    have hdigits : (padded 6 tv.tvUsec.toNat).length = 6 := length_padded (by omega)
    rw [setTtyrecFileName_format hnaming hfits hdigits] at hbuilt
    obtain ⟨buf', hname, hlen, hholds⟩ := hbuilt
    refine ⟨buf', _, hname, hholds, hlen ▸ hholds.length_lt, hdigits, ?_, ?_⟩
    · exact replaceAll_spec (by decide) hdigits _
    · refine not_infix_replaceAll (by decide) ?_ (fun x hx => not_mem_usecMark hx) _
      exact List.ne_nil_of_length_eq_add_one hdigits

end Buffer

/-- Two hours ahead of UTC. -/
def TimeZone.summer : TimeZone := ⟨fun _ => 7200, fun _ => by decide, fun _ => by decide⟩

/-- `-Z -F a#usec#usec#`, where a second `#usec#` overlaps the first one. -/
def overlapConfig : NameConfig where
  naming := .format
    [0x61, 0x23, 0x75, 0x73, 0x65, 0x63, 0x23, 0x75, 0x73, 0x65, 0x63, 0x23]
  zstd := true
  zone := .summer
  strftime namefmt _ := namefmt

/-- A format in which the placeholders overlap. -/
theorem name_inBounds_overlap :
    ∃ buf' name, nameInBuffer overlapConfig ⟨1000, 42⟩ (List.replicate bufsiz 0xff)
        (List.replicate 7 0xff) = some (some buf') ∧
      Holds buf' (name ++ overlapConfig.suffix) ∧
      (name ++ overlapConfig.suffix).length + 1 ≤ bufsiz ∧ (padded 6 42).length = 6 ∧
      Replaced usecMark (padded 6 42)
        [0x61, 0x23, 0x75, 0x73, 0x65, 0x63, 0x23, 0x75, 0x73, 0x65, 0x63, 0x23] name ∧
      ¬ usecMark <:+: name := by
  have hc : overlapConfig.CStrings := by
    refine ⟨nofun, ?_⟩
    intro namefmt hnaming sec
    cases hnaming
    simp [overlapConfig]
  exact (name_inBounds hc (by decide) (by decide) List.length_replicate List.length_replicate).2 _
    rfl (by decide)

/-- The first one is replaced. -/
example : fileName overlapConfig ⟨1000, 42⟩ =
    [0x61, 0x30, 0x30, 0x30, 0x30, 0x34, 0x32, 0x75, 0x73, 0x65, 0x63, 0x23, 0x2e, 0x7a, 0x73,
      0x74] := by decide

end TtyRec
