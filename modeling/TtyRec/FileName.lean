import TtyRec.Lib.Calendar
import TtyRec.Lib.Decimal
import TtyRec.Lib.Replace
import TtyRec.Recorder

/-!
# The names of the files

`set_ttyrec_file_name` makes a name of the clock: the local time to the microsecond, between
a directory and an identifier, or what `strftime` makes of a format of the user, with
`#usec#` standing for the microseconds.

## Main definitions

* `Naming`, `NameConfig` — the options, the time zone, and `strftime`.
* `setTtyrecFileName`, `fileName` — the name of a file.
* `Comparable` — the time has room in the name, or `#usec#` is at the same places.
* `SameName` — the times that give the same name.

## Main results

* `fileName_eq_iff` — **when two names are equal**.
* `not_sameName_of_lt` — the local clock has to go back for that.
-/

namespace TtyRec

open Calendar Decimal Replace

/-- The options that name the files.  `main` refuses `-F` along with `-d` or `-z`. -/
inductive Naming where
  /-- `-d` and `-z`, or their defaults. -/
  | generated (dname uuid : List UInt8)
  /-- `-F`. -/
  | format (namefmt : List UInt8)

/-- A time zone: by how much local time is ahead of UTC. -/
structure TimeZone where
  utcOffset : ℤ → ℤ
  gt : ∀ t, -86400 < utcOffset t
  lt : ∀ t, utcOffset t < 86400

/-- `localtime`, with an offset from UTC that may depend on the time. -/
def localtime (zone : TimeZone) (sec : ℤ) : Tm := gmtime (sec + zone.utcOffset sec)

structure NameConfig where
  naming : Naming
  /-- `opt_zstd`. -/
  zstd : Bool
  zone : TimeZone
  /-- What `strftime` makes of a format and the local time of a second, when there is room. -/
  strftime : List UInt8 → ℤ → List UInt8

/-- `#usec#`, the placeholder for the microseconds in a format. -/
def usecMark : List UInt8 := [0x23, 0x75, 0x73, 0x65, 0x63, 0x23]

/-- `.ttyrec`, the suffix of generated names. -/
def ttyrecSuffix : List UInt8 := [0x2e, 0x74, 0x74, 0x79, 0x72, 0x65, 0x63]

/-- `.zst`, if the recording is compressed. -/
def NameConfig.suffix (c : NameConfig) : List UInt8 :=
  if c.zstd then [0x2e, 0x7a, 0x73, 0x74] else []

/-- `%04u-%02u-%02u.%02u-%02u-%02u.%06lu`. -/
def stamp (tm : Tm) (usec : ℤ) : List UInt8 :=
  padded 4 (tm.year + 1900).toNat ++ 0x2d :: (padded 2 (tm.mon + 1).toNat ++
    0x2d :: (padded 2 tm.mday.toNat ++ 0x2e :: (padded 2 tm.hour.toNat ++
      0x2d :: (padded 2 tm.min.toNat ++ 0x2d :: (padded 2 tm.sec.toNat ++
        0x2e :: padded 6 usec.toNat)))))

/-- The directory and the time, in front of the identifier. -/
def stampedPath (c : NameConfig) (dname : List UInt8) (tv : Timeval) : List UInt8 :=
  dname ++ 0x2f :: stamp (localtime c.zone tv.tvSec) tv.tvUsec

/-- `strftime` returns 0 if there is no room, and also for an empty string. -/
def FormatFits (c : NameConfig) (namefmt : List UInt8) (tv : Timeval) : Prop :=
  c.strftime namefmt tv.tvSec ≠ [] ∧ (c.strftime namefmt tv.tvSec).length < bufsiz - 4

instance (c : NameConfig) (namefmt : List UInt8) (tv : Timeval) :
    Decidable (FormatFits c namefmt tv) :=
  inferInstanceAs (Decidable (_ ∧ _))

/-- `set_ttyrec_file_name`; it fails when `strftime` does.  Four bytes are kept for the
suffix. -/
def setTtyrecFileName (c : NameConfig) (tv : Timeval) : Option (List UInt8) :=
  match c.naming with
  | .generated dname uuid =>
    some ((stampedPath c dname tv ++ 0x2e :: (uuid ++ ttyrecSuffix)).take (bufsiz - 5) ++ c.suffix)
  | .format namefmt =>
    if FormatFits c namefmt tv then
      let name := (c.strftime namefmt tv.tvSec).take (bufsiz - 5)
      let usec := (padded 6 tv.tvUsec.toNat).take 6
      some (replaceAll usecMark usec 0 name ++ c.suffix)
    else none

/-- The name that is opened; when there is none, `fopen` is not reached. -/
def fileName (c : NameConfig) (tv : Timeval) : List UInt8 := (setTtyrecFileName c tv).getD []

/-! ### Names that are equal -/

/-- What `gettimeofday` returns: a time after the epoch, with less than a second of microseconds. -/
def Timeval.Normal (tv : Timeval) : Prop := 0 ≤ tv.tvSec ∧ 0 ≤ tv.tvUsec ∧ tv.tvUsec < 10 ^ 6

/-- A generated name has room for the time; of a format, both results are names, and have
`#usec#` at the same places. -/
def Comparable (c : NameConfig) (tv tv' : Timeval) : Prop :=
  match c.naming with
  | .generated dname _ =>
    (stampedPath c dname tv).length ≤ bufsiz - 5 ∧ (stampedPath c dname tv').length ≤ bufsiz - 5
  | .format namefmt =>
    (FormatFits c namefmt tv ∧ FormatFits c namefmt tv') ∧
      spans usecMark (c.strftime namefmt tv.tvSec) = spans usecMark (c.strftime namefmt tv'.tvSec)

/-- The times show the same to the name: local time and microseconds, or what the format shows
of them. -/
def SameName (c : NameConfig) (tv tv' : Timeval) : Prop :=
  match c.naming with
  | .generated _ _ =>
    tv.tvSec + c.zone.utcOffset tv.tvSec = tv'.tvSec + c.zone.utcOffset tv'.tvSec ∧
      tv.tvUsec = tv'.tvUsec
  | .format namefmt =>
    c.strftime namefmt tv.tvSec = c.strftime namefmt tv'.tvSec ∧
      (¬ usecMark <:+: c.strftime namefmt tv.tvSec ∨ tv.tvUsec = tv'.tvUsec)

/-- The local time and the microseconds can be read off a stamp. -/
theorem stamp_append_inj {tm tm' : Tm} {usec usec' : ℤ}
    (htm : 0 ≤ tm.year + 1900 ∧ 0 ≤ tm.mon ∧ 0 ≤ tm.mday ∧ 0 ≤ tm.hour ∧ 0 ≤ tm.min ∧ 0 ≤ tm.sec)
    (htm' : 0 ≤ tm'.year + 1900 ∧ 0 ≤ tm'.mon ∧ 0 ≤ tm'.mday ∧ 0 ≤ tm'.hour ∧ 0 ≤ tm'.min ∧
      0 ≤ tm'.sec)
    (hu : 0 ≤ usec ∧ usec < 10 ^ 6) (hu' : 0 ≤ usec' ∧ usec' < 10 ^ 6) {r r' : List UInt8}
    (h : stamp tm usec ++ r = stamp tm' usec' ++ r') : tm = tm' ∧ usec = usec' := by
  have hdash : (0x2d : UInt8).toNat < 48 := by decide
  have hdot : (0x2e : UInt8).toNat < 48 := by decide
  simp only [stamp, List.append_assoc, List.cons_append, padded_cons_inj hdash,
    padded_cons_inj hdot] at h
  rw [padded_append_inj (by omega) (by omega)] at h
  obtain ⟨hyear, hmon, hmday, hhour, hmin, hsec, husec, -⟩ := h
  have hinj : ∀ {a b : ℤ}, 0 ≤ a → 0 ≤ b → a.toNat = b.toNat → a = b := by
    intro a b ha hb hab
    rw [← Int.toNat_of_nonneg ha, hab, Int.toNat_of_nonneg hb]
  obtain ⟨hy, hmo, hd, hh, hmi, hs⟩ := htm
  obtain ⟨hy', hmo', hd', hh', hmi', hs'⟩ := htm'
  have hyear' := hinj hy hy' hyear
  have hmon' := hinj (Int.add_nonneg hmo Int.one_nonneg) (Int.add_nonneg hmo' Int.one_nonneg) hmon
  refine ⟨?_, hinj hu.1 hu'.1 husec⟩
  apply Tm.ext
  · exact add_right_cancel hyear'
  · exact add_right_cancel hmon'
  · exact hinj hd hd' hmday
  · exact hinj hh hh' hhour
  · exact hinj hmi hmi' hmin
  · exact hinj hs hs' hsec

/-- The range of the local time. -/
theorem localtime_nonneg (zone : TimeZone) {sec : ℤ} (hsec : 0 ≤ sec) :
    0 ≤ (localtime zone sec).year + 1900 ∧ 0 ≤ (localtime zone sec).mon ∧
      0 ≤ (localtime zone sec).mday ∧ 0 ≤ (localtime zone sec).hour ∧
      0 ≤ (localtime zone sec).min ∧ 0 ≤ (localtime zone sec).sec := by
  have hgt := zone.gt sec
  exact gmtime_nonneg (by omega)

/-- A path that is cut after the time shows the local time and the microseconds. -/
theorem stampedPath_inj (c : NameConfig) (dname : List UInt8) {tv tv' : Timeval} (h : tv.Normal)
    (h' : tv'.Normal) {r r' : List UInt8}
    (heq : stampedPath c dname tv ++ r = stampedPath c dname tv' ++ r') :
    tv.tvSec + c.zone.utcOffset tv.tvSec = tv'.tvSec + c.zone.utcOffset tv'.tvSec ∧
      tv.tvUsec = tv'.tvUsec := by
  rw [stampedPath, stampedPath, List.append_assoc, List.append_assoc] at heq
  have htail := List.tail_eq_of_cons_eq (List.append_cancel_left heq)
  obtain ⟨htm, husec⟩ := stamp_append_inj (localtime_nonneg c.zone h.1)
    (localtime_nonneg c.zone h'.1) h.2 h'.2 htail
  exact ⟨gmtime_injective htm, husec⟩

/-- **When two names are equal.** A generated name shows the local time and the microseconds; a
format shows what it asks for, and the microseconds where the mark stands. -/
theorem fileName_eq_iff (c : NameConfig) {tv tv' : Timeval} (h : tv.Normal) (h' : tv'.Normal)
    (hcomp : Comparable c tv tv') : fileName c tv = fileName c tv' ↔ SameName c tv tv' := by
  unfold Comparable at hcomp
  unfold fileName setTtyrecFileName SameName
  cases hnaming : c.naming with
  | generated dname uuid =>
    rw [hnaming] at hcomp
    obtain ⟨hroom, hroom'⟩ := hcomp
    dsimp only [Option.getD_some]
    rw [List.append_left_inj, List.take_append, List.take_append, List.take_of_length_le hroom,
      List.take_of_length_le hroom']
    constructor
    · exact stampedPath_inj c dname h h'
    · rintro ⟨hlocal, husec⟩
      have hpath : stampedPath c dname tv = stampedPath c dname tv' := by
        rw [stampedPath, stampedPath, localtime, localtime, hlocal, husec]
      rw [hpath]
  | format namefmt =>
    rw [hnaming] at hcomp
    obtain ⟨⟨hfits, hfits'⟩, hspans⟩ := hcomp
    dsimp only
    rw [if_pos hfits, if_pos hfits', Option.getD_some, Option.getD_some, List.append_left_inj]
    have hroom : ∀ {l : List UInt8}, l.length < bufsiz - 4 → l.take (bufsiz - 5) = l := by
      intro l hl
      exact List.take_of_length_le (by unfold bufsiz at *; omega)
    have hlen : ∀ {t : Timeval}, t.Normal → (padded 6 t.tvUsec.toNat).length = 6 := by
      intro t ht
      exact length_padded (by have := ht.2; omega)
    -- six digits tell all microseconds apart
    have husec : padded 6 tv.tvUsec.toNat = padded 6 tv'.tvUsec.toNat ↔ tv.tvUsec = tv'.tvUsec := by
      rw [(padded_injective 6).eq_iff]
      have hu := h.2
      have hu' := h'.2
      omega
    rw [hroom hfits.2, hroom hfits'.2, List.take_of_length_le (hlen h).le,
      List.take_of_length_le (hlen h').le,
      replaceAll_eq_iff (by decide) ((hlen h).trans (hlen h').symm) hspans, husec]

/-- **The local clock has to go back** for a generated name to come again: by as much as the
time that has passed, to the microsecond. -/
theorem not_sameName_of_lt {c : NameConfig} {dname uuid : List UInt8}
    (hnaming : c.naming = .generated dname uuid) {tv tv' : Timeval}
    (hlt : tv.tvSec < tv'.tvSec ∨ tv.tvSec = tv'.tvSec ∧ tv.tvUsec < tv'.tvUsec)
    (hoffset : c.zone.utcOffset tv.tvSec ≤ c.zone.utcOffset tv'.tvSec) : ¬ SameName c tv tv' := by
  unfold SameName
  rw [hnaming]
  rintro ⟨hlocal, husec⟩
  omega

/-- A directory that fills the name leaves no room for the time. -/
theorem fileName_of_long {c : NameConfig} {dname uuid : List UInt8}
    (hnaming : c.naming = .generated dname uuid) (hlen : dname.length = bufsiz - 5)
    (tv : Timeval) : fileName c tv = dname ++ c.suffix := by
  unfold fileName setTtyrecFileName
  rw [hnaming]
  dsimp only [Option.getD_some]
  rw [stampedPath, List.append_assoc, List.take_left' hlen]

end TtyRec
