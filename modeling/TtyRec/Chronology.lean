import TtyRec.Recovery
import TtyRec.Reopening

/-!
# The files in the order of their names

The generated names begin with the local time, its fields padded to their widths and from the
year to the microsecond.  So a listing of the directory shows the files of a session in the order
in which they were written, and who plays them in this order sees the session, as long as the
local clock does not go back and the year has four digits.

## Main definitions

* `Earlier` — by the local clock.
* `Stamped` — a time that a name can show.

## Main results

* `fileName_lt_iff` — **the names are in the order of the times.**
* `listing_is_session` — **the sorted files hold the session.**
-/

namespace TtyRec

open Calendar Decimal Run

/-- Earlier by the local clock. -/
def Earlier (zone : TimeZone) (tv tv' : Timeval) : Prop :=
  tv.tvSec + zone.utcOffset tv.tvSec < tv'.tvSec + zone.utcOffset tv'.tvSec ∨
    tv.tvSec + zone.utcOffset tv.tvSec = tv'.tvSec + zone.utcOffset tv'.tvSec ∧
      tv.tvUsec < tv'.tvUsec

/-- A time that has room in a name, and whose year has four digits.  Then the year does not move the
other fields. -/
structure Stamped (c : NameConfig) (dname : List UInt8) (tv : Timeval) : Prop where
  normal : tv.Normal
  year_lt : (localtime c.zone tv.tvSec).year + 1900 < 10 ^ 4
  room : (stampedPath c dname tv).length ≤ bufsiz - 5

/-- A field that decides, or leaves it to those that follow. -/
theorem toNat_lt_or {a b : ℤ} (ha : 0 ≤ a) {P Q : Prop} (h : a < b ∨ a = b ∧ P) (hPQ : P → Q) :
    a.toNat < b.toNat ∨ a.toNat = b.toNat ∧ Q :=
  h.imp (fun hlt => by omega) fun heq => ⟨congrArg Int.toNat heq.1, hPQ heq.2⟩

/-- The stamps of times are in the order of the times. -/
theorem stamp_append_lt {tm tm' : Tm} {usec usec' : ℤ}
    (htm : 0 ≤ tm.year + 1900 ∧ 0 ≤ tm.mon ∧ 0 ≤ tm.mday ∧ 0 ≤ tm.hour ∧ 0 ≤ tm.min ∧ 0 ≤ tm.sec)
    (htm' : 0 ≤ tm'.year + 1900 ∧ 0 ≤ tm'.mon ∧ 0 ≤ tm'.mday ∧ 0 ≤ tm'.hour ∧ 0 ≤ tm'.min ∧
      0 ≤ tm'.sec)
    (hyear : tm.year + 1900 < 10 ^ 4) (hyear' : tm'.year + 1900 < 10 ^ 4)
    (hlt : tm.mon + 1 < 100 ∧ tm.mday < 100 ∧ tm.hour < 100 ∧ tm.min < 100 ∧ tm.sec < 100)
    (hlt' : tm'.mon + 1 < 100 ∧ tm'.mday < 100 ∧ tm'.hour < 100 ∧ tm'.min < 100 ∧ tm'.sec < 100)
    (hu : 0 ≤ usec ∧ usec < 10 ^ 6) (hu' : 0 ≤ usec' ∧ usec' < 10 ^ 6)
    (h : tm.Before tm' ∨ tm = tm' ∧ usec < usec') (r r' : List UInt8) :
    stamp tm usec ++ r < stamp tm' usec' ++ r' := by
  simp only [stamp, List.append_assoc, List.cons_append]
  rw [padded_cons_lt_iff (by omega) (by omega), padded_cons_lt_iff (by omega) (by omega),
    padded_cons_lt_iff (by omega) (by omega), padded_cons_lt_iff (by omega) (by omega),
    padded_cons_lt_iff (by omega) (by omega), padded_cons_lt_iff (by omega) (by omega),
    padded_append_lt_iff (by omega) (by omega)]
  rcases h with h | ⟨rfl, h⟩
  · obtain ⟨hy, hmo, hd, hh, hmi, hs⟩ := htm
    have hyears : tm.year + 1900 < tm'.year + 1900 ∨ tm.year + 1900 = tm'.year + 1900 ∧ _ :=
      h.imp (fun hlt => by omega) fun heq => ⟨congrArg (· + 1900) heq.1, heq.2⟩
    refine toNat_lt_or hy hyears fun h => ?_
    have hmonths : tm.mon + 1 < tm'.mon + 1 ∨ tm.mon + 1 = tm'.mon + 1 ∧ _ :=
      h.imp (fun hlt => by omega) fun heq => ⟨congrArg (· + 1) heq.1, heq.2⟩
    refine toNat_lt_or (by omega) hmonths fun h => toNat_lt_or hd h fun h => toNat_lt_or hh h fun h =>
      toNat_lt_or hmi h fun h => .inl ?_
    omega
  · have husec : usec.toNat < usec'.toNat := by omega
    simp only [husec, true_or, and_self, or_true]

/-- The names of two times, the first being earlier. -/
theorem fileName_lt {c : NameConfig} {dname uuid : List UInt8}
    (hnaming : c.naming = .generated dname uuid) {tv tv' : Timeval} (h : Stamped c dname tv)
    (h' : Stamped c dname tv') (hearlier : Earlier c.zone tv tv') :
    fileName c tv < fileName c tv' := by
  unfold fileName setTtyrecFileName
  rw [hnaming]
  dsimp only [Option.getD_some]
  rw [List.take_append, List.take_append, List.take_of_length_le h.room,
    List.take_of_length_le h'.room, List.append_assoc, List.append_assoc, stampedPath, stampedPath,
    List.append_assoc, List.append_assoc, List.cons_append, List.cons_append]
  apply List.append_left_lt
  rw [List.cons_lt_cons_iff]
  refine .inr ⟨rfl, ?_⟩
  have hnonneg := localtime_nonneg c.zone h.normal.1
  have hnonneg' := localtime_nonneg c.zone h'.normal.1
  refine stamp_append_lt hnonneg hnonneg' h.year_lt h'.year_lt (gmtime_lt _) (gmtime_lt _)
    h.normal.2 h'.normal.2 ?_ _ _
  exact hearlier.imp gmtime_before fun heq => ⟨congrArg gmtime heq.1, heq.2⟩

theorem stamped_dotSeven :
    ∀ tv ∈ [(⟨1000, 0⟩ : Timeval), ⟨1900, 0⟩], Stamped dotSeven [0x2e] tv := by
  intro tv htv
  fin_cases htv
  · exact ⟨⟨by decide, by decide, by decide⟩, by decide, by decide⟩
  · exact ⟨⟨by decide, by decide, by decide⟩, by decide, by decide⟩

/-- **The generated names are in the order of the local times.** The fields stand in the name from
the year to the microseconds, each with as many digits in both names. -/
theorem fileName_lt_iff {c : NameConfig} {dname uuid : List UInt8}
    (hnaming : c.naming = .generated dname uuid) {tv tv' : Timeval} (h : Stamped c dname tv)
    (h' : Stamped c dname tv') : fileName c tv < fileName c tv' ↔ Earlier c.zone tv tv' := by
  constructor
  · intro hlt
    by_contra hnot
    by_cases hback : Earlier c.zone tv' tv
    · exact List.lt_asymm hlt (fileName_lt hnaming h' h hback)
    · -- they show the same
      have hsame : SameName c tv tv' := by
        unfold SameName Earlier at *
        rw [hnaming]
        dsimp only
        omega
      have hcomp : Comparable c tv tv' := by
        unfold Comparable
        rw [hnaming]
        exact ⟨h.room, h'.room⟩
      rw [(fileName_eq_iff c h.normal h'.normal hcomp).mpr hsame] at hlt
      exact List.lt_irrefl _ hlt
  · exact fileName_lt hnaming h h'

theorem fileName_lt_iff_quarter : fileName dotSeven ⟨1000, 0⟩ < fileName dotSeven ⟨1900, 0⟩ := by
  rw [fileName_lt_iff rfl (stamped_dotSeven _ List.mem_cons_self) (stamped_dotSeven _ (by simp))]
  exact .inl (by decide)

/-! ### The files of a session -/

/-- A rotation is not in the middle of a record. -/
def BetweenRecords {N : Type*} (s : Control N) : Event → Prop
  | .usr1 now _ _ => s.Rotates now → ¬ s.pc.InRecord
  | _ => True

instance {N : Type*} (s : Control N) : DecidablePred (BetweenRecords s)
  | .usr1 now _ _ => inferInstanceAs (Decidable (s.Rotates now → ¬ s.pc.InRecord))
  | .read _ _ | .selectFailed | .check _ | .write _ | .header _ | .payload _ | .account | .urg
  | .usr2 | .finish _ => .isTrue trivial

section Names

variable {S N : Type*} [DecidableEq N] {cfg : Config} {host : Host} {fileName : Timeval → N}
  {fwriteWrapper : FwriteWrapper S} {fcloseWrapper : FcloseWrapper S} {s t : Recorder S N}
  {es : List Event}

/-- The files that are closed come first among the names of a run. -/
theorem closed_prefix_namesFrom
    (hrun : exec (step cfg host fileName fwriteWrapper fcloseWrapper) s es = some t) :
    t.closed <+: namesFrom cfg host fileName fwriteWrapper fcloseWrapper s es := by
  induction es generalizing s with
  | nil =>
    cases hrun
    exact List.prefix_append _ _
  | cons e es ih =>
    obtain ⟨s', he, hes⟩ := exec_cons_eq_some.mp hrun
    cases es with
    | nil =>
      cases hes
      have hname : s.closed ++ [s.name] <+:
          namesFrom cfg host fileName fwriteWrapper fcloseWrapper s [e] :=
        ⟨_, (List.append_cons _ _ _).symm⟩
      obtain ⟨-, ⟨-, -, hclosed, -⟩ | ⟨named, -, hswings⟩ | ⟨-, hends⟩⟩ := step_files he
      · rw [hclosed]
        exact List.prefix_append _ _
      · rw [hswings.closed]
        exact hname
      · rw [hends.closed]
        exact hname
    | cons e' es =>
      rw [← namesFrom_cons he (live_of_exec_cons hes)]
      exact ih hes

/-- When the names of a run differ, its rotations open new files.  The name that a rotation opens is
in the list of names, behind all that were closed before. -/
theorem along_rotatesBetween
    (hrun : exec (step cfg host fileName fwriteWrapper fcloseWrapper) s es = some t)
    (hnames : (namesFrom cfg host fileName fwriteWrapper fcloseWrapper s es).Nodup)
    (hok : Along (step cfg host fileName fwriteWrapper fcloseWrapper)
      (fun s e => BetweenRecords s.toControl e) s es) :
    Along (step cfg host fileName fwriteWrapper fcloseWrapper)
      (fun s e => RotatesBetween fileName s.toControl e) s es := by
  induction es generalizing s with
  | nil => trivial
  | cons e es ih =>
    obtain ⟨hrot, hok⟩ := hok
    obtain ⟨s', he, hes⟩ := exec_cons_eq_some.mp hrun
    refine ⟨?_, ?_⟩
    · cases e with
      | usr1 now named opens =>
        intro hrotates
        refine ⟨hrot hrotates, ?_⟩
        intro hopens
        rw [namesFrom, collect, openedAt, if_pos ⟨hrotates, hopens⟩, List.singleton_append,
          List.map_cons, List.append_cons] at hnames
        intro hmem
        exact (List.nodup_append.mp hnames).2.2 _ hmem _ List.mem_cons_self rfl
      | _ => trivial
    · intro s'' hs''
      obtain rfl : s' = s'' := Option.some.inj (he.symm.trans hs'')
      -- the rest of the run has the names that are left
      cases es with
      | nil => trivial
      | cons e' es =>
        rw [← namesFrom_cons he (live_of_exec_cons hes)] at hnames
        exact ih hes hnames (hok _ he)

end Names

/-- **The sorted files hold the session.**  In every run of the plain recorder with generated names
whose local clock does not go back between two names, and whose rotations are between records,
the files that were closed, in the order of their names, hold the records from the first on, and
when the process has ended they hold all of them. -/
theorem listing_is_session {c : NameConfig} {dname uuid : List UInt8}
    (hnaming : c.naming = .generated dname uuid) (cfg : Config) (host : Host)
    (disk : List UInt8 → List UInt8) (first : Timeval) {rs₀ : List Record}
    (hrs₀ : ∀ r ∈ rs₀, r.Valid) (hdisk : disk (fileName c first) = rs₀.flatMap Record.encode)
    {es : List Event} {t : Recorder Unit (List UInt8)}
    (hrun : exec (step cfg host (fileName c) fwriteNone fcloseNone)
      (Recorder.start disk (fileName c first) (fun _ => none) ()) es = some t)
    (hok : Along (step cfg host (fileName c) fwriteNone fcloseNone)
      (fun s e => BetweenRecords s.toControl e)
      (Recorder.start disk (fileName c first) (fun _ => none) ()) es)
    (hstamped : ∀ tv ∈ first :: collect (step cfg host (fileName c) fwriteNone fcloseNone) openedAt
      (Recorder.start disk (fileName c first) (fun _ => none) ()) es, Stamped c dname tv)
    (htimes : (first :: collect (step cfg host (fileName c) fwriteNone fcloseNone) openedAt
      (Recorder.start disk (fileName c first) (fun _ => none) ()) es).Pairwise (Earlier c.zone))
    {names : List (List UInt8)} (hperm : names.Perm t.closed) (hsorted : names.Pairwise (· ≤ ·)) :
    (names.flatMap fun name => records (t.disk name)) <+: rs₀ ++ t.recorded ∧
      (¬ t.pc.Live →
        (names.flatMap fun name => records (t.disk name)) = rs₀ ++ t.recorded) := by
  -- the names of the run, in the order in which they were opened
  have hnames : namesFrom cfg host (fileName c) fwriteNone fcloseNone
      (Recorder.start disk (fileName c first) (fun _ => none) ()) es =
        (first :: collect (step cfg host (fileName c) fwriteNone fcloseNone) openedAt
          (Recorder.start disk (fileName c first) (fun _ => none) ()) es).map (fileName c) := rfl
  have hlt : (namesFrom cfg host (fileName c) fwriteNone fcloseNone
      (Recorder.start disk (fileName c first) (fun _ => none) ()) es).Pairwise (· < ·) := by
    rw [hnames]
    refine List.pairwise_map.mpr (htimes.imp_of_mem ?_)
    intro tv tv' htv htv' hearlier
    exact fileName_lt hnaming (hstamped tv htv) (hstamped tv' htv') hearlier
  have hnodup : (namesFrom cfg host (fileName c) fwriteNone fcloseNone
      (Recorder.start disk (fileName c first) (fun _ => none) ()) es).Nodup := by
    apply hlt.imp
    rintro name name' hlt rfl
    exact List.lt_irrefl name hlt
  obtain rfl : names = t.closed := by
    apply List.Perm.eq_of_pairwise (fun _ _ _ _ => List.le_antisymm) hsorted _ hperm
    exact (hlt.sublist (closed_prefix_namesFrom hrun).sublist).imp List.le_of_lt
  obtain ⟨segs, last, hinv⟩ := recordInv_exec (recordInv_start hrs₀ hdisk) hrun
    (along_rotatesBetween hrun hnodup hok)
  rw [hinv.records_closed]
  refine ⟨⟨last, hinv.all⟩, ?_⟩
  intro hended
  rw [← hinv.all, hinv.ended hended, List.append_nil]

/-- A session with one rotation, to its end. -/
theorem listing_is_session_once :
    ∃ t, exec (step .tty .little (fileName dotSeven) fwriteNone fcloseNone)
        (Recorder.start (fun _ => []) (fileName dotSeven ⟨1000, 0⟩) (fun _ => none) ())
        (rotateOnce ++ [.read .stdout .eof, .finish 0]) = some t ∧
      (t.closed.flatMap fun name => records (t.disk name)) = [⟨⟨⟨1000, 0⟩, 1⟩, [65]⟩] := by
  have hrun : exec (step .tty .little (fileName dotSeven) fwriteNone fcloseNone)
    (Recorder.start (fun _ => []) (fileName dotSeven ⟨1000, 0⟩) (fun _ => none) ())
    (rotateOnce ++ [.read .stdout .eof, .finish 0]) = some _ := rfl
  refine ⟨_, hrun, ?_⟩
  refine (listing_is_session rfl .tty .little (fun _ => []) ⟨1000, 0⟩ (List.forall_mem_nil Record.Valid)
    rfl hrun (by decide) stamped_dotSeven ?_ (List.Perm.refl _) ?_).2 id
  · exact List.pairwise_pair.mpr (.inl (by decide))
  · exact List.pairwise_pair.mpr (by decide)

end TtyRec
