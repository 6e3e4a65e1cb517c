import TtyRec.Refinement
import TtyRec.Zstd.Raw

/-!
# Rotation

SIGUSR1 closes the recording and opens the next one, wherever the loop is.  Between
`write_header` and the payload that cuts the record in two: the file that is closed
ends with a header, and the next one begins with the payload.  Everywhere else the
files are complete records, and together the whole session, as long as no file is
opened again under the name of an earlier one.

## Main definitions

* `HoldsRecords`, `Recorder.Complete` — what is asked of the files.
* `RotatesBetween` — a rotation that is not in the middle of a record, and opens a
  new name.
* `RecordInv` — the invariant of the plain recorder.

## Main results

* `complete_of_rotatesBetween` — **rotations between records cut nothing**, with
  plain recordings and with compressed ones.
* `rotation_cuts_record` — a rotation inside of a record loses it.
-/

namespace TtyRec

open Run StreamCodec

variable {N : Type*}

/-- The file holds the complete records `rs`, and decoding it gives them. -/
def HoldsRecords (Closed : List UInt8 → List UInt8 → Prop) (x : List UInt8) (rs : List Record) :
    Prop :=
  (∀ r ∈ rs, r.Valid) ∧ Closed x (rs.flatMap Record.encode) ∧
    records (rs.flatMap Record.encode) = rs

/-- The files that were closed hold complete records, in the order in which the
files were opened, and when the process has ended they hold all of them: `rs₀` is
what the first file held before. -/
def Recorder.Complete {S : Type*} (Closed : List UInt8 → List UInt8 → Prop) (rs₀ : List Record)
    (t : Recorder S N) : Prop :=
  ∃ segs : List (List Record),
    List.Forall₂ (HoldsRecords Closed) (t.closed.map t.disk) segs ∧
      segs.flatten <+: rs₀ ++ t.recorded ∧ (¬ t.pc.Live → segs.flatten = rs₀ ++ t.recorded)

/-- A rotation does not happen between `write_header` and the payload, and the file
that it opens is not one of the session's files. -/
def RotatesBetween (fileName : Timeval → N) (s : Control N) : Event → Prop
  | .usr1 now named opens =>
    s.Rotates now → ¬ s.pc.InRecord ∧ (opens = true → fileName named ∉ s.closed ++ [s.name])
  | _ => True

instance : DecidablePred Pc.InRecord
  | .payload _ _ => .isTrue trivial
  | .read | .check _ | .write _ _ | .header _ _ | .account _ | .waiting | .exited _ | .hung =>
    .isFalse id

instance [DecidableEq N] (fileName : Timeval → N) (s : Control N) :
    DecidablePred (RotatesBetween fileName s)
  | .usr1 now _ _ => inferInstanceAs (Decidable (s.Rotates now → ¬ s.pc.InRecord ∧ (_ → _)))
  | .read _ _ | .selectFailed | .check _ | .write _ | .header _ | .payload _ | .account | .urg
  | .usr2 | .finish _ => .isTrue trivial

/-- The payload that is still to be written of the record that is in the file. -/
def Pc.pending : Pc → List UInt8
  | .payload c _ => c.bytes
  | _ => []

theorem Pc.pending_eq_nil {pc : Pc} (h : ¬ pc.InRecord) : pc.pending = [] := by
  cases pc with
  | payload c h' => exact absurd trivial h
  | _ => rfl

/-- The invariant of the plain recorder: `segs` are the records of the files that were closed, and
`last` those of the file that is written.  A record that is begun counts as written, and `pending`
is what is missing of it. -/
structure RecordInv (rs₀ : List Record) (s : Recorder Unit N) (segs : List (List Record))
    (last : List Record) : Prop where
  ok : s.pc.Ok
  complete : s.fscript.Complete
  valid : ∀ r ∈ rs₀ ++ s.recorded, r.Valid
  all : segs.flatten ++ last = rs₀ ++ s.recorded
  files : s.closed.map s.disk = segs.map (·.flatMap Record.encode)
  script : s.pc.Live → s.fscript.data ++ s.pc.pending = last.flatMap Record.encode
  ended : ¬ s.pc.Live → last = []
  fresh : s.pc.Live → s.name ∉ s.closed

section Invariant

variable [DecidableEq N] {cfg : Config} {host : Host} {fileName : Timeval → N}
  {s s' : Recorder Unit N} {e : Event} {rs₀ : List Record} {segs : List (List Record)}
  {last : List Record}

omit [DecidableEq N] in
/-- When the loop begins, the file holds the records of earlier sessions. -/
theorem recordInv_start {disk : N → List UInt8} {name : N} (hrs₀ : ∀ r ∈ rs₀, r.Valid)
    (hdisk : disk name = rs₀.flatMap Record.encode) :
    RecordInv rs₀ (Recorder.start disk name (fun _ => none) ()) [] rs₀ where
  ok := trivial
  complete _ := rfl
  valid := by simpa [Recorder.start] using hrs₀
  all := by simp [Recorder.start]
  files := rfl
  script _ := by simp [Recorder.start, Pc.pending, hdisk]
  ended h := absurd trivial h
  fresh _ := List.not_mem_nil

omit [DecidableEq N] in
/-- A step that leaves the recording alone. -/
private theorem recordInv_quiet (h : RecordInv rs₀ s segs last) {c : Control N}
    (hq : Quiet s.toControl c) : RecordInv rs₀ { s with toControl := c } segs last where
  ok := hq.ok h.ok
  complete := h.complete
  valid := by
    dsimp only
    rw [hq.recorded]
    exact h.valid
  all := by
    dsimp only
    rw [hq.recorded]
    exact h.all
  files := by
    dsimp only
    rw [hq.closed]
    exact h.files
  script _ := by
    have hscript := h.script hq.live.1
    dsimp only
    rcases hq.pc with hpc | ⟨hs, hc⟩
    · rw [hpc]
      exact hscript
    · rw [Pc.pending_eq_nil hc]
      rwa [Pc.pending_eq_nil hs] at hscript
  ended hl := absurd hq.live.2 hl
  fresh _ := by
    dsimp only
    rw [hq.closed, hq.name]
    exact h.fresh hq.live.1

/-- Closing the file, between two records. -/
private theorem recordInv_closeScript (h : RecordInv rs₀ s segs last) (hlive : s.pc.Live)
    (hrec : ¬ s.pc.InRecord) :
    (closeScript fcloseNone s).closed.map (closeScript fcloseNone s).disk =
      (segs ++ [last]).map (·.flatMap Record.encode) := by
  have hscript := h.script hlive
  rw [Pc.pending_eq_nil hrec, List.append_nil] at hscript
  rw [map_closeScript fcloseNone (h.fresh hlive), h.files, List.map_append, List.map_singleton,
    ← hscript]
  rfl

/-- **One event**, when rotations are between records: a record is finished, a file is closed, or
the files stay as they are. -/
theorem recordInv_step (h : RecordInv rs₀ s segs last)
    (hok : RotatesBetween fileName s.toControl e)
    (hstep : step cfg host fileName fwriteNone fcloseNone s e = some s') :
    ∃ segs' last', RecordInv rs₀ s' segs' last' := by
  rcases step_cases hstep with ⟨c, rfl, hq, -⟩ | ⟨c, hdr, now, rfl, hpc, rfl⟩ |
    ⟨c, hdr, now, rfl, hpc, rfl⟩ | ⟨now, named, opens, rfl, hlive, hrot, rfl⟩ |
    ⟨status, rfl, hpc, rfl⟩
  · exact ⟨segs, last, recordInv_quiet h hq⟩
  · -- the header: the record belongs to the file from now on
    have hrecOk : (Pc.payload c hdr).Ok := by
      have hs := h.ok
      rw [hpc] at hs
      exact hs
    have hlive : s.pc.Live := by rw [hpc]; trivial
    have hscript := h.script hlive
    rw [Pc.pending_eq_nil (by rw [hpc]; exact id), List.append_nil] at hscript
    rw [writeHeader_fwriteNone host hdr now h.complete]
    refine ⟨segs, last ++ [⟨hdr, c.bytes⟩], hrecOk, h.complete, ?_, ?_, h.files, ?_,
      fun hl => absurd trivial hl, fun _ => h.fresh hlive⟩
    · intro r hr
      simp only [Recorder.afterCall, ← List.append_assoc, List.mem_append, List.mem_singleton] at hr
      rcases hr with hr | rfl
      · exact h.valid r (List.mem_append.mpr hr)
      · exact Record.valid_of_ok hrecOk
    · simp only [Recorder.afterCall, ← List.append_assoc, h.all]
    · intro _
      simp only [Recorder.afterCall, Pc.pending, hscript, List.flatMap_append, List.flatMap_cons,
        List.flatMap_nil, Record.encode, List.append_nil, List.append_assoc]
  · -- the payload: the record is complete
    have hlive : s.pc.Live := by rw [hpc]; trivial
    have hscript := h.script hlive
    rw [hpc, Pc.pending] at hscript
    refine ⟨segs, last, trivial, ?_, h.valid, h.all, h.files, ?_,
      fun hl => absurd trivial hl, fun _ => h.fresh hlive⟩
    · simp only [Recorder.afterCall, fwriteNone, fwrite_of_complete h.complete]
      exact h.complete
    · intro _
      simp only [Recorder.afterCall, fwriteNone, fwrite_of_complete h.complete, Pc.pending,
        List.append_nil, hscript]
  · -- a rotation
    obtain ⟨hrec, hname⟩ := hok hrot
    have hmid : RecordInv rs₀ { s with lastRotate := now } segs last :=
      ⟨h.ok, h.complete, h.valid, h.all, h.files, h.script, h.ended, h.fresh⟩
    have hfiles := recordInv_closeScript hmid hlive hrec
    have hall : (segs ++ [last]).flatten ++ [] = rs₀ ++ s.recorded := by simp [h.all]
    refine ⟨segs ++ [last], [], ?_⟩
    cases opens with
    | false =>
      exact ⟨trivial, h.complete, h.valid, hall, hfiles, fun hl => hl.elim, fun _ => rfl,
        fun hl => hl.elim⟩
    | true =>
      have hfresh : fileName named ∉ s.closed ++ [s.name] := hname rfl
      refine ⟨h.ok, h.complete, h.valid, hall, ?_, ?_, fun _ => rfl, fun _ => hfresh⟩
      · rw [← hfiles]
        exact map_openScript hfresh
      · intro _
        simp only [if_true, openScript, closeScript, List.flatMap_nil, List.nil_append]
        exact Pc.pending_eq_nil hrec
  · -- the end of the process
    have hpc' : (unlockScreen s.toControl).pc = s.pc := unlockScreen_pc s.toControl
    have hmid := recordInv_quiet h (quiet_unlockScreen (by rw [hpc]; trivial))
    have hlive : (unlockScreen s.toControl).pc.Live := by rw [hpc', hpc]; trivial
    have hrec : ¬ (unlockScreen s.toControl).pc.InRecord := by rw [hpc', hpc]; exact id
    have hfiles := recordInv_closeScript hmid hlive hrec
    refine ⟨segs ++ [last], [], trivial, h.complete, hmid.valid, ?_, hfiles, fun hl => hl.elim,
      fun _ => rfl, fun hl => hl.elim⟩
    have hall := hmid.all
    simpa [closeScript] using hall

/-- **A run** keeps the invariant, with more and more files that are closed. -/
theorem recordInv_exec {es : List Event} (h : RecordInv rs₀ s segs last)
    (hrun : exec (step cfg host fileName fwriteNone fcloseNone) s es = some s')
    (hok : Along (step cfg host fileName fwriteNone fcloseNone)
      (fun s e => RotatesBetween fileName s.toControl e) s es) :
    ∃ segs' last', RecordInv rs₀ s' segs' last' := by
  have hstep : ∀ (s : Recorder Unit N) (e : Event) (s' : Recorder Unit N),
      (∃ segs last, RecordInv rs₀ s segs last) → RotatesBetween fileName s.toControl e →
      step cfg host fileName fwriteNone fcloseNone s e = some s' →
      ∃ segs last, RecordInv rs₀ s' segs last := by
    rintro s e s' ⟨segs, last, hinv⟩ he hs
    exact recordInv_step hinv he hs
  exact exec_invariant_along hstep hok hrun ⟨segs, last, h⟩

omit [DecidableEq N] in
/-- Files that hold, in some form, what the plain files hold. -/
theorem forall₂_holdsRecords {Closed : List UInt8 → List UInt8 → Prop}
    {disk disk' : N → List UInt8} : ∀ {names : List N} {segs : List (List Record)},
      names.map disk = segs.map (·.flatMap Record.encode) →
      (∀ n ∈ names, Closed (disk' n) (disk n)) → (∀ r ∈ segs.flatten, r.Valid) →
      List.Forall₂ (HoldsRecords Closed) (names.map disk') segs := by
  intro names
  induction names with
  | nil =>
    intro segs hmap _ _
    cases segs with
    | nil => exact .nil
    | cons rs segs => cases hmap
  | cons n names ih =>
    intro segs hmap hclosed hvalid
    cases segs with
    | nil => cases hmap
    | cons rs segs =>
      rw [List.map_cons, List.map_cons, List.cons.injEq] at hmap
      have hrs : ∀ r ∈ rs, r.Valid := fun r hr =>
        hvalid r (List.mem_flatten.mpr ⟨rs, List.mem_cons_self, hr⟩)
      refine .cons ⟨hrs, ?_, ?_⟩ (ih hmap.2 (fun m hm => hclosed m (List.mem_cons_of_mem n hm)) ?_)
      · rw [← hmap.1]
        exact hclosed n List.mem_cons_self
      · simpa using records_flatMap_encode hrs []
      · intro r hr
        rw [List.flatten_cons] at hvalid
        exact hvalid r (List.mem_append_right rs hr)

omit [DecidableEq N] in
/-- What the invariant says of the files that were closed. -/
theorem complete_of_recordInv {S : Type*} {Closed : List UInt8 → List UInt8 → Prop}
    (h : RecordInv rs₀ s segs last) {t : Recorder S N} (hctl : t.toControl = s.toControl)
    (hdisk : ∀ n ∈ s.closed, Closed (t.disk n) (s.disk n)) : t.Complete Closed rs₀ := by
  have hpre : segs.flatten <+: rs₀ ++ s.recorded := ⟨last, h.all⟩
  refine ⟨segs, ?_, by rwa [hctl], ?_⟩
  · rw [hctl]
    exact forall₂_holdsRecords h.files hdisk fun r hr => h.valid r (hpre.subset hr)
  · intro hl
    rw [hctl] at hl ⊢
    have hall := h.all
    rwa [h.ended hl, List.append_nil] at hall

end Invariant

/-- **Rotations between records cut nothing**: in every run whose rotations are not
in the middle of a record and open new names, the files that were closed hold
complete records, in the order in which they were opened, and at the end all of
them. -/
theorem complete_of_rotatesBetween [DecidableEq N] (cfg : Config) (host : Host)
    (fileName : Timeval → N) (disk : N → List UInt8) (name : N) {rs₀ : List Record}
    (hrs₀ : ∀ r ∈ rs₀, r.Valid) :
    (disk name = rs₀.flatMap Record.encode →
      ∀ (es : List Event) (t : Recorder Unit N),
        exec (step cfg host fileName fwriteNone fcloseNone)
            (Recorder.start disk name (fun _ => none) ()) es = some t →
        Along (step cfg host fileName fwriteNone fcloseNone)
            (fun s e => RotatesBetween fileName s.toControl e)
            (Recorder.start disk name (fun _ => none) ()) es →
        t.Complete Eq rs₀) ∧
      ∀ {C : Type} {enc : Encoder C UInt8 UInt8} {Frame : List UInt8 → List UInt8 → Prop}
        (_ : enc.Lawful Frame) (zcfg : ZConfig) (fuel : ℕ), bufsiz ≤ fuel →
        Concat Frame (disk name) (rs₀.flatMap Record.encode) →
        ∀ (es : List Event) (t : Recorder (ZWriter C) N),
          exec (step cfg host fileName (fwriteWrapperZstd enc zcfg fuel) (fcloseWrapperZstd enc))
              (Recorder.start disk name (fun _ => none) ZWriter.start) es = some t →
          Along (step cfg host fileName (fwriteWrapperZstd enc zcfg fuel) (fcloseWrapperZstd enc))
              (fun s e => RotatesBetween fileName s.toControl e)
              (Recorder.start disk name (fun _ => none) ZWriter.start) es →
          t.Complete (Concat Frame) rs₀ := by
  constructor
  · intro hdisk es t hrun hok
    obtain ⟨segs, last, hinv⟩ := recordInv_exec (recordInv_start hrs₀ hdisk) hrun hok
    exact complete_of_recordInv hinv rfl fun _ _ => rfl
  · intro C enc Frame law zcfg fuel hfuel hdisk es t hrun hok
    -- the plain recorder that starts from the plaintext
    have hstart : Refines (ZRep enc) (Concat Frame) ∅
        (Recorder.start (Function.update disk name (rs₀.flatMap Record.encode)) name
          (fun _ => none) ())
        (Recorder.start disk name (fun _ => none) (ZWriter.start : ZWriter C)) := by
      refine refines_start (keeps_fwriteWrapperZstd law zcfg fuel) (fun n hn => hn.elim) ?_ rfl
      rw [Function.update_self]
      exact hdisk
    obtain ⟨s, hrun', href, hok'⟩ := refines_exec (keeps_fwriteWrapperZstd law zcfg fuel) hfuel
      appends_concat (RotatesBetween fileName) hstart hrun hok
    obtain ⟨segs, last, hinv⟩ :=
      recordInv_exec (recordInv_start hrs₀ (Function.update_self ..)) hrun' hok'
    exact complete_of_recordInv hinv href.control fun n hn => href.disk n (.inr hn)

/-- Two chunks of one byte, in a terminal, with a rotation between them. -/
def runBetween : List Event :=
  [.read .stdout (.data [65]), .check (.ofSec 1000), .write (.sent 1),
    .header fun _ => 1000, .payload fun _ => 1000, .account, .usr1 ⟨1000, 5⟩ ⟨1000, 6⟩ true,
    .read .stdout (.data [66]), .check (.ofSec 1001), .write (.sent 1),
    .header fun _ => 1001, .payload fun _ => 1001, .account, .read .stdout .eof, .finish 0]

theorem complete_of_rotatesBetween_run :
    (∃ t, exec (step .tty .little Timeval.tvSec fwriteNone fcloseNone)
        (Recorder.start (fun _ => []) 0 (fun _ => none) ()) runBetween = some t ∧
      t.Complete Eq []) ∧
    ∃ t, exec (step .tty .little Timeval.tvSec
          (fwriteWrapperZstd rawEncoder .default bufsiz) (fcloseWrapperZstd rawEncoder))
        (Recorder.start (fun _ => []) 0 (fun _ => none) .start) runBetween = some t ∧
      t.Complete (Concat rawTransducer.Frame) [] := by
  have hnone : ∀ r ∈ ([] : List Record), r.Valid := fun r hr => absurd hr List.not_mem_nil
  have h := complete_of_rotatesBetween .tty .little Timeval.tvSec (fun _ => []) 0 hnone
  constructor
  · exact ⟨_, rfl, h.1 rfl runBetween _ rfl (by decide)⟩
  · have hrun : (exec (step .tty .little Timeval.tvSec (fwriteWrapperZstd rawEncoder .default bufsiz)
        (fcloseWrapperZstd rawEncoder)) (Recorder.start (fun _ => []) 0 (fun _ => none) .start)
        runBetween).isSome := by decide +kernel
    obtain ⟨t, ht⟩ := Option.isSome_iff_exists.mp hrun
    exact ⟨t, ht, h.2 rawEncoder_lawful .default bufsiz le_rfl .nil runBetween t ht
      (by decide +kernel)⟩

/-! ### A rotation inside of a record -/

/-- Decoding the files in the order in which they were opened gives the records of a
recording that is complete. -/
theorem Recorder.Complete.decode {t : Recorder Unit N} {rs₀ : List Record}
    (h : t.Complete Eq rs₀) (hend : ¬ t.pc.Live) :
    (t.closed.flatMap fun n => records (t.disk n)) = rs₀ ++ t.recorded := by
  obtain ⟨segs, hfiles, -, hall⟩ := h
  rw [← hall hend]
  clear hall
  generalize t.closed = names at hfiles
  induction names generalizing segs with
  | nil =>
    cases hfiles
    rfl
  | cons n names ih =>
    rcases hfiles with _ | ⟨⟨-, hx, hrec⟩, hrest⟩
    rw [List.flatMap_cons, List.flatten_cons, hx, hrec, ih _ hrest]

/-- A chunk of one byte, with a rotation behind its header. -/
def runInside : List Event :=
  [.read .stdout (.data [65]), .check (.ofSec 1000), .write (.sent 1),
    .header fun _ => 1000, .usr1 ⟨1000, 5⟩ ⟨1000, 6⟩ true, .payload fun _ => 1000, .account,
    .read .stdout .eof, .finish 0]

/-- **A rotation inside of a record loses it**: the first file ends with the header
and the second one is the payload. -/
theorem rotation_cuts_record :
    ∃ t, exec (step .tty .little Timeval.tvSec fwriteNone fcloseNone)
        (Recorder.start (fun _ => []) 0 (fun _ => none) ()) runInside = some t ∧
      t.closed.map t.disk = [[232, 3, 0, 0, 0, 0, 0, 0, 1, 0, 0, 0], [65]] ∧
      t.recorded = [⟨⟨⟨1000, 0⟩, 1⟩, [65]⟩] ∧ ¬ t.Complete Eq [] := by
  refine ⟨_, rfl, rfl, rfl, ?_⟩
  intro h
  have hdecode := h.decode id
  have h₀ : records [232, 3, 0, 0, 0, 0, 0, 0, 1, 0, 0, 0] = [] := records_of_next_none rfl
  have h₁ : records [65] = [] := records_of_next_none rfl
  have hnil : records [232, 3, 0, 0, 0, 0, 0, 0, 1, 0, 0, 0] ++ (records [65] ++ []) =
      [⟨⟨⟨1000, 0⟩, 1⟩, [65]⟩] := hdecode
  rw [h₀, h₁] at hnil
  cases hnil

end TtyRec
