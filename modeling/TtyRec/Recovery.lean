import TtyRec.Relay
import TtyRec.Rotation
import TtyRec.Zstd.Follow

/-!
# What is left when the recorder is killed

The recording process can be killed between any two of its system calls, and then nothing of what
it would still do happens.  A chunk goes to the terminal before it goes to the recording, so the
recording is behind the terminal by one chunk at most.

## Main definitions

* `Recorder.recovered` — what the files decode to when the process is killed here.
* `ShowsWhole` — no `write` to the terminal is short, or interrupted.
* `ShownInv` — what has been shown, and what has been recorded of it.

## Main results

* `recovered_eq` — what the files of a plain recording decode to, at every moment.
* `shown_recovered` — **only the last chunk of what was shown can be missing.**
-/

namespace TtyRec

open Run StreamCodec

variable {S N : Type*}

/-! ### What was shown -/

/-- What has been shown and not been handed to `write_header` yet. -/
def Pc.unsaved : Pc → List UInt8
  | .header c _ => c.bytes
  | _ => []

/-- The chunk that the loop works on, from its read to the end of its record. -/
def Pc.chunk? : Pc → Option Chunk
  | .check c | .write c _ | .header c _ | .payload c _ | .account c => some c
  | .read | .waiting | .exited _ | .hung => none

/-- Nothing is on its way from the terminal to the recording. -/
def Pc.Between : Pc → Prop
  | .read | .check _ | .write _ _ | .account _ | .waiting => True
  | .header _ _ | .payload _ _ | .exited _ | .hung => False

theorem Pc.InRecord.exists_eq {pc : Pc} (h : pc.InRecord) : ∃ c hdr, pc = .payload c hdr := by
  cases pc with
  | payload c hdr => exact ⟨c, hdr, rfl⟩
  | _ => exact h.elim

theorem Pc.InRecord.live {pc : Pc} (h : pc.InRecord) : pc.Live := by
  obtain ⟨c, hdr, rfl⟩ := h.exists_eq
  trivial

theorem Pc.Between.spec {pc : Pc} (h : pc.Between) :
    pc.Live ∧ pc.unsaved = [] ∧ ¬ pc.InRecord := by
  cases pc <;> first | exact ⟨trivial, rfl, id⟩ | exact h.elim

/-- A `write` to the terminal is complete, or it fails for good. -/
def ShowsWhole (s : Recorder S N) (e : Event) : Prop := OutputWhole s e ∧ e ≠ .write .eintr

instance (s : Recorder S N) : ∀ e, Decidable (ShowsWhole s e)
  | .write .eintr => .isFalse fun h => h.2 rfl
  | .write (.sent n) => decidable_of_iff (OutputWhole s (.write (.sent n))) (by simp [ShowsWhole])
  | .write .error => .isTrue ⟨trivial, by simp⟩
  | .read _ _ | .selectFailed | .check _ | .header _ | .payload _ | .account | .usr1 _ _ _ | .urg
  | .usr2 | .finish _ => .isTrue ⟨trivial, by simp⟩

/-- What has been shown in a terminal, and what has been recorded of it: the same bytes, but for the
chunk that is between its `write` and its record.  When the process has ended, that chunk may be
missing for good. -/
structure ShownInv (s : Control N) : Prop where
  ok : s.pc.Ok
  chunk : ∀ c ∈ s.pc.chunk?, c.fd = .stdout ∧ c.dontWrite = false
  shown : s.pc.Live →
    outputOf .stdout s.sent = s.recorded.flatMap Record.payload ++ s.pc.unsaved
  current : ∀ c h, s.pc = .payload c h → ∃ rs, s.recorded = rs ++ [⟨h, c.bytes⟩]
  ended : ¬ s.pc.Live → ∃ rest, outputOf .stdout s.sent =
    s.recorded.flatMap Record.payload ++ rest ∧ rest.length ≤ bufsiz

section Shown

variable {cfg : Config} {s t : Control N} {e : Event}

theorem shownInv_start (disk : N → List UInt8) (name : N) (short : ℕ → Option ℕ) (wrapper : S) :
    ShownInv (Recorder.start disk name short wrapper).toControl where
  ok := trivial
  chunk := by simp [Recorder.start, Pc.chunk?]
  shown _ := rfl
  current := by simp [Recorder.start]
  ended h := absurd trivial h

/-- What is shown and not recorded is one chunk at most. -/
theorem ShownInv.length_le (h : ShownInv s) : s.pc.unsaved.length ≤ bufsiz := by
  have hok := h.ok
  cases hpc : s.pc with
  | header c hdr =>
    rw [hpc] at hok
    exact hok.2.1
  | _ => simp [Pc.unsaved]

/-- A read in a terminal gives a chunk of the terminal. -/
theorem chunk_of_read {fd : Fd} {bytes : List UInt8} (htty : cfg.useTty = true)
    (h : stepControl cfg s (.read fd (.data bytes)) = some t) :
    t.pc.chunk? = some ⟨.stdout, bytes, false⟩ := by
  unfold stepControl at h
  dsimp only at h
  split at h
  · rw [if_pos htty] at h
    cases fd with
    | stderr => cases h
    | stdout =>
      rw [readTty] at h
      split_ifs at h
      cases h
      rfl
  · cases h

/-- A step that shows nothing and records nothing. -/
theorem ShownInv.move (h : ShownInv s) (hs : s.pc.Between) (ht : t.pc.Between) (hok : t.pc.Ok)
    (hchunk : ∀ c ∈ t.pc.chunk?, c.fd = .stdout ∧ c.dontWrite = false)
    (hsent : outputOf .stdout t.sent = outputOf .stdout s.sent)
    (hrecorded : t.recorded = s.recorded) : ShownInv t where
  ok := hok
  chunk := hchunk
  shown _ := by
    have hshown := h.shown hs.spec.1
    rw [hs.spec.2.1] at hshown
    rw [hsent, hrecorded, ht.spec.2.1, hshown]
  current := by
    intro c hdr hpc
    exact absurd (by rw [hpc]; trivial) ht.spec.2.2
  ended hdead := absurd ht.spec.1 hdead

/-- A handler that draws on the terminal. -/
theorem ShownInv.handler (h : ShownInv s) (hpc : t.pc = s.pc)
    (hsent : outputOf .stdout t.sent = outputOf .stdout s.sent)
    (hrecorded : t.recorded = s.recorded) : ShownInv t := by
  obtain ⟨hok, hchunk, hshown, hcurrent, hended⟩ := h
  rw [← hpc, ← hrecorded] at hcurrent
  rw [← hpc] at hok hchunk
  rw [← hpc, ← hrecorded, ← hsent] at hshown hended
  exact ⟨hok, hchunk, hshown, hcurrent, hended⟩

/-- **A step that leaves the recording alone.** -/
theorem ShownInv.control (h : ShownInv s)
    (hwhole : ∀ c hdr n, s.pc = .write c hdr → e = .write (.sent n) → c.bytes.length ≤ n)
    (heintr : e ≠ .write .eintr)
    (hread : ∀ fd bytes, e = .read fd (.data bytes) → t.pc.chunk? = some ⟨.stdout, bytes, false⟩)
    (hsteps : ControlSteps cfg s e t) : ShownInv t := by
  have hq := hsteps.quiet
  have hok := hq.ok h.ok
  have hchunk := h.chunk
  cases hsteps with
  | @data fd bytes _ hpc =>
    refine h.move (by rw [hpc]; trivial) trivial hok ?_ rfl rfl
    intro c hc
    rw [hread fd bytes rfl] at hc
    cases hc
    exact ⟨rfl, rfl⟩
  | eintr => exact h
  | selectFailed => exact h
  | ttyEnds hpc =>
    exact h.move (by rw [hpc]; trivial) trivial hok (by simp [Pc.chunk?]) rfl rfl
  | @pipeEnds fd _ hpc =>
    have hpc' := closePipe_pc fd hpc
    refine h.move (by rw [hpc]; trivial) ?_ hok ?_ (by simp) (by simp)
    · rcases hpc' with hpc' | hpc' <;> rw [hpc'] <;> trivial
    · rcases hpc' with hpc' | hpc' <;> simp [hpc', Pc.chunk?]
  | @check c now hpc =>
    rw [hpc] at hchunk
    unfold checkLock at hok ⊢
    split at hok
    next hlocked =>
      rw [if_pos hlocked]
      exact h.move (by rw [hpc]; trivial) trivial hok (by simp [Pc.chunk?]) rfl rfl
    next hlocked =>
      rw [if_neg hlocked]
      exact h.move (by rw [hpc]; trivial) trivial hok hchunk rfl rfl
  | @sent c hdr n hpc =>
    -- the chunk is shown, and the header is next
    rw [hpc] at hchunk
    obtain ⟨hfd, hmark⟩ := hchunk c rfl
    have hafter : afterWrite c hdr = .header c hdr := by simp [afterWrite, hmark]
    have hshown := h.shown (by simp [hpc, Pc.Live])
    rw [hafter] at hok ⊢
    refine ⟨hok, hchunk, fun _ => ?_, by simp, fun hdead => absurd trivial hdead⟩
    rw [hpc] at hshown
    rw [outputOf_append, hshown]
    simp [outputOf, Pc.unsaved, hfd, List.take_of_length_le (hwhole c hdr n hpc rfl)]
  | writeEintr => exact absurd rfl heintr
  | writeError hpc =>
    exact h.move (by rw [hpc]; trivial) trivial hok (by simp [Pc.chunk?]) rfl rfl
  | account hpc =>
    exact h.move (by rw [hpc]; trivial) trivial hok (by simp [Pc.chunk?]) rfl rfl
  | urg => exact h.handler (lockScreen_pc s) (outputOf_lockScreen _ s) hq.recorded
  | usr2 => exact h.handler (unlockScreen_pc s) (outputOf_unlockScreen _ s) hq.recorded

end Shown

/-- The process ends: what was shown last may be missing. -/
theorem ShownInv.die {s t : Control N} (h : ShownInv s) (hlive : s.pc.Live)
    (hsent : outputOf .stdout t.sent = outputOf .stdout s.sent) (hrecorded : t.recorded = s.recorded)
    {status : ℕ} (hpc : t.pc = .exited status) : ShownInv t where
  ok := by rw [hpc]; trivial
  chunk := by simp [hpc, Pc.chunk?]
  shown hl := by
    rw [hpc] at hl
    exact hl.elim
  current := by simp [hpc]
  ended _ := ⟨_, by rw [hsent, hrecorded]; exact h.shown hlive, h.length_le⟩

section Machine

variable [DecidableEq N] {cfg : Config} {host : Host} {fileName : Timeval → N}
  {fwriteWrapper : FwriteWrapper S} {fcloseWrapper : FcloseWrapper S} {s t : Recorder S N}
  {e : Event}

omit [DecidableEq N] in
/-- A call of a wrapper: what is recorded is in step with what is shown. -/
theorem ShownInv.afterCall {α : Type} (pc : Pc) (hok : pc.Ok)
    (hchunk : ∀ c ∈ pc.chunk?, c.fd = .stdout ∧ c.dontWrite = false) (hun : pc.unsaved = [])
    (hshown : outputOf .stdout s.sent = s.recorded.flatMap Record.payload)
    (hcurrent : ∀ c h, pc = .payload c h → ∃ rs, s.recorded = rs ++ [⟨h, c.bytes⟩])
    (r : Outcome (α × (OutFile × S))) : ShownInv (Recorder.afterCall s pc r).toControl := by
  cases r with
  | ret x =>
    refine ⟨hok, hchunk, fun _ => ?_, hcurrent, fun _ => ⟨[], ?_, Nat.zero_le _⟩⟩
    · rw [Recorder.afterCall, hun, List.append_nil]
      exact hshown
    · rw [List.append_nil]
      exact hshown
  | exit status =>
    refine ⟨trivial, by simp [Recorder.afterCall, Pc.chunk?], fun hl => hl.elim,
      by simp [Recorder.afterCall], fun _ => ⟨[], ?_, Nat.zero_le _⟩⟩
    rw [List.append_nil]
    exact hshown
  | spin =>
    refine ⟨trivial, by simp [Recorder.afterCall, Pc.chunk?], fun hl => hl.elim,
      by simp [Recorder.afterCall], fun _ => ⟨[], ?_, Nat.zero_le _⟩⟩
    rw [List.append_nil]
    exact hshown

/-- **A step of the recorder in a terminal**, however it writes the recording.  What is shown, and
what is still to be shown or still to be saved, are the same bytes before and after. -/
theorem ShownInv.step (htty : cfg.useTty = true) (h : ShownInv s.toControl) (hok : ShowsWhole s e)
    (hstep : TtyRec.step cfg host fileName fwriteWrapper fcloseWrapper s e = some t) :
    ShownInv t.toControl := by
  cases step_steps hstep with
  | control hc =>
    refine h.control ?_ hok.2 ?_ hc
    · rintro c hdr n hpc rfl
      have hwhole := hok.1
      simp only [OutputWhole, hpc] at hwhole
      exact hwhole
    · rintro fd bytes rfl
      obtain ⟨c', hc', heq⟩ := Option.map_eq_some_iff.mp hstep
      have hctl := congrArg Recorder.toControl heq
      rw [← hctl]
      exact chunk_of_read htty hc'
  -- with its header the record is on the list, so nothing of the chunk is unsaved any more
  | @header c hdr now hpc =>
    have hok' := h.ok
    have hchunk := h.chunk
    have hshown := h.shown (by simp [hpc, Pc.Live])
    rw [hpc] at hok' hchunk hshown
    refine .afterCall (.payload c hdr) hok' hchunk rfl ?_ ?_ _
    · simpa [Pc.unsaved] using hshown
    · rintro c' hdr' ⟨⟩
      exact ⟨s.recorded, rfl⟩
  | @payload c hdr now hpc =>
    have hchunk := h.chunk
    have hshown := h.shown (by simp [hpc, Pc.Live])
    rw [hpc] at hchunk hshown
    refine .afterCall (.account c) trivial hchunk rfl ?_ (by simp) _
    simpa [Pc.unsaved] using hshown
  | @usr1 now named opens hlive =>
    -- a rotation shows nothing, and one that fails ends the process
    unfold swingOutputFile
    split_ifs
    · exact h.handler rfl rfl rfl
    · exact h.die hlive rfl rfl rfl
    · exact h
  | finish hpc =>
    have hu := h.handler (unlockScreen_pc s.toControl) (outputOf_unlockScreen _ _)
      (quiet_unlockScreen (s := s.toControl) (by rw [hpc]; trivial)).recorded
    exact hu.die (by rw [unlockScreen_pc, hpc]; trivial) rfl rfl rfl

/-- **A run**, by induction on its events. -/
theorem shownInv_exec (htty : cfg.useTty = true) (h : ShownInv s.toControl) {es : List Event}
    (hrun : exec (TtyRec.step cfg host fileName fwriteWrapper fcloseWrapper) s es = some t)
    (hok : Along (TtyRec.step cfg host fileName fwriteWrapper fcloseWrapper) ShowsWhole s es) :
    ShownInv t.toControl :=
  exec_invariant_along (I := fun s : Recorder S N => ShownInv s.toControl)
    (fun _ _ _ hs he hstep => hs.step htty he hstep) hok hrun h

end Machine

/-! ### What the files decode to -/

/-- The beginning of a record is not decoded. -/
theorem records_torn {rs : List Record} (hrs : ∀ r ∈ rs, r.Valid) {r : Record} (hr : r.Valid)
    {zs : List UInt8} (hzs : zs <+: r.encode) (hlen : zs.length < 12 + r.payload.length) :
    records (rs.flatMap Record.encode ++ zs) = rs := by
  have hnone : nextRecord zs = none := nextRecord_of_prefix hr [] (by simpa using hzs) hlen
  rw [records_flatMap_encode hrs, records_of_next_none hnone, List.append_nil]

/-- What the files of a plain recording decode to when the process is killed here. -/
def Recorder.recovered (t : Recorder S N) : List Record :=
  (t.closed.flatMap fun n => records (t.disk n)) ++
    if t.pc.Live then records t.fscript.data else []

section Plain

variable {rs₀ last : List Record} {segs : List (List Record)} {t : Recorder Unit N}

/-- The files that were closed. -/
theorem RecordInv.records_closed (h : RecordInv rs₀ t segs last) :
    (t.closed.flatMap fun n => records (t.disk n)) = segs.flatten := by
  have hvalid : ∀ rs ∈ segs, ∀ r ∈ rs, r.Valid := by
    intro rs hrs r hr
    refine h.valid r ?_
    rw [← h.all]
    exact List.mem_append_left _ (List.mem_flatten.mpr ⟨rs, hrs, hr⟩)
  have hmap : (t.closed.map t.disk).flatMap records = segs.flatten := by
    rw [h.files, List.flatMap_map, List.flatMap_def]
    congr 1
    refine (List.map_congr_left fun rs hrs => ?_).trans (List.map_id segs)
    have hdecode := records_flatMap_encode (hvalid rs hrs) []
    rwa [List.append_nil, records_nil, List.append_nil] at hdecode
  rw [← hmap, List.flatMap_map]

/-- **What the files of a plain recording decode to, at every moment**: all records that were
handed to the recording, but for the one whose payload is not written yet. -/
theorem RecordInv.recovered_eq (h : RecordInv rs₀ t segs last) (hs : ShownInv t.toControl) :
    t.recovered = if t.pc.InRecord then (rs₀ ++ t.recorded).dropLast else rs₀ ++ t.recorded := by
  have hlast : ∀ r ∈ last, r.Valid := fun r hr => h.valid r (by
    rw [← h.all]
    exact List.mem_append_right _ hr)
  rw [Recorder.recovered, h.records_closed, ← h.all]
  by_cases hlive : t.pc.Live
  · rw [if_pos hlive]
    have hscript := h.script hlive
    by_cases hin : t.pc.InRecord
    · -- the header of the last record is in the file
      rw [if_pos hin]
      obtain ⟨c, hdr, hpc⟩ := hin.exists_eq
      rw [hpc] at hscript
      obtain ⟨rs, hrs⟩ := hs.current c hdr hpc
      have hok := hs.ok
      rw [hpc] at hok
      have hr : (⟨hdr, c.bytes⟩ : Record).Valid := Record.valid_of_ok hok
      have hall := h.all
      rw [hrs, ← List.append_assoc] at hall
      rcases List.eq_nil_or_concat last with rfl | ⟨last', r, rfl⟩
      · have hbytes := (List.append_eq_nil_iff.mp hscript).2
        exact absurd hbytes hok.1
      · rw [List.concat_eq_append, ← List.append_assoc] at hall
        obtain ⟨-, hr'⟩ := List.append_inj' hall rfl
        obtain rfl : r = ⟨hdr, c.bytes⟩ := List.singleton_inj.mp hr'
        have hdata : t.fscript.data = last'.flatMap Record.encode ++ headerBytes .little hdr := by
          rw [List.concat_eq_append, List.flatMap_append, List.flatMap_singleton, Record.encode,
            ← List.append_assoc] at hscript
          exact List.append_cancel_right hscript
        rw [hdata, records_torn (fun r hr => hlast r (by simp [hr])) hr, List.concat_eq_append,
          ← List.append_assoc, List.dropLast_concat]
        · exact List.prefix_append _ _
        · have hpos := List.length_pos_iff.mpr hok.1
          rw [length_headerBytes]
          dsimp only
          omega
    · rw [Pc.pending_eq_nil hin, List.append_nil] at hscript
      rw [if_neg hin, hscript]
      have hdecode := records_flatMap_encode hlast []
      rw [List.append_nil, records_nil, List.append_nil] at hdecode
      rw [hdecode]
  · rw [if_neg hlive, h.ended hlive, if_neg fun hin => hlive hin.live, List.append_nil]

/-- What was shown, and what the files decode to. -/
theorem RecordInv.exists_missing (h : RecordInv rs₀ t segs last) (hs : ShownInv t.toControl) :
    ∃ missing, missing.length ≤ bufsiz ∧
      rs₀.flatMap Record.payload ++ outputOf .stdout t.sent =
        t.recovered.flatMap Record.payload ++ missing := by
  have hrec := h.recovered_eq hs
  by_cases hlive : t.pc.Live
  · rw [hs.shown hlive, hrec]
    by_cases hin : t.pc.InRecord
    · obtain ⟨c, hdr, hpc⟩ := hin.exists_eq
      obtain ⟨rs, hrs⟩ := hs.current c hdr hpc
      have hcok := hs.ok
      rw [hpc] at hcok
      refine ⟨c.bytes, hcok.2.1, ?_⟩
      rw [if_pos hin, hrs, ← List.append_assoc rs₀, List.dropLast_concat, hpc]
      simp [Pc.unsaved]
    · refine ⟨t.pc.unsaved, hs.length_le, ?_⟩
      rw [if_neg hin, List.flatMap_append, List.append_assoc]
  · obtain ⟨rest, hrest, hle⟩ := hs.ended hlive
    refine ⟨rest, hle, ?_⟩
    rw [hrest, hrec, if_neg fun hin => hlive hin.live, List.flatMap_append, List.append_assoc]

end Plain

/-- **Only the last chunk of what was shown can be missing.**  In every run in a terminal whose
rotations are between records and open new names, and whose writes to the terminal are complete,
the files decode, whenever the process is killed, to everything that has been shown, but for at
most the last chunk of it. -/
theorem shown_recovered [DecidableEq N] {cfg : Config} (htty : cfg.useTty = true) (host : Host)
    (fileName : Timeval → N) (disk : N → List UInt8) (name : N) {rs₀ : List Record}
    (hrs₀ : ∀ r ∈ rs₀, r.Valid) (hdisk : disk name = rs₀.flatMap Record.encode) {es : List Event}
    {t : Recorder Unit N}
    (hrun : exec (step cfg host fileName fwriteNone fcloseNone)
      (Recorder.start disk name (fun _ => none) ()) es = some t)
    (hok : Along (step cfg host fileName fwriteNone fcloseNone)
      (fun s e => RotatesBetween fileName s.toControl e ∧ ShowsWhole s e)
      (Recorder.start disk name (fun _ => none) ()) es) :
    ∃ missing, missing.length ≤ bufsiz ∧
      rs₀.flatMap Record.payload ++ outputOf .stdout t.sent =
        t.recovered.flatMap Record.payload ++ missing := by
  have hshown := shownInv_exec htty (shownInv_start disk name (fun _ => none) ()) hrun
    (hok.mono fun _ _ h => h.2)
  obtain ⟨segs, last, hinv⟩ := recordInv_exec (recordInv_start hrs₀ hdisk) hrun
    (hok.mono fun _ _ h => h.1)
  exact hinv.exists_missing hshown

/-- Two chunks of one byte with a rotation between them, killed behind the second header. -/
theorem shown_recovered_killed :
    ∃ t, exec (step .tty .little Timeval.tvSec fwriteNone fcloseNone)
        (Recorder.start (fun _ => []) 0 (fun _ => none) ()) (runBetween.take 11) = some t ∧
      ∃ missing, missing.length ≤ bufsiz ∧
        outputOf .stdout t.sent = t.recovered.flatMap Record.payload ++ missing := by
  have hnone : ∀ r ∈ ([] : List Record), r.Valid := fun r hr => absurd hr List.not_mem_nil
  have hrun : exec (step .tty .little Timeval.tvSec fwriteNone fcloseNone)
    (Recorder.start (fun _ => []) 0 (fun _ => none) ()) (runBetween.take 11) = some _ := rfl
  exact ⟨_, hrun, shown_recovered rfl .little Timeval.tvSec (fun _ => []) 0 hnone rfl hrun
    (by decide)⟩

end TtyRec
