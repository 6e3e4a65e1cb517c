import TtyRec.Chronology
import TtyRec.CommandLine
import TtyRec.Sessions

/-!
# From the command line to the player

The options of ttyrec set the wrappers that write the recording, and the suffix of its name.
ttyplay looks at the suffix, and sets the wrappers that read it.  Between the two are the
rotations, each with a name of its own.

## Main definitions

* `playsZstd`, `ttyplayName` — which wrappers ttyplay sets, and what it shows of a file.
* `Invocation.Sound.zconfig` — the options of compression, after the checks of `main`.
* `Invocation.Sound.Records` — the runs of the recording process that `main` starts.

## Main results

* `played_by_name` — **every file that is closed plays back as it was recorded**, without an
  option, after every command line that is accepted.
-/

namespace TtyRec

open Run StreamCodec

variable {C D : Type}

/-! ### The player -/

/-- `.zst`, which tells the player to decompress. -/
def zstSuffix : List UInt8 := [0x2e, 0x7a, 0x73, 0x74]

/-- Whether `main` of ttyplay sets the wrappers of zstd: `optZ` is `-Z`, which it only has with
zstd. -/
def playsZstd (b : Build) (optZ : Bool) (name : List UInt8) : Bool :=
  b.haveZstd &&
    (optZ || decide (4 ≤ name.length ∧ name.drop (name.length - 4) = zstSuffix))

theorem playsZstd_iff {b : Build} {optZ : Bool} {name : List UInt8} :
    playsZstd b optZ name = true ↔ b.haveZstd = true ∧ (optZ = true ∨ zstSuffix <:+ name) := by
  have hlen : zstSuffix <:+ name → 4 ≤ name.length := fun h => h.length_le
  have hdrop : zstSuffix <:+ name ↔ name.drop (name.length - 4) = zstSuffix :=
    List.suffix_iff_eq_drop.trans eq_comm
  rw [playsZstd, Bool.and_eq_true, Bool.or_eq_true, decide_eq_true_eq, ← hdrop,
    and_iff_right_of_imp hlen]

/-- The records that are shown, and how it stops. -/
def Play.shown {S W : Type} (play : Play S W) : List Record × Stop := (play.records, play.stop)

/-- `ttyplay NAME`: the suffix of the name or `-Z` chooses the wrapper, and then the file is played.
-/
def ttyplayName (b : Build) (host : Host) (dec : Decoder D UInt8 UInt8) (fuel : ℕ)
    (waitFunc : Timeval → Timeval → List (List UInt8) → List (List UInt8)) (n : ℕ) (optZ : Bool)
    (disk : List UInt8 → List UInt8) (name : List UInt8) : List Record × Stop :=
  if playsZstd b optZ name = true then
    (ttyplayback host (freadWrapperZstd dec fuel) (fun _ => true) waitFunc n
      (InFile.ofBytes (disk name), none)).shown
  else
    (ttyplayback host freadNone (fun _ => true) waitFunc n (InFile.ofBytes (disk name), ())).shown

/-! ### The recording process -/

section Records

variable {b : Build} {env : Env} {inv : Invocation}

/-- The options of compression, which the checks of `main` have made good. -/
def Invocation.Sound.zconfig (h : inv.Sound b env) : ZConfig where
  compressLevel := inv.compressLevel
  maxFlush := inv.times.maxFlush
  level_ok := h.level.imp_left fun hlevel => by omega
  maxFlush_pos := h.times.maxFlush_pos

/-- The name that `main` opens. -/
def Invocation.name (inv : Invocation) (env : Env) : List UInt8 :=
  inv.first.name (inv.nameConfig env)

/-- The disk after `fopen`, with mode `a` or `w`. -/
def Invocation.openScript (inv : Invocation) (env : Env) (disk : List UInt8 → List UInt8) :
    List UInt8 → List UInt8 :=
  if inv.append = true then disk else Function.update disk (inv.name env) []

/-- The wrappers `fwriteWrapper` and `fcloseWrapper` are run on the events `es`.  Rotations are
between records and open new files, and there is no file without a name. -/
structure Invocation.Runs {S : Type} (inv : Invocation) (env : Env) (host : Host)
    (fwriteWrapper : FwriteWrapper S) (fcloseWrapper : FcloseWrapper S) (wrapper : S)
    (disk : List UInt8 → List UInt8) (es : List Event) (t : Recorder S (List UInt8)) : Prop where
  exec : exec (step inv.config host (fileName (inv.nameConfig env)) fwriteWrapper fcloseWrapper)
    (Recorder.start (inv.openScript env disk) (inv.name env) (fun _ => none) wrapper) es = some t
  between : Along (step inv.config host (fileName (inv.nameConfig env)) fwriteWrapper fcloseWrapper)
    (fun s e => RotatesBetween (fileName (inv.nameConfig env)) s.toControl e)
    (Recorder.start (inv.openScript env disk) (inv.name env) (fun _ => none) wrapper) es
  named : ∀ tv ∈ collect
      (step inv.config host (fileName (inv.nameConfig env)) fwriteWrapper fcloseWrapper) openedAt
      (Recorder.start (inv.openScript env disk) (inv.name env) (fun _ => none) wrapper) es,
    (setTtyrecFileName (inv.nameConfig env) tv).isSome = true

/-- The recording process, with the wrappers that the options have set. -/
inductive Invocation.Sound.Records (h : inv.Sound b env) (enc : Encoder C UInt8 UInt8) (host : Host)
    (disk : List UInt8 → List UInt8) (es : List Event) :
    Control (List UInt8) → (List UInt8 → List UInt8) → Prop where
  | plain (hmode : inv.compress = false) {t : Recorder Unit (List UInt8)}
    (hruns : inv.Runs env host fwriteNone fcloseNone () disk es t) :
    Records h enc host disk es t.toControl t.disk
  | zstd (hmode : inv.compress = true) {t : Recorder (ZWriter C) (List UInt8)}
    (hruns : inv.Runs env host (fwriteWrapperZstd enc h.zconfig bufsiz) (fcloseWrapperZstd enc)
      .start disk es t) :
    Records h enc host disk es t.toControl t.disk

/-- A file holds these records, in the format of the wrappers. -/
def Invocation.Holds (inv : Invocation) (Frame : List UInt8 → List UInt8 → Prop)
    (data : List UInt8) (rs : List Record) : Prop :=
  if inv.compress = true then Concat Frame data (rs.flatMap Record.encode)
  else data = rs.flatMap Record.encode

/-- With zstd every name ends in `.zst`: the first, given or generated, and the names of all
rotations. -/
theorem Invocation.Runs.suffix {S : Type} {host : Host} {fwriteWrapper : FwriteWrapper S}
    {fcloseWrapper : FcloseWrapper S} {wrapper : S} {disk : List UInt8 → List UInt8}
    {es : List Event} {t : Recorder S (List UInt8)} (h : inv.Sound b env)
    (hmode : inv.compress = true)
    (hruns : inv.Runs env host fwriteWrapper fcloseWrapper wrapper disk es t) :
    ∀ name ∈ t.closed, zstSuffix <:+ name := by
  have hsuffix : (inv.nameConfig env).suffix = zstSuffix := if_pos (h.mode.trans hmode)
  have hfile : ∀ tv, (setTtyrecFileName (inv.nameConfig env) tv).isSome = true →
      zstSuffix <:+ fileName (inv.nameConfig env) tv := by
    intro tv hsome
    -- a generated name is cut before the suffix is put on, a format must leave room for it
    unfold setTtyrecFileName at hsome
    unfold fileName setTtyrecFileName
    split
    · rw [Option.getD_some, hsuffix]
      exact List.suffix_append _ _
    next namefmt hformat =>
      rw [hformat] at hsome
      dsimp only at hsome
      split at hsome
      next hfits =>
        rw [if_pos hfits, Option.getD_some, hsuffix]
        exact List.suffix_append _ _
      next => cases hsome
  have hfirst : zstSuffix <:+ inv.name env := by
    have hnamed := h.named
    rw [Invocation.Named] at hnamed
    rw [Invocation.name]
    cases hfirst : inv.first with
    | given fname =>
      rw [First.name, hsuffix]
      exact List.suffix_append _ _
    | generated tv =>
      rw [hfirst] at hnamed
      exact hfile tv hnamed
  intro name hname
  have hmem := (closed_prefix_namesFrom hruns.exec).subset hname
  rw [namesFrom, Recorder.start, List.nil_append, List.mem_cons] at hmem
  rcases hmem with rfl | hmem
  · exact hfirst
  · obtain ⟨tv, htv, rfl⟩ := List.mem_map.mp hmem
    exact hfile tv (hruns.named tv htv)

/-- A complete recording, name by name. -/
theorem Recorder.Complete.byName {S N : Type*} {Closed : List UInt8 → List UInt8 → Prop}
    {rs₀ : List Record} {t : Recorder S N} (h : t.Complete Closed rs₀) :
    ∃ segs : List (List Record),
      List.Forall₂ (fun name rs => records (rs.flatMap Record.encode) = rs ∧
        Closed (t.disk name) (rs.flatMap Record.encode)) t.closed segs ∧
      segs.flatten <+: rs₀ ++ t.recorded ∧ (¬ t.pc.Live → segs.flatten = rs₀ ++ t.recorded) := by
  obtain ⟨segs, hfiles, hall⟩ := h
  have hnames := List.forall₂_map_left_iff.mp hfiles
  refine ⟨segs, hnames.imp ?_, hall⟩
  rintro name rs ⟨-, hclosed, hrecords⟩
  exact ⟨hrecords, hclosed⟩

/-- **The files of such a run hold what was recorded**, in the format of the wrappers. -/
theorem Invocation.Sound.Records.complete {h : inv.Sound b env} {enc : Encoder C UInt8 UInt8}
    {Frame : List UInt8 → List UInt8 → Prop} (law : enc.Lawful Frame) {host : Host}
    {disk : List UInt8 → List UInt8} {rs₀ : List Record} (hrs₀ : ∀ r ∈ rs₀, r.Valid)
    (hdisk : inv.Holds Frame (inv.openScript env disk (inv.name env)) rs₀) {es : List Event}
    {ctl : Control (List UInt8)} {disk' : List UInt8 → List UInt8}
    (hrun : h.Records enc host disk es ctl disk') :
    ∃ segs : List (List Record),
      List.Forall₂ (fun name rs => records (rs.flatMap Record.encode) = rs ∧
        inv.Holds Frame (disk' name) rs) ctl.closed segs ∧
      segs.flatten <+: rs₀ ++ ctl.recorded ∧ (¬ ctl.pc.Live → segs.flatten = rs₀ ++ ctl.recorded) := by
  unfold Invocation.Holds at hdisk ⊢
  cases hrun with
  | @plain hmode t hruns =>
    simp only [hmode, Bool.false_eq_true, if_false] at hdisk ⊢
    obtain ⟨segs, last, hinv⟩ :=
      recordInv_exec (recordInv_start hrs₀ hdisk) hruns.exec hruns.between
    have hcomplete : t.Complete Eq rs₀ := complete_of_recordInv hinv rfl fun _ _ => rfl
    exact hcomplete.byName
  | @zstd hmode t hruns =>
    simp only [hmode, if_true] at hdisk ⊢
    -- the plain recorder that starts from the plaintext
    have hkeeps := keeps_fwriteWrapperZstd law h.zconfig bufsiz
    have hstart : Refines (ZRep enc) (Concat Frame) ∅
        (Recorder.start (Function.update (inv.openScript env disk) (inv.name env)
          (rs₀.flatMap Record.encode)) (inv.name env) (fun _ => none) ())
        (Recorder.start (inv.openScript env disk) (inv.name env) (fun _ => none)
          (ZWriter.start : ZWriter C)) := by
      refine refines_start hkeeps (fun n hn => hn.elim) ?_ rfl
      rw [Function.update_self]
      exact hdisk
    obtain ⟨s, hexec, href, hbetween⟩ := refines_exec hkeeps le_rfl appends_concat
      (RotatesBetween (fileName (inv.nameConfig env))) hstart hruns.exec hruns.between
    obtain ⟨segs, last, hinv⟩ :=
      recordInv_exec (recordInv_start hrs₀ (Function.update_self ..)) hexec hbetween
    have hcomplete : t.Complete (Concat Frame) rs₀ :=
      complete_of_recordInv hinv href.control fun n hn => href.disk n (.inr hn)
    exact hcomplete.byName

/-- ttyplay opens the files of such a run with the wrappers that wrote them. -/
theorem Invocation.Sound.Records.playsZstd {b' : Build} {h : inv.Sound b env}
    {enc : Encoder C UInt8 UInt8} {host : Host} {disk : List UInt8 → List UInt8} {es : List Event}
    {ctl : Control (List UInt8)} {disk' : List UInt8 → List UInt8}
    (hrun : h.Records enc host disk es ctl disk')
    (hplayer : inv.compress = true → b'.haveZstd = true) {optZ : Bool}
    (hoptZ : optZ = true → inv.compress = true)
    (hplain : inv.compress = false → b'.haveZstd = true →
      ∀ name ∈ ctl.closed, ¬ zstSuffix <:+ name) :
    ∀ name ∈ ctl.closed, TtyRec.playsZstd b' optZ name = inv.compress := by
  intro name hname
  apply Bool.eq_iff_iff.mpr
  rw [playsZstd_iff]
  cases hrun with
  | plain hmode hruns =>
    -- neither `-Z` nor the name sets the wrappers of zstd
    apply iff_of_false
    · rintro ⟨hzstd, hZ | hsuffix⟩
      · rw [hoptZ hZ] at hmode
        cases hmode
      · exact hplain hmode hzstd name hname hsuffix
    · exact ne_true_of_eq_false hmode
  | zstd hmode hruns =>
    exact iff_of_true ⟨hplayer hmode, .inr (hruns.suffix h hmode name hname)⟩ hmode

end Records

/-- **A file that is opened with its own wrappers is shown as it was recorded.** The fuel is for the
loop of the decoder, which plain files do not enter. -/
theorem ttyplayName_of_holds {inv : Invocation} {dec : Decoder D UInt8 UInt8}
    {Frame : List UInt8 → List UInt8 → Prop} (law : dec.Lawful Frame) {b : Build} (host : Host)
    (waitFunc : Timeval → Timeval → List (List UInt8) → List (List UInt8)) {optZ : Bool}
    {disk : List UInt8 → List UInt8} {name : List UInt8}
    (hopens : playsZstd b optZ name = inv.compress) {rs : List Record}
    (hrs : records (rs.flatMap Record.encode) = rs) (hholds : inv.Holds Frame (disk name) rs) {n : ℕ}
    (hn : rs.length < n) :
    ∃ enough, ∀ fuel, enough ≤ fuel →
      ttyplayName b host dec fuel waitFunc n optZ disk name = (rs, .eof) := by
  rw [← hrs] at hn
  unfold Invocation.Holds at hholds
  unfold ttyplayName
  cases hmode : inv.compress with
  | true =>
    -- the file holds frames, and `read_zstd` decodes them
    rw [if_pos hmode] at hholds
    refine ⟨4 * (disk name).length + 4 * (rs.flatMap Record.encode).length + 2, ?_⟩
    intro fuel hfuel
    rw [if_pos (hopens.trans hmode)]
    obtain ⟨hrec, hstop⟩ := ttyplayback_serves host
      (serves_freadWrapperZstd law (disk name) fuel) (zserves_ofBytes law hholds (by omega))
      waitFunc hn
    rw [Play.shown, hrec, hstop, hrs]
  | false =>
    rw [if_neg (ne_true_of_eq_false hmode)] at hholds
    -- the file holds the bytes themselves
    refine ⟨0, fun _ _ => ?_⟩
    rw [if_neg (ne_true_of_eq_false (hopens.trans hmode))]
    have hat : (InFile.ofBytes (disk name), ()).1.At (disk name) := InFile.at_ofBytes (disk name)
    obtain ⟨hrec, hstop⟩ := ttyplayback_serves host serves_freadNone hat waitFunc (hholds ▸ hn)
    rw [Play.shown, hrec, hstop, hholds, hrs]

/-- **Every file that is closed plays back as it was recorded.**  After every command line that
`main` accepts, ttyplay sets the wrappers that wrote the file, with or without `-Z`, and shows its
records, to the end of the file; the files together hold all that was recorded.  The exception is a
plain recording whose own name ends in `.zst`. -/
theorem played_by_name {b b' : Build} {env : Env} {inv : Invocation} (h : inv.Sound b env)
    (hplayer : inv.compress = true → b'.haveZstd = true) {enc : Encoder C UInt8 UInt8}
    {dec : Decoder D UInt8 UInt8} {Frame : List UInt8 → List UInt8 → Prop} (elaw : enc.Lawful Frame)
    (dlaw : dec.Lawful Frame) (host host' : Host)
    (waitFunc : Timeval → Timeval → List (List UInt8) → List (List UInt8)) {optZ : Bool}
    (hoptZ : optZ = true → inv.compress = true) {disk : List UInt8 → List UInt8}
    {rs₀ : List Record} (hrs₀ : ∀ r ∈ rs₀, r.Valid)
    (hdisk : inv.Holds Frame (inv.openScript env disk (inv.name env)) rs₀) {es : List Event}
    {ctl : Control (List UInt8)} {disk' : List UInt8 → List UInt8}
    (hrun : h.Records enc host disk es ctl disk')
    (hplain : inv.compress = false → b'.haveZstd = true →
      ∀ name ∈ ctl.closed, ¬ zstSuffix <:+ name) :
    ∃ segs : List (List Record),
      List.Forall₂ (fun name rs => ∀ n, rs.length < n → ∃ enough, ∀ fuel, enough ≤ fuel →
        ttyplayName b' host' dec fuel waitFunc n optZ disk' name = (rs, .eof)) ctl.closed segs ∧
      segs.flatten <+: rs₀ ++ ctl.recorded ∧
      (¬ ctl.pc.Live → segs.flatten = rs₀ ++ ctl.recorded) := by
  have hopens := hrun.playsZstd hplayer hoptZ hplain
  obtain ⟨segs, hfiles, hall⟩ := hrun.complete elaw hrs₀ hdisk
  refine ⟨segs, ?_, hall⟩
  apply ((List.forall₂_and_left _ _).mpr ⟨hopens, hfiles⟩).imp
  rintro name rs ⟨hname, hrs, hholds⟩ n hn
  exact ttyplayName_of_holds dlaw host' waitFunc hname hrs hholds hn

/-- A machine with everything. -/
def Build.full : Build := ⟨true, true⟩

/-- A user in a terminal. -/
def Env.terminal : Env where
  shell := [0x73, 0x68]
  pid := 7
  stdinIsatty := true
  now := ⟨1000, 0⟩
  zone := .utc
  strftime namefmt _ := namefmt
  dirname _ := [0x2e]

/-- `ttyrec -Z`. -/
def justZstd : Invocation := Args.invocation .full .terminal { Args.default with
  compress := true
  optZstd := 1 } []

theorem justZstd_sound : justZstd.Sound .full .terminal := by
  have haccepts : ttyrecMain .full .terminal [.zstd] [] = .ok justZstd := rfl
  exact sound_of_ttyrecMain haccepts

/-- A compressed session with one rotation: the files that were closed are shown again. -/
theorem played_by_name_justZstd :
    ∃ ctl disk', justZstd_sound.Records rawEncoder .little (fun _ => []) runBetween ctl disk' ∧
      ∃ segs : List (List Record),
        List.Forall₂ (fun name rs => ∀ n, rs.length < n → ∃ enough, ∀ fuel, enough ≤ fuel →
          ttyplayName .full .big rawDecoder fuel (fun _ _ out => out) n false disk' name =
            (rs, .eof)) ctl.closed segs ∧
        segs.flatten = [⟨⟨⟨1000, 0⟩, 1⟩, [65]⟩, ⟨⟨⟨1001, 0⟩, 1⟩, [66]⟩] := by
  have hend : ((exec (step justZstd.config .little (fileName (justZstd.nameConfig .terminal))
      (fwriteWrapperZstd rawEncoder justZstd_sound.zconfig bufsiz) (fcloseWrapperZstd rawEncoder))
      (Recorder.start (justZstd.openScript .terminal fun _ => []) (justZstd.name .terminal)
        (fun _ => none) .start) runBetween).map fun t => (t.recorded, decide t.pc.Live)) =
      some ([⟨⟨⟨1000, 0⟩, 1⟩, [65]⟩, ⟨⟨⟨1001, 0⟩, 1⟩, [66]⟩], false) := by decide +kernel
  obtain ⟨t, hexec, hend⟩ := Option.map_eq_some_iff.mp hend
  simp only [Prod.mk.injEq, decide_eq_false_iff_not] at hend
  have hruns : justZstd.Runs .terminal .little
      (fwriteWrapperZstd rawEncoder justZstd_sound.zconfig bufsiz) (fcloseWrapperZstd rawEncoder)
      .start (fun _ => []) runBetween t :=
    ⟨hexec, by decide +kernel, by decide +kernel⟩
  have hrun : justZstd_sound.Records rawEncoder .little (fun _ => []) runBetween t.toControl
    t.disk := .zstd rfl hruns
  have hfull : justZstd.compress = true → Build.full.haveZstd = true := fun _ => rfl
  have hoptZ : false = true → justZstd.compress = true := fun _ => rfl
  have hnone : ∀ r ∈ ([] : List Record), r.Valid := fun r hr => absurd hr List.not_mem_nil
  refine ⟨_, _, hrun, ?_⟩
  obtain ⟨segs, hshown, -, hall⟩ := played_by_name justZstd_sound hfull rawEncoder_lawful
    rawDecoder_lawful .little .big (fun _ _ out => out) hoptZ hnone .nil hrun
    (fun hmode => Bool.noConfusion hmode)
  refine ⟨segs, hshown, ?_⟩
  rw [hall hend.2, hend.1, List.nil_append]

end TtyRec
