import TtyRec.Chronology
import TtyRec.Lib.Sharing

/-!
# Two sessions in one directory

The name of a file has the identifier of its session: the argument of `-z`, or the pid.  So two
sessions that run at the same time in one directory do not write to each other's files, whenever
they rotate, and whatever their clocks show.

## Main definitions

* `Recorder.written` — what a step leaves on the disk.
* `recorderStoring` — the recording process, as a machine that writes to the disk.
* `Whole` — a time with room for the identifier.

## Main results

* `fileName_ne` — **the names of two sessions differ**.
* `neighbours_apart` — **each session does, and leaves on the disk, what it does and leaves
  alone**.
-/

namespace TtyRec

open Run Sharing

/-! ### The disk -/

section Disk

variable {S N : Type*} [DecidableEq N] {cfg : Config} {host : Host} {fileName : Timeval → N}
  {fwriteWrapper : FwriteWrapper S} {fcloseWrapper : FcloseWrapper S} {s t : Recorder S N}
  {e : Event}

variable (fileName fcloseWrapper) in
/-- What a step makes of the disk `d`. -/
def Recorder.written (s : Recorder S N) (d : N → List UInt8) : Event → N → List UInt8
  | .usr1 now named opens =>
    if s.Rotates now then
      let d' := Function.update d s.name (s.closing fcloseWrapper)
      if opens = true then Function.update d' (fileName named) [] else d'
    else d
  | .finish _ => Function.update d s.name (s.closing fcloseWrapper)
  | _ => d

omit [DecidableEq N] in
theorem unlockScreen_name (s : Control N) : (unlockScreen s).name = s.name := by
  unfold unlockScreen
  split
  · rfl
  · rfl

/-- The recording process does not read the disk: on another disk it takes the same step, and writes
the same bytes under the same name. -/
theorem step_mount (s : Recorder S N) (d : N → List UInt8) (e : Event) :
    step cfg host fileName fwriteWrapper fcloseWrapper { s with disk := d } e =
      (step cfg host fileName fwriteWrapper fcloseWrapper s e).map fun t =>
        { t with disk := s.written fileName fcloseWrapper d e } := by
  cases e with
  | header now =>
    cases hpc : s.pc with
    | header c h =>
      simp only [step, hpc, Option.map_some]
      cases writeHeader host fwriteWrapper h now (s.fscript, s.wrapper) <;> rfl
    | _ => simp only [step, hpc, Option.map_none]
  | payload now =>
    cases hpc : s.pc with
    | payload c h =>
      simp only [step, hpc, Option.map_some]
      cases fwriteWrapper 1 c.bytes now (s.fscript, s.wrapper) <;> rfl
    | _ => simp only [step, hpc, Option.map_none]
  | usr1 now named opens =>
    simp only [step, swingOutputFile, Recorder.written]
    split
    · split
      · cases opens <;> rfl
      · rfl
    · rfl
  | finish status =>
    -- the name is not changed by the unlocking before the end
    have hname : (unlockScreen s.toControl).name = s.name := unlockScreen_name _
    cases hpc : s.pc with
    | waiting =>
      simp only [step, hpc, Option.map_some, closeScript, Recorder.written, Recorder.closing, hname]
    | _ => simp only [step, hpc, Option.map_none]
  | _ =>
    simp only [step, Option.map_map]
    rfl

/-- Where a step writes, it does not matter what was there. -/
theorem written_of_mem (s : Recorder S N) (d d' : N → List UInt8) {n : N} (hcloses : s.Closes e)
    (hn : n = s.name ∨ n ∈ (openedAt s e).map fileName) :
    s.written fileName fcloseWrapper d e n = s.written fileName fcloseWrapper d' e n := by
  cases e with
  | usr1 now named opens =>
    have hrotates : s.Rotates now := hcloses
    simp only [Recorder.written, if_pos hrotates]
    rw [openedAt] at hn
    cases opens with
    | true =>
      rw [if_pos rfl, if_pos rfl]
      rw [if_pos ⟨hrotates, rfl⟩, List.map_singleton, List.mem_singleton] at hn
      -- the name may be that of the file which has just been closed
      by_cases hnew : n = fileName named
      · rw [hnew, Function.update_self, Function.update_self]
      · rw [Function.update_of_ne hnew, Function.update_of_ne hnew, hn.resolve_right hnew,
          Function.update_self, Function.update_self]
    | false =>
      have hold : n = s.name := by simpa using hn
      rw [if_neg Bool.false_ne_true, if_neg Bool.false_ne_true, hold, Function.update_self,
        Function.update_self]
  | finish status =>
    have hold : n = s.name := by simpa [openedAt] using hn
    rw [Recorder.written, Recorder.written, hold, Function.update_self, Function.update_self]
  | _ => exact hcloses.elim

/-- Elsewhere the disk stays as it is. -/
theorem written_of_notMem (s : Recorder S N) (d : N → List UInt8) {n : N}
    (hn : ¬ (s.Closes e ∧ (n = s.name ∨ n ∈ (openedAt s e).map fileName))) :
    s.written fileName fcloseWrapper d e n = d n := by
  cases e with
  | usr1 now named opens =>
    rw [Recorder.written]
    split
    next hrotates =>
      have hne : ¬ (n = s.name ∨ n ∈ (openedAt s (.usr1 now named opens)).map fileName) :=
        fun h => hn ⟨hrotates, h⟩
      rw [not_or, openedAt] at hne
      cases opens with
      | true =>
        rw [if_pos ⟨hrotates, rfl⟩, List.map_singleton, List.mem_singleton] at hne
        rw [if_pos rfl, Function.update_of_ne hne.2, Function.update_of_ne hne.1]
      | false => rw [if_neg Bool.false_ne_true, Function.update_of_ne hne.1]
    next => rfl
  | finish status =>
    rw [Recorder.written, Function.update_of_ne]
    exact fun h => hn ⟨trivial, .inl h⟩
  | _ => rfl

variable (cfg host fileName fwriteWrapper fcloseWrapper) in
/-- The recording process writes to the disk when it closes its file, and when it opens one. -/
def recorderStoring :
    Storing (step cfg host fileName fwriteWrapper fcloseWrapper) N (List UInt8) where
  store := Recorder.disk
  mount d s := { s with disk := d }
  writes s e := {n | s.Closes e ∧ (n = s.name ∨ n ∈ (openedAt s e).map fileName)}
  store_mount _ _ := rfl
  mount_mount _ _ _ := rfl
  mount_store _ := rfl
  step_mount := by
    intro s t e h d
    have hmount : ∀ d, step cfg host fileName fwriteWrapper fcloseWrapper { s with disk := d } e =
        some { t with disk := s.written fileName fcloseWrapper d e } := by
      intro d
      rw [step_mount, h, Option.map_some]
    -- with its own disk, the step is the one from `s` to `t`
    have hdisk : t.disk = s.written fileName fcloseWrapper s.disk e :=
      congrArg Recorder.disk (Option.some.inj (h.symm.trans (hmount s.disk)))
    refine ⟨s.written fileName fcloseWrapper d e, hmount d, ?_, ?_⟩
    · rintro n ⟨hcloses, hn⟩
      rw [hdisk]
      exact written_of_mem s d s.disk hcloses hn
    · intro n hn
      exact written_of_notMem s d hn

end Disk

/-! ### The names -/

/-- The time, and the identifier behind it, have room in a name. -/
structure Whole (c : NameConfig) (dname uuid : List UInt8) (tv : Timeval) : Prop where
  normal : tv.Normal
  room : (stampedPath c dname tv ++ 0x2e :: (uuid ++ ttyrecSuffix)).length ≤ bufsiz - 5

instance (c : NameConfig) (dname uuid : List UInt8) : DecidablePred (Whole c dname uuid) := fun tv =>
  decidable_of_iff ((0 ≤ tv.tvSec ∧ 0 ≤ tv.tvUsec ∧ tv.tvUsec < 10 ^ 6) ∧
    (stampedPath c dname tv ++ 0x2e :: (uuid ++ ttyrecSuffix)).length ≤ bufsiz - 5)
    ⟨fun h => ⟨h.1, h.2⟩, fun h => ⟨h.normal, h.room⟩⟩

/-- The identifier can be read off the end of a name, with or without `.zst`. -/
theorem suffix_inj {c c' : NameConfig} {uuid uuid' : List UInt8}
    (h : uuid ++ (ttyrecSuffix ++ c.suffix) = uuid' ++ (ttyrecSuffix ++ c'.suffix)) :
    uuid = uuid' := by
  by_cases hsuffix : c.suffix = c'.suffix
  · rw [hsuffix] at h
    exact List.append_cancel_right h
  · -- one of the names ends in `c`, and the other one in `t`
    have hlast := congrArg List.getLast? h
    unfold NameConfig.suffix at hlast hsuffix
    cases hz : c.zstd <;> cases hz' : c'.zstd <;>
      simp [hz, hz', ttyrecSuffix, List.getLast?_append] at hlast hsuffix

/-- **The names of two sessions differ**, whatever their clocks show: the identifier follows a stamp
that has the same length in both. -/
theorem fileName_ne {c c' : NameConfig} {dname uuid uuid' : List UInt8}
    (hnaming : c.naming = .generated dname uuid) (hnaming' : c'.naming = .generated dname uuid')
    (huuid : uuid ≠ uuid') {tv tv' : Timeval} (h : Whole c dname uuid tv)
    (h' : Whole c' dname uuid' tv') : fileName c tv ≠ fileName c' tv' := by
  intro heq
  unfold fileName setTtyrecFileName at heq
  rw [hnaming, hnaming'] at heq
  dsimp only [Option.getD_some] at heq
  rw [List.take_of_length_le h.room, List.take_of_length_le h'.room] at heq
  simp only [stampedPath, List.append_assoc, List.cons_append, List.append_cancel_left_eq,
    List.cons.injEq, true_and] at heq
  -- the stamps have one length, so that the identifiers begin at one place
  obtain ⟨htm, husec⟩ := stamp_append_inj (localtime_nonneg c.zone h.normal.1)
    (localtime_nonneg c'.zone h'.normal.1) h.normal.2 h'.normal.2 heq
  rw [htm, husec, List.append_cancel_left_eq, List.cons.injEq] at heq
  exact huuid (suffix_inj heq.2)

/-! ### Two recording processes -/

section Neighbours

variable {S S' : Type*} {cfg cfg' : Config} {host host' : Host} {c c' : NameConfig}
  {dname uuid uuid' : List UInt8} {fwriteWrapper : FwriteWrapper S}
  {fcloseWrapper : FcloseWrapper S} {fwriteWrapper' : FwriteWrapper S'}
  {fcloseWrapper' : FcloseWrapper S'}

/-- The file that is written, after a step. -/
theorem name_step {N : Type*} [DecidableEq N] {fileName : Timeval → N} {s t : Recorder S N}
    {e : Event} (h : step cfg host fileName fwriteWrapper fcloseWrapper s e = some t) :
    t.name = s.name ∨ t.name ∈ (openedAt s e).map fileName := by
  rcases step_cases h with ⟨ctl, rfl, hq, -⟩ | ⟨ch, hdr, now, rfl, -, rfl⟩ |
    ⟨ch, hdr, now, rfl, -, rfl⟩ | ⟨now, named, opens, rfl, -, hrot, rfl⟩ | ⟨status, rfl, -, rfl⟩
  · exact .inl hq.name
  · exact .inl (afterCall_files _ _ _).2.1
  · exact .inl (afterCall_files s _ _).2.1
  · cases opens with
    | true =>
      right
      rw [openedAt, if_pos ⟨hrot, rfl⟩]
      exact List.mem_singleton_self _
    | false => exact .inl rfl
  · exact .inl (unlockScreen_name s.toControl)

/-- The files of a session are among these. -/
def Control.Within {N : Type*} (s : Control N) (A : Set N) : Prop :=
  ∀ n ∈ s.closed ++ [s.name], n ∈ A

theorem within_step {N : Type*} [DecidableEq N] {fileName : Timeval → N} {A : Set N}
    {s t : Recorder S N} {e : Event} (hs : s.Within A)
    (hopened : ∀ tv ∈ openedAt s e, fileName tv ∈ A)
    (h : step cfg host fileName fwriteWrapper fcloseWrapper s e = some t) : t.Within A := by
  have hname : t.name ∈ A := by
    rcases name_step h with heq | hmem
    · rw [heq]
      exact hs _ (List.mem_append_right _ (List.mem_singleton_self _))
    · obtain ⟨tv, htv, heq⟩ := List.mem_map.mp hmem
      rw [← heq]
      exact hopened tv htv
  have hclosed : ∀ n ∈ t.closed, n ∈ A := by
    obtain ⟨-, ⟨-, -, hclosed, -⟩ | ⟨named, -, hswings⟩ | ⟨-, hends⟩⟩ := step_files h
    · rw [hclosed]
      exact fun n hn => hs n (List.mem_append_left _ hn)
    · rw [hswings.closed]
      exact hs
    · rw [hends.closed]
      exact hs
  intro n hn
  rcases List.mem_append.mp hn with hn | hn
  · exact hclosed n hn
  · rw [List.mem_singleton.mp hn]
    exact hname

/-- The names of a session. -/
def namesOf (c : NameConfig) (dname uuid : List UInt8) : Set (List UInt8) :=
  {n | ∃ tv, Whole c dname uuid tv ∧ n = fileName c tv}

theorem disjoint_namesOf (hnaming : c.naming = .generated dname uuid)
    (hnaming' : c'.naming = .generated dname uuid') (huuid : uuid ≠ uuid') :
    ∀ n ∈ namesOf c dname uuid, n ∉ namesOf c' dname uuid' := by
  rintro n ⟨tv, htv, rfl⟩ ⟨tv', htv', heq⟩
  exact fileName_ne hnaming hnaming' huuid htv htv' heq

/-- Two sessions open files at times that have room in their names. -/
def OpensWhole (c c' : NameConfig) (dname uuid uuid' : List UInt8)
    (x : Recorder S (List UInt8) × Recorder S' (List UInt8)) : Event ⊕ Event → Prop
  | .inl e => ∀ tv ∈ openedAt x.1 e, Whole c dname uuid tv
  | .inr e => ∀ tv ∈ openedAt x.2 e, Whole c' dname uuid' tv

instance (x : Recorder S (List UInt8) × Recorder S' (List UInt8)) :
    DecidablePred (OpensWhole c c' dname uuid uuid' x)
  | .inl e => inferInstanceAs (Decidable (∀ tv ∈ openedAt x.1 e, Whole c dname uuid tv))
  | .inr e => inferInstanceAs (Decidable (∀ tv ∈ openedAt x.2 e, Whole c' dname uuid' tv))

/-- The files that two sessions write are their own. -/
theorem apart_of_opensWhole {x : Recorder S (List UInt8) × Recorder S' (List UInt8)}
    (hx : x.1.Within (namesOf c dname uuid) ∧ x.2.Within (namesOf c' dname uuid'))
    {e : Event ⊕ Event} (hopens : OpensWhole c c' dname uuid uuid' x e) :
    Apart (recorderStoring cfg host (fileName c) fwriteWrapper fcloseWrapper)
      (recorderStoring cfg' host' (fileName c') fwriteWrapper' fcloseWrapper')
      (namesOf c dname uuid) (namesOf c' dname uuid') x e := by
  cases e with
  | inl e =>
    rintro n ⟨-, rfl | hn⟩
    · exact hx.1 _ (List.mem_append_right _ (List.mem_singleton_self _))
    · obtain ⟨tv, htv, rfl⟩ := List.mem_map.mp hn
      exact ⟨tv, hopens tv htv, rfl⟩
  | inr e =>
    rintro n ⟨-, rfl | hn⟩
    · exact hx.2 _ (List.mem_append_right _ (List.mem_singleton_self _))
    · obtain ⟨tv, htv, rfl⟩ := List.mem_map.mp hn
      exact ⟨tv, hopens tv htv, rfl⟩

/-- One step of one of them. -/
theorem within_beside {x y : Recorder S (List UInt8) × Recorder S' (List UInt8)}
    (hx : x.1.Within (namesOf c dname uuid) ∧ x.2.Within (namesOf c' dname uuid'))
    {e : Event ⊕ Event} (hopens : OpensWhole c c' dname uuid uuid' x e)
    (h : beside (recorderStoring cfg host (fileName c) fwriteWrapper fcloseWrapper)
      (recorderStoring cfg' host' (fileName c') fwriteWrapper' fcloseWrapper') x e = some y) :
    y.1.Within (namesOf c dname uuid) ∧ y.2.Within (namesOf c' dname uuid') := by
  cases e with
  | inl e =>
    obtain ⟨s, hstep, rfl⟩ := Option.map_eq_some_iff.mp h
    exact ⟨within_step hx.1 (fun tv htv => ⟨tv, hopens tv htv, rfl⟩) hstep, hx.2⟩
  | inr e =>
    obtain ⟨t, hstep, rfl⟩ := Option.map_eq_some_iff.mp h
    exact ⟨hx.1, within_step hx.2 (fun tv htv => ⟨tv, hopens tv htv, rfl⟩) hstep⟩

/-- **The run of two sessions.** By induction, as each writes only under its own names. -/
theorem along_apart {x : Recorder S (List UInt8) × Recorder S' (List UInt8)}
    (hx : x.1.Within (namesOf c dname uuid) ∧ x.2.Within (namesOf c' dname uuid'))
    {es : List (Event ⊕ Event)}
    (hopens : Along (beside (recorderStoring cfg host (fileName c) fwriteWrapper fcloseWrapper)
      (recorderStoring cfg' host' (fileName c') fwriteWrapper' fcloseWrapper'))
      (OpensWhole c c' dname uuid uuid') x es) :
    Along (beside (recorderStoring cfg host (fileName c) fwriteWrapper fcloseWrapper)
      (recorderStoring cfg' host' (fileName c') fwriteWrapper' fcloseWrapper'))
      (Apart (recorderStoring cfg host (fileName c) fwriteWrapper fcloseWrapper)
        (recorderStoring cfg' host' (fileName c') fwriteWrapper' fcloseWrapper')
        (namesOf c dname uuid) (namesOf c' dname uuid')) x es := by
  induction es generalizing x with
  | nil => trivial
  | cons e es ih =>
    refine ⟨apart_of_opensWhole hx hopens.1, ?_⟩
    intro y hy
    exact ih (within_beside hx hopens.1 hy) (hopens.2 y hy)

end Neighbours

/-- **Two sessions in one directory do not notice each other.**  With different identifiers, however
their steps fall between each other, and whatever their options and their clocks are, each of the
processes does what it does alone, and its files hold what they hold when it is alone. -/
theorem neighbours_apart {S S' : Type*} {c c' : NameConfig} {dname uuid uuid' : List UInt8}
    (hnaming : c.naming = .generated dname uuid) (hnaming' : c'.naming = .generated dname uuid')
    (huuid : uuid ≠ uuid') (cfg cfg' : Config) (host host' : Host) (fwriteWrapper : FwriteWrapper S)
    (fcloseWrapper : FcloseWrapper S) (fwriteWrapper' : FwriteWrapper S')
    (fcloseWrapper' : FcloseWrapper S') (disk : List UInt8 → List UInt8) {first first' : Timeval}
    (hfirst : Whole c dname uuid first) (hfirst' : Whole c' dname uuid' first')
    (short short' : ℕ → Option ℕ) (wrapper : S) (wrapper' : S') {es : List (Event ⊕ Event)}
    {s : Recorder S (List UInt8)} {t : Recorder S' (List UInt8)}
    (hrun : exec (beside (recorderStoring cfg host (fileName c) fwriteWrapper fcloseWrapper)
        (recorderStoring cfg' host' (fileName c') fwriteWrapper' fcloseWrapper'))
      (Recorder.start disk (fileName c first) short wrapper,
        Recorder.start disk (fileName c' first') short' wrapper') es = some (s, t))
    (hopens : Along (beside (recorderStoring cfg host (fileName c) fwriteWrapper fcloseWrapper)
        (recorderStoring cfg' host' (fileName c') fwriteWrapper' fcloseWrapper'))
      (OpensWhole c c' dname uuid uuid')
      (Recorder.start disk (fileName c first) short wrapper,
        Recorder.start disk (fileName c' first') short' wrapper') es) :
    ∃ s₁ t₁,
      exec (step cfg host (fileName c) fwriteWrapper fcloseWrapper)
        (Recorder.start disk (fileName c first) short wrapper)
        (es.filterMap Sum.getLeft?) = some s₁ ∧
      exec (step cfg' host' (fileName c') fwriteWrapper' fcloseWrapper')
        (Recorder.start disk (fileName c' first') short' wrapper')
        (es.filterMap Sum.getRight?) = some t₁ ∧
      s = { s₁ with disk := s.disk } ∧ t = { t₁ with disk := s.disk } ∧
      (∀ name ∈ s.closed, s.disk name = s₁.disk name) ∧
      ∀ name ∈ t.closed, s.disk name = t₁.disk name := by
  -- both sessions keep to their names
  have hstart : (Recorder.start disk (fileName c first) short wrapper).Within
      (namesOf c dname uuid) ∧ (Recorder.start disk (fileName c' first') short' wrapper').Within
      (namesOf c' dname uuid') := by
    constructor
    · intro n hn
      exact ⟨first, hfirst, List.mem_singleton.mp hn⟩
    · intro n hn
      exact ⟨first', hfirst', List.mem_singleton.mp hn⟩
  have hwithin := exec_invariant_along (fun _ _ _ hx ho h => within_beside hx ho h) hopens hrun hstart
  have hapart := along_apart hstart hopens
  have hdisj := disjoint_namesOf hnaming hnaming' huuid
  obtain ⟨hstore, ⟨s₁, hs₁, hsame⟩, t₁, ht₁, hsame'⟩ := by
    refine exec_beside hdisj ?_ hrun hapart
    rfl
  have hdisk : s.disk = t.disk := hstore
  -- the places of a session are its names
  refine ⟨s₁, t₁, hs₁, ht₁, hsame.mounted, ?_, ?_, ?_⟩
  · rw [hdisk]
    exact hsame'.mounted
  · intro name hname
    exact hsame.store name (hwithin.1 name (List.mem_append_left _ hname))
  · intro name hname
    rw [hdisk]
    exact hsame'.store name (hwithin.2 name (List.mem_append_left _ hname))

/-- `-d . -z 8`. -/
def dotEight : NameConfig := ⟨.generated [0x2e] [0x38], false, .utc, fun namefmt _ => namefmt⟩

/-- Two sessions that do the same at the same time. -/
def rotateTogether : List (Event ⊕ Event) := rotateOnce.flatMap fun e => [.inl e, .inr e]

/-- Both first files hold their record in the end. -/
theorem neighbours_apart_together :
    ∃ s t, exec (beside (recorderStoring .tty .little (fileName dotSeven) fwriteNone fcloseNone)
        (recorderStoring .tty .little (fileName dotEight) fwriteNone fcloseNone))
      (Recorder.start (fun _ => []) (fileName dotSeven ⟨1000, 0⟩) (fun _ => none) (),
        Recorder.start (fun _ => []) (fileName dotEight ⟨1000, 0⟩) (fun _ => none) ())
        rotateTogether = some (s, t) ∧
      s.disk (fileName dotSeven ⟨1000, 0⟩) = Record.encode ⟨⟨⟨1000, 0⟩, 1⟩, [65]⟩ := by
  have hreturns : (exec (beside
      (recorderStoring .tty .little (fileName dotSeven) fwriteNone fcloseNone)
      (recorderStoring .tty .little (fileName dotEight) fwriteNone fcloseNone))
      (Recorder.start (fun _ => []) (fileName dotSeven ⟨1000, 0⟩) (fun _ => none) (),
        Recorder.start (fun _ => []) (fileName dotEight ⟨1000, 0⟩) (fun _ => none) ())
        rotateTogether).map (fun x => x.1.closed) = some [fileName dotSeven ⟨1000, 0⟩] := by
    decide +kernel
  obtain ⟨⟨s, t⟩, hrun, hclosed⟩ := Option.map_eq_some_iff.mp hreturns
  -- the first session alone
  have halone : (exec (step .tty .little (fileName dotSeven) fwriteNone fcloseNone)
      (Recorder.start (fun _ => []) (fileName dotSeven ⟨1000, 0⟩) (fun _ => none) ())
      (rotateTogether.filterMap Sum.getLeft?)).map
        (fun s₁ => s₁.disk (fileName dotSeven ⟨1000, 0⟩)) =
      some (Record.encode ⟨⟨⟨1000, 0⟩, 1⟩, [65]⟩) := by
    decide +kernel
  obtain ⟨s₁, t₁, hs₁, -, -, -, hkept, -⟩ := neighbours_apart rfl rfl (by decide) .tty .tty .little
    .little fwriteNone fcloseNone fwriteNone fcloseNone (fun _ => []) (by decide) (by decide)
    (fun _ => none) (fun _ => none) () () hrun (by decide +kernel)
  rw [hs₁, Option.map_some, Option.some.injEq] at halone
  refine ⟨s, t, hrun, ?_⟩
  rw [hkept, halone]
  rw [hclosed]
  exact List.mem_singleton_self _

end TtyRec
