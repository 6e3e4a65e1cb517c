import TtyRec.FileName
import TtyRec.Lib.Run

/-!
# Files that are opened again

A rotation opens its file with mode `w`, so a file of the session that is opened a second
time loses what it held.  The files keep what they held when they were closed as long as the
names differ, and that depends on the times of the rotations.

## Main definitions

* `openedAt` — the times of the rotations that open a file.
* `Control.Closes` — the steps that close the recording.
* `First` — the name of the first file.
* `Distinguishable`, `First.Apart` — what is asked of the times.

## Main results

* `rotation_keeps_files` — **rotations at times that the names tell apart keep every file**.
* `rotation_reopens_file` — they do not with a format that shows no time.
-/

namespace TtyRec

open Run

variable {S N : Type*}

/-- The times of the files that a step opens. -/
def openedAt (s : Recorder S N) : Event → List Timeval
  | .usr1 now named opens => if s.Rotates now ∧ opens = true then [named] else []
  | _ => []

/-- A step that closes the recording. -/
def Control.Closes (s : Control N) : Event → Prop
  | .usr1 now _ _ => s.Rotates now
  | .finish _ => True
  | _ => False

section Files

variable [DecidableEq N] {cfg : Config} {host : Host} {fileName : Timeval → N}
  {fwriteWrapper : FwriteWrapper S} {fcloseWrapper : FcloseWrapper S} {s t : Recorder S N}
  {e : Event}

/-- What a file holds when it is closed. -/
def Recorder.closing (fcloseWrapper : FcloseWrapper S) (s : Recorder S N) : List UInt8 :=
  (fcloseWrapper (s.fscript, s.wrapper)).1.data

/-- The files after a step that opens the file `name`: the one before is closed with what the
wrapper still held, and the new one is empty. -/
structure Swings (fcloseWrapper : FcloseWrapper S) (s t : Recorder S N) (newname : N) : Prop where
  closed : t.closed = s.closed ++ [s.name]
  name : t.name = newname
  disk : t.disk =
    Function.update (Function.update s.disk s.name (s.closing fcloseWrapper)) newname []

/-- The files after the last step, which closes the one that was written and opens none. -/
structure Ends (fcloseWrapper : FcloseWrapper S) (s t : Recorder S N) : Prop where
  closed : t.closed = s.closed ++ [s.name]
  disk : t.disk = Function.update s.disk s.name (s.closing fcloseWrapper)
  dead : ¬ t.pc.Live

omit [DecidableEq N] in
/-- A call of a wrapper leaves the other files alone. -/
theorem afterCall_files {α : Type} (s : Recorder S N) (pc : Pc)
    (r : Outcome (α × (OutFile × S))) :
    (Recorder.afterCall s pc r).closed = s.closed ∧ (Recorder.afterCall s pc r).name = s.name ∧
      (Recorder.afterCall s pc r).disk = s.disk := by
  cases r <;> exact ⟨rfl, rfl, rfl⟩

/-- **What a step does to the files.** Most steps do nothing to them.  A rotation closes one and
opens one, and the process ends with the file it was writing, or with none when `fopen` has failed.
-/
theorem step_files (h : step cfg host fileName fwriteWrapper fcloseWrapper s e = some t) :
    s.pc.Live ∧
      ((¬ s.Closes e ∧ openedAt s e = [] ∧ t.closed = s.closed ∧ t.name = s.name ∧
          t.disk = s.disk) ∨
        (∃ named, openedAt s e = [named] ∧ Swings fcloseWrapper s t (fileName named)) ∨
        (openedAt s e = [] ∧ Ends fcloseWrapper s t)) := by
  rcases step_cases h with ⟨c, rfl, hq, huses⟩ | ⟨c, hdr, now, rfl, hpc, rfl⟩ |
    ⟨c, hdr, now, rfl, hpc, rfl⟩ | ⟨now, named, opens, rfl, hlive, hrot, rfl⟩ |
    ⟨status, rfl, hpc, rfl⟩
  · refine ⟨hq.live.1, .inl ⟨?_, ?_, hq.closed, hq.name, rfl⟩⟩
    · cases e with
      | usr1 now named opens => exact huses
      | finish status => exact absurd trivial huses
      | _ => exact id
    · cases e with
      | usr1 now named opens => exact if_neg fun hrot => huses hrot.1
      | _ => rfl
  · refine ⟨by simp [hpc, Pc.Live], .inl ⟨id, rfl, ?_⟩⟩
    exact afterCall_files { s with recorded := s.recorded ++ [⟨hdr, c.bytes⟩] } _ _
  · exact ⟨by simp [hpc, Pc.Live], .inl ⟨id, rfl, afterCall_files s _ _⟩⟩
  · -- without a new file the process calls `fail`
    cases opens with
    | true => exact ⟨hlive, .inr (.inl ⟨named, if_pos ⟨hrot, rfl⟩, rfl, rfl, rfl⟩)⟩
    | false =>
      have hopened : openedAt s (.usr1 now named false) = [] := by
        rw [openedAt, if_neg]
        rintro ⟨-, hopens⟩
        exact Bool.noConfusion hopens
      exact ⟨hlive, .inr (.inr ⟨hopened, rfl, rfl, id⟩)⟩
  · -- `done` unlocks first, which does not concern the files
    have hclosed : (unlockScreen s.toControl).closed = s.closed ∧
        (unlockScreen s.toControl).name = s.name :=
      ⟨(quiet_unlockScreen (by simp [hpc, Pc.Live])).closed,
        (quiet_unlockScreen (by simp [hpc, Pc.Live])).name⟩
    refine ⟨by simp [hpc, Pc.Live], .inr (.inr ⟨rfl, ?_, ?_, id⟩)⟩
    · show (unlockScreen s.toControl).closed ++ [(unlockScreen s.toControl).name] = _
      rw [hclosed.1, hclosed.2]
    · show Function.update s.disk (unlockScreen s.toControl).name _ = _
      rw [hclosed.2]
      rfl

/-- The names of the files of a run from `s` on. -/
def namesFrom (cfg : Config) (host : Host) (fileName : Timeval → N)
    (fwriteWrapper : FwriteWrapper S) (fcloseWrapper : FcloseWrapper S) (s : Recorder S N)
    (es : List Event) : List N :=
  s.closed ++ s.name ::
    (collect (step cfg host fileName fwriteWrapper fcloseWrapper) openedAt s es).map fileName

/-- The steps of a run name the same files, as long as it goes on. -/
theorem namesFrom_cons {es : List Event}
    (h : step cfg host fileName fwriteWrapper fcloseWrapper s e = some t) (hlive : t.pc.Live) :
    namesFrom cfg host fileName fwriteWrapper fcloseWrapper t es =
      namesFrom cfg host fileName fwriteWrapper fcloseWrapper s (e :: es) := by
  unfold namesFrom
  simp only [collect, h, Option.elim_some, List.map_append]
  obtain ⟨-, ⟨-, hopened, hclosed, hname, -⟩ | ⟨named, hopened, hswings⟩ | ⟨-, hends⟩⟩ :=
    step_files h
  · rw [hopened, hclosed, hname]
    rfl
  · rw [hopened, hswings.closed, hswings.name]
    simp
  · exact absurd hlive hends.dead

/-- A run that goes on comes from a process that lives. -/
theorem live_of_exec_cons {es : List Event} {t' : Recorder S N}
    (h : exec (step cfg host fileName fwriteWrapper fcloseWrapper) s (e :: es) = some t') :
    s.pc.Live := by
  obtain ⟨t, ht, -⟩ := exec_cons_eq_some.mp h
  exact (step_files ht).1

/-- So do the steps of a run. -/
theorem namesFrom_append {es es' : List Event}
    (h : exec (step cfg host fileName fwriteWrapper fcloseWrapper) s es = some t)
    (hlive : t.pc.Live) :
    namesFrom cfg host fileName fwriteWrapper fcloseWrapper t es' =
      namesFrom cfg host fileName fwriteWrapper fcloseWrapper s (es ++ es') := by
  induction es generalizing s with
  | nil =>
    cases h
    rfl
  | cons e es ih =>
    obtain ⟨s', he, hes⟩ := exec_cons_eq_some.mp h
    have hlive' : s'.pc.Live := by
      cases es with
      | nil =>
        cases hes
        exact hlive
      | cons e' es => exact live_of_exec_cons hes
    rw [ih hes, List.cons_append, namesFrom_cons he hlive']

/-- **A file that is closed stays as it is** when the names of the run differ.  What a step writes
is the file that is open or the one it opens. -/
theorem closed_exec {es : List Event}
    (hrun : exec (step cfg host fileName fwriteWrapper fcloseWrapper) s es = some t)
    (hnames : (namesFrom cfg host fileName fwriteWrapper fcloseWrapper s es).Nodup) {f : N}
    (hf : f ∈ s.closed) : t.disk f = s.disk f := by
  induction es generalizing s with
  | nil =>
    cases hrun
    rfl
  | cons e es ih =>
    obtain ⟨s', he, hes⟩ := exec_cons_eq_some.mp hrun
    -- whatever is opened from here on has another name
    have hdiff : ∀ g ∈ s.name :: (collect (step cfg host fileName fwriteWrapper fcloseWrapper)
        openedAt s (e :: es)).map fileName, f ≠ g :=
      fun g hg => (List.nodup_append.mp hnames).2.2 f hf g hg
    have hstep : f ∈ s'.closed ∧ s'.disk f = s.disk f := by
      have hname : f ≠ s.name := hdiff s.name List.mem_cons_self
      obtain ⟨-, ⟨-, -, hclosed, -, hdisk⟩ | ⟨named, hopened, hswings⟩ | ⟨-, hends⟩⟩ :=
        step_files he
      · exact ⟨hclosed ▸ hf, congrFun hdisk f⟩
      · have hnamed : f ≠ fileName named := by
          refine hdiff _ (List.mem_cons_of_mem _ (List.mem_map_of_mem ?_))
          rw [collect, hopened]
          exact List.mem_append_left _ (List.mem_singleton_self named)
        rw [hswings.closed, hswings.disk, Function.update_of_ne hnamed,
          Function.update_of_ne hname]
        exact ⟨List.mem_append_left _ hf, rfl⟩
      · rw [hends.closed, hends.disk, Function.update_of_ne hname]
        exact ⟨List.mem_append_left _ hf, rfl⟩
    -- the process is alive before the next event, so its names are those of the rest of the run
    cases es with
    | nil =>
      cases hes
      exact hstep.2
    | cons e' es =>
      rw [← namesFrom_cons he (live_of_exec_cons hes)] at hnames
      exact (ih hes hnames hstep.1).trans hstep.2

/-- **A file keeps what it held when it was closed**, when the names of the run differ. -/
theorem closing_exec {es es' : List Event} {s₁ : Recorder S N}
    (hrun : exec (step cfg host fileName fwriteWrapper fcloseWrapper) s (es ++ e :: es') = some t)
    (hnames : (namesFrom cfg host fileName fwriteWrapper fcloseWrapper s (es ++ e :: es')).Nodup)
    (hs₁ : exec (step cfg host fileName fwriteWrapper fcloseWrapper) s es = some s₁)
    (hcloses : s₁.Closes e) : t.disk s₁.name = s₁.closing fcloseWrapper := by
  rw [exec_append, hs₁, Option.bind_some] at hrun
  rw [← namesFrom_append hs₁ (live_of_exec_cons hrun)] at hnames
  obtain ⟨s₂, he, hes⟩ := exec_cons_eq_some.mp hrun
  have hclose : s₁.name ∈ s₂.closed ∧ s₂.disk s₁.name = s₁.closing fcloseWrapper := by
    obtain ⟨-, ⟨hnot, -⟩ | ⟨named, hopened, hswings⟩ | ⟨-, hends⟩⟩ := step_files he
    · exact absurd hcloses hnot
    · have hne : s₁.name ≠ fileName named := by
        intro heq
        apply (List.nodup_cons.mp (List.nodup_append.mp hnames).2.1).1
        rw [heq, collect, hopened]
        exact List.mem_map_of_mem (List.mem_append_left _ (List.mem_singleton_self named))
      rw [hswings.closed, hswings.disk, Function.update_of_ne hne, Function.update_self]
      exact ⟨List.mem_append_right _ (List.mem_singleton_self _), rfl⟩
    · rw [hends.closed, hends.disk, Function.update_self]
      exact ⟨List.mem_append_right _ (List.mem_singleton_self _), rfl⟩
  cases es' with
  | nil =>
    cases hes
    exact hclose.2
  | cons e' es' =>
    rw [← namesFrom_cons he (live_of_exec_cons hes)] at hnames
    exact (closed_exec hes hnames hclose.1).trans hclose.2

end Files

/-! ### The times of the rotations -/

/-- The name of the first file: `-f`, or a name like the others. -/
inductive First where
  | given (fname : List UInt8)
  | generated (tv : Timeval)

/-- The name that `main` opens. -/
def First.name (c : NameConfig) : First → List UInt8
  | .given fname => fname ++ c.suffix
  | .generated tv => TtyRec.fileName c tv

/-- The names tell the times apart. -/
def Distinguishable (c : NameConfig) (tv tv' : Timeval) : Prop :=
  (tv.Normal ∧ tv'.Normal) ∧ Comparable c tv tv' ∧ ¬ SameName c tv tv'

/-- The names tell all the times of a session apart, and none gives the name after `-f`. -/
def First.Apart (c : NameConfig) (times : List Timeval) : First → Prop
  | .given fname => (∀ tv ∈ times, fname ++ c.suffix ≠ fileName c tv) ∧
      times.Pairwise (Distinguishable c)
  | .generated tv => (tv :: times).Pairwise (Distinguishable c)

theorem nodup_map_fileName {c : NameConfig} {times : List Timeval}
    (h : times.Pairwise (Distinguishable c)) : (times.map (fileName c)).Nodup := by
  rw [List.Nodup, List.pairwise_map]
  apply h.imp
  intro tv tv' hd heq
  obtain ⟨⟨htv, htv'⟩, hcomp, hne⟩ := hd
  exact hne ((fileName_eq_iff c htv htv' hcomp).mp heq)

/-- The names of the session differ. -/
theorem First.Apart.nodup {c : NameConfig} {times : List Timeval} {first : First}
    (h : first.Apart c times) : (first.name c :: times.map (fileName c)).Nodup := by
  cases first with
  | given fname =>
    refine List.nodup_cons.mpr ⟨?_, nodup_map_fileName h.2⟩
    intro hmem
    obtain ⟨tv, htv, heq⟩ := List.mem_map.mp hmem
    exact h.1 tv htv heq.symm
  | generated tv => exact nodup_map_fileName h

section Session

variable {cfg : Config} {host : Host} {fwriteWrapper : FwriteWrapper S}
  {fcloseWrapper : FcloseWrapper S}

/-- **Rotations at times that the names tell apart keep every file**: all names differ, and
each file holds in the end what it held when it was closed.  Two names are equal exactly if
the times show the same to the name, that is, for the generated names, the same local time
to the microsecond. -/
theorem rotation_keeps_files (c : NameConfig) :
    (∀ tv tv', tv.Normal → tv'.Normal → Comparable c tv tv' →
      (fileName c tv = fileName c tv' ↔ SameName c tv tv')) ∧
    ∀ (first : First) (disk : List UInt8 → List UInt8) (short : ℕ → Option ℕ) (wrapper : S)
      (es : List Event) (t : Recorder S (List UInt8)),
      exec (step cfg host (fileName c) fwriteWrapper fcloseWrapper)
        (Recorder.start disk (first.name c) short wrapper) es = some t →
      first.Apart c (collect (step cfg host (fileName c) fwriteWrapper fcloseWrapper) openedAt
        (Recorder.start disk (first.name c) short wrapper) es) →
      (first.name c :: (collect (step cfg host (fileName c) fwriteWrapper fcloseWrapper) openedAt
        (Recorder.start disk (first.name c) short wrapper) es).map (fileName c)).Nodup ∧
      ∀ es₁ e es₂ s, es = es₁ ++ e :: es₂ →
        exec (step cfg host (fileName c) fwriteWrapper fcloseWrapper)
          (Recorder.start disk (first.name c) short wrapper) es₁ = some s →
        s.Closes e → t.disk s.name = s.closing fcloseWrapper := by
  refine ⟨fun tv tv' h h' hcomp => fileName_eq_iff c h h' hcomp, ?_⟩
  intro first disk short wrapper es t hrun hapart
  refine ⟨hapart.nodup, ?_⟩
  rintro es₁ e es₂ s rfl hs hcloses
  exact closing_exec hrun hapart.nodup hs hcloses

end Session

/-! ### Two sessions -/

/-- UTC. -/
def TimeZone.utc : TimeZone := ⟨fun _ => 0, fun _ => by decide, fun _ => by decide⟩

/-- One hour ahead of UTC until `sec`, and then not any more. -/
def TimeZone.back (sec : ℤ) : TimeZone where
  utcOffset t := if t < sec then 3600 else 0
  gt t := by split <;> decide
  lt t := by split <;> decide

/-- `-d . -z 7`. -/
def dotSeven : NameConfig := ⟨.generated [0x2e] [0x37], false, .utc, fun namefmt _ => namefmt⟩

/-- `-F a`. -/
def formatA : NameConfig := ⟨.format [0x61], false, .utc, fun namefmt _ => namefmt⟩

/-- A chunk is recorded, and a quarter of an hour later the recording is rotated. -/
def rotateOnce : List Event :=
  [.read .stdout (.data [65]), .check (.ofSec 1000), .write (.sent 1), .header fun _ => 1000,
    .payload fun _ => 1000, .account, .usr1 ⟨1900, 0⟩ ⟨1900, 0⟩ true]

/-- The first file of such a session holds its record in the end. -/
theorem rotation_keeps_files_run :
    ∃ t, exec (step .tty .little (fileName dotSeven) fwriteNone fcloseNone)
        (Recorder.start (fun _ => []) (fileName dotSeven ⟨1000, 0⟩) (fun _ => none) ())
        rotateOnce = some t ∧
      t.disk (fileName dotSeven ⟨1000, 0⟩) = Record.encode ⟨⟨⟨1000, 0⟩, 1⟩, [65]⟩ := by
  obtain ⟨t, hrun⟩ := Option.isSome_iff_exists.mp (show (exec
    (step .tty .little (fileName dotSeven) fwriteNone fcloseNone)
    (Recorder.start (fun _ => []) (fileName dotSeven ⟨1000, 0⟩) (fun _ => none) ())
    rotateOnce).isSome = true from rfl)
  obtain ⟨s, hs, hname, hclosing⟩ : ∃ s, exec
      (step .tty .little (fileName dotSeven) fwriteNone fcloseNone)
      (Recorder.start (fun _ => []) (fileName dotSeven ⟨1000, 0⟩) (fun _ => none) ())
      (rotateOnce.take 6) = some s ∧ s.name = fileName dotSeven ⟨1000, 0⟩ ∧
      s.closing fcloseNone = Record.encode ⟨⟨⟨1000, 0⟩, 1⟩, [65]⟩ := ⟨_, rfl, rfl, rfl⟩
  have hcloses : s.Closes (.usr1 ⟨1900, 0⟩ ⟨1900, 0⟩ true) := by
    cases hs
    exact .inl rfl
  have hapart : First.Apart dotSeven [⟨1900, 0⟩] (.generated ⟨1000, 0⟩) := by
    refine List.pairwise_pair.mpr ⟨⟨?_, ?_⟩, ⟨?_, ?_⟩, ?_⟩
    · exact ⟨by decide, by decide, by decide⟩
    · exact ⟨by decide, by decide, by decide⟩
    · decide
    · decide
    · exact not_sameName_of_lt rfl (.inl (by decide)) le_rfl
  have h := ((rotation_keeps_files dotSeven).2 (.generated ⟨1000, 0⟩) (fun _ => []) (fun _ => none)
    () rotateOnce t hrun hapart).2 (rotateOnce.take 6) _ [] s rfl hs hcloses
  rw [hname, hclosing] at h
  exact ⟨t, hrun, h⟩

/-- **A file that is opened again is lost**: with a format that shows no time the first file
of the session is empty after a rotation.  Generated names come again when the local clock
goes back, or when the directory leaves no room for the time, and a name after `-f` may be
one of them. -/
theorem rotation_reopens_file :
    (∃ t, exec (step .tty .little (fileName formatA) fwriteNone fcloseNone)
        (Recorder.start (fun _ => []) [0x61] (fun _ => none) ()) rotateOnce = some t ∧
      t.closed = [[0x61]] ∧ t.name = [0x61] ∧ t.disk [0x61] = [] ∧
      t.recorded = [⟨⟨⟨1000, 0⟩, 1⟩, [65]⟩]) ∧
    fileName { dotSeven with zone := .back 4600 } ⟨1000, 0⟩ =
      fileName { dotSeven with zone := .back 4600 } ⟨4600, 0⟩ ∧
    fileName { dotSeven with naming := .generated (List.replicate 8187 0x61) [] } ⟨1000, 0⟩ =
      fileName { dotSeven with naming := .generated (List.replicate 8187 0x61) [] } ⟨1900, 0⟩ ∧
    First.name dotSeven (.given (fileName dotSeven ⟨1900, 0⟩)) = fileName dotSeven ⟨1900, 0⟩ := by
  refine ⟨⟨_, rfl, rfl, rfl, rfl, rfl⟩, by decide, ?_, by decide⟩
  have hlen : (List.replicate 8187 (0x61 : UInt8)).length = bufsiz - 5 := List.length_replicate
  rw [fileName_of_long rfl hlen, fileName_of_long rfl hlen]

end TtyRec
