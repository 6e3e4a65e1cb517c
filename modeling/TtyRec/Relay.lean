import TtyRec.Parent

/-!
# The relay

`doinput` passes the keyboard on to the command, and `dooutput` what the command prints on
to the terminal or to the two standard streams.  Both hand a whole chunk to one `write`, and
of what it returns they only look at -1: when it takes a part of the chunk, the rest is
dropped.

## Main definitions

* `inputOf`, `outputOf` — the bytes that went out.
* `InputRelays`, `OutputRelays` — the session is unlocked, and no system call fails.
* `InputWhole`, `OutputWhole` — no `write` is short.

## Main results

* `relay_iff_whole` — **everything that is read is passed on exactly if no `write` is
  short**, in both directions.
-/

namespace TtyRec

open Run

/-! ### Input -/

/-- The bytes that went out to the pty master. -/
def inputOf (acts : List Act) : List UInt8 :=
  acts.flatMap fun
    | .input bytes => bytes
    | _ => []

/-- What an iteration of `doinput` reads, whether or not it is forwarded. -/
def inputTaken (_ : Parent) : ParentEvent → List UInt8
  | .input bytes _ _ _ => bytes
  | _ => []

/-- What it does not write: the end of a chunk after a short `write`. -/
def inputLost (_ : Parent) : ParentEvent → List UInt8
  | .input bytes (.sent n) _ _ => bytes.drop n
  | _ => []

/-- The session is unlocked when input comes, and `write` does not fail. -/
def InputRelays (s : Parent) : ParentEvent → Prop
  | .input _ (.sent _) _ _ => s.lockedSince = 0
  | .input _ _ _ _ => False
  | _ => True

instance (s : Parent) (e : ParentEvent) : Decidable (InputRelays s e) :=
  match e with
  | .input _ (.sent _) _ _ => inferInstanceAs (Decidable (_ = _))
  | .input _ .eintr _ _ | .input _ .error _ _ => .isFalse id
  | .eof | .tick _ _ | .urg _ | .usr2 _ => .isTrue trivial

/-- The `write` of an input is not short: it takes everything, or it fails. -/
def InputWhole (_ : Parent) : ParentEvent → Prop
  | .input bytes (.sent n) _ _ => bytes.length ≤ n
  | _ => True

instance (s : Parent) (e : ParentEvent) : Decidable (InputWhole s e) :=
  match e with
  | .input _ (.sent _) _ _ => inferInstanceAs (Decidable (_ ≤ _))
  | .input _ .eintr _ _ | .input _ .error _ _ => .isTrue trivial
  | .eof | .tick _ _ | .urg _ | .usr2 _ => .isTrue trivial

theorem inputOf_append (acts acts' : List Act) :
    inputOf (acts ++ acts') = inputOf acts ++ inputOf acts' :=
  List.flatMap_append

theorem inputOf_signal (sig : Signal) (s : Parent) :
    inputOf (s.act (.signal sig)).acts = inputOf s.acts := by
  rw [Parent.act_acts, inputOf_append]
  exact List.append_nil _

theorem inputOf_handleCheatcodes (o : ParentOptions) (c : UInt8) (now : ℤ) (s : Parent) :
    inputOf (handleCheatcodes o c now s).acts = inputOf s.acts := by
  have hlock : inputOf (handleLockseq c now s).acts = inputOf s.acts := by
    unfold handleLockseq
    split
    · split
      · exact inputOf_signal .urg _
      · rfl
    · rfl
  have hkill : ∀ s, inputOf (handleKillseq c s).acts = inputOf s.acts := by
    intro s
    unfold handleKillseq
    dsimp only
    generalize (if killKey s.killseq c = true then s.killseq + 1 else 0) = killseq
    split
    · exact inputOf_signal .term _
    · rfl
  unfold handleCheatcodes
  split
  · rw [hkill, hlock]
  · rfl

theorem inputOf_afterInput (o : ParentOptions) (bytes : List UInt8) (now : ℤ) (s : Parent) :
    inputOf (afterInput o bytes now s).acts = inputOf s.acts := by
  match bytes with
  | [] => rfl
  | [c] => exact inputOf_handleCheatcodes o c now s
  | _ :: _ :: _ => rfl

/-- The watcher writes warnings to the terminal and sends signals; none of its actions is input of
the command. -/
theorem inputOf_timeoutWatcher (o : ParentOptions) (now lockNow : ℤ) (s : Parent) :
    inputOf (timeoutWatcher o now lockNow s).acts = inputOf s.acts := by
  have hwarn : inputOf (warnLock o now s).acts = inputOf s.acts := by
    unfold warnLock
    split
    · rw [Parent.act_acts, inputOf_append]
      exact List.append_nil _
    · rfl
  have hlock : inputOf (watchLock o now lockNow s).acts = inputOf s.acts := by
    unfold watchLock
    dsimp only
    split
    · split
      · exact (inputOf_signal .urg _).trans hwarn
      · exact hwarn
    · rfl
  have hkill : ∀ idle limit s, inputOf (watchKillAt o idle limit s).acts = inputOf s.acts := by
    intro idle limit s
    unfold watchKillAt
    split
    · rw [Parent.act_acts, inputOf_append]
      exact List.append_nil _
    · split
      · exact inputOf_signal .term s
      · rfl
  unfold timeoutWatcher watchKill
  split
  · split
    · rw [hkill, hlock]
    · rw [hkill, hlock]
  · exact hlock

theorem inputOf_lockSession (now : ℤ) (s : Parent) :
    inputOf (lockSession now s).acts = inputOf s.acts := by
  unfold lockSession
  split
  · rfl
  · exact inputOf_signal .urg _

theorem inputOf_unlockSession (now : ℤ) (s : Parent) :
    inputOf (unlockSession now s).acts = inputOf s.acts := by
  unfold unlockSession
  dsimp only
  split
  · rfl
  · rw [inputOf_signal, inputOf_signal, inputOf_signal]

/-- **One step of the parent** writes what it reads, but for what it loses. -/
theorem input_step {o : ParentOptions} {s t : Parent} {e : ParentEvent} (hok : InputRelays s e)
    (hstep : parentStep o s e = some t) :
    ∃ bs, inputOf t.acts = inputOf s.acts ++ bs ∧ bs ++ inputLost s e ++ [] = [] ++ inputTaken s e := by
  cases parentStep_steps hstep with
  | @dropped _ w _ _ _ _ _ hlocked =>
    cases w with
    | sent n => exact absurd hok hlocked
    | eintr => exact hok.elim
    | error => exact hok.elim
  | @sent bytes n =>
    refine ⟨bytes.take n, ?_, by simp [inputLost, inputTaken]⟩
    rw [inputOf_afterInput, Parent.act_acts, inputOf_append]
    simp [inputOf]
  | @failed _ w _ _ _ _ _ _ hw =>
    cases w with
    | sent n => exact absurd rfl (hw n)
    | eintr => exact hok.elim
    | error => exact hok.elim
  | eof => exact ⟨[], by simp, rfl⟩
  | tick => exact ⟨[], by rw [inputOf_timeoutWatcher, List.append_nil], rfl⟩
  | urg => exact ⟨[], by rw [inputOf_lockSession, List.append_nil], rfl⟩
  | usr2 => exact ⟨[], by rw [inputOf_unlockSession, List.append_nil], rfl⟩

/-! ### Output -/

variable {S N : Type*}

/-- The bytes that went out to a stream, in order. -/
def outputOf (fd : Fd) (sent : List Sent) : List UInt8 :=
  sent.flatMap fun
    | .output fd' bytes => if fd' = fd then bytes else []
    | _ => []

/-- What was read for a stream and is not yet written. -/
def Pc.inFlight (fd : Fd) : Pc → List UInt8
  | .check c | .write c _ => if c.fd = fd then c.bytes else []
  | _ => []

/-- What a step reads of the command. -/
def outputTaken (fd : Fd) (_ : Recorder S N) : Event → List UInt8
  | .read fd' (.data bytes) => if fd' = fd then bytes else []
  | _ => []

/-- What it does not write, after a short `write` that nobody looks at. -/
def outputLost (fd : Fd) (s : Recorder S N) (e : Event) : List UInt8 :=
  match e, s.pc with
  | .write (.sent n), .write c _ => if c.fd = fd then c.bytes.drop n else []
  | _, _ => []

/-- The session is unlocked when a chunk comes, `write` does not fail, and neither does the
`fopen` of a rotation. -/
def OutputRelays (s : Recorder S N) : Event → Prop
  | .check _ => s.locked = false
  | .write (.sent _) => True
  | .write _ => False
  | .usr1 now _ opens => s.Rotates now → opens = true
  | _ => True

instance (s : Recorder S N) (e : Event) : Decidable (OutputRelays s e) :=
  match e with
  | .check _ => inferInstanceAs (Decidable (_ = _))
  | .write (.sent _) => .isTrue trivial
  | .write .eintr | .write .error => .isFalse id
  | .usr1 _ _ _ => inferInstanceAs (Decidable (_ → _))
  | .read _ _ | .selectFailed | .header _ | .payload _ | .account | .urg | .usr2 | .finish _ =>
    .isTrue trivial

/-- The `write` of a chunk is not short. -/
def OutputWhole (s : Recorder S N) (e : Event) : Prop :=
  match e, s.pc with
  | .write (.sent n), .write c _ => c.bytes.length ≤ n
  | _, _ => True

theorem outputOf_append (fd : Fd) (sent sent' : List Sent) :
    outputOf fd (sent ++ sent') = outputOf fd sent ++ outputOf fd sent' :=
  List.flatMap_append

theorem outputOf_lockScreen (fd : Fd) (s : Control N) :
    outputOf fd (lockScreen s).sent = outputOf fd s.sent := by
  unfold lockScreen
  split
  · rfl
  · rw [outputOf_append]
    exact List.append_nil _

theorem outputOf_unlockScreen (fd : Fd) (s : Control N) :
    outputOf fd (unlockScreen s).sent = outputOf fd s.sent := by
  unfold unlockScreen
  split
  · rw [outputOf_append]
    exact List.append_nil _
  · rfl

theorem closePipe_inFlight (fd fd' : Fd) {s : Control N} (hpc : s.pc = .read) :
    (closePipe fd' s).pc.inFlight fd = [] := by
  rcases closePipe_pc fd' hpc with hpc' | hpc' <;> rw [hpc'] <;> rfl

/-- A write puts out the chunk that it holds, but for what it loses. -/
theorem write_flow (fd : Fd) {s : Recorder S N} {k : Chunk} {h : Header} (n : ℕ)
    (hpc : s.pc = .write k h) :
    ∃ bs, outputOf fd (s.sent ++ [.output k.fd (k.bytes.take n)]) = outputOf fd s.sent ++ bs ∧
      bs ++ outputLost fd s (.write (.sent n)) ++ (afterWrite k h).inFlight fd =
        s.pc.inFlight fd ++ [] := by
  have hafter : (afterWrite k h).inFlight fd = [] := by
    unfold afterWrite
    split <;> rfl
  have hlost : outputLost fd s (.write (.sent n)) = if k.fd = fd then k.bytes.drop n else [] := by
    unfold outputLost
    rw [hpc]
  have hheld : s.pc.inFlight fd = if k.fd = fd then k.bytes else [] := by
    rw [hpc]
    rfl
  refine ⟨if k.fd = fd then k.bytes.take n else [], ?_, ?_⟩
  · rw [outputOf_append]
    simp [outputOf]
  · rw [hlost, hafter, hheld]
    split
    · rw [List.take_append_drop]
    · rfl

/-- A call of a wrapper puts nothing out, and holds nothing back. -/
theorem afterCall_flow (fd : Fd) {α : Type} (s : Recorder S N) (pc : Pc)
    (hpc : pc.inFlight fd = []) (r : Outcome (α × (OutFile × S))) :
    (Recorder.afterCall s pc r).sent = s.sent ∧
      (Recorder.afterCall s pc r).pc.inFlight fd = [] := by
  cases r with
  | ret x => exact ⟨rfl, hpc⟩
  | exit status => exact ⟨rfl, rfl⟩
  | spin => exact ⟨rfl, rfl⟩

section Machine

variable [DecidableEq N] {cfg : Config} {host : Host} {fileName : Timeval → N}
  {fwriteWrapper : FwriteWrapper S} {fcloseWrapper : FcloseWrapper S}

/-- A rotation that opens its file puts nothing out, and goes on where it was. -/
theorem swing_flow (fileName : Timeval → N) (fcloseWrapper : FcloseWrapper S) {s : Recorder S N}
    {now : Timeval} (named : Timeval) {opens : Bool} (hok : s.Rotates now → opens = true) :
    (swingOutputFile fileName fcloseWrapper now named opens s).sent = s.sent ∧
      (swingOutputFile fileName fcloseWrapper now named opens s).pc = s.pc := by
  unfold swingOutputFile
  split
  next hrot =>
    rw [hok hrot]
    exact ⟨rfl, rfl⟩
  · exact ⟨rfl, rfl⟩

/-- **One step of the recorder** puts out, loses or holds back what it held back and what it
reads. -/
theorem output_step (fd : Fd) {s t : Recorder S N} {e : Event} (hok : OutputRelays s e)
    (hstep : step cfg host fileName fwriteWrapper fcloseWrapper s e = some t) :
    ∃ bs, outputOf fd t.sent = outputOf fd s.sent ++ bs ∧
      bs ++ outputLost fd s e ++ t.pc.inFlight fd = s.pc.inFlight fd ++ outputTaken fd s e := by
  -- the steps that put nothing out and lose nothing
  have hkeep : outputOf fd t.sent = outputOf fd s.sent → outputLost fd s e = [] →
      t.pc.inFlight fd = s.pc.inFlight fd ++ outputTaken fd s e →
      ∃ bs, outputOf fd t.sent = outputOf fd s.sent ++ bs ∧
        bs ++ outputLost fd s e ++ t.pc.inFlight fd = s.pc.inFlight fd ++ outputTaken fd s e := by
    intro hsent hlost hflow
    exact ⟨[], by rw [hsent, List.append_nil], by rw [hlost, List.nil_append, hflow, List.nil_append]⟩
  -- before a read nothing is held back
  have hread : s.pc = .read → s.pc.inFlight fd = [] := by
    intro hpc
    rw [hpc]
    rfl
  cases step_steps hstep with
  | control hc =>
    cases hc with
    | data hpc _ _ => exact hkeep rfl rfl (by rw [hread hpc]; rfl)
    | eintr hpc | selectFailed hpc => exact hkeep rfl rfl (List.append_nil _).symm
    | ttyEnds hpc _ hr =>
      rcases hr with rfl | rfl
      · exact hkeep rfl rfl (by rw [hread hpc]; rfl)
      · exact hkeep rfl rfl (by rw [hread hpc]; rfl)
    | @pipeEnds fd' r hpc hr =>
      have hsent := closePipe_sent fd' s.toControl
      have hflow := closePipe_inFlight fd fd' hpc
      rcases hr with rfl | rfl
      · exact hkeep (congrArg (outputOf fd) hsent) rfl (by rw [hread hpc, hflow]; rfl)
      · exact hkeep (congrArg (outputOf fd) hsent) rfl (by rw [hread hpc, hflow]; rfl)
    | @check k now hpc =>
      have hwrite : checkLock k now s.toControl =
          { s.toControl with pc := .write k ⟨now.tv, k.bytes.length⟩ } :=
        if_neg (Bool.eq_false_iff.mp hok)
      rw [hwrite] at hkeep ⊢
      exact hkeep rfl rfl (by rw [hpc]; exact (List.append_nil _).symm)
    | @sent _ _ n hpc => exact write_flow fd n hpc
    | writeEintr | writeError => exact hok.elim
    | account hpc => exact hkeep rfl rfl (by rw [hpc]; rfl)
    | urg =>
      apply hkeep (outputOf_lockScreen fd _) rfl
      rw [lockScreen_pc]
      exact (List.append_nil _).symm
    | usr2 =>
      apply hkeep (outputOf_unlockScreen fd _) rfl
      rw [unlockScreen_pc]
      exact (List.append_nil _).symm
  | @header c h now hpc =>
    obtain ⟨hsent, hflow⟩ := afterCall_flow fd { s with recorded := s.recorded ++ [⟨h, c.bytes⟩] }
      (.payload c h) rfl (writeHeader host fwriteWrapper h now (s.fscript, s.wrapper))
    exact hkeep (congrArg (outputOf fd) hsent) rfl (by rw [hflow, hpc]; rfl)
  | @payload c h now hpc =>
    obtain ⟨hsent, hflow⟩ := afterCall_flow fd s (.account c) rfl
      (fwriteWrapper 1 c.bytes now (s.fscript, s.wrapper))
    exact hkeep (congrArg (outputOf fd) hsent) rfl (by rw [hflow, hpc]; rfl)
  | @usr1 now named opens =>
    obtain ⟨hsent, hpc⟩ := swing_flow fileName fcloseWrapper named hok
    exact hkeep (congrArg (outputOf fd) hsent) rfl (by rw [hpc]; exact (List.append_nil _).symm)
  | finish hpc => exact hkeep (outputOf_unlockScreen fd _) rfl (by rw [hpc]; rfl)

end Machine

/-! ### Both directions -/

theorem inputLost_eq_nil_iff (s : Parent) (e : ParentEvent) :
    inputLost s e = [] ↔ InputWhole s e := by
  cases e with
  | input bytes w now lockNow =>
    cases w with
    | sent n => exact List.drop_eq_nil_iff
    | eintr => exact ⟨fun _ => trivial, fun _ => rfl⟩
    | error => exact ⟨fun _ => trivial, fun _ => rfl⟩
  | eof => exact ⟨fun _ => trivial, fun _ => rfl⟩
  | tick now lockNow => exact ⟨fun _ => trivial, fun _ => rfl⟩
  | urg now => exact ⟨fun _ => trivial, fun _ => rfl⟩
  | usr2 now => exact ⟨fun _ => trivial, fun _ => rfl⟩

/-- A step loses nothing on either stream exactly if its `write` is not short. -/
theorem outputLost_eq_nil_iff (s : Recorder S N) (e : Event) :
    outputLost .stdout s e = [] ∧ outputLost .stderr s e = [] ↔ OutputWhole s e := by
  unfold outputLost OutputWhole
  split
  next n k h _ =>
    obtain ⟨fd, bytes, dontWrite⟩ := k
    cases fd
    · exact ⟨fun h => List.drop_eq_nil_iff.mp h.1, fun h => ⟨List.drop_eq_nil_iff.mpr h, rfl⟩⟩
    · exact ⟨fun h => List.drop_eq_nil_iff.mp h.2, fun h => ⟨rfl, List.drop_eq_nil_iff.mpr h⟩⟩
  · exact ⟨fun _ => trivial, fun _ => ⟨rfl, rfl⟩⟩

instance (s : Recorder S N) (e : Event) : Decidable (OutputWhole s e) :=
  decidable_of_iff _ (outputLost_eq_nil_iff s e)

/-- What the input of a run delivers, and what it takes. -/
theorem input_iff_whole {o : ParentOptions} {start : ℤ} {es : List ParentEvent} {t : Parent}
    (hrun : exec (parentStep o) (Parent.start start) es = some t)
    (hok : Along (parentStep o) InputRelays (Parent.start start) es) :
    inputOf t.acts = collect (parentStep o) inputTaken (Parent.start start) es ↔
      Along (parentStep o) InputWhole (Parent.start start) es := by
  have h := relay_iff (fun _ _ _ hs hstep => input_step hs hstep) hok hrun
  simp only [List.append_nil, inputLost_eq_nil_iff] at h
  exact h

section Machine

variable [DecidableEq N] {cfg : Config} {host : Host} {fileName : Timeval → N}
  {fwriteWrapper : FwriteWrapper S} {fcloseWrapper : FcloseWrapper S}

/-- What the output of a run delivers or still holds, and what it takes. -/
theorem output_iff_whole {disk : N → List UInt8} {name : N} {short : ℕ → Option ℕ} {wrapper : S}
    {es : List Event} {t : Recorder S N}
    (hrun : exec (step cfg host fileName fwriteWrapper fcloseWrapper)
      (Recorder.start disk name short wrapper) es = some t)
    (hok : Along (step cfg host fileName fwriteWrapper fcloseWrapper) OutputRelays
      (Recorder.start disk name short wrapper) es) :
    (∀ fd, outputOf fd t.sent ++ t.pc.inFlight fd =
        collect (step cfg host fileName fwriteWrapper fcloseWrapper) (outputTaken fd)
          (Recorder.start disk name short wrapper) es) ↔
      Along (step cfg host fileName fwriteWrapper fcloseWrapper) OutputWhole
        (Recorder.start disk name short wrapper) es := by
  have h := fun fd => relay_iff (fun _ _ _ hs hstep => output_step fd hs hstep) hok hrun
  simp only [show ∀ fd, outputOf fd (Recorder.start disk name short wrapper).sent ++
    (Recorder.start disk name short wrapper).pc.inFlight fd = [] from fun _ => rfl,
    List.nil_append] at h
  constructor
  · intro heq
    have hboth := ((h .stdout).mp (heq .stdout)).and ((h .stderr).mp (heq .stderr))
    exact hboth.mono fun s e => (outputLost_eq_nil_iff s e).mp
  · intro hwhole fd
    refine (h fd).mpr (hwhole.mono ?_)
    intro s e hs
    have hboth := (outputLost_eq_nil_iff s e).mpr hs
    cases fd with
    | stdout => exact hboth.1
    | stderr => exact hboth.2

/-- **Everything that is read is passed on exactly if no `write` is short.**  The runs are
those of the parent and of the recorder while the session is unlocked and no `write` fails;
the input goes to the pty master, and each stream of the output to its own descriptor. -/
theorem relay_iff_whole {o : ParentOptions} {start : ℤ} {es : List ParentEvent} {p : Parent}
    (hrun : exec (parentStep o) (Parent.start start) es = some p)
    (hok : Along (parentStep o) InputRelays (Parent.start start) es)
    {disk : N → List UInt8} {name : N} {short : ℕ → Option ℕ} {wrapper : S} {es' : List Event}
    {t : Recorder S N}
    (hrun' : exec (step cfg host fileName fwriteWrapper fcloseWrapper)
      (Recorder.start disk name short wrapper) es' = some t)
    (hok' : Along (step cfg host fileName fwriteWrapper fcloseWrapper) OutputRelays
      (Recorder.start disk name short wrapper) es') :
    (inputOf p.acts = collect (parentStep o) inputTaken (Parent.start start) es ↔
        Along (parentStep o) InputWhole (Parent.start start) es) ∧
      ((∀ fd, outputOf fd t.sent ++ t.pc.inFlight fd =
          collect (step cfg host fileName fwriteWrapper fcloseWrapper) (outputTaken fd)
            (Recorder.start disk name short wrapper) es') ↔
        Along (step cfg host fileName fwriteWrapper fcloseWrapper) OutputWhole
          (Recorder.start disk name short wrapper) es') :=
  ⟨input_iff_whole hrun hok, output_iff_whole hrun' hok'⟩

end Machine

/-- A session in a terminal without timeouts and cheat-codes. -/
def ParentOptions.tty : ParentOptions where
  useTty := true
  cheatcodes := false
  timeoutLock := 0
  timeoutKill := 0
  warnBeforeLock := 0
  warnBeforeKill := 0
  lock_nonneg := noTimeout_le
  kill_nonneg := noTimeout_le
  lock_le_kill h _ := Int.le_of_lt h
  warnBeforeLock_nonneg := noTimeout_le
  warnBeforeLock_le := noTimeout_le
  warnBeforeKill_nonneg := noTimeout_le
  warnBeforeKill_le := noTimeout_le

/-- Two bytes come in, and `write` takes `n`. -/
def inputRun (n : ℕ) : List ParentEvent := [.input [65, 66] (.sent n) 1000 1000]

/-- The command prints two bytes, and `write` takes `n`. -/
def outputRun (n : ℕ) : List Event :=
  [.read .stdout (.data [65, 66]), .check (.ofSec 1000), .write (.sent n)]

/-- Two bytes in each direction, and writes that take both. -/
theorem relay_iff_whole_run :
    ∃ p, ∃ t : Recorder Unit ℤ,
      exec (parentStep .tty) (Parent.start 1000) (inputRun 2) = some p ∧
      exec (step .tty .little Timeval.tvSec fwriteNone fcloseNone)
        (Recorder.start (fun _ => []) 0 (fun _ => none) ()) (outputRun 2) = some t ∧
      inputOf p.acts = [65, 66] ∧ outputOf .stdout t.sent ++ t.pc.inFlight .stdout = [65, 66] := by
  obtain ⟨p, hrun⟩ := Option.isSome_iff_exists.mp
    (show (exec (parentStep .tty) (Parent.start 1000) (inputRun 2)).isSome = true by decide)
  obtain ⟨t, hrun'⟩ := Option.isSome_iff_exists.mp
    (show (exec (step .tty .little Timeval.tvSec fwriteNone fcloseNone)
      (Recorder.start (fun _ => []) 0 (fun _ => none) ()) (outputRun 2)).isSome = true from rfl)
  have h := relay_iff_whole hrun (by decide) hrun' (by decide)
  exact ⟨p, t, hrun, hrun', h.1.mpr (by decide), h.2.mpr (by decide) .stdout⟩

/-- **A short write loses the rest of its chunk**, in either direction.  Nobody looks at how much
was written. -/
theorem short_write_loses :
    ∃ p, ∃ t : Recorder Unit ℤ,
      exec (parentStep .tty) (Parent.start 1000) (inputRun 1) = some p ∧
      Along (parentStep .tty) InputRelays (Parent.start 1000) (inputRun 1) ∧
      inputOf p.acts = [65] ∧
      collect (parentStep .tty) inputTaken (Parent.start 1000) (inputRun 1) = [65, 66] ∧
      exec (step .tty .little Timeval.tvSec fwriteNone fcloseNone)
        (Recorder.start (fun _ => []) 0 (fun _ => none) ()) (outputRun 1) = some t ∧
      Along (step .tty .little Timeval.tvSec fwriteNone fcloseNone) OutputRelays
        (Recorder.start (fun _ => []) 0 (fun _ => none) ()) (outputRun 1) ∧
      outputOf .stdout t.sent ++ t.pc.inFlight .stdout = [65] ∧
      collect (step .tty .little Timeval.tvSec fwriteNone fcloseNone) (outputTaken .stdout)
        (Recorder.start (fun _ => []) 0 (fun _ => none) ()) (outputRun 1) = [65, 66] :=
  ⟨_, _, rfl, by decide, rfl, rfl, rfl, by decide, rfl, rfl⟩

end TtyRec
