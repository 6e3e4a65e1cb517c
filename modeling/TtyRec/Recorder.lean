import TtyRec.Compress
import TtyRec.Record
import TtyRec.Lib.Run

/-!
# The recorder

The process that `dooutput` runs in reads what the command prints, passes it on to
the terminal or to the two standard streams, and records it.  Its handlers can run
between any two statements of the loop: `swing_output_file` on SIGUSR1, which
closes the recording and opens the next one, `lock_session` on SIGURG and
`unlock_session` on SIGUSR2.  So the process is a machine that executes one
statement or one handler at a time, and the environment chooses which, with what
the system calls return.

The state is split.  `Control` is what the statements depend on, and does not depend
on how the recording is written; the rest is the stream, the static variables of
the wrappers, and the files that are closed.

## Main definitions

* `Pc` — the statement that is next, with the local variables that are live.
* `Control`, `Recorder` — the state; `Recorder.start` — when the loop begins.
* `Event`, `step` — what can happen, and what it does.
* `stepControl` — the part of `step` that leaves the recording alone.
* `swingOutputFile`, `closeScript` — the rotation.
* `ControlSteps`, `RecorderSteps` — what a step can be.
* `Quiet` — what a step leaves alone that does not use the recording.

## Main results

* `step_cases` — what a step can do to the recording.
-/

namespace TtyRec

/-- `BUFSIZ`, the size of the buffers of `dooutput` and of the names. -/
def bufsiz : ℕ := 8192

/-- A reading of `gettimeofday`, between the epoch and the last date that a header
can hold. -/
structure WallClock where
  tv : Timeval
  sec_nonneg : 0 ≤ tv.tvSec
  sec_lt : tv.tvSec < 2 ^ 44
  usec_nonneg : 0 ≤ tv.tvUsec
  usec_lt : tv.tvUsec < 10 ^ 6

/-- A reading of the clock at a full second, as far as a header can hold it. -/
def WallClock.ofSec (sec : ℕ) : WallClock where
  tv := ⟨(sec % 2 ^ 44 : ℕ), 0⟩
  sec_nonneg := Int.natCast_nonneg _
  sec_lt := by
    have := Nat.mod_lt sec (show 0 < 2 ^ 44 by decide)
    norm_num at this ⊢
    omega
  usec_nonneg := le_rfl
  usec_lt := by norm_num

/-- The streams that the command's output goes to.  With a pty there is only the first. -/
inductive Fd where
  | stdout
  | stderr
  deriving DecidableEq, Repr

/-- What `read` returns: data, EINTR, the end of the file, or another error. -/
inductive ReadResult where
  | data (bytes : List UInt8)
  | eintr
  | eof
  | error
  deriving DecidableEq, Repr

/-- What `write` returns: the number of bytes that went out, or -1. -/
inductive WriteResult where
  | sent (n : ℕ)
  | eintr
  | error
  deriving DecidableEq, Repr

/-- What the process sends out of its standard streams. -/
inductive Sent where
  | output (fd : Fd) (bytes : List UInt8)
  | lockScreen
  | restore
  deriving DecidableEq, Repr

/-- The variables `target_fd`, `obuf` and `dont_write` after a read. -/
structure Chunk where
  fd : Fd
  bytes : List UInt8
  dontWrite : Bool
  deriving DecidableEq, Repr

/-- The statement of `dooutput` that is executed next, with the local variables that it needs. -/
inductive Pc where
  | read
  | check (c : Chunk)
  | write (c : Chunk) (h : Header)
  | header (c : Chunk) (h : Header)
  | payload (c : Chunk) (h : Header)
  | account (c : Chunk)
  /-- The loop is over, and the process waits until it can exit. -/
  | waiting
  | exited (status : ℕ)
  /-- In a loop of a wrapper, with the fuel used up. -/
  | hung
  deriving DecidableEq, Repr

/-- The process still runs. -/
def Pc.Live : Pc → Prop
  | .exited _ => False
  | .hung => False
  | _ => True

instance : DecidablePred Pc.Live
  | .exited _ => .isFalse id
  | .hung => .isFalse id
  | .read | .check _ | .write _ _ | .header _ _ | .payload _ _ | .account _ | .waiting =>
    .isTrue trivial

/-- The options that `dooutput` looks at: whether there is a terminal, and which streams are not
recorded. -/
structure Config where
  useTty : Bool
  stealthStdout : Bool
  stealthStderr : Bool
  deriving DecidableEq, Repr

/-- The options of a session in a terminal. -/
def Config.tty : Config := ⟨true, false, false⟩

def Config.stealth (cfg : Config) : Fd → Bool
  | .stdout => cfg.stealthStdout
  | .stderr => cfg.stealthStderr

/-- What the statements depend on.  `got`, `sent`, `closed` and `recorded` are the
history of the process. -/
structure Control (N : Type*) where
  pc : Pc
  /-- `locked_since` is not 0. -/
  locked : Bool
  stdoutOpened : Bool
  stderrOpened : Bool
  /-- `bytes_out`.  The source has an `unsigned long long`, which would be 0 again after 2 ^ 64
  bytes; no session gets there. -/
  bytesOut : ℕ
  lastRotate : Timeval
  /-- The name of the file that is written. -/
  name : N
  /-- What was read of the command. -/
  got : List (Fd × List UInt8)
  sent : List Sent
  /-- The files that were closed, in the order in which they were opened. -/
  closed : List N
  /-- The chunks that were handed to `write_header`, with their headers. -/
  recorded : List Record

/-- The process: `disk` is what the files hold that it has closed, or not opened
yet. -/
structure Recorder (S N : Type*) extends Control N where
  fscript : OutFile
  wrapper : S
  disk : N → List UInt8

/-- What can happen, with what the system calls return.  `now` is the clock of the
calls of the wrapper. -/
inductive Event where
  | read (fd : Fd) (r : ReadResult)
  | selectFailed
  | check (now : WallClock)
  | write (r : WriteResult)
  | header (now : ℕ → ℤ)
  | payload (now : ℕ → ℤ)
  | account
  /-- SIGUSR1: the two readings of the clock, and whether `fopen` succeeds. -/
  | usr1 (now named : Timeval) (opens : Bool)
  | urg
  | usr2
  | finish (status : ℕ)

variable {S N : Type*}

/-- The process when the loop begins, the recording being open at the end of what
the file holds. -/
def Recorder.start (disk : N → List UInt8) (name : N) (short : ℕ → Option ℕ) (wrapper : S) :
    Recorder S N where
  pc := .read
  locked := false
  stdoutOpened := true
  stderrOpened := true
  bytesOut := 0
  lastRotate := ⟨0, 0⟩
  name := name
  got := []
  sent := []
  closed := []
  recorded := []
  fscript := ⟨disk name, 0, short, false⟩
  wrapper := wrapper
  disk := disk

/-! ### The statements that leave the recording alone -/

/-- A read from the pty.  EINTR goes back to the read, and an error ends the loop as the end of the
file does. -/
def readTty (fd : Fd) (r : ReadResult) (s : Control N) : Option (Control N) :=
  match fd, r with
  | .stderr, _ => none
  | .stdout, .data bytes =>
    if bytes ≠ [] ∧ bytes.length ≤ bufsiz then
      some { s with pc := .check ⟨.stdout, bytes, false⟩, got := s.got ++ [(.stdout, bytes)] }
    else none
  | .stdout, .eintr => some s
  | .stdout, .eof => some { s with pc := .waiting }
  | .stdout, .error => some { s with pc := .waiting }

def Control.pipeOpened (s : Control N) : Fd → Bool
  | .stdout => s.stdoutOpened
  | .stderr => s.stderrOpened

/-- The pipe of a stream is closed; the loop ends with the second one. -/
def closePipe (fd : Fd) (s : Control N) : Control N :=
  let s' := match fd with
    | .stdout => { s with stdoutOpened := false }
    | .stderr => { s with stderrOpened := false }
  if s'.stdoutOpened = false ∧ s'.stderrOpened = false then { s' with pc := .waiting } else s'

/-- Closing a pipe changes which pipes are open, and where the process is. -/
theorem closePipe_eq (fd : Fd) (s : Control N) :
    closePipe fd s =
      { s with
        pc := (closePipe fd s).pc
        stdoutOpened := (closePipe fd s).stdoutOpened
        stderrOpened := (closePipe fd s).stderrOpened } := by
  cases fd <;>
  · unfold closePipe
    dsimp only
    split <;> rfl

@[simp] theorem closePipe_locked (fd : Fd) (s : Control N) :
    (closePipe fd s).locked = s.locked := by
  rw [closePipe_eq]

@[simp] theorem closePipe_bytesOut (fd : Fd) (s : Control N) :
    (closePipe fd s).bytesOut = s.bytesOut := by
  rw [closePipe_eq]

@[simp] theorem closePipe_got (fd : Fd) (s : Control N) : (closePipe fd s).got = s.got := by
  rw [closePipe_eq]

@[simp] theorem closePipe_sent (fd : Fd) (s : Control N) : (closePipe fd s).sent = s.sent := by
  rw [closePipe_eq]

@[simp] theorem closePipe_recorded (fd : Fd) (s : Control N) :
    (closePipe fd s).recorded = s.recorded := by
  rw [closePipe_eq]

/-- The loop goes on, or it is over. -/
theorem closePipe_pc (fd : Fd) {s : Control N} (hpc : s.pc = .read) :
    (closePipe fd s).pc = .read ∨ (closePipe fd s).pc = .waiting := by
  cases fd <;>
  · unfold closePipe
    dsimp only
    split
    · exact .inr rfl
    · exact .inl hpc

/-- A read from the pipe that `select` has found ready. -/
def readPipe (cfg : Config) (fd : Fd) (r : ReadResult) (s : Control N) : Option (Control N) :=
  if s.pipeOpened fd = false then none
  else
    match r with
    | .data bytes =>
      if bytes ≠ [] ∧ bytes.length ≤ bufsiz then
        some { s with pc := .check ⟨fd, bytes, cfg.stealth fd⟩, got := s.got ++ [(fd, bytes)] }
      else none
    | .eintr => some s
    | .eof => some (closePipe fd s)
    | .error => some (closePipe fd s)

/-- The condition of the `if`, and the header of the chunk. -/
def checkLock (c : Chunk) (now : WallClock) (s : Control N) : Control N :=
  if s.locked then { s with pc := .read }
  else { s with pc := .write c ⟨now.tv, c.bytes.length⟩ }

/-- The statement after the `write`: a stealth stream is not recorded. -/
def afterWrite (c : Chunk) (h : Header) : Pc := if c.dontWrite then .account c else .header c h

/-- The `write` to the terminal or to the standard stream. -/
def writeOutput (c : Chunk) (h : Header) (r : WriteResult) (s : Control N) : Option (Control N) :=
  match r with
  | .sent n =>
    if 0 < n ∧ n ≤ c.bytes.length then
      some { s with pc := afterWrite c h, sent := s.sent ++ [.output c.fd (c.bytes.take n)] }
    else none
  | .eintr => some { s with pc := afterWrite c h }
  | .error => some { s with pc := .waiting }

/-- `lock_session` in the recording process.  The flag and the drawing are one step: SIGUSR2 is not
blocked in the handler, but it is only delivered here between two statements of `dooutput`, and
never between two of the handler. -/
def lockScreen (s : Control N) : Control N :=
  if s.locked then s else { s with locked := true, sent := s.sent ++ [.lockScreen] }

/-- `unlock_session` in the recording process, which runs as a whole like `lock_session`. -/
def unlockScreen (s : Control N) : Control N :=
  if s.locked then { s with locked := false, sent := s.sent ++ [.restore] } else s

/-- The statements and handlers that neither write nor rotate the recording. -/
def stepControl (cfg : Config) (s : Control N) : Event → Option (Control N)
  | .read fd r =>
    match s.pc with
    | .read => if cfg.useTty then readTty fd r s else readPipe cfg fd r s
    | _ => none
  | .selectFailed =>
    match s.pc with
    | .read => if cfg.useTty then none else some s
    | _ => none
  | .check now =>
    match s.pc with
    | .check c => some (checkLock c now s)
    | _ => none
  | .write r =>
    match s.pc with
    | .write c h => writeOutput c h r s
    | _ => none
  | .account =>
    match s.pc with
    | .account c => some { s with pc := .read, bytesOut := s.bytesOut + c.bytes.length }
    | _ => none
  | .urg => if s.pc.Live then some (lockScreen s) else none
  | .usr2 => if s.pc.Live then some (unlockScreen s) else none
  | _ => none

/-! ### The statements and the handler that use the recording -/

/-- Go on with what a call of a wrapper returns. -/
def Recorder.afterCall {α : Type} (s : Recorder S N) (pc : Pc) :
    Outcome (α × (OutFile × S)) → Recorder S N
  | .ret (_, st) => { s with pc := pc, fscript := st.1, wrapper := st.2 }
  | .exit status => { s with pc := .exited status }
  | .spin => { s with pc := .hung }

/-- The time between two readings of the clock, in milliseconds. -/
def elapsedMs (last now : Timeval) : ℤ :=
  (now.tvSec - last.tvSec) * 1000 + (now.tvUsec - last.tvUsec).tdiv 1000

/-- `swing_output_file` rotates, and does not take the signal for a duplicate. -/
def Control.Rotates (s : Control N) (now : Timeval) : Prop :=
  s.lastRotate.tvSec = 0 ∨ 250 ≤ elapsedMs s.lastRotate now

instance (s : Control N) (now : Timeval) : Decidable (s.Rotates now) :=
  inferInstanceAs (Decidable (_ ∨ _))

section Machine

variable [DecidableEq N] (cfg : Config) (host : Host) (fileName : Timeval → N)
  (fwriteWrapper : FwriteWrapper S) (fcloseWrapper : FcloseWrapper S)

/-- `fclose_wrapper(fscript)`: what the wrapper still holds goes out, and the file is closed. -/
def closeScript (s : Recorder S N) : Recorder S N :=
  let st := fcloseWrapper (s.fscript, s.wrapper)
  { s with
    fscript := st.1
    wrapper := st.2
    disk := Function.update s.disk s.name st.1.data
    closed := s.closed ++ [s.name] }

/-- `fopen(newname, "w")`: the file is emptied if it exists. -/
def openScript (name : N) (s : Recorder S N) : Recorder S N :=
  { s with
    name := name
    fscript := { s.fscript with data := [], error := false }
    disk := Function.update s.disk name [] }

/-- `swing_output_file` in the recording process; `named` is the time that the new
name is made of. -/
def swingOutputFile (now named : Timeval) (opens : Bool) (s : Recorder S N) : Recorder S N :=
  if s.Rotates now then
    let s' := closeScript fcloseWrapper { s with lastRotate := now }
    if opens then openScript (fileName named) s' else { s' with pc := .exited 1 }
  else s

/-- One statement or one handler; the handlers run as long as the process does. -/
def step (s : Recorder S N) (e : Event) : Option (Recorder S N) :=
  match e with
  | .header now =>
    match s.pc with
    | .header c h =>
      some (Recorder.afterCall { s with recorded := s.recorded ++ [⟨h, c.bytes⟩] } (.payload c h)
        (writeHeader host fwriteWrapper h now (s.fscript, s.wrapper)))
    | _ => none
  | .payload now =>
    match s.pc with
    | .payload c _ =>
      some (Recorder.afterCall s (.account c) (fwriteWrapper 1 c.bytes now (s.fscript, s.wrapper)))
    | _ => none
  | .usr1 now named opens =>
    if s.pc.Live then some (swingOutputFile fileName fcloseWrapper now named opens s) else none
  | .finish status =>
    match s.pc with
    | .waiting =>
      let s' := closeScript fcloseWrapper { s with toControl := unlockScreen s.toControl }
      some { s' with pc := .exited status }
    | _ => none
  | e => (stepControl cfg s.toControl e).map fun c => { s with toControl := c }

end Machine

/-! ### The files that have been closed -/

section Files

variable [DecidableEq N] {s : Recorder S N} {name : N} {names : List N}

theorem map_update_of_notMem (h : name ∉ names) (disk : N → List UInt8) (data : List UInt8) :
    names.map (Function.update disk name data) = names.map disk := by
  apply List.map_congr_left
  intro n hn
  apply Function.update_of_ne
  rintro rfl
  exact h hn

/-- The file is the last of them, and the others are other files. -/
theorem map_closeScript (fcloseWrapper : FcloseWrapper S) (h : s.name ∉ s.closed) :
    (closeScript fcloseWrapper s).closed.map (closeScript fcloseWrapper s).disk =
      s.closed.map s.disk ++ [(fcloseWrapper (s.fscript, s.wrapper)).1.data] := by
  simp only [closeScript, List.map_append, List.map_cons, List.map_nil, map_update_of_notMem h,
    Function.update_self]

/-- A new file is none of those that were closed. -/
theorem map_openScript (h : name ∉ names) :
    names.map (openScript name s).disk = names.map s.disk :=
  map_update_of_notMem h s.disk []

end Files

/-! ### What a step can be -/

/-- The state after a step of `stepControl`, for each of the branches. -/
inductive ControlSteps (cfg : Config) (s : Control N) : Event → Control N → Prop
  | data {fd : Fd} {bytes : List UInt8} {dontWrite : Bool} (hpc : s.pc = .read)
      (hbytes : bytes ≠ [] ∧ bytes.length ≤ bufsiz)
      (hmark : cfg.useTty = false → dontWrite = cfg.stealth fd) :
    ControlSteps cfg s (.read fd (.data bytes))
      { s with pc := .check ⟨fd, bytes, dontWrite⟩, got := s.got ++ [(fd, bytes)] }
  | eintr {fd : Fd} (hpc : s.pc = .read) : ControlSteps cfg s (.read fd .eintr) s
  | ttyEnds {fd : Fd} {r : ReadResult} (hpc : s.pc = .read) (htty : cfg.useTty = true)
      (hr : r = .eof ∨ r = .error) : ControlSteps cfg s (.read fd r) { s with pc := .waiting }
  | pipeEnds {fd : Fd} {r : ReadResult} (hpc : s.pc = .read) (hr : r = .eof ∨ r = .error) :
    ControlSteps cfg s (.read fd r) (closePipe fd s)
  | selectFailed (hpc : s.pc = .read) : ControlSteps cfg s .selectFailed s
  | check {c : Chunk} {now : WallClock} (hpc : s.pc = .check c) :
    ControlSteps cfg s (.check now) (checkLock c now s)
  | sent {c : Chunk} {h : Header} {n : ℕ} (hpc : s.pc = .write c h) :
    ControlSteps cfg s (.write (.sent n))
      { s with pc := afterWrite c h, sent := s.sent ++ [.output c.fd (c.bytes.take n)] }
  | writeEintr {c : Chunk} {h : Header} (hpc : s.pc = .write c h) :
    ControlSteps cfg s (.write .eintr) { s with pc := afterWrite c h }
  | writeError {c : Chunk} {h : Header} (hpc : s.pc = .write c h) :
    ControlSteps cfg s (.write .error) { s with pc := .waiting }
  | account {c : Chunk} (hpc : s.pc = .account c) :
    ControlSteps cfg s .account { s with pc := .read, bytesOut := s.bytesOut + c.bytes.length }
  | urg (hlive : s.pc.Live) : ControlSteps cfg s .urg (lockScreen s)
  | usr2 (hlive : s.pc.Live) : ControlSteps cfg s .usr2 (unlockScreen s)

private theorem read_steps {cfg : Config} {fd : Fd} {r : ReadResult} {s t : Control N}
    (hpc : s.pc = .read) (h : (if cfg.useTty then readTty fd r s else readPipe cfg fd r s) = some t) :
    ControlSteps cfg s (.read fd r) t := by
  split at h
  next htty =>
    -- with a terminal there is one descriptor, and its end or an error is the end of the loop
    cases fd with
    | stderr => cases h
    | stdout =>
      cases r with
      | data bytes =>
        rw [readTty] at h
        split at h
        next hbytes =>
          cases h
          exact .data hpc hbytes fun hf => absurd (htty.symm.trans hf) Bool.noConfusion
        next => cases h
      | eintr =>
        cases h
        exact .eintr hpc
      | eof =>
        cases h
        exact .ttyEnds hpc htty (.inl rfl)
      | error =>
        cases h
        exact .ttyEnds hpc htty (.inr rfl)
  next =>
    -- a pipe that is closed is not read again
    unfold readPipe at h
    split at h
    · cases h
    · cases r with
      | data bytes =>
        dsimp only at h
        split at h
        next hbytes =>
          cases h
          exact .data hpc hbytes fun _ => rfl
        next => cases h
      | eintr =>
        cases h
        exact .eintr hpc
      | eof =>
        cases h
        exact .pipeEnds hpc (.inl rfl)
      | error =>
        cases h
        exact .pipeEnds hpc (.inr rfl)

/-- Read off the definition, event by event; later proofs go by the cases of `ControlSteps` and
never unfold `stepControl`. -/
theorem stepControl_steps {cfg : Config} {s t : Control N} {e : Event}
    (h : stepControl cfg s e = some t) : ControlSteps cfg s e t := by
  cases e with
  | read fd r =>
    unfold stepControl at h
    dsimp only at h
    split at h
    next hpc => exact read_steps hpc h
    next => cases h
  | selectFailed =>
    unfold stepControl at h
    dsimp only at h
    split at h
    next hpc =>
      split at h
      · cases h
      · cases h
        exact .selectFailed hpc
    next => cases h
  | check now =>
    unfold stepControl at h
    dsimp only at h
    split at h
    next hpc =>
      cases h
      exact .check hpc
    next => cases h
  | write r =>
    unfold stepControl at h
    dsimp only at h
    split at h
    next hpc =>
      cases r with
      | sent n =>
        unfold writeOutput at h
        dsimp only at h
        split at h
        · cases h
          exact .sent hpc
        · cases h
      | eintr =>
        cases h
        exact .writeEintr hpc
      | error =>
        cases h
        exact .writeError hpc
    next => cases h
  | account =>
    unfold stepControl at h
    dsimp only at h
    split at h
    next hpc =>
      cases h
      exact .account hpc
    next => cases h
  | urg =>
    unfold stepControl at h
    dsimp only at h
    split at h
    next hlive =>
      cases h
      exact .urg hlive
    next => cases h
  | usr2 =>
    unfold stepControl at h
    dsimp only at h
    split at h
    next hlive =>
      cases h
      exact .usr2 hlive
    next => cases h
  | header now => cases h
  | payload now => cases h
  | usr1 now named opens => cases h
  | finish status => cases h

/-- The state after a step, for each of the branches. -/
inductive RecorderSteps [DecidableEq N] (cfg : Config) (host : Host) (fileName : Timeval → N)
    (fwriteWrapper : FwriteWrapper S) (fcloseWrapper : FcloseWrapper S) (s : Recorder S N) :
    Event → Recorder S N → Prop
  | control {e : Event} {c : Control N} (hc : ControlSteps cfg s.toControl e c) :
    RecorderSteps cfg host fileName fwriteWrapper fcloseWrapper s e { s with toControl := c }
  | header {c : Chunk} {h : Header} {now : ℕ → ℤ} (hpc : s.pc = .header c h) :
    RecorderSteps cfg host fileName fwriteWrapper fcloseWrapper s (.header now)
      (Recorder.afterCall { s with recorded := s.recorded ++ [⟨h, c.bytes⟩] } (.payload c h)
        (writeHeader host fwriteWrapper h now (s.fscript, s.wrapper)))
  | payload {c : Chunk} {h : Header} {now : ℕ → ℤ} (hpc : s.pc = .payload c h) :
    RecorderSteps cfg host fileName fwriteWrapper fcloseWrapper s (.payload now)
      (Recorder.afterCall s (.account c) (fwriteWrapper 1 c.bytes now (s.fscript, s.wrapper)))
  | usr1 {now named : Timeval} {opens : Bool} (hlive : s.pc.Live) :
    RecorderSteps cfg host fileName fwriteWrapper fcloseWrapper s (.usr1 now named opens)
      (swingOutputFile fileName fcloseWrapper now named opens s)
  | finish {status : ℕ} (hpc : s.pc = .waiting) :
    RecorderSteps cfg host fileName fwriteWrapper fcloseWrapper s (.finish status)
      { closeScript fcloseWrapper { s with toControl := unlockScreen s.toControl } with
        pc := .exited status }

/-- Read off the definition.  The events that use the recording have a case each; the others are
steps of the control state. -/
theorem step_steps [DecidableEq N] {cfg : Config} {host : Host} {fileName : Timeval → N}
    {fwriteWrapper : FwriteWrapper S} {fcloseWrapper : FcloseWrapper S} {s t : Recorder S N}
    {e : Event} (h : step cfg host fileName fwriteWrapper fcloseWrapper s e = some t) :
    RecorderSteps cfg host fileName fwriteWrapper fcloseWrapper s e t := by
  have hcontrol : (stepControl cfg s.toControl e).map (fun c => { s with toControl := c }) =
      some t → RecorderSteps cfg host fileName fwriteWrapper fcloseWrapper s e t := by
    intro hmap
    obtain ⟨c, hc, rfl⟩ := Option.map_eq_some_iff.mp hmap
    exact .control (stepControl_steps hc)
  cases e with
  | header now =>
    unfold step at h
    dsimp only at h
    split at h
    next hpc =>
      cases h
      exact .header hpc
    next => cases h
  | payload now =>
    unfold step at h
    dsimp only at h
    split at h
    next hpc =>
      cases h
      exact .payload hpc
    next => cases h
  | usr1 now named opens =>
    unfold step at h
    dsimp only at h
    split at h
    next hlive =>
      cases h
      exact .usr1 hlive
    next => cases h
  | finish status =>
    unfold step at h
    dsimp only at h
    split at h
    next hpc =>
      cases h
      exact .finish hpc
    next => cases h
  | read fd r => exact hcontrol h
  | selectFailed => exact hcontrol h
  | check now => exact hcontrol h
  | write r => exact hcontrol h
  | account => exact hcontrol h
  | urg => exact hcontrol h
  | usr2 => exact hcontrol h

/-! ### What a step can do -/

/-- The statements between `write_header` and the payload, where a rotation would tear a record. -/
def Pc.InRecord : Pc → Prop
  | .payload _ _ => True
  | _ => False

/-- What the loop knows about its local variables: a chunk is not empty and fits in the buffer, and
the header has its length. -/
def Pc.Ok : Pc → Prop
  | .check c => c.bytes ≠ [] ∧ c.bytes.length ≤ bufsiz
  | .write c h | .header c h | .payload c h =>
    c.bytes ≠ [] ∧ c.bytes.length ≤ bufsiz ∧ ∃ now : WallClock, h = ⟨now.tv, c.bytes.length⟩
  | _ => True

/-- What the statements and handlers leave alone that do not use the recording.  An invariant about
the recording is carried over such a step without looking at which one it was. -/
structure Quiet (s t : Control N) : Prop where
  lastRotate : t.lastRotate = s.lastRotate
  name : t.name = s.name
  closed : t.closed = s.closed
  recorded : t.recorded = s.recorded
  live : s.pc.Live ∧ t.pc.Live
  pc : t.pc = s.pc ∨ ¬ s.pc.InRecord ∧ ¬ t.pc.InRecord
  ok : s.pc.Ok → t.pc.Ok

private theorem quiet_closePipe (fd : Fd) {s : Control N} (hpc : s.pc = .read) :
    Quiet s (closePipe fd s) := by
  cases fd <;>
  · unfold closePipe
    dsimp only
    split
    · exact ⟨rfl, rfl, rfl, rfl, by simp [hpc, Pc.Live], .inr (by simp [hpc, Pc.InRecord]),
        fun _ => trivial⟩
    · exact ⟨rfl, rfl, rfl, rfl, by simp [hpc, Pc.Live], .inl rfl, id⟩

private theorem afterWrite_spec (c : Chunk) (h : Header) :
    (afterWrite c h).Live ∧ ¬ (afterWrite c h).InRecord ∧
      ((Pc.write c h).Ok → (afterWrite c h).Ok) := by
  unfold afterWrite
  split
  · exact ⟨trivial, id, fun _ => trivial⟩
  · exact ⟨trivial, id, id⟩

theorem lockScreen_pc (s : Control N) : (lockScreen s).pc = s.pc := by
  unfold lockScreen
  split <;> rfl

theorem unlockScreen_pc (s : Control N) : (unlockScreen s).pc = s.pc := by
  unfold unlockScreen
  split <;> rfl

private theorem quiet_lockScreen {s : Control N} (hs : s.pc.Live) : Quiet s (lockScreen s) := by
  have hpc := lockScreen_pc s
  unfold lockScreen at hpc ⊢
  split <;> exact ⟨rfl, rfl, rfl, rfl, ⟨hs, hs⟩, .inl rfl, id⟩

/-- Unlocking, which the end of the process does too. -/
theorem quiet_unlockScreen {s : Control N} (hs : s.pc.Live) : Quiet s (unlockScreen s) := by
  unfold unlockScreen
  split <;> exact ⟨rfl, rfl, rfl, rfl, ⟨hs, hs⟩, .inl rfl, id⟩

/-- What a step does that does not use the recording: it is neither in a record nor out of it by
that, and what the loop knows about its variables stays true. -/
theorem ControlSteps.quiet {cfg : Config} {s t : Control N} {e : Event}
    (h : ControlSteps cfg s e t) : Quiet s t := by
  have hwrite : ∀ {c : Chunk} {hdr : Header}, s.pc = .write c hdr → s.pc.Live ∧ ¬ s.pc.InRecord := by
    intro c hdr hpc
    simp [hpc, Pc.Live, Pc.InRecord]
  cases h with
  | data hpc hbytes _ =>
    exact ⟨rfl, rfl, rfl, rfl, ⟨by simp [hpc, Pc.Live], trivial⟩,
      .inr ⟨by simp [hpc, Pc.InRecord], id⟩, fun _ => hbytes⟩
  | eintr hpc | selectFailed hpc =>
    exact ⟨rfl, rfl, rfl, rfl, by simp [hpc, Pc.Live], .inl rfl, id⟩
  | ttyEnds hpc _ _ =>
    exact ⟨rfl, rfl, rfl, rfl, by simp [hpc, Pc.Live], .inr (by simp [hpc, Pc.InRecord]),
      fun _ => trivial⟩
  | @pipeEnds fd _ hpc _ => exact quiet_closePipe fd hpc
  -- the header is made here, with the clock and the length of the chunk
  | @check c now hpc =>
    have hs : s.pc.Live ∧ ¬ s.pc.InRecord := by simp [hpc, Pc.Live, Pc.InRecord]
    unfold checkLock
    split
    · exact ⟨rfl, rfl, rfl, rfl, ⟨hs.1, trivial⟩, .inr ⟨hs.2, id⟩, fun _ => trivial⟩
    · refine ⟨rfl, rfl, rfl, rfl, ⟨hs.1, trivial⟩, .inr ⟨hs.2, id⟩, ?_⟩
      intro hok
      rw [hpc] at hok
      exact ⟨hok.1, hok.2, now, rfl⟩
  | @sent c hdr _ hpc | @writeEintr c hdr hpc =>
    obtain ⟨hlive, hrec, hok⟩ := afterWrite_spec c hdr
    rw [← hpc] at hok
    exact ⟨rfl, rfl, rfl, rfl, ⟨(hwrite hpc).1, hlive⟩, .inr ⟨(hwrite hpc).2, hrec⟩, hok⟩
  | writeError hpc =>
    exact ⟨rfl, rfl, rfl, rfl, ⟨(hwrite hpc).1, trivial⟩, .inr ⟨(hwrite hpc).2, id⟩,
      fun _ => trivial⟩
  | account hpc =>
    exact ⟨rfl, rfl, rfl, rfl, by simp [hpc, Pc.Live], .inr (by simp [hpc, Pc.InRecord]),
      fun _ => trivial⟩
  | urg hlive => exact quiet_lockScreen hlive
  | usr2 hlive => exact quiet_unlockScreen hlive

theorem quiet_of_stepControl {cfg : Config} {s t : Control N} {e : Event}
    (h : stepControl cfg s e = some t) : Quiet s t :=
  (stepControl_steps h).quiet

/-- A chunk and its header are a record that can be read back. -/
theorem Record.valid_of_ok {c : Chunk} {h : Header} (hok : (Pc.payload c h).Ok) :
    (⟨h, c.bytes⟩ : Record).Valid := by
  obtain ⟨hne, hle, now, rfl⟩ := hok
  have hpos : 0 < c.bytes.length := List.length_pos_iff.mpr hne
  have hbuf : c.bytes.length ≤ 8192 := hle
  have hu := now.usec_lt
  refine ⟨⟨now.sec_nonneg, now.sec_lt, now.usec_nonneg, ?_, ?_, ?_⟩, rfl, ?_, ?_⟩ <;>
    simp only [maxRecordLen] <;>
    omega

/-- The event is one of the two writes of a record, or closes the recording. -/
def Control.Uses (s : Control N) : Event → Prop
  | .header _ | .payload _ | .finish _ => True
  | .usr1 now _ _ => s.Rotates now
  | _ => False

theorem ControlSteps.not_uses {cfg : Config} {s t : Control N} {e : Event}
    (h : ControlSteps cfg s e t) : ¬ s.Uses e := by
  cases h with
  | _ => exact id

section StepCases

variable [DecidableEq N] {cfg : Config} {host : Host} {fileName : Timeval → N}
  {fwriteWrapper : FwriteWrapper S} {fcloseWrapper : FcloseWrapper S} {s t : Recorder S N}
  {e : Event}

/-- **What a step can do.**  It leaves the recording alone, or it is one of the two
writes of a record, a rotation, or the end of the process. -/
theorem step_cases (h : step cfg host fileName fwriteWrapper fcloseWrapper s e = some t) :
    (∃ c, t = { s with toControl := c } ∧ Quiet s.toControl c ∧ ¬ s.Uses e) ∨
    (∃ c h now, e = .header now ∧ s.pc = .header c h ∧
      t = Recorder.afterCall { s with recorded := s.recorded ++ [⟨h, c.bytes⟩] } (.payload c h)
        (writeHeader host fwriteWrapper h now (s.fscript, s.wrapper))) ∨
    (∃ c h now, e = .payload now ∧ s.pc = .payload c h ∧
      t = Recorder.afterCall s (.account c)
        (fwriteWrapper 1 c.bytes now (s.fscript, s.wrapper))) ∨
    (∃ now named opens, e = .usr1 now named opens ∧ s.pc.Live ∧ s.Rotates now ∧
      t = if opens then
          openScript (fileName named) (closeScript fcloseWrapper { s with lastRotate := now })
        else { closeScript fcloseWrapper { s with lastRotate := now } with pc := .exited 1 }) ∨
    (∃ status, e = .finish status ∧ s.pc = .waiting ∧
      t = { closeScript fcloseWrapper { s with toControl := unlockScreen s.toControl } with
        pc := .exited status }) := by
  cases step_steps h with
  | @control _ c hc => exact .inl ⟨c, rfl, hc.quiet, hc.not_uses⟩
  | @header c hdr now hpc => exact .inr (.inl ⟨c, hdr, now, rfl, hpc, rfl⟩)
  | @payload c hdr now hpc => exact .inr (.inr (.inl ⟨c, hdr, now, rfl, hpc, rfl⟩))
  | @usr1 now named opens hlive =>
    unfold swingOutputFile
    split
    next hrot => exact .inr (.inr (.inr (.inl ⟨now, named, opens, rfl, hlive, hrot, rfl⟩)))
    next hrot =>
      -- the signal is a duplicate
      have hq : Quiet s.toControl s.toControl :=
        ⟨rfl, rfl, rfl, rfl, ⟨hlive, hlive⟩, .inl rfl, id⟩
      exact .inl ⟨s.toControl, rfl, hq, hrot⟩
  | finish hpc => exact .inr (.inr (.inr (.inr ⟨_, rfl, hpc, rfl⟩)))

end StepCases

end TtyRec
