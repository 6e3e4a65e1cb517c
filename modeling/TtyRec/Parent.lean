import TtyRec.Lib.Run
import TtyRec.Recorder

/-!
# The parent

The parent reads the keyboard and passes it on to the terminal of the command.  A second
thread, `timeout_watcher`, looks at the clock once a second and locks or kills a session
without input; the handlers of SIGURG and SIGUSR2 lock and unlock it, and so do the
cheat-codes.  The session is locked when `locked_since` is not 0.

The machine does one iteration of `doinput`, one tick of the watcher, or one handler at a
time.  The environment chooses which, with what the system calls return; the clock does
not go back, and the watcher ticks at least once a second.

## Main definitions

* `ParentOptions` — the options, as `main` lets them through.
* `Parent`, `Act` — the variables, and what the parent does.
* `doLock`, `lockSession`, `unlockSession`, `handleCheatcodes`, `forward`,
  `timeoutWatcher` — the functions.
* `ParentEvent`, `parentStep` — the machine.
* `ParentSteps` — what a step of it can be.
-/

namespace TtyRec

/-- The signals that the parent sends to its child. -/
inductive Signal where
  | term
  | urg
  | usr2
  | winch
  deriving DecidableEq, Repr

/-- What the parent does that can be seen from outside, in the order in which it is done. -/
inductive Act where
  /-- Bytes that went out to the pty master. -/
  | input (bytes : List UInt8)
  /-- `kill(child, ..)`. -/
  | signal (sig : Signal)
  | warnLock (seconds : ℤ)
  | warnKill (seconds : ℤ)
  deriving DecidableEq, Repr

/-- The options, as `main` lets them through; a timeout that is not given is 0. -/
structure ParentOptions where
  useTty : Bool
  cheatcodes : Bool
  timeoutLock : ℤ
  timeoutKill : ℤ
  warnBeforeLock : ℤ
  warnBeforeKill : ℤ
  lock_nonneg : 0 ≤ timeoutLock
  kill_nonneg : 0 ≤ timeoutKill
  lock_le_kill : 0 < timeoutLock → 0 < timeoutKill → timeoutLock ≤ timeoutKill
  warnBeforeLock_nonneg : 0 ≤ warnBeforeLock
  warnBeforeLock_le : warnBeforeLock ≤ timeoutLock
  warnBeforeKill_nonneg : 0 ≤ warnBeforeKill
  warnBeforeKill_le : warnBeforeKill ≤ timeoutKill

/-- A timeout that is not given is 0, and so is its warning. -/
theorem noTimeout_le : (0 : ℤ) ≤ 0 := le_rfl

/-- Where `doinput` is: in its loop, behind it, or at the end of the process. -/
inductive ParentPc where
  | reading
  /-- The input is over, and the parent waits for its child. -/
  | waiting
  | exited
  deriving DecidableEq, Repr

/-- The variables of the parent.  `acts`, `clock` and `lastTick` are its history: what it
has done, the last reading of the clock, and the reading of the last tick. -/
structure Parent where
  pc : ParentPc
  lockedSince : ℤ
  lastActivity : ℤ
  lockWarned : Bool
  killWarned : Bool
  /-- The static variables of `handle_cheatcodes`. -/
  lockseq : ℕ
  killseq : ℕ
  acts : List Act
  clock : ℤ
  lastTick : ℤ

/-- When `doinput` begins: the session is unlocked, and `last_activity` is the present time. -/
def Parent.start (now : ℤ) : Parent where
  pc := .reading
  lockedSince := 0
  lastActivity := now
  lockWarned := false
  killWarned := false
  lockseq := 0
  killseq := 0
  acts := []
  clock := now
  lastTick := now

/-- The parent does something. -/
def Parent.act (a : Act) (s : Parent) : Parent := { s with acts := s.acts ++ [a] }

@[simp] theorem Parent.act_lockedSince (a : Act) (s : Parent) :
    (s.act a).lockedSince = s.lockedSince := rfl

@[simp] theorem Parent.act_lastActivity (a : Act) (s : Parent) :
    (s.act a).lastActivity = s.lastActivity := rfl

@[simp] theorem Parent.act_acts (a : Act) (s : Parent) : (s.act a).acts = s.acts ++ [a] := rfl

/-! ### Locking and unlocking -/

/-- `do_lock`, with the signal to the child that makes it draw the lock screen. -/
def doLock (now : ℤ) (s : Parent) : Parent := { s with lockedSince := now }.act (.signal .urg)

/-- `lock_session`, the handler of SIGURG, which hands the signal on to the child. -/
def lockSession (now : ℤ) (s : Parent) : Parent :=
  -- to avoid a signal storm, abort if locked
  if s.lockedSince ≠ 0 then s else { s with lockedSince := now }.act (.signal .urg)

/-- `unlock_session`, the handler of SIGUSR2.  It counts as activity even when nothing is locked. -/
def unlockSession (now : ℤ) (s : Parent) : Parent :=
  let s := { s with lastActivity := now, lockWarned := false, killWarned := false }
  if s.lockedSince = 0 then s
  else
    -- the child is forced to redraw twice
    (({ s with lockedSince := 0 }.act (.signal .usr2)).act (.signal .winch)).act (.signal .winch)

/-! ### Input -/

/-- The key that the sequence `^K ^I ^L ^L ^K ^I ^L ^L` needs next. -/
def killKey (killseq : ℕ) (c : UInt8) : Bool :=
  (c = 0x0b && (killseq = 0 || killseq = 4)) ||
    (c = 0x09 && (killseq = 1 || killseq = 5)) ||
    (c = 0x0c && (killseq = 2 || killseq = 3 || killseq = 6 || killseq = 7))

/-- The first half of `handle_cheatcodes`: eight times `^L` locks the session. -/
def handleLockseq (c : UInt8) (now : ℤ) (s : Parent) : Parent :=
  if c = 0x0c then
    if 8 ≤ s.lockseq + 1 then doLock now { s with lockseq := 0 }
    else { s with lockseq := s.lockseq + 1 }
  else { s with lockseq := 0 }

/-- The second half: the eighth key of the code kills the session, and any other key starts again.
-/
def handleKillseq (c : UInt8) (s : Parent) : Parent :=
  let s := { s with killseq := if killKey s.killseq c then s.killseq + 1 else 0 }
  if 8 ≤ s.killseq then s.act (.signal .term) else s

/-- `handle_cheatcodes`, when the cheat-codes are enabled. -/
def handleCheatcodes (o : ParentOptions) (c : UInt8) (now : ℤ) (s : Parent) : Parent :=
  if o.cheatcodes = true then handleKillseq c (handleLockseq c now s) else s

/-- The cheat-codes see only reads of a single byte. -/
def afterInput (o : ParentOptions) (bytes : List UInt8) (now : ℤ) (s : Parent) : Parent :=
  match bytes with
  | [c] => handleCheatcodes o c now s
  | _ => s

/-- The body of the loop of `doinput`: `w` is what `write` returns, and the clock is read
again by `do_lock`. -/
def forward (o : ParentOptions) (bytes : List UInt8) (w : WriteResult) (now lockNow : ℤ)
    (s : Parent) : Option Parent :=
  if s.lockedSince ≠ 0 then some s
  else
    match w with
    | .sent n =>
      if 0 < n ∧ n ≤ bytes.length then
        some (afterInput o bytes lockNow
          ({ s with lastActivity := now, lockWarned := false, killWarned := false }.act
            (.input (bytes.take n))))
      else none
    | .eintr => some { s with pc := .exited }
    | .error => some { s with pc := .exited }

/-! ### The watcher -/

/-- A session that is idle is warned once, `warn_before_lock` seconds before it would be locked. -/
def warnLock (o : ParentOptions) (now : ℤ) (s : Parent) : Parent :=
  if 0 < o.warnBeforeLock ∧ s.lockWarned = false ∧
      o.timeoutLock < now - s.lastActivity + o.warnBeforeLock then
    { s with lockWarned := true }.act (.warnLock o.warnBeforeLock)
  else s

/-- The first half of a tick: a session that is idle is warned, and then locked. -/
def watchLock (o : ParentOptions) (now lockNow : ℤ) (s : Parent) : Parent :=
  if o.useTty = true ∧ s.lockedSince = 0 then
    let s := warnLock o now s
    if 0 < o.timeoutLock ∧ o.timeoutLock < now - s.lastActivity then doLock lockNow s else s
  else s

/-- The second half: it is warned, or killed, `idle` seconds being compared with `limit`. -/
def watchKillAt (o : ParentOptions) (idle limit : ℤ) (s : Parent) : Parent :=
  if 0 < o.warnBeforeKill ∧ s.killWarned = false ∧ limit - o.warnBeforeKill < idle then
    { s with killWarned := true }.act (.warnKill o.warnBeforeKill)
  else if limit < idle then s.act (.signal .term)
  else s

def watchKill (o : ParentOptions) (now : ℤ) (s : Parent) : Parent :=
  if 0 < o.timeoutKill then
    if s.lockedSince ≠ 0 then
      watchKillAt o (now - s.lockedSince) (o.timeoutKill - o.timeoutLock) s
    else watchKillAt o (now - s.lastActivity) o.timeoutKill s
  else s

/-- One iteration of `timeout_watcher`; the clock is read again by `do_lock`. -/
def timeoutWatcher (o : ParentOptions) (now lockNow : ℤ) (s : Parent) : Parent :=
  watchKill o now (watchLock o now lockNow s)

/-! ### The machine -/

/-- What can happen, with what the system calls return: two readings of the clock in an
iteration of a loop, and one in a handler. -/
inductive ParentEvent where
  | input (bytes : List UInt8) (w : WriteResult) (now lockNow : ℤ)
  | eof
  | tick (now lockNow : ℤ)
  | urg (now : ℤ)
  | usr2 (now : ℤ)

/-- One step: an iteration of the loop of `doinput`, one of the loop of `timeout_watcher`, or a
handler, each of them as a whole.  The watcher sleeps for a second between two iterations, so that a
tick comes at most one second after the last one.  The events between two statements of the watcher
are those of `watchedStep`. -/
def parentStep (o : ParentOptions) (s : Parent) (e : ParentEvent) : Option Parent :=
  match e with
  | .input bytes w now lockNow =>
    if s.pc = .reading ∧ o.useTty = true ∧ bytes ≠ [] ∧ bytes.length ≤ bufsiz ∧
        s.clock ≤ now ∧ now ≤ lockNow then
      forward o bytes w now lockNow { s with clock := lockNow }
    else none
  | .eof => if s.pc = .reading then some { s with pc := .waiting } else none
  | .tick now lockNow =>
    -- a tick every second
    if s.pc ≠ .exited ∧ s.clock ≤ now ∧ now ≤ s.lastTick + 1 ∧ now ≤ lockNow ∧
        lockNow ≤ now + 1 then
      some (timeoutWatcher o now lockNow { s with clock := lockNow, lastTick := now })
    else none
  | .urg now =>
    if s.pc ≠ .exited ∧ s.clock ≤ now then some (lockSession now { s with clock := now }) else none
  | .usr2 now =>
    if s.pc ≠ .exited ∧ s.clock ≤ now then some (unlockSession now { s with clock := now })
    else none

/-! ### What a step can be -/

/-- The state after a step, for each of the branches. -/
inductive ParentSteps (o : ParentOptions) (s : Parent) : ParentEvent → Parent → Prop
  /-- The bytes are dropped. -/
  | dropped {bytes : List UInt8} {w : WriteResult} {now lockNow : ℤ} (htty : o.useTty = true)
      (hclock : s.clock ≤ now) (hlock : now ≤ lockNow) (hlocked : s.lockedSince ≠ 0) :
    ParentSteps o s (.input bytes w now lockNow) { s with clock := lockNow }
  | sent {bytes : List UInt8} {n : ℕ} {now lockNow : ℤ} (htty : o.useTty = true)
      (hclock : s.clock ≤ now) (hlock : now ≤ lockNow) (hunlocked : s.lockedSince = 0) :
    ParentSteps o s (.input bytes (.sent n) now lockNow)
      (afterInput o bytes lockNow ({ s with
        clock := lockNow
        lastActivity := now
        lockWarned := false
        killWarned := false }.act (.input (bytes.take n))))
  | failed {bytes : List UInt8} {w : WriteResult} {now lockNow : ℤ} (htty : o.useTty = true)
      (hclock : s.clock ≤ now) (hlock : now ≤ lockNow) (hunlocked : s.lockedSince = 0)
      (hw : ∀ n, w ≠ .sent n) :
    ParentSteps o s (.input bytes w now lockNow) { s with clock := lockNow, pc := .exited }
  | eof : ParentSteps o s .eof { s with pc := .waiting }
  | tick {now lockNow : ℤ} (hclock : s.clock ≤ now) (htick : now ≤ s.lastTick + 1)
      (hlock : now ≤ lockNow) (hlock' : lockNow ≤ now + 1) :
    ParentSteps o s (.tick now lockNow)
      (timeoutWatcher o now lockNow { s with clock := lockNow, lastTick := now })
  | urg {now : ℤ} (hclock : s.clock ≤ now) :
    ParentSteps o s (.urg now) (lockSession now { s with clock := now })
  | usr2 {now : ℤ} (hclock : s.clock ≤ now) :
    ParentSteps o s (.usr2 now) (unlockSession now { s with clock := now })

/-- Read off the definition.  Each event has one case, but for the input, which is dropped, written,
or not written because of an error. -/
theorem parentStep_steps {o : ParentOptions} {s t : Parent} {e : ParentEvent}
    (h : parentStep o s e = some t) : ParentSteps o s e t := by
  cases e with
  | input bytes w now lockNow =>
    rw [parentStep] at h
    split at h
    next hpre =>
      obtain ⟨-, htty, -, -, hclock, hlock⟩ := hpre
      unfold forward at h
      dsimp only at h
      split at h
      next hlocked =>
        cases h
        exact .dropped htty hclock hlock hlocked
      next hunlocked =>
        rw [not_not] at hunlocked
        cases w with
        | sent n =>
          dsimp only at h
          split at h
          · cases h
            exact .sent htty hclock hlock hunlocked
          · cases h
        | eintr =>
          cases h
          exact .failed htty hclock hlock hunlocked fun _ => WriteResult.noConfusion
        | error =>
          cases h
          exact .failed htty hclock hlock hunlocked fun _ => WriteResult.noConfusion
    next => cases h
  | eof =>
    rw [parentStep] at h
    split at h
    · cases h
      exact .eof
    · cases h
  | tick now lockNow =>
    rw [parentStep] at h
    split at h
    next hpre =>
      obtain ⟨-, hclock, htick, hlock, hlock'⟩ := hpre
      cases h
      exact .tick hclock htick hlock hlock'
    next => cases h
  | urg now =>
    rw [parentStep] at h
    split at h
    next hpre =>
      cases h
      exact .urg hpre.2
    next => cases h
  | usr2 now =>
    rw [parentStep] at h
    split at h
    next hpre =>
      cases h
      exact .usr2 hpre.2
    next => cases h

end TtyRec
