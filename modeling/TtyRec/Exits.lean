import TtyRec.Lib.Run

/-!
# How the three processes end

The parent forks the child, and the child forks the subchild, which executes the command.
Each of the first two waits for the one that it has forked, with a blocking `waitpid` and in
`finish`, the handler of SIGCHLD, and hands the status on to `done`, which calls `exit`.
`done` is also called by `fail` and by the handlers of SIGTERM and SIGHUP.

A process has its main flow, and on top of it the handlers that have interrupted it and the
functions that these have called; the one at the top runs.  With a timeout the parent has a
second thread, on which the handlers may run as well.  The machine takes one step of one
process at a time.  Whatever is not in the way of the exit status is left out: the output,
the lock, the clock.

## Main definitions

* `Leave`, `Leave.status` — how a process ends, and what `waitpid` says about it.
* `Flow`, `Frame`, `Proc` — the main flow, the functions above it, and a process.
* `finish`, `done`, `frameStep`, `flowStep`, `procStep` — the steps of a process.
* `Session`, `sessionStep` — the three of them.
-/

namespace TtyRec.Exits

/-- `WEXITSTATUS`: the second byte. -/
def wexitstatus (status : ℕ) : UInt8 := UInt8.ofNat (status / 256)

/-- The wait status of a process that exits. -/
def exited (code : UInt8) : ℕ := code.toNat * 256

theorem wexitstatus_exited (code : UInt8) : wexitstatus (exited code) = code := by
  rw [wexitstatus, exited, Nat.mul_div_cancel _ (by decide), UInt8.ofNat_toNat]

/-- The status of a signal has no second byte. -/
theorem wexitstatus_of_lt {status : ℕ} (h : status < 256) : wexitstatus status = 0 := by
  rw [wexitstatus, Nat.div_eq_of_lt h]
  rfl

/-- Who calls `done`, which decides whether a status was waited for. -/
inductive Origin where
  /-- The main flow or `finish`, with the status of the process that was waited for. -/
  | wait
  | term
  | hup
  /-- `fail`, or the handler of the SIGTERM that it sends to its own group. -/
  | fail
  deriving DecidableEq, Repr

/-- How a process ends: by `exit`, by returning from `main`, or by a signal. -/
inductive Leave where
  /-- The `exit` of `done`. -/
  | done (status : ℕ) (origin : Origin)
  /-- `main` returns. -/
  | returned
  /-- The command exits, or the child does when libzstd fails. -/
  | exit (code : UInt8)
  /-- By a signal that is not handled; the status is the one that `waitpid` gives. -/
  | killed (status : ℕ)
  /-- By the SIGTERM of its own `fail`. -/
  | terminated
  deriving DecidableEq, Repr

/-- What `waitpid` says about it: the exit code in the second byte, or the number of the signal. -/
def Leave.status : Leave → ℕ
  | .done status _ => exited (wexitstatus status)
  | .returned => exited 0
  | .exit code => exited code
  | .killed status => status
  | .terminated => 15

/-- The process that this one has forked, from its `fork` to the `waitpid` that returns it. -/
inductive Offspring where
  | none
  | running
  | zombie (status : ℕ)
  | reaped
  deriving DecidableEq, Repr

inductive Role where
  | subchild
  | child
  | parent
  deriving DecidableEq, Repr

/-- Where the main flow is.  The three processes share the places, as they share the code of `main`
and `done`. -/
inductive Flow where
  /-- The process does not exist yet. -/
  | unborn
  /-- The parent, before it has installed its handlers. -/
  | setup
  /-- About to fork. -/
  | fork
  /-- `fork` has returned, and its value goes into `child`, and in the child into `subchild`. -/
  | assign
  /-- `doshell` in the subchild. -/
  | shell
  /-- What the subchild has executed. -/
  | command
  /-- The loop of `doinput` or `dooutput`. -/
  | reading
  /-- The child: `while (can_exit == 0)`. -/
  | canExit
  | waitpid
  | done (status : ℕ)
  /-- `done` has got the mutex. -/
  | cleanup (status : ℕ)
  /-- `main` returns 0. -/
  | returned
  deriving DecidableEq, Repr

/-- A handler, or a function that a handler has called. -/
inductive Frame where
  | finish (die : Bool)
  /-- `swing_output_file` in the child. -/
  | swing
  | fail
  | done (status : ℕ) (origin : Origin)
  | cleanup (status : ℕ) (origin : Origin)
  deriving DecidableEq, Repr

/-- A process: its main flow, what has interrupted it, and the variables that `finish` and `done`
look at. -/
structure Proc where
  role : Role
  /-- The handlers are installed. -/
  installed : Bool
  flow : Flow
  handlers : List Frame
  /-- The thread `timeout_watcher` exists, and what interrupts it. -/
  threaded : Bool
  watcher : List Frame
  /-- The pid variables are assigned. -/
  childSet : Bool
  subchildSet : Bool
  childexit : ℕ
  canExit : Bool
  /-- The mutex `entered_done`. -/
  entered : Bool
  offspring : Offspring
  ended : Option Leave
  /-- It has called `fail`. -/
  failed : Bool
  deriving DecidableEq, Repr

/-- A process before its first step. -/
def Proc.fresh (role : Role) (installed : Bool) (flow : Flow) : Proc where
  role := role
  installed := installed
  flow := flow
  handlers := []
  threaded := false
  watcher := []
  childSet := false
  subchildSet := false
  childexit := 254
  canExit := false
  entered := false
  offspring := .none
  ended := none
  failed := false

/-! ### The functions -/

/-- `waitpid` returns the offspring. -/
def Proc.reap (status : ℕ) (p : Proc) : Proc :=
  { p with childexit := status, offspring := .reaped }

/-- An iteration of `finish`, and what remains to be done. -/
def finish (die : Bool) (p : Proc) : Proc × List Frame :=
  match p.offspring with
  | .zombie status =>
    if p.subchildSet = true then ({ p.reap status with canExit := true }, [.finish die])
    else if p.childSet = true then (p.reap status, [.finish true])
    else (p.reap status, [.finish die])
  | _ => (p, if die = true then [.done p.childexit .wait] else [])

/-- `pthread_mutex_trylock`: `done` returns at once when it has been entered before. -/
def done (status : ℕ) (origin : Origin) (p : Proc) : Proc × List Frame :=
  if p.entered = true then (p, []) else ({ p with entered := true }, [.cleanup status origin])

inductive Sig where
  | chld
  | usr1
  | term
  | hup
  deriving DecidableEq, Repr

inductive Thread where
  | main
  | watcher
  deriving DecidableEq, Repr

/-- What a process does next, as far as its program leaves it open. -/
inductive Choice where
  | go
  /-- A system call fails, and the process calls `fail`. -/
  | fails
  /-- The SIGTERM of `fail` is blocked or ignored. -/
  | masked
  | setChild
  | setSubchild
  /-- There is nothing left to read. -/
  | over
  /-- libzstd fails, and `fwrite_wrapper` calls `exit`. -/
  | libzstd (code : UInt8)
  /-- The command exits. -/
  | exits (code : UInt8)
  | signal (sig : Sig)
  /-- A signal that is not handled; the status is the one that `waitpid` gives. -/
  | killed (status : ℕ)
  deriving DecidableEq, Repr

/-- The function at the top takes a step, and what remains of it is to be done. -/
def frameStep (f : Frame) (c : Choice) (p : Proc) : Option (Proc × List Frame) :=
  match f, c with
  | .finish die, .go => some (finish die p)
  | .swing, .go => some (p, [])
  | .swing, .fails => some ({ p with failed := true }, [.fail])
  | .fail, .go =>
    if p.installed = true then some (p, [.done 0 .fail, .done 1 .fail])
    else some ({ p with ended := some .terminated }, [])
  | .fail, .masked => some (p, [.done 1 .fail])
  | .done status origin, .go => some (done status origin p)
  | .cleanup status origin, .go => some ({ p with ended := some (.done status origin) }, [])
  | _, _ => none

/-- `waitpid(-1, &childexit, 0)` and what comes after it; it blocks as long as the offspring
is running, and fails when there is none. -/
def flowWait (p : Proc) : Option Proc :=
  match p.offspring with
  | .zombie status =>
    if p.role = .child then some { p.reap status with flow := .canExit }
    else some { p.reap status with flow := .done status }
  | .reaped =>
    if p.role = .child then some { p with canExit := true, flow := .canExit }
    else some { p with flow := .done p.childexit }
  | _ => none

/-- The main flow calls `fail`, and goes on at `flow` if that comes back. -/
def Proc.fails (flow : Flow) (p : Proc) : Proc :=
  { p with failed := true, flow := flow, handlers := [.fail] }

/-- The main flow takes a step.  It does so only while no handler is above it. -/
def flowStep (timeouts : Bool) (c : Choice) (p : Proc) : Option Proc :=
  match p.flow with
  | .unborn => none
  | .setup =>
    match c with
    | .go => some { p with installed := true, flow := .fork }
    | .fails => some (p.fails .returned)
    | _ => none
  | .fork =>
    match c with
    | .go => some { p with offspring := .running, flow := .assign }
    | .fails => some (p.fails .returned)
    | _ => none
  | .assign =>
    match c with
    | .setChild => some { p with childSet := true }
    | .setSubchild => if p.role = .child then some { p with subchildSet := true } else none
    | .go =>
      if p.childSet = true ∧ (p.role = .child → p.subchildSet = true) then
        some { p with flow := .reading, threaded := timeouts && p.role == .parent }
      else none
    | _ => none
  | .shell =>
    match c with
    | .go => some { p with flow := .command }
    | .fails => some (p.fails .returned)
    | _ => none
  | .command =>
    match c with
    | .exits code => some { p with ended := some (.exit code) }
    | _ => none
  | .reading =>
    match c with
    | .over => some { p with flow := if p.role = .child then .canExit else .waitpid }
    | .fails => some (p.fails .reading)
    | .libzstd code =>
      if p.role = .child ∧ 10 ≤ code ∧ code ≤ 14 then some { p with ended := some (.exit code) }
      else none
    | _ => none
  | .canExit =>
    match c with
    | .go => some { p with flow := if p.canExit = true then .done p.childexit else .waitpid }
    | _ => none
  | .waitpid => if c = .go then flowWait p else none
  | .done status =>
    match c with
    | .go =>
      if p.entered = true then some { p with flow := .returned }
      else some { p with entered := true, flow := .cleanup status }
    | _ => none
  | .cleanup status =>
    match c with
    | .go => some { p with ended := some (.done status .wait) }
    | _ => none
  | .returned =>
    match c with
    | .go => some { p with ended := some .returned }
    | _ => none

/-- The handler of a signal; a signal is blocked in its own handler. -/
def handler (sig : Sig) (p : Proc) (frames : List Frame) : Option Frame :=
  match sig with
  | .chld => if .finish true ∈ frames ∨ .finish false ∈ frames then none else some (.finish false)
  | .usr1 => if p.subchildSet = true ∧ .swing ∉ frames then some .swing else none
  | .term => some (.done 0 .term)
  | .hup => some (.done 0 .hup)

/-- A process takes a step: a signal is delivered, the function at the top of a stack goes on, or
the main flow does. -/
def procStep (timeouts : Bool) (th : Thread) (c : Choice) (p : Proc) : Option Proc :=
  if p.ended.isSome = true ∨ p.flow = .unborn then none
  else
    match c, th with
    | .killed status, _ =>
      if 0 < status % 128 ∧ status < 256 then some { p with ended := some (.killed status) }
      else none
    | .signal sig, .main =>
      if p.installed = true ∧ p.flow ≠ .command then
        (handler sig p p.handlers).map fun f => { p with handlers := f :: p.handlers }
      else none
    | .signal sig, .watcher =>
      if p.threaded = true then
        (handler sig p p.watcher).map fun f => { p with watcher := f :: p.watcher }
      else none
    | c, .main =>
      match p.handlers with
      | [] => flowStep timeouts c p
      | f :: fs => (frameStep f c p).map fun r => { r.1 with handlers := r.2 ++ fs }
    | c, .watcher =>
      match p.watcher with
      | [] => none
      | f :: fs => (frameStep f c p).map fun r => { r.1 with watcher := r.2 ++ fs }

section Steps

variable (timeouts : Bool) {p : Proc} {c : Choice}

/-- Nothing is above the main flow. -/
theorem procStep_flow (hrun : p.ended = none) (hborn : p.flow ≠ .unborn) (hh : p.handlers = [])
    (hsignal : ∀ sig, c ≠ .signal sig) (hkilled : ∀ status, c ≠ .killed status) :
    procStep timeouts .main c p = flowStep timeouts c p := by
  have hguard : ¬ (p.ended.isSome = true ∨ p.flow = .unborn) := by simp [hrun, hborn]
  unfold procStep
  rw [if_neg hguard]
  cases c with
  | signal sig => exact absurd rfl (hsignal sig)
  | killed status => exact absurd rfl (hkilled status)
  | _ => simp only [hh]

/-- The function at the top of the main thread goes on. -/
theorem procStep_frame {f : Frame} {fs : List Frame} (hrun : p.ended = none)
    (hborn : p.flow ≠ .unborn) (hh : p.handlers = f :: fs) (hc : c = .go ∨ c = .masked ∨ c = .fails) :
    procStep timeouts .main c p =
      (frameStep f c p).map fun r => { r.1 with handlers := r.2 ++ fs } := by
  have hguard : ¬ (p.ended.isSome = true ∨ p.flow = .unborn) := by simp [hrun, hborn]
  unfold procStep
  rw [if_neg hguard]
  rcases hc with rfl | rfl | rfl <;> simp only [hh]

/-- The function at the top of the other thread goes on. -/
theorem procStep_watcher {f : Frame} {fs : List Frame} (hrun : p.ended = none)
    (hborn : p.flow ≠ .unborn) (hh : p.watcher = f :: fs) (hc : c = .go ∨ c = .masked ∨ c = .fails) :
    procStep timeouts .watcher c p =
      (frameStep f c p).map fun r => { r.1 with watcher := r.2 ++ fs } := by
  have hguard : ¬ (p.ended.isSome = true ∨ p.flow = .unborn) := by simp [hrun, hborn]
  unfold procStep
  rw [if_neg hguard]
  rcases hc with rfl | rfl | rfl <;> simp only [hh]

/-- A signal that nobody handles, at any moment. -/
theorem procStep_kill (hrun : p.ended = none) (hborn : p.flow ≠ .unborn) :
    procStep timeouts .main (.killed 9) p = some { p with ended := some (.killed 9) } := by
  have hguard : ¬ (p.ended.isSome = true ∨ p.flow = .unborn) := by simp [hrun, hborn]
  unfold procStep
  rw [if_neg hguard]
  exact if_pos (by decide)

end Steps

/-! ### The session -/

/-- The three processes: the parent forks the child, and the child forks the subchild that becomes
the command. -/
structure Session where
  subchild : Proc
  child : Proc
  parent : Proc
  deriving DecidableEq, Repr

/-- The parent has begun, and the other two do not exist yet. -/
def Session.start : Session where
  subchild := Proc.fresh .subchild true .unborn
  child := Proc.fresh .child true .unborn
  parent := Proc.fresh .parent false .setup

/-- A process that did not exist begins. -/
def Proc.begin (flow : Flow) (p : Proc) : Proc :=
  match p.flow with
  | .unborn => { p with flow := flow }
  | _ => p

/-- The process that another one has forked has ended, if it has. -/
def Proc.inform (ended : Option Leave) (p : Proc) : Proc :=
  match ended, p.offspring with
  | some l, .running => { p with offspring := .zombie l.status }
  | _, _ => p

/-- A step of one process, on one of its threads. -/
structure Event where
  who : Role
  thread : Thread
  choice : Choice
  deriving DecidableEq, Repr

/-- One step.  A `fork` lets the next process begin, and the end of a process is told to the one
that has forked it. -/
def sessionStep (timeouts : Bool) (s : Session) (e : Event) : Option Session :=
  match e.who with
  | .parent => (procStep timeouts e.thread e.choice s.parent).map fun p =>
    { s with
      parent := p
      child := if s.parent.flow = .fork ∧ p.flow = .assign then s.child.begin .fork
        else s.child }
  | .child => (procStep timeouts e.thread e.choice s.child).map fun p =>
    { subchild := if s.child.flow = .fork ∧ p.flow = .assign then s.subchild.begin .shell
        else s.subchild
      child := p
      parent := s.parent.inform p.ended }
  | .subchild => (procStep timeouts e.thread e.choice s.subchild).map fun p =>
    { s with
      subchild := p
      child := s.child.inform p.ended }

end TtyRec.Exits
