import TtyRec.Lib.Run

/-!
# The terminal of the parent

`fixtty` puts the terminal into raw mode, and `done` sets the attributes again that `getmaster`
has saved, before it calls `exit`.  `done` is called at the end of `doinput`, by `finish`, by the
handlers of SIGTERM and SIGHUP, and by `fail`.

The handlers may interrupt the parent and one another; with a timeout it has a second thread,
`timeout_watcher`, on which they may run as well.  What has been interrupted is kept on the stack
of its thread, of which the top runs.  A signal is blocked in its own handler.

This is the parent of the three processes with the terminal added and the statuses left out;
`TtyRec.ParentView` says so.

## Main definitions

* `Ending`, `Flow`, `Frame` — where `done` and the other functions are.
* `Proc`, `Choice` — the parent from `fixtty` on, and what happens next.
* `flowStep`, `frameStep`, `step` — the steps.
* `FlowSteps`, `FrameSteps` — what a step can be.
-/

namespace TtyRec.RawMode

/-- A `tcsetattr` on standard input, by the attributes that it sets. -/
inductive Tcsetattr where
  /-- `fixtty`: raw mode. -/
  | raw
  /-- `done`: `parent_stdin_termios`. -/
  | saved
  deriving DecidableEq, Repr

/-- Where `done` is: before the mutex, behind it, or behind the `tcsetattr`. -/
inductive Ending where
  | called
  /-- It has got the mutex. -/
  | entered
  /-- The attributes are set. -/
  | restored
  deriving DecidableEq, Repr

/-- Where the main flow is, from `fixtty` to the end of `main`. -/
inductive Flow where
  | fixtty
  | fork
  /-- The `exit` after a `fork` that has failed. -/
  | exit
  /-- `fork` has returned, and its value goes into `child`. -/
  | assign
  /-- `pthread_create`, if there is a timeout. -/
  | create
  /-- `sigaction` in `doinput`. -/
  | sigaction
  /-- The loop of `doinput`. -/
  | reading
  | waitpid
  | done (d : Ending)
  /-- `done` has come back, and `main` returns. -/
  | returned
  deriving DecidableEq, Repr

inductive Sig where
  | chld
  | term
  | hup
  deriving DecidableEq, Repr

/-- A handler, or what a handler or the main flow has called. -/
inductive Frame where
  /-- The loop of `finish`. -/
  | finish (die : Bool)
  /-- The handler of a signal, before it calls `done` and after. -/
  | ending (sig : Sig) (called : Bool)
  | fail
  | done (d : Ending)
  deriving DecidableEq, Repr

/-- The handler of a signal, as it begins. -/
def Sig.frame : Sig → Frame
  | .chld => .finish false
  | .term => .ending .term false
  | .hup => .ending .hup false

/-- The frame belongs to the handler of the signal. -/
def Sig.handles (sig : Sig) : Frame → Bool
  | .finish _ => sig == .chld
  | .ending sig' _ => sig == sig'
  | _ => false

/-- The parent: its main flow, what has interrupted its two threads, and the calls of `tcsetattr` so
far. -/
structure Proc where
  flow : Flow
  handlers : List Frame
  /-- The thread `timeout_watcher` exists, and what interrupts it. -/
  threaded : Bool
  watcher : List Frame
  /-- The variable `child` is assigned. -/
  childSet : Bool
  /-- `waitpid` has not returned the child yet. -/
  unreaped : Bool
  /-- The mutex `entered_done`. -/
  entered : Bool
  /-- The calls of `tcsetattr`. -/
  sets : List Tcsetattr
  exited : Bool
  deriving DecidableEq, Repr

/-- Before `fixtty`: the terminal is as the caller left it. -/
def Proc.start : Proc where
  flow := .fixtty
  handlers := []
  threaded := false
  watcher := []
  childSet := false
  unreaped := false
  entered := false
  sets := []
  exited := false

/-- What a thread does next, as far as the program leaves it open. -/
inductive Choice where
  | go
  /-- A system call fails. -/
  | fails
  /-- `pthread_create` fails, which it does not say by -1. -/
  | noThread
  /-- `waitpid` returns the child. -/
  | reaps
  /-- There is nothing left to read. -/
  | over
  /-- The other thread takes the SIGTERM of `fail`. -/
  | elsewhere
  | signal (sig : Sig)
  deriving DecidableEq, Repr

inductive Thread where
  | main
  | watcher
  deriving DecidableEq, Repr

/-- A step of `done`: where it is then, or nothing if it returns. -/
def endStep (d : Ending) (s : Proc) : Option Ending × Proc :=
  match d with
  | .called => if s.entered = true then (none, s) else (some .entered, { s with entered := true })
  | .entered => (some .restored, { s with sets := s.sets ++ [.saved] })
  | .restored => (some .restored, { s with exited := true })

/-- The main flow takes a step.  A call that fails puts `fail` above it, but for `fork`, behind
which the process exits. -/
def flowStep (timeouts : Bool) (c : Choice) (s : Proc) : Option Proc :=
  match s.flow, c with
  | .fixtty, .go => some { s with flow := .fork, sets := s.sets ++ [.raw] }
  | .fork, .go => some { s with flow := .assign, unreaped := true }
  | .fork, .fails => some { s with flow := .exit }
  | .exit, .go => some { s with exited := true }
  | .assign, .go => some { s with flow := .create, childSet := true }
  | .create, .go => some { s with flow := .sigaction, threaded := timeouts }
  | .create, .noThread => if timeouts = true then some { s with flow := .sigaction } else none
  | .create, .fails =>
    if timeouts = true then some { s with flow := .sigaction, handlers := [.fail] } else none
  | .sigaction, .go => some { s with flow := .reading }
  | .sigaction, .fails => some { s with flow := .reading, handlers := [.fail] }
  -- the `write` of what has been read succeeds, or the session is locked
  | .reading, .go => some s
  | .reading, .fails => some { s with handlers := [.fail] }
  | .reading, .over => some { s with flow := .waitpid }
  | .waitpid, .go => some { s with flow := .done .called, unreaped := false }
  | .done d, .go =>
    match endStep d s with
    | (some d', s') => some { s' with flow := .done d' }
    | (none, s') => some { s' with flow := .returned }
  | .returned, .go => some { s with exited := true }
  | _, _ => none

/-- The frame at the top takes a step, and what remains of it is to be done. -/
def frameStep (f : Frame) (c : Choice) (s : Proc) : Option (Proc × List Frame) :=
  match f, c with
  | .finish die, .reaps =>
    if s.unreaped = true then some ({ s with unreaped := false }, [.finish (die || s.childSet)])
    else none
  | .finish die, .go =>
    if die = true then some (s, [.done .called, .ending .chld true]) else some (s, [])
  | .ending sig false, .go => some (s, [.done .called, .ending sig true])
  | .ending _ true, .go => some (s, [])
  -- the SIGTERM that `fail` sends comes before `kill` returns
  | .fail, .go => some (s, [.ending .term false, .done .called])
  | .fail, .elsewhere => if s.threaded = true then some (s, [.done .called]) else none
  | .done d, .go =>
    match endStep d s with
    | (some d', s') => some (s', [.done d'])
    | (none, s') => some (s', [])
  | _, _ => none

/-- The parent takes a step on one of its threads. -/
def step (timeouts : Bool) (s : Proc) (e : Thread × Choice) : Option Proc :=
  if s.exited = true then none
  else
    match e with
    | (.main, .signal sig) =>
      if s.handlers.any sig.handles = true then none
      else some { s with handlers := sig.frame :: s.handlers }
    | (.watcher, .signal sig) =>
      if s.threaded = false ∨ s.watcher.any sig.handles = true then none
      else some { s with watcher := sig.frame :: s.watcher }
    | (.main, c) =>
      match s.handlers with
      | [] => flowStep timeouts c s
      | f :: fs => (frameStep f c s).map fun r => { r.1 with handlers := r.2 ++ fs }
    | (.watcher, c) =>
      match s.watcher with
      | [] => none
      | f :: fs => (frameStep f c s).map fun r => { r.1 with watcher := r.2 ++ fs }

/-! ### What a step can be -/

/-- `done` has got the mutex, so no other call of it goes further. -/
def Ending.inDone : Ending → Bool
  | .called => false
  | _ => true

def Frame.inDone : Frame → Bool
  | .done d => d.inDone
  | _ => false

/-- `done` has set the attributes, and only its `exit` is left. -/
def Frame.restored : Frame → Bool
  | .done .restored => true
  | _ => false

/-- A step of a function that is not in `done`, or of `done`. -/
inductive FrameSteps (s : Proc) : Frame → Proc → List Frame → Prop
  /-- Nothing that is about the terminal. -/
  | other {f : Frame} {unreaped : Bool} {fs : List Frame} (hf : f.inDone = false)
      (hfs : ∀ g ∈ fs, g.inDone = false) : FrameSteps s f { s with unreaped := unreaped } fs
  | enters (hentered : s.entered = false) :
    FrameSteps s (.done .called) { s with entered := true } [.done .entered]
  | restores :
    FrameSteps s (.done .entered) { s with sets := s.sets ++ [.saved] } [.done .restored]
  | exits : FrameSteps s (.done .restored) { s with exited := true } [.done .restored]

/-- Read off the definition: outside of `done` a function only touches the stack, `unreaped` and
nothing else. -/
theorem frameStep_steps {f : Frame} {c : Choice} {s t : Proc} {fs : List Frame}
    (h : frameStep f c s = some (t, fs)) : FrameSteps s f t fs := by
  unfold frameStep at h
  split at h
  · split at h
    · cases h
      exact .other rfl (by simp [Frame.inDone])
    · cases h
  · split at h
    · cases h
      exact .other rfl (by simp [Frame.inDone, Ending.inDone])
    · cases h
      exact .other rfl (by simp)
  · cases h
    exact .other rfl (by simp [Frame.inDone, Ending.inDone])
  · cases h
    exact .other rfl (by simp)
  · cases h
    exact .other rfl (by simp [Frame.inDone, Ending.inDone])
  · split at h
    · cases h
      exact .other rfl (by simp [Frame.inDone, Ending.inDone])
    · cases h
  -- `done`, which takes the mutex, sets the attributes, and exits
  next d =>
    cases d with
    | called =>
      unfold endStep at h
      dsimp only at h
      split at h
      next hs =>
        split at hs
        · cases hs
        next hentered =>
          cases hs
          cases h
          exact .enters (Bool.eq_false_iff.mpr hentered)
      next hs =>
        split at hs
        · cases hs
          cases h
          exact .other rfl (by simp)
        · cases hs
    | entered =>
      cases h
      exact .restores
    | restored =>
      cases h
      exact .exits
  · cases h

/-- The parts of the main flow in which there is only one thread. -/
def Flow.alone : Flow → Bool
  | .fixtty | .fork | .exit | .assign | .create => true
  | _ => false

def Flow.inDone : Flow → Bool
  | .done d => d.inDone
  | _ => false

def Flow.restored : Flow → Bool
  | .done .restored => true
  | _ => false

/-- A step of the main flow. -/
inductive FlowSteps (s : Proc) : Choice → Proc → Prop
  | fixtty {c : Choice} (hflow : s.flow = .fixtty) :
    FlowSteps s c { s with flow := .fork, sets := s.sets ++ [.raw] }
  /-- Nothing that is about the terminal. -/
  | other {c : Choice} {flow : Flow} {handlers : List Frame} {threaded childSet unreaped : Bool}
      (hflow : s.flow.inDone = false) (hends : s.flow ≠ .exit ∧ s.flow ≠ .returned)
      (hflow' : flow.inDone = false) (hfixtty : flow ≠ .fixtty)
      (hreturned : flow ≠ .returned) (hhandlers : ∀ f ∈ handlers, f.inDone = false)
      (halone : flow.alone = true → s.flow.alone = true ∧ threaded = s.threaded)
      (hthreaded : s.threaded = true → threaded = true) :
    FlowSteps s c { s with
      flow := flow
      handlers := handlers
      threaded := threaded
      childSet := childSet
      unreaped := unreaped }
  | exit (hflow : s.flow = .exit) : FlowSteps s .go { s with exited := true }
  | enters {c : Choice} (hflow : s.flow = .done .called) (hentered : s.entered = false) :
    FlowSteps s c { s with flow := .done .entered, entered := true }
  | returns {c : Choice} (hflow : s.flow = .done .called) (hentered : s.entered = true) :
    FlowSteps s c { s with flow := .returned }
  | restores {c : Choice} (hflow : s.flow = .done .entered) :
    FlowSteps s c { s with flow := .done .restored, sets := s.sets ++ [.saved] }
  | exits {c : Choice} (hflow : s.flow = .done .restored) :
    FlowSteps s c { s with flow := .done .restored, exited := true }
  | returned (hflow : s.flow = .returned) : FlowSteps s .go { s with exited := true }

/-- Read off the definition, place by place.  Most of the steps have nothing to do with the
terminal, and `other` says what the invariant needs of them. -/
theorem flowStep_steps {timeouts : Bool} {c : Choice} {s t : Proc} (hh : s.handlers = [])
    (hthreaded : s.flow.alone = true → s.threaded = false)
    (h : flowStep timeouts c s = some t) : FlowSteps s c t := by
  unfold flowStep at h
  split at h
  next hflow =>
    cases h
    exact .fixtty hflow
  next hflow =>
    cases h
    exact .other (by rw [hflow]; rfl) (by simp [hflow]) rfl nofun nofun (by simp [hh]) (by simp [hflow, Flow.alone]) id
  next hflow =>
    cases h
    exact .other (by rw [hflow]; rfl) (by simp [hflow]) rfl nofun nofun (by simp [hh]) (by simp [hflow, Flow.alone]) id
  next hflow =>
    cases h
    exact .exit hflow
  next hflow =>
    cases h
    exact .other (by rw [hflow]; rfl) (by simp [hflow]) rfl nofun nofun (by simp [hh]) (by simp [hflow, Flow.alone]) id
  next hflow =>
    cases h
    have hone := hthreaded (by rw [hflow]; rfl)
    exact .other (by rw [hflow]; rfl) (by simp [hflow]) rfl nofun nofun (by simp [hh]) nofun (by simp [hone])
  next hflow =>
    split at h
    · cases h
      exact .other (by rw [hflow]; rfl) (by simp [hflow]) rfl nofun nofun (by simp [hh]) nofun id
    · cases h
  next hflow =>
    split at h
    · cases h
      exact .other (by rw [hflow]; rfl) (by simp [hflow]) rfl nofun nofun (by simp [Frame.inDone]) nofun id
    · cases h
  next hflow =>
    cases h
    exact .other (by rw [hflow]; rfl) (by simp [hflow]) rfl nofun nofun (by simp [hh]) nofun id
  next hflow =>
    cases h
    exact .other (by rw [hflow]; rfl) (by simp [hflow]) rfl nofun nofun (by simp [Frame.inDone]) nofun id
  next hflow =>
    cases h
    exact .other (by rw [hflow]; rfl) (by simp [hflow]) (by rw [hflow]; rfl) (by rw [hflow]; nofun)
      (by rw [hflow]; nofun) (by simp [hh]) (by simp [hflow, Flow.alone]) id
  next hflow =>
    cases h
    exact .other (by rw [hflow]; rfl) (by simp [hflow]) (by rw [hflow]; rfl) (by rw [hflow]; nofun)
      (by rw [hflow]; nofun) (by simp [Frame.inDone]) (by simp [hflow, Flow.alone]) id
  next hflow =>
    cases h
    exact .other (by rw [hflow]; rfl) (by simp [hflow]) rfl nofun nofun (by simp [hh]) nofun id
  next hflow =>
    cases h
    exact .other (by rw [hflow]; rfl) (by simp [hflow]) rfl nofun nofun (by simp [hh]) nofun id
  -- the `done` at the end of `main`
  next d hflow =>
    cases d with
    | called =>
      unfold endStep at h
      dsimp only at h
      split at h
      next hs =>
        split at hs
        · cases hs
        next hentered =>
          cases hs
          cases h
          exact .enters hflow (Bool.eq_false_iff.mpr hentered)
      next hs =>
        split at hs
        next hentered =>
          cases hs
          cases h
          exact .returns hflow hentered
        next => cases hs
    | entered =>
      cases h
      exact .restores hflow
    | restored =>
      cases h
      exact .exits hflow
  next hflow =>
    cases h
    exact .returned hflow
  · cases h

end TtyRec.RawMode
