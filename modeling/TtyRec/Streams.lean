import TtyRec.Lib.Ledger
import TtyRec.Lib.Run

/-!
# The stream of the recording process

`fscript` is shared by the loop of `dooutput`, which writes to it, by `swing_output_file`, the
handler of SIGUSR1, which closes it and opens another, and by `done`, which closes it before it
calls `exit`; `done` is called at the end of `dooutput`, by `fail`, and by the handlers of
SIGTERM and SIGHUP.  A call of `write_header`, `fwrite_wrapper` or `fclose_wrapper` has got its
`FILE *` when the call begins, and a handler that interrupts it does not change that.

The handlers may interrupt the loop, `done` and one another.  What has been interrupted is kept
on a stack, of which the top runs.  A signal is blocked in its own handler.

This is the child of the three processes with the streams added and the statuses left out;
`TtyRec.ChildView` says so.

## Main definitions

* `Ending`, `Rotation`, `Flow`, `Frame` — where the functions are.
* `Recording`, `Choice` — the state, and what happens next.
* `endStep`, `flowStep`, `frameStep`, `streamsStep` — the steps.
* `uses`, `history` — what is done with the streams, in a step and in a run.
-/

namespace TtyRec.Streams

open Run Ledger

/-- Where `done` is: from its call to the `exit` behind `fclose_wrapper`. -/
inductive Ending where
  | called
  /-- It has got the mutex. -/
  | entered
  /-- `fclose_wrapper` is about to be called with `fp`. -/
  | loaded (fp : Option ℕ)
  | closed
  deriving DecidableEq, Repr

/-- Where `swing_output_file` is.  The value of `fscript` is loaded before the call that uses it. -/
inductive Rotation where
  | begun
  /-- The file has a name. -/
  | named
  /-- `fclose_wrapper` is about to be called with `fp`. -/
  | loaded (fp : Option ℕ)
  | closed
  /-- `fopen` has returned `fp`. -/
  | opened (fp : Option ℕ)
  | assigned
  deriving DecidableEq, Repr

/-- Where `dooutput` is, with the stream that a wrapper was called with. -/
inductive Flow where
  | loop
  /-- There is output to be recorded. -/
  | record
  /-- In `write_header`. -/
  | header (fp : Option ℕ)
  /-- After it. -/
  | between
  /-- In `fwrite_wrapper`. -/
  | payload (fp : Option ℕ)
  /-- `while (can_exit == 0)`. -/
  | canExit
  | done (d : Ending)
  /-- `done` has come back, and `main` returns. -/
  | returned
  deriving DecidableEq, Repr

inductive Sig where
  | usr1
  | chld
  | term
  | hup
  deriving DecidableEq, Repr

/-- A handler, or what a handler has called.  A handler may interrupt another one, but not itself.
-/
inductive Frame where
  | swing (r : Rotation)
  | finish
  /-- The handler of SIGTERM or SIGHUP, before it calls `done` and after. -/
  | ending (sig : Sig) (called : Bool)
  | fail
  | done (d : Ending)
  deriving DecidableEq, Repr

/-- The handler of a signal. -/
def Sig.frame : Sig → Frame
  | .usr1 => .swing .begun
  | .chld => .finish
  | .term => .ending .term false
  | .hup => .ending .hup false

/-- The frame belongs to the handler of the signal. -/
def Sig.handles (sig : Sig) : Frame → Bool
  | .swing _ => sig == .usr1
  | .finish => sig == .chld
  | .ending sig' _ => sig == sig'
  | _ => false

/-- The variables of the recording process; a stream is the number of the `fopen` that has
opened it. -/
structure Recording where
  flow : Flow
  handlers : List Frame
  fscript : Option ℕ
  /-- How many streams have been opened. -/
  opened : ℕ
  canExit : Bool
  /-- The mutex `entered_done`. -/
  entered : Bool
  exited : Bool
  deriving DecidableEq, Repr

/-- When `dooutput` begins, `main` has opened a stream. -/
def Recording.start : Recording where
  flow := .loop
  handlers := []
  fscript := some 0
  opened := 1
  canExit := false
  entered := false
  exited := false

/-- What happens next: what the program leaves open, a failure, or a signal. -/
inductive Choice where
  | go
  /-- The command has printed something that is recorded. -/
  | output
  /-- There is nothing left to read. -/
  | over
  /-- The function writes to its stream. -/
  | write
  /-- libzstd fails, and `fwrite_wrapper` calls `exit`. -/
  | libzstd
  /-- A rotation that comes too soon after another, or a `finish` that reaps nothing. -/
  | skip
  /-- A system call fails. -/
  | fails
  | signal (sig : Sig)
  deriving DecidableEq, Repr

/-- A step of `done`: where it is then, or nothing if it returns. -/
def endStep (d : Ending) (s : Recording) : Option Ending × Recording × List (Use ℕ) :=
  match d with
  | .called =>
    if s.entered = true then (none, s, []) else (some .entered, { s with entered := true }, [])
  | .entered => (some (.loaded s.fscript), s, [])
  | .loaded fp => (some .closed, s, [.closes fp])
  | .closed => (some .closed, { s with exited := true }, [])

/-- A step of `dooutput`. -/
def flowStep (c : Choice) (s : Recording) : Option (Recording × List (Use ℕ)) :=
  match s.flow with
  | .loop =>
    match c with
    | .output => some ({ s with flow := .record }, [])
    | .over => some ({ s with flow := .canExit }, [])
    | .fails => some ({ s with handlers := [.fail] }, [])
    | _ => none
  | .record => if c = .go then some ({ s with flow := .header s.fscript }, []) else none
  | .header fp =>
    match c with
    | .write => some (s, [.writes fp])
    | .go => some ({ s with flow := .between }, [])
    | .libzstd => some ({ s with exited := true }, [])
    | _ => none
  | .between => if c = .go then some ({ s with flow := .payload s.fscript }, []) else none
  | .payload fp =>
    match c with
    | .write => some (s, [.writes fp])
    | .go => some ({ s with flow := .loop }, [])
    | .libzstd => some ({ s with exited := true }, [])
    | _ => none
  | .canExit =>
    -- `waitpid` reaps the subchild, and then fails
    if c = .go then
      if s.canExit = true then some ({ s with flow := .done .called }, [])
      else some ({ s with canExit := true }, [])
    else none
  | .done d =>
    if c = .go then
      match endStep d s with
      | (some d', s', u) => some ({ s' with flow := .done d' }, u)
      | (none, s', u) => some ({ s' with flow := .returned }, u)
    else none
  | .returned => if c = .go then some ({ s with exited := true }, []) else none

/-- A step of `swing_output_file`, above the frames `fs`.  When it fails it calls `fail`, and goes
on if that comes back. -/
def swingStep (r : Rotation) (fs : List Frame) (c : Choice) (s : Recording) :
    Option (Recording × List (Use ℕ)) :=
  match r with
  | .begun =>
    match c with
    | .go => some ({ s with handlers := .swing .named :: fs }, [])
    | .skip => some ({ s with handlers := fs }, [])
    | .fails => some ({ s with handlers := .fail :: .swing .named :: fs }, [])
    | _ => none
  | .named =>
    if c = .go then some ({ s with handlers := .swing (.loaded s.fscript) :: fs }, []) else none
  | .loaded fp =>
    if c = .go then some ({ s with handlers := .swing .closed :: fs }, [.closes fp]) else none
  | .closed =>
    match c with
    | .go =>
      some ({ s with opened := s.opened + 1, handlers := .swing (.opened (some s.opened)) :: fs },
        [.opens s.opened])
    | .fails => some ({ s with handlers := .swing (.opened none) :: fs }, [])
    | _ => none
  | .opened fp =>
    if c = .go then
      match fp with
      | some _ => some ({ s with fscript := fp, handlers := .swing .assigned :: fs }, [])
      | none => some ({ s with fscript := fp, handlers := .fail :: .swing .assigned :: fs }, [])
    else none
  | .assigned => if c = .go then some ({ s with handlers := fs }, []) else none

/-- A step of the frame at the top. -/
def frameStep (f : Frame) (fs : List Frame) (c : Choice) (s : Recording) :
    Option (Recording × List (Use ℕ)) :=
  match f with
  | .swing r => swingStep r fs c s
  | .finish =>
    match c with
    | .go => some ({ s with canExit := true, handlers := fs }, [])
    | .skip => some ({ s with handlers := fs }, [])
    | _ => none
  | .ending sig called =>
    if c = .go then
      if called = true then some ({ s with handlers := fs }, [])
      else some ({ s with handlers := .done .called :: .ending sig true :: fs }, [])
    else none
  | .fail =>
    if c = .go then
      -- the SIGTERM that `fail` sends comes before `kill` returns, unless it is blocked
      if fs.any Sig.term.handles = true then some ({ s with handlers := .done .called :: fs }, [])
      else some ({ s with handlers := .ending .term false :: .done .called :: fs }, [])
    else none
  | .done d =>
    if c = .go then
      match endStep d s with
      | (some d', s', u) => some ({ s' with handlers := .done d' :: fs }, u)
      | (none, s', u) => some ({ s' with handlers := fs }, u)
    else none

/-- A step of the process, and what it does with the streams. -/
def step (s : Recording) (c : Choice) : Option (Recording × List (Use ℕ)) :=
  if s.exited = true then none
  else
    match c with
    | .signal sig =>
      if s.handlers.any sig.handles = true then none
      else some ({ s with handlers := sig.frame :: s.handlers }, [])
    | c =>
      match s.handlers with
      | [] => flowStep c s
      | f :: fs => frameStep f fs c s

def streamsStep (s : Recording) (c : Choice) : Option Recording := (step s c).map Prod.fst

/-- What a step does with the streams. -/
def uses (s : Recording) (c : Choice) : List (Use ℕ) := (step s c).elim [] Prod.snd

/-- What a run does with them. -/
def history (cs : List Choice) : List (Use ℕ) :=
  .opens 0 :: collect streamsStep uses Recording.start cs

end TtyRec.Streams
