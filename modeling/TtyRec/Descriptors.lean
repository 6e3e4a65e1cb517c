import TtyRec.Lib.Descriptors
import TtyRec.Lib.Run

/-!
# The descriptors of the three processes

`main` opens the recording and the pty, or two pipes, and forks twice.  From then on each of the
three processes has its own copy of every descriptor, and must close those that are not for it:
the recording belongs to the child alone, and there is an end of file on a pipe only when nobody
has the end for writing any more.

The child also opens new recordings, whenever SIGUSR1 comes, and a new one gets the lowest
descriptor that is free.  After `close(0)` in `dooutput` that is 0.

## Main definitions

* `File`, `Var`, `Op`, `Image` — what can be open, the variables that hold descriptors, and the
  calls.
* `mainOps`, `doinputOps`, `dooutputOps`, `doshellOps` — the calls in the order of the source.
* `Session`, `sessionStep` — the three processes, and those that the command starts.

## Main results

* `get_execTable` — exactly what `doshell` leaves to the command.
* `sessionStep_steps` — what an event does.
-/

namespace TtyRec.Fds

open Descriptors Run

/-! ### The calls -/

/-- What a descriptor can stand for: something inherited, a recording, an end of the pty or of a
pipe, or what the command opens. -/
inductive File where
  /-- What the caller of ttyrec has open as this descriptor. -/
  | inherited (fd : ℕ)
  /-- The recording, after so many rotations. -/
  | script (n : ℕ)
  | master
  | slave
  | outRead
  | outWrite
  | errRead
  | errWrite
  /-- What the command opens. -/
  | other (n : ℕ)
  deriving DecidableEq, Repr

/-- The variables that hold descriptors: `fscript`, `master`, `slave`, `stdout_pipe` and
`stderr_pipe`. -/
inductive Var where
  | fscript
  | master
  | slave
  | out0
  | out1
  | err0
  | err1
  deriving DecidableEq, Repr

/-- The calls that change the descriptors of a process. -/
inductive Op where
  /-- `v = open(..)`, or whatever opens the file. -/
  | openTo (v : Var) (f : File)
  /-- `close(v)`, `fclose_wrapper(v)`. -/
  | close (v : Var)
  /-- `close` of a number. -/
  | closeFd (fd : ℕ)
  /-- `dup2(v, fd)`. -/
  | dup2 (v : Var) (fd : ℕ)
  deriving DecidableEq, Repr

/-- What a process knows about its descriptors: the table that the kernel keeps, and the variables
that hold numbers in it. -/
structure Image where
  table : Table File
  vars : Var → ℕ

/-- A call.  `open`, `openpty` and `pipe` take the lowest number that is free, and the variable gets
it. -/
def Image.run (p : Image) : Op → Image
  | .openTo v f => ⟨allocate p.table f, fun w => if w = v then lowest p.table else p.vars w⟩
  | .close v => { p with table := close p.table (p.vars v) }
  | .closeFd fd => { p with table := close p.table fd }
  | .dup2 v fd => { p with table := dup2 p.table (p.vars v) fd }

/-- What the calls lead to. -/
def Image.runAll (p : Image) (ops : List Op) : Image := ops.foldl Image.run p

/-! ### The programs -/

/-- How the command is connected: `openpty` opens both sides of a pty, `getpt`, `posix_openpt` and
`/dev/ptmx` only the master; without `use_tty` there are two pipes. -/
inductive Device where
  | openpty
  | getpt
  | pipes
  deriving DecidableEq, Repr

/-- `main`, as far as the first `fork`: it opens the recording and then the device that the command
is connected through. -/
def mainOps : Device → List Op
  | .openpty => [.openTo .fscript (.script 0), .openTo .master .master, .openTo .slave .slave]
  | .getpt => [.openTo .fscript (.script 0), .openTo .master .master]
  | .pipes => [.openTo .fscript (.script 0), .openTo .out0 .outRead, .openTo .out1 .outWrite,
      .openTo .err0 .errRead, .openTo .err1 .errWrite]

/-- `doinput`, as far as the read loop, or the wait. -/
def doinputOps : Device → List Op
  | .openpty => [.close .fscript, .close .slave]
  | .getpt => [.close .fscript]
  | .pipes => [.close .fscript, .closeFd 0, .close .out0, .close .out1, .close .err0, .close .err1]

/-- `dooutput`, as far as the loop: it closes standard input, and the ends of the device that the
command uses. -/
def dooutputOps : Device → List Op
  | .openpty => [.closeFd 0, .close .slave]
  | .getpt => [.closeFd 0]
  | .pipes => [.closeFd 0, .close .out1, .close .err1]

/-- `doshell`, with `getslave`, as far as `execvp`: the device becomes the standard descriptors of
the command, but for the standard input in pipe mode. -/
def doshellOps : Device → List Op
  | .openpty => [.close .fscript, .close .master, .dup2 .slave 0, .dup2 .slave 1, .dup2 .slave 2,
      .close .slave]
  | .getpt => [.close .fscript, .openTo .slave .slave, .close .master, .dup2 .slave 0,
      .dup2 .slave 1, .dup2 .slave 2, .close .slave]
  | .pipes => [.close .fscript, .dup2 .out1 1, .dup2 .err1 2, .close .out1, .close .err1]

/-- `swing_output_file` in the child, from its `fclose` to its `fopen`. -/
def rotateOps (n : ℕ) : List Op := [.close .fscript, .openTo .fscript (.script n)]

/-- What `dooutput` closes when it cannot write: the flags tell which pipes had no end of file
yet, and with a pty they are still as they began. -/
def writeErrorOps (outOpened errOpened : Bool) : List Op :=
  (if outOpened then [.close .out0] else []) ++ (if errOpened then [.close .err0] else [])

/-! ### The processes -/

/-- A process, and the calls that are next.  Each is made at its own time. -/
structure Proc where
  image : Image
  rest : List Op

/-- The next call. -/
def Proc.next (p : Proc) : Option Proc :=
  match p.rest with
  | [] => none
  | op :: rest => some ⟨p.image.run op, rest⟩

/-- The child, which forks the subchild and then relays its output. -/
structure Child where
  proc : Proc
  /-- The subchild has been forked. -/
  forked : Bool
  /-- In the loop of `dooutput`, or on the way to it. -/
  relaying : Bool
  outOpened : Bool
  errOpened : Bool
  /-- How many recordings came before this one. -/
  rotations : ℕ

/-- The processes of a session; a process that has ended has no table any more. -/
structure Session where
  parent : Option Proc
  child : Option Child
  subchild : Option Proc
  /-- The command, and the processes that it has started. -/
  commands : List (Table File)

/-- What the command can do with its descriptors: open files, close, and duplicate.  Nothing is
assumed about which of these it does. -/
inductive Call where
  | openFile (n : ℕ)
  | close (fd : ℕ)
  | dup2 (old new : ℕ)
  deriving DecidableEq, Repr

/-- A call of the command. -/
def Call.run (t : Table File) : Call → Table File
  | .openFile n => allocate t (.other n)
  | .close fd => Descriptors.close t fd
  | .dup2 old new => Descriptors.dup2 t old new

/-- What can happen.  Every process can end at every moment, by `exit` or by a signal. -/
inductive Event where
  /-- The parent goes on. -/
  | parent
  | parentEnds
  /-- The child forks the subchild. -/
  | fork
  /-- The child goes on. -/
  | child
  /-- SIGUSR1, and a new recording. -/
  | rotate
  /-- An end of file, or an error, on one of the pipes. -/
  | pipeEnds (err : Bool)
  /-- An end of file, or an error, on the pty. -/
  | ptyEnds
  /-- The child cannot write what it has read. -/
  | writeError
  | childEnds
  /-- The subchild goes on. -/
  | subchild
  | exec
  | subchildEnds
  /-- A process of the command goes on, forks, or ends. -/
  | command (i : ℕ) (c : Call)
  | commandForks (i : ℕ)
  | commandEnds (i : ℕ)
  deriving DecidableEq, Repr

/-- The child begins `dooutput`, after the second `fork`. -/
def Child.begin (c : Child) (d : Device) : Child :=
  { c with proc := ⟨c.proc.image, dooutputOps d⟩, forked := true, relaying := true }

/-- One of the pipes is done with: its end is closed, and the loop goes on while the other one is
open. -/
def Child.pipeEnds (c : Child) (err : Bool) : Child :=
  let v := if err then Var.err0 else Var.out0
  let outOpened := c.outOpened && err
  let errOpened := c.errOpened && !err
  { c with
    proc := ⟨c.proc.image.run (.close v), []⟩
    outOpened := outOpened
    errOpened := errOpened
    relaying := outOpened || errOpened }

/-- The flag of a pipe. -/
def Child.opened (c : Child) (err : Bool) : Bool := if err then c.errOpened else c.outOpened

/-- `swing_output_file`, which may come at any time after the second `fork`. -/
def Child.rotate (c : Child) : Child :=
  { c with
    proc := { c.proc with image := c.proc.image.runAll (rotateOps (c.rotations + 1)) }
    rotations := c.rotations + 1 }

/-- The child is in the loop. -/
def Child.Reads (c : Child) : Prop := c.proc.rest = [] ∧ c.relaying = true

instance (c : Child) : Decidable c.Reads :=
  inferInstanceAs (Decidable (c.proc.rest = [] ∧ c.relaying = true))

/-- An event in the child: its next call, a rotation, or the end of what it reads. -/
def childStep (d : Device) (c : Child) : Event → Option Child
  | .child => c.proc.next.map fun p => { c with proc := p }
  | .rotate => if c.forked then some c.rotate else none
  | .pipeEnds err =>
    if c.Reads ∧ d = .pipes ∧ c.opened err = true then some (c.pipeEnds err) else none
  | .ptyEnds => if c.Reads ∧ d ≠ .pipes then some { c with relaying := false } else none
  | .writeError =>
    if c.Reads then
      some { c with
        proc := ⟨c.proc.image, writeErrorOps c.outOpened c.errOpened⟩
        relaying := false }
    else none
  | _ => none

/-- One event: any process makes its next call, forks, or ends, and the command does what it likes.
-/
def sessionStep (d : Device) (s : Session) : Event → Option Session
  | .parent => (s.parent.bind Proc.next).map fun p => { s with parent := some p }
  | .parentEnds => s.parent.map fun _ => { s with parent := none }
  | .fork =>
    s.child.bind fun c =>
      if c.forked then none
      else some { s with
        child := some (c.begin d)
        subchild := some ⟨c.proc.image, doshellOps d⟩ }
  | .childEnds => s.child.map fun _ => { s with child := none }
  | .subchild => (s.subchild.bind Proc.next).map fun p => { s with subchild := some p }
  | .exec =>
    s.subchild.bind fun p =>
      if p.rest = [] then
        some { s with subchild := none, commands := p.image.table :: s.commands }
      else none
  | .subchildEnds => s.subchild.map fun _ => { s with subchild := none }
  | .command i c =>
    s.commands[i]?.map fun t => { s with commands := s.commands.set i (c.run t) }
  | .commandForks i => s.commands[i]?.map fun t => { s with commands := t :: s.commands }
  | .commandEnds i => s.commands[i]?.map fun _ => { s with commands := s.commands.eraseIdx i }
  | e => (s.child.bind fun c => childStep d c e).map fun c => { s with child := some c }

/-- `main` at the first `fork`, with the descriptors that it was given. -/
def prepared (d : Device) (t : Table File) : Image := Image.runAll ⟨t, fun _ => 0⟩ (mainOps d)

/-- The child after the first `fork`, with the descriptors that `main` has opened. -/
def Child.start (d : Device) (t : Table File) : Child :=
  ⟨⟨prepared d t, []⟩, false, false, true, true, 0⟩

/-- After the first `fork`: parent and child have the same table, and there is no subchild yet. -/
def Session.start (d : Device) (t : Table File) : Session where
  parent := some ⟨prepared d t, doinputOps d⟩
  child := some (.start d t)
  subchild := none
  commands := []

/-- Whoever calls ttyrec has given it a standard input, output and error. -/
structure Given (t : Table File) : Prop where
  inherited : ∀ fd f, get t fd = some f → f = .inherited fd
  stdio : ∀ fd < 3, get t fd = some (.inherited fd)

/-- A standard input, output and error. -/
def stdioTable : Table File := [some (.inherited 0), some (.inherited 1), some (.inherited 2)]

theorem given_stdioTable : Given stdioTable where
  inherited := by
    intro fd f h
    match fd with
    | 0 | 1 | 2 => simpa [Descriptors.get, stdioTable] using h.symm
    | n + 3 => simp [Descriptors.get, stdioTable] at h
  stdio := by decide

/-! ### What the command gets -/

/-- What a descriptor of the command stands for when it begins. -/
def execGet (d : Device) (t : Table File) (fd : ℕ) : Option File :=
  match d with
  | .openpty | .getpt => if fd < 3 then some .slave else get t fd
  | .pipes =>
    if fd = 1 then some .outWrite
    else if fd = 2 then some .errWrite
    else if fd = (prepared d t).vars .out0 then some .outRead
    else if fd = (prepared d t).vars .err0 then some .errRead
    else get t fd

/-- The descriptors that `main` opens are not those of the caller. -/
theorem Given.le_of_mem {t : Table File} (ht : Given t) {fs : List File} {fd : ℕ}
    (h : fd ∈ numbers t fs) : 3 ≤ fd := by
  by_contra hlt
  have hnone := get_of_mem_numbers h
  rw [ht.stdio fd (by omega)] at hnone
  cases hnone

/-- What the descriptors of files that are opened one after the other have in common. -/
theorem Given.numbers {t : Table File} (ht : Given t) (fs : List File) :
    (numbers t fs).Nodup ∧ ∀ fd ∈ numbers t fs, 3 ≤ fd ∧ get t fd = none :=
  ⟨nodup_numbers t fs, fun _ h => ⟨ht.le_of_mem h, get_of_mem_numbers h⟩⟩

/-- With `openpty`, both sides of the pty are copied to the subchild. -/
theorem get_execTable_openpty {t : Table File} (ht : Given t) (fd : ℕ) :
    get ((prepared .openpty t).runAll (doshellOps .openpty)).table fd = execGet .openpty t fd := by
  obtain ⟨hnodup, hfree⟩ := ht.numbers [.script 0, .master, .slave]
  simp only [Descriptors.numbers, List.nodup_cons, List.mem_cons, List.not_mem_nil, not_or,
    forall_eq_or_imp] at hnodup hfree
  simp only [execGet, prepared, Image.runAll, mainOps, doshellOps, Image.run, List.foldl_cons,
    List.foldl_nil, get_close, get_dup2, get_allocate, reduceCtorEq, if_true, if_false]
  generalize lowest t = k at *
  generalize lowest (allocate t _) = m at *
  generalize lowest (allocate _ _) = n at *
  grind

/-- With `getpt`, the subchild opens the slave itself. -/
theorem get_execTable_getpt {t : Table File} (ht : Given t) (fd : ℕ) :
    get ((prepared .getpt t).runAll (doshellOps .getpt)).table fd = execGet .getpt t fd := by
  obtain ⟨hnodup, hfree⟩ := ht.numbers [.script 0, .master]
  simp only [Descriptors.numbers, List.nodup_cons, List.mem_cons, List.not_mem_nil, not_or,
    forall_eq_or_imp] at hnodup hfree
  -- the slave is opened in the table without the recording
  have hslave := get_lowest (close (allocate (allocate t (.script 0)) .master) (lowest t))
  have hstdio := ht.stdio
  simp only [execGet, prepared, Image.runAll, mainOps, doshellOps, Image.run, List.foldl_cons,
    List.foldl_nil, get_close, get_dup2, get_allocate, reduceCtorEq, if_true, if_false] at hslave ⊢
  generalize lowest (close _ _) = n at *
  generalize lowest (allocate t _) = m at *
  generalize lowest t = k at *
  have hn : 3 ≤ n := by
    by_contra hlt
    rw [hstdio n (by omega)] at hslave
    grind
  grind

/-- Nobody closes the ends for reading in the subchild. -/
theorem get_execTable_pipes {t : Table File} (ht : Given t) (fd : ℕ) :
    get ((prepared .pipes t).runAll (doshellOps .pipes)).table fd = execGet .pipes t fd := by
  obtain ⟨hnodup, hfree⟩ := ht.numbers [.script 0, .outRead, .outWrite, .errRead, .errWrite]
  simp only [Descriptors.numbers, List.nodup_cons, List.mem_cons, List.not_mem_nil, not_or,
    forall_eq_or_imp] at hnodup hfree
  simp only [execGet, prepared, Image.runAll, mainOps, doshellOps, Image.run, List.foldl_cons,
    List.foldl_nil, get_close, get_dup2, get_allocate, reduceCtorEq, if_true, if_false]
  generalize lowest t = k at *
  generalize lowest (allocate t _) = k1 at *
  generalize lowest (allocate _ _) = k2 at *
  generalize lowest (allocate (allocate _ _) _) = k3 at *
  generalize lowest (allocate (allocate (allocate _ _) _) _) = k4 at *
  grind

/-- **What the command gets.**  With a pty, the slave three times, and with pipes, the ends for
writing, but also the ends for reading. -/
theorem get_execTable (d : Device) {t : Table File} (ht : Given t) (fd : ℕ) :
    get ((prepared d t).runAll (doshellOps d)).table fd = execGet d t fd := by
  cases d with
  | openpty => exact get_execTable_openpty ht fd
  | getpt => exact get_execTable_getpt ht fd
  | pipes => exact get_execTable_pipes ht fd

/-! ### The steps -/

/-- The steps of a process that executes its calls. -/
theorem Proc.next_eq_some {p q : Proc} (h : p.next = some q) :
    ∃ op rest, p.rest = op :: rest ∧ q = ⟨p.image.run op, rest⟩ := by
  unfold Proc.next at h
  cases hrest : p.rest with
  | nil =>
    rw [hrest] at h
    cases h
  | cons op rest =>
    rw [hrest] at h
    cases h
    exact ⟨op, rest, rfl, rfl⟩

/-- What the child does. -/
inductive ChildSteps (d : Device) (c : Child) : Event → Child → Prop where
  | child {op : Op} {rest : List Op} (hrest : c.proc.rest = op :: rest) :
      ChildSteps d c .child { c with proc := ⟨c.proc.image.run op, rest⟩ }
  | rotate (hforked : c.forked = true) : ChildSteps d c .rotate c.rotate
  | pipeEnds {err : Bool} (hreads : c.Reads) (hd : d = .pipes) (hopened : c.opened err = true) :
      ChildSteps d c (.pipeEnds err) (c.pipeEnds err)
  | ptyEnds (hreads : c.Reads) (hd : d ≠ .pipes) :
      ChildSteps d c .ptyEnds { c with relaying := false }
  | writeError (hreads : c.Reads) :
      ChildSteps d c .writeError { c with
        proc := ⟨c.proc.image, writeErrorOps c.outOpened c.errOpened⟩
        relaying := false }

theorem childStep_steps {d : Device} {c c' : Child} {e : Event} (h : childStep d c e = some c') :
    ChildSteps d c e c' := by
  unfold childStep at h
  split at h
  · obtain ⟨p, hp, rfl⟩ := Option.map_eq_some_iff.mp h
    obtain ⟨op, rest, hrest, rfl⟩ := Proc.next_eq_some hp
    exact .child hrest
  · split_ifs at h with hforked
    cases h
    exact .rotate hforked
  · split_ifs at h with hcond
    cases h
    exact .pipeEnds hcond.1 hcond.2.1 hcond.2.2
  · split_ifs at h with hcond
    cases h
    exact .ptyEnds hcond.1 hcond.2
  · split_ifs at h with hreads
    cases h
    exact .writeError hreads
  · cases h

/-- What the session does. -/
inductive Steps (d : Device) (s : Session) : Event → Session → Prop where
  | parent {p : Proc} {op : Op} {rest : List Op} (hp : s.parent = some p)
      (hrest : p.rest = op :: rest) :
      Steps d s .parent { s with parent := some ⟨p.image.run op, rest⟩ }
  | parentEnds : Steps d s .parentEnds { s with parent := none }
  | fork {c : Child} (hc : s.child = some c) (hforked : c.forked = false) :
      Steps d s .fork { s with
        child := some (c.begin d)
        subchild := some ⟨c.proc.image, doshellOps d⟩ }
  | child {c c' : Child} {e : Event} (hc : s.child = some c) (h : ChildSteps d c e c') :
      Steps d s e { s with child := some c' }
  | childEnds : Steps d s .childEnds { s with child := none }
  | subchild {p : Proc} {op : Op} {rest : List Op} (hp : s.subchild = some p)
      (hrest : p.rest = op :: rest) :
      Steps d s .subchild { s with subchild := some ⟨p.image.run op, rest⟩ }
  | exec {p : Proc} (hp : s.subchild = some p) (hrest : p.rest = []) :
      Steps d s .exec { s with subchild := none, commands := p.image.table :: s.commands }
  | subchildEnds : Steps d s .subchildEnds { s with subchild := none }
  | command {i : ℕ} {c : Call} {t : Table File} (ht : t ∈ s.commands) :
      Steps d s (.command i c) { s with commands := s.commands.set i (c.run t) }
  | commandForks {i : ℕ} {t : Table File} (ht : t ∈ s.commands) :
      Steps d s (.commandForks i) { s with commands := t :: s.commands }
  | commandEnds {i : ℕ} : Steps d s (.commandEnds i) { s with commands := s.commands.eraseIdx i }

/-- Read off the definition, program by program. -/
theorem sessionStep_steps {d : Device} {s s' : Session} {e : Event}
    (h : sessionStep d s e = some s') : Steps d s e s' := by
  unfold sessionStep at h
  split at h
  · obtain ⟨q, hq, rfl⟩ := Option.map_eq_some_iff.mp h
    obtain ⟨p, hp, hnext⟩ := Option.bind_eq_some_iff.mp hq
    obtain ⟨op, rest, hrest, rfl⟩ := Proc.next_eq_some hnext
    exact .parent hp hrest
  · obtain ⟨_, _, rfl⟩ := Option.map_eq_some_iff.mp h
    exact .parentEnds
  · obtain ⟨c, hc, h⟩ := Option.bind_eq_some_iff.mp h
    split_ifs at h with hforked
    cases h
    exact .fork hc (by simpa using hforked)
  · obtain ⟨_, _, rfl⟩ := Option.map_eq_some_iff.mp h
    exact .childEnds
  · obtain ⟨q, hq, rfl⟩ := Option.map_eq_some_iff.mp h
    obtain ⟨p, hp, hnext⟩ := Option.bind_eq_some_iff.mp hq
    obtain ⟨op, rest, hrest, rfl⟩ := Proc.next_eq_some hnext
    exact .subchild hp hrest
  · obtain ⟨p, hp, h⟩ := Option.bind_eq_some_iff.mp h
    split_ifs at h with hrest
    cases h
    exact .exec hp hrest
  · obtain ⟨_, _, rfl⟩ := Option.map_eq_some_iff.mp h
    exact .subchildEnds
  · obtain ⟨t, ht, rfl⟩ := Option.map_eq_some_iff.mp h
    exact .command (List.mem_of_getElem? ht)
  · obtain ⟨t, ht, rfl⟩ := Option.map_eq_some_iff.mp h
    exact .commandForks (List.mem_of_getElem? ht)
  · obtain ⟨_, _, rfl⟩ := Option.map_eq_some_iff.mp h
    exact .commandEnds
  · obtain ⟨c', hc', rfl⟩ := Option.map_eq_some_iff.mp h
    obtain ⟨c, hc, hstep⟩ := Option.bind_eq_some_iff.mp hc'
    exact .child hc (childStep_steps hstep)

end TtyRec.Fds
