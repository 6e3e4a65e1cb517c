import TtyRec.Lib.Mirror
import TtyRec.Lib.Run
import TtyRec.Parent
import TtyRec.Recorder

/-!
# The lock of both processes

The parent and its child, which records, each have their own `locked_since`.  SIGURG and
SIGUSR2 may reach one of them, or both; each handler assigns the flag of its process and
then sends the signal on to the other one.  A call of `lock_session`, `unlock_session` or
`do_lock` is in progress from its first statement to its `kill`, and everything else may
happen between any two of its statements: handlers interrupt each other and `do_lock`, and
the parent has a second thread.

## Main definitions

* `Frame` — a call that is in progress, at the statement that is next.
* `Process`, `LockState`, `LockEvent`, `lockStep` — the two processes.
* `Quiescent` — no signal is pending, and no call is in progress.

## Main results

* `lockStep_mirror` — the processes mirror their flags.
* `locked_iff_of_quiescent` — **they agree whenever they are quiescent**.
-/

namespace TtyRec

open Run

/-- The two processes that hold a `locked_since`: the parent with `doinput`, and the child with
`dooutput`. -/
inductive Role where
  | parent
  | child
  deriving DecidableEq, Repr

/-- The process that `kill` names: the child of the parent, or the parent of the child. -/
def Role.peer : Role → Role
  | .parent => .child
  | .child => .parent

theorem Role.peer_involutive : Function.Involutive Role.peer
  | .parent => rfl
  | .child => rfl

/-- The signals that lock and unlock: SIGURG runs `lock_session`, and SIGUSR2 runs `unlock_session`.
-/
inductive LockSignal where
  | urg
  | usr2
  deriving DecidableEq, Repr

/-- A call in progress.  Each of its statements tests `locked_since`, assigns it, or sends the
signal on. -/
inductive Frame where
  | lockSessionTest
  | lockSessionAssign
  | lockSessionKill
  | unlockSessionTest
  | unlockSessionAssign
  | unlockSessionKill
  | doLockAssign
  | doLockKill
  deriving DecidableEq, Repr

/-- Where a handler begins: at its test of `locked_since`, which comes before everything else. -/
def LockSignal.handler : LockSignal → Frame
  | .urg => .lockSessionTest
  | .usr2 => .unlockSessionTest

/-- A statement, with the flag that it finds: where the call goes on, if it does, the flag,
and the signal that is sent to the other process. -/
def Frame.run (locked : Bool) : Frame → Option Frame × Bool × Option LockSignal
  | .lockSessionTest => (if locked then none else some .lockSessionAssign, locked, none)
  | .lockSessionAssign => (some .lockSessionKill, true, none)
  | .lockSessionKill => (none, locked, some .urg)
  | .unlockSessionTest => (if locked then some .unlockSessionAssign else none, locked, none)
  | .unlockSessionAssign => (some .unlockSessionKill, false, none)
  | .unlockSessionKill => (none, locked, some .usr2)
  | .doLockAssign => (some .doLockKill, true, none)
  | .doLockKill => (none, locked, some .urg)

/-- What a process has to do with the lock. -/
structure Process where
  /-- `locked_since` is not 0. -/
  locked : Bool
  /-- The signals that are pending; a second one of a kind merges with the first. -/
  pending : LockSignal → Bool
  frames : List Frame

/-- A signal is sent to the process.  One that is pending already is merged with it, as the kernel
does with standard signals. -/
def Process.raise (sig : LockSignal) (p : Process) : Process :=
  { p with pending := Function.update p.pending sig true }

abbrev LockState := Role → Process

/-- When the processes begin: nothing is locked, pending or in progress. -/
def LockState.start : LockState := fun _ => ⟨false, fun _ => false, []⟩

inductive LockEvent where
  /-- Somebody else sends a signal. -/
  | post (r : Role) (sig : LockSignal)
  /-- A handler begins. -/
  | deliver (r : Role) (sig : LockSignal)
  /-- The watcher or `handle_cheatcodes` calls `do_lock`.  What they have found in
  `locked_since` before may have changed since. -/
  | doLock
  /-- A call does its next statement. -/
  | statement (r : Role) (f : Frame)
  deriving DecidableEq, Repr

/-- The signal that a statement sends. -/
def LockState.send (r : Role) : Option LockSignal → LockState → LockState
  | none, s => s
  | some sig, s => Function.update s r ((s r).raise sig)

/-- One step: a signal from outside, a delivery, the beginning of `do_lock` in the parent, or a
statement of any call in progress. -/
def lockStep (s : LockState) : LockEvent → Option LockState
  | .post r sig => some (Function.update s r ((s r).raise sig))
  | .deliver r sig =>
    if (s r).pending sig then
      some (Function.update s r { s r with
        pending := Function.update (s r).pending sig false
        frames := sig.handler :: (s r).frames })
    else none
  | .doLock =>
    some (Function.update s .parent { s .parent with
      frames := .doLockAssign :: (s .parent).frames })
  | .statement r f =>
    if f ∈ (s r).frames then
      let (next, locked, sent) := f.run (s r).locked
      some (LockState.send r.peer sent (Function.update s r { s r with
        locked := locked
        frames := next.toList ++ (s r).frames.erase f }))
    else none

/-- No SIGURG or SIGUSR2 is pending, and no handler or `do_lock` is in progress. -/
def Quiescent (s : LockState) : Prop :=
  ∀ r, (∀ sig, (s r).pending sig = false) ∧ (s r).frames = []

/-! ### The calls that nothing interrupts -/

/-- The statements of a call, with nothing in between: the flag, and the signals sent. -/
def Frame.alone : ℕ → Frame → Bool → Bool × List LockSignal
  | 0, _, locked => (locked, [])
  | n + 1, f, locked =>
    match f.run locked with
    | (none, locked', sent) => (locked', sent.toList)
    | (some f', locked', sent) =>
      ((f'.alone n locked').1, sent.toList ++ (f'.alone n locked').2)

/-- A signal that the parent sends to its child. -/
def LockSignal.act : LockSignal → Act
  | .urg => .signal .urg
  | .usr2 => .signal .usr2

/-- `locked_since` is not 0. -/
def Parent.locked (s : Parent) : Bool := decide (s.lockedSince ≠ 0)

/-- The handler of SIGURG in the parent is its three statements. -/
theorem lockSession_alone {now : ℤ} (hnow : now ≠ 0) (s : Parent) :
    (lockSession now s).locked = (Frame.alone 3 .lockSessionTest s.locked).1 ∧
      (lockSession now s).acts =
        s.acts ++ (Frame.alone 3 .lockSessionTest s.locked).2.map LockSignal.act := by
  unfold lockSession
  by_cases hs : s.lockedSince ≠ 0
  · have hlocked : s.locked = true := decide_eq_true hs
    rw [if_pos hs, hlocked]
    exact ⟨rfl, (List.append_nil _).symm⟩
  · have hlocked : s.locked = false := decide_eq_false hs
    rw [if_neg hs, hlocked]
    exact ⟨decide_eq_true hnow, rfl⟩

/-- So is that of SIGUSR2, before it makes the child redraw. -/
theorem unlockSession_alone (now : ℤ) (s : Parent) :
    (unlockSession now s).locked = (Frame.alone 3 .unlockSessionTest s.locked).1 ∧
      (unlockSession now s).acts =
        s.acts ++ (Frame.alone 3 .unlockSessionTest s.locked).2.map LockSignal.act ++
          if s.locked then [.signal .winch, .signal .winch] else [] := by
  unfold unlockSession
  dsimp only
  by_cases hs : s.lockedSince = 0
  · have hlocked : s.locked = false := decide_eq_false (not_not.mpr hs)
    rw [if_pos hs, hlocked]
    exact ⟨hlocked, by simp [Frame.alone, Frame.run]⟩
  · have hlocked : s.locked = true := decide_eq_true hs
    rw [if_neg hs, hlocked]
    exact ⟨rfl, by simp [Frame.alone, Frame.run, LockSignal.act]⟩

/-- `do_lock` is its two statements. -/
theorem doLock_alone {now : ℤ} (hnow : now ≠ 0) (s : Parent) :
    (doLock now s).locked = (Frame.alone 2 .doLockAssign s.locked).1 ∧
      (doLock now s).acts =
        s.acts ++ (Frame.alone 2 .doLockAssign s.locked).2.map LockSignal.act :=
  ⟨decide_eq_true hnow, rfl⟩

/-- The handlers of the child are the same statements. -/
theorem child_alone {N : Type*} (s : Control N) :
    (lockScreen s).locked = (Frame.alone 3 .lockSessionTest s.locked).1 ∧
      (unlockScreen s).locked = (Frame.alone 3 .unlockSessionTest s.locked).1 := by
  unfold lockScreen unlockScreen
  cases hs : s.locked with
  | true => exact ⟨hs, rfl⟩
  | false => exact ⟨rfl, hs⟩

/-! ### The processes mirror their flags -/

/-- The flag that a signal asks for: locked for SIGURG, unlocked for SIGUSR2. -/
def LockSignal.flag : LockSignal → Bool
  | .urg => true
  | .usr2 => false

theorem LockSignal.flag_injective : Function.Injective LockSignal.flag := by
  intro a b h
  cases a <;> cases b <;> first | rfl | cases h

/-- What a call has still to do: to test the flag, to assign it, or to send the signal on to the
peer. -/
def Frame.task : Frame → Mirror.Task Bool
  | .lockSessionTest => .check true
  | .lockSessionAssign | .doLockAssign => .assign true
  | .lockSessionKill | .doLockKill => .send true
  | .unlockSessionTest => .check false
  | .unlockSessionAssign => .assign false
  | .unlockSessionKill => .send false

/-- The flags that the pending signals ask for. -/
def flagsOf (pending : LockSignal → Bool) : Set Bool :=
  {v | ∃ sig : LockSignal, sig.flag = v ∧ pending sig = true}

theorem flagsOf_set (pending : LockSignal → Bool) (sig : LockSignal) :
    flagsOf (Function.update pending sig true) = insert sig.flag (flagsOf pending) := by
  ext v
  constructor
  · rintro ⟨sig', rfl, h⟩
    by_cases hsig : sig' = sig
    · exact .inl (congrArg LockSignal.flag hsig)
    · rw [Function.update_of_ne hsig] at h
      exact .inr ⟨sig', rfl, h⟩
  · rintro (rfl | ⟨sig', rfl, h⟩)
    · exact ⟨sig, rfl, Function.update_self sig true pending⟩
    · refine ⟨sig', rfl, ?_⟩
      by_cases hsig : sig' = sig
      · rw [hsig, Function.update_self]
      · rw [Function.update_of_ne hsig, h]

theorem flagsOf_clear (pending : LockSignal → Bool) (sig : LockSignal) :
    flagsOf (Function.update pending sig false) = flagsOf pending \ {sig.flag} := by
  ext v
  constructor
  · rintro ⟨sig', rfl, h⟩
    by_cases hsig : sig' = sig
    · rw [hsig, Function.update_self] at h
      cases h
    · rw [Function.update_of_ne hsig] at h
      exact ⟨⟨sig', rfl, h⟩, fun heq => hsig (LockSignal.flag_injective heq)⟩
  · rintro ⟨⟨sig', rfl, h⟩, hne⟩
    refine ⟨sig', rfl, ?_⟩
    rw [Function.update_of_ne fun heq => hne (congrArg LockSignal.flag heq), h]

def Process.tasks (p : Process) : Multiset (Mirror.Task Bool) :=
  (p.frames.map Frame.task : List (Mirror.Task Bool))

/-- The processes as parties that mirror their flags, in the terms of the library. -/
def LockState.mirror (s : LockState) : Mirror.State Role Bool where
  value := Process.locked ∘ s
  pending := flagsOf ∘ Process.pending ∘ s
  tasks := Process.tasks ∘ s

theorem mirror_update (s : LockState) (r : Role) (p : Process) :
    LockState.mirror (Function.update s r p) =
      ⟨Function.update s.mirror.value r p.locked, Function.update s.mirror.pending r (flagsOf p.pending),
        Function.update s.mirror.tasks r p.tasks⟩ := by
  unfold LockState.mirror
  rw [Function.comp_update, Function.comp_update, Function.comp_update, Function.comp_update]

/-- A call in progress is one of the tasks. -/
theorem Process.tasks_eq_cons {p : Process} {f : Frame} (hf : f ∈ p.frames) :
    p.tasks = f.task ::ₘ ((p.frames.erase f).map Frame.task : List (Mirror.Task Bool)) := by
  have hperm := (List.perm_cons_erase hf).map Frame.task
  rw [Process.tasks, Multiset.cons_coe]
  exact Multiset.coe_eq_coe.mpr hperm

theorem mirror_send (r : Role) (sig : LockSignal) (s : LockState) :
    LockState.mirror (Function.update s r ((s r).raise sig)) =
      { s.mirror with
        pending := Function.update s.mirror.pending r (insert sig.flag (s.mirror.pending r)) } := by
  rw [mirror_update]
  congr 1
  · exact Function.update_eq_self r s.mirror.value
  · exact congrArg (Function.update s.mirror.pending r) (flagsOf_set _ sig)
  · exact Function.update_eq_self r s.mirror.tasks

/-- A statement, but for the signal that it sends. -/
theorem mirror_statement (s : LockState) (r : Role) (locked : Bool) (frames : List Frame) :
    LockState.mirror (Function.update s r { s r with locked := locked, frames := frames }) =
      { s.mirror with
        value := Function.update s.mirror.value r locked
        tasks := Function.update s.mirror.tasks r
          (frames.map Frame.task : List (Mirror.Task Bool)) } := by
  rw [mirror_update]
  congr 1
  exact Function.update_eq_self r s.mirror.pending

theorem mirror_value_self (s : LockState) (r : Role) :
    Function.update s.mirror.value r (s r).locked = s.mirror.value :=
  Function.update_eq_self r s.mirror.value

/-- **What a statement can do**: it tests the flag and goes on or not, it assigns it, or it
sends the signal. -/
theorem Frame.run_cases (f : Frame) (locked : Bool) :
    (f.task = .check locked ∧ f.run locked = (none, locked, none)) ∨
    (∃ v f', f.task = .check v ∧ v ≠ locked ∧ f'.task = .assign v ∧
      f.run locked = (some f', locked, none)) ∨
    (∃ v f', f.task = .assign v ∧ f'.task = .send v ∧ f.run locked = (some f', v, none)) ∨
    (∃ sig : LockSignal, f.task = .send sig.flag ∧ f.run locked = (none, locked, some sig)) := by
  cases f with
  | lockSessionTest =>
    cases locked with
    | true => exact .inl ⟨rfl, rfl⟩
    | false => exact .inr (.inl ⟨true, .lockSessionAssign, rfl, nofun, rfl, rfl⟩)
  | unlockSessionTest =>
    cases locked with
    | true => exact .inr (.inl ⟨false, .unlockSessionAssign, rfl, nofun, rfl, rfl⟩)
    | false => exact .inl ⟨rfl, rfl⟩
  | lockSessionAssign => exact .inr (.inr (.inl ⟨true, .lockSessionKill, rfl, rfl, rfl⟩))
  | unlockSessionAssign => exact .inr (.inr (.inl ⟨false, .unlockSessionKill, rfl, rfl, rfl⟩))
  | doLockAssign => exact .inr (.inr (.inl ⟨true, .doLockKill, rfl, rfl, rfl⟩))
  | lockSessionKill => exact .inr (.inr (.inr ⟨.urg, rfl, rfl⟩))
  | unlockSessionKill => exact .inr (.inr (.inr ⟨.usr2, rfl, rfl⟩))
  | doLockKill => exact .inr (.inr (.inr ⟨.urg, rfl, rfl⟩))

/-- **One statement** is a step of the parties.  What the statement is follows from
`Frame.run_cases`. -/
theorem statement_inner {s : LockState} {r : Role} {f : Frame} (hf : f ∈ (s r).frames) :
    Mirror.Inner Role.peer s.mirror
      (LockState.send r.peer (f.run (s r).locked).2.2 (Function.update s r { s r with
        locked := (f.run (s r).locked).2.1
        frames := (f.run (s r).locked).1.toList ++ (s r).frames.erase f })).mirror := by
  have htasks : s.mirror.tasks r = _ := Process.tasks_eq_cons hf
  rcases f.run_cases (s r).locked with ⟨htask, hrun⟩ | ⟨v, f', htask, hne, htask', hrun⟩ |
    ⟨v, f', htask, htask', hrun⟩ | ⟨sig, htask, hrun⟩
  · rw [htask] at htasks
    rw [hrun]
    show Mirror.Inner _ _ (LockState.mirror (Function.update s r _))
    rw [mirror_statement, mirror_value_self]
    exact .drop s.mirror r _ htasks
  · rw [htask] at htasks
    rw [hrun]
    show Mirror.Inner _ _ (LockState.mirror (Function.update s r _))
    rw [mirror_statement, mirror_value_self, Option.toList_some, List.singleton_append,
      List.map_cons, htask']
    exact .accept s.mirror r v _ htasks hne
  · rw [htask] at htasks
    rw [hrun]
    show Mirror.Inner _ _ (LockState.mirror (Function.update s r _))
    rw [mirror_statement, Option.toList_some, List.singleton_append, List.map_cons, htask']
    exact .assign s.mirror r v _ htasks
  · rw [htask] at htasks
    rw [hrun]
    show Mirror.Inner _ _ (LockState.mirror (Function.update _ r.peer _))
    rw [mirror_send, mirror_statement, mirror_value_self]
    exact .send s.mirror r sig.flag _ htasks

/-- So is the beginning of a handler, which takes the pending value and makes it a check. -/
theorem deliver_inner {s : LockState} {r : Role} {sig : LockSignal}
    (hsig : (s r).pending sig = true) :
    Mirror.Inner Role.peer s.mirror
      (LockState.mirror (Function.update s r { s r with
        pending := Function.update (s r).pending sig false
        frames := sig.handler :: (s r).frames })) := by
  have hmem : sig.flag ∈ s.mirror.pending r := ⟨sig, rfl, hsig⟩
  have htask : sig.handler.task = .check sig.flag := by cases sig <;> rfl
  rw [mirror_update, mirror_value_self, flagsOf_clear, Process.tasks, List.map_cons, htask]
  exact .receive s.mirror r sig.flag hmem

/-- What the processes do by themselves: a handler begins, or a call goes on. -/
def LockEvent.internal : LockEvent → Bool
  | .post _ _ => false
  | .deliver _ _ => true
  | .doLock => false
  | .statement _ _ => true

/-- **What the processes do by themselves** is what the parties do by themselves: everything but a
signal from outside and the beginning of `do_lock`. -/
theorem lockStep_inner {s t : LockState} {e : LockEvent} (he : e.internal = true)
    (h : lockStep s e = some t) : Mirror.Inner Role.peer s.mirror t.mirror := by
  cases e with
  | post r sig => cases he
  | deliver r sig =>
    rw [lockStep] at h
    split at h
    next hsig =>
      cases h
      exact deliver_inner hsig
    · cases h
  | doLock => cases he
  | statement r f =>
    rw [lockStep] at h
    split at h
    next hf =>
      cases h
      exact statement_inner hf
    · cases h

/-- **One step** of the processes is a step of the parties.  What comes from outside is a message,
or a task, that nobody asked for. -/
theorem lockStep_mirror {s t : LockState} {e : LockEvent} (h : lockStep s e = some t) :
    Mirror.Step Role.peer s.mirror t.mirror := by
  cases e with
  | post r sig =>
    cases h
    rw [mirror_send]
    exact .post s.mirror r sig.flag
  | deliver r sig => exact (lockStep_inner rfl h).step
  | doLock =>
    cases h
    rw [mirror_statement, mirror_value_self]
    exact .start s.mirror .parent true
  | statement r f => exact (lockStep_inner rfl h).step

/-- **Every run** of the processes is a run of the parties, so the invariant of the library holds in
it. -/
theorem lockStep_mirror_exec {s t : LockState} {es : List LockEvent}
    (hrun : exec lockStep s es = some t) :
    Relation.ReflTransGen (Mirror.Step Role.peer) s.mirror t.mirror := by
  induction es generalizing s with
  | nil =>
    cases hrun
    exact .refl
  | cons e es ih =>
    obtain ⟨s', he, hes⟩ := exec_cons_eq_some.mp hrun
    exact .head (lockStep_mirror he) (ih hes)

/-- **The processes agree on the lock** in every state that they reach in which no signal is pending
and no call is in progress, whatever came from outside and in whatever order the statements were
executed. -/
theorem locked_iff_of_quiescent {es : List LockEvent} {t : LockState}
    (hrun : exec lockStep LockState.start es = some t) (hquiet : Quiescent t) :
    (t .parent).locked = true ↔ (t .child).locked = true := by
  have hstart : Mirror.Linked Role.peer LockState.start.mirror := fun _ => .inl rfl
  have hlinked := hstart.reachable Role.peer_involutive (lockStep_mirror_exec hrun)
  have hmirror : ∀ r, t.mirror.pending r = ∅ ∧ t.mirror.tasks r = 0 := by
    intro r
    obtain ⟨hpending, hframes⟩ := hquiet r
    constructor
    · rw [Set.eq_empty_iff_forall_notMem]
      rintro v ⟨sig, -, hsig⟩
      exact Bool.noConfusion ((hpending sig).symm.trans hsig)
    · show Process.tasks (t r) = 0
      rw [Process.tasks, hframes]
      rfl
  have heq : (t .parent).locked = (t .child).locked :=
    Mirror.value_eq_of_quiet hlinked hmirror .parent
  rw [heq]

/-- SIGURG reaches the child only, which locks and sends it on; the parent locks too, and
its SIGURG comes back to a child that is locked. -/
def lockedByChild : List LockEvent :=
  [.post .child .urg, .deliver .child .urg, .statement .child .lockSessionTest,
    .statement .child .lockSessionAssign, .statement .child .lockSessionKill,
    .deliver .parent .urg, .statement .parent .lockSessionTest,
    .statement .parent .lockSessionAssign, .statement .parent .lockSessionKill,
    .deliver .child .urg, .statement .child .lockSessionTest]

/-- Both processes are locked in the end. -/
theorem locked_iff_of_quiescent_run :
    ∃ t, exec lockStep LockState.start lockedByChild = some t ∧ Quiescent t ∧
      (t .parent).locked = true ∧ (t .child).locked = true := by
  obtain ⟨t, hrun, hchild⟩ : ∃ t, exec lockStep LockState.start lockedByChild = some t ∧
      (t .child).locked = true := ⟨_, rfl, rfl⟩
  have hquiet : Quiescent t := by
    cases hrun
    intro r
    cases r <;> exact ⟨fun sig => by cases sig <;> rfl, rfl⟩
  exact ⟨t, hrun, hquiet, (locked_iff_of_quiescent hrun hquiet).mpr hchild, hchild⟩

end TtyRec
