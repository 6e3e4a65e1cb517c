import TtyRec.Lib.Handlers
import TtyRec.RawMode

/-!
# The size of the window

When the user resizes the terminal, `sigwinch_handler_parent` gives the new size to the pty.
`unlock_session` makes the command redraw: it reads the size of the pty, sets it to one row more,
and sets the size that it has read again, 300 milliseconds later.  Neither signal is blocked while
the handler of the other one runs, and with `-t` or `-k` the parent has a second thread, which
blocks none of them.  So the system calls of the two handlers, and of two `unlock_session`, fall
between each other in any way that the stacks of the two threads allow.

What is on the pty in the end is what the last TIOCSWINSZ has set.  A `sigwinch_handler_parent`
that is the last one has set the size of the terminal, whatever has come in between: it takes the
size from a variable that every one of them writes before.  An `unlock_session` that is the last
one has set what it has read, which may be a size from before the resize, or the row more of
another `unlock_session`.

## Main definitions

* `Winsize`, `grow`, `shrink` — `struct winsize`, and the row more.
* `Handler`, `Terminals` — the two handlers, and the state of both threads.
* `KeepsResize` — the `unlock_session` that sets the size last has read the right one.
* `Unraced` — a condition on the steps that rules the race out.

## Main results

* `terminal_of_winch` — `sigwinch_handler_parent` is right when it is the last one.
* `size_kept_iff` — **when the pty has the size of the terminal in the end.**
-/

namespace TtyRec

open Run Handlers RawMode

/-! ### Sizes -/

/-- `struct winsize`, with the size of a terminal in characters and in pixels. -/
structure Winsize where
  wsRow : UInt16
  wsCol : UInt16
  wsXpixel : UInt16
  wsYpixel : UInt16
  deriving DecidableEq, Repr

/-- `pixels_per_row`, or 0 when there are no rows. -/
def Winsize.pixelsPerRow (w : Winsize) : ℕ :=
  if 0 < w.wsRow.toNat then w.wsYpixel.toNat / w.wsRow.toNat else 0

/-- One row more. -/
def Winsize.grow (w : Winsize) (pixelsPerRow : ℕ) : Winsize :=
  { w with wsRow := w.wsRow + 1, wsYpixel := w.wsYpixel + UInt16.ofNat pixelsPerRow }

/-- One row less. -/
def Winsize.shrink (w : Winsize) (pixelsPerRow : ℕ) : Winsize :=
  { w with wsRow := w.wsRow - 1, wsYpixel := w.wsYpixel - UInt16.ofNat pixelsPerRow }

/-- The arithmetic of `unsigned short` wraps around, and comes back. -/
@[simp] theorem Winsize.shrink_grow (w : Winsize) (k : ℕ) : (w.grow k).shrink k = w := by
  simp [Winsize.grow, Winsize.shrink]

/-! ### The handlers -/

/-- The system call of `sigwinch_handler_parent` that is next. -/
inductive WinchPc where
  | get
  | set
  deriving DecidableEq, Repr

/-- What `unlock_session` does next: it looks at `locked_since`, clears it, and then there are its
three system calls, with `tmpwin` and `pixels_per_row`. -/
inductive UnlockPc where
  | test
  | clear
  | get
  | grow (tmpwin : Winsize)
  | shrink (tmpwin : Winsize) (pixelsPerRow : ℕ)
  deriving DecidableEq, Repr

/-- A handler that runs, with the system call that it makes next. -/
inductive Handler where
  | winch (pc : WinchPc)
  | unlock (pc : UnlockPc)
  deriving DecidableEq, Repr

/-- It is `sigwinch_handler_parent`. -/
def Handler.isWinch : Handler → Bool
  | .winch _ => true
  | .unlock _ => false

/-- It is `unlock_session`. -/
def Handler.isUnlock : Handler → Bool
  | .winch _ => false
  | .unlock _ => true

/-- The user's terminal, the pty, and the handlers of the parent, which may run on its main thread
and on that of `timeout_watcher`. -/
structure Terminals where
  /-- The size of the user's terminal. -/
  terminal : Winsize
  /-- The size of the pty. -/
  master : Winsize
  parentStdinWinsize : Winsize
  /-- `locked_since` is not 0. -/
  locked : Bool
  /-- SIGWINCH was sent, and is not delivered yet. -/
  pending : Bool
  /-- The handlers of a thread, the innermost first. -/
  handlers : Thread → List Handler

/-- Before the first signal, the pty having the size that `main` has given it. -/
def Terminals.start (w : Winsize) : Terminals := ⟨w, w, w, false, false, fun _ => []⟩

/-- What can happen: the user resizes the window, the session is locked, a signal comes, or a
handler goes on. -/
inductive SizeEvent where
  /-- The user resizes the terminal, and the kernel sends SIGWINCH. -/
  | resize (w : Winsize)
  /-- SIGWINCH is delivered to a thread. -/
  | winch (th : Thread)
  /-- `lock_session` or `do_lock` sets `locked_since`. -/
  | lock
  /-- SIGUSR2 is delivered to a thread. -/
  | usr2 (th : Thread)
  /-- The innermost handler of a thread goes on. -/
  | next (th : Thread)
  deriving DecidableEq, Repr

/-- The next system call of `sigwinch_handler_parent`, and what is left of it. -/
def sigwinchHandlerParent (s : Terminals) : WinchPc → Terminals × Option WinchPc
  | .get => ({ s with parentStdinWinsize := s.terminal }, some .set)
  | .set => ({ s with master := s.parentStdinWinsize }, none)

/-- The next statement of `unlock_session` that has to do with the size, and what is left. -/
def unlockWindow (s : Terminals) : UnlockPc → Terminals × Option UnlockPc
  | .test => (s, if s.locked = true then some .clear else none)
  | .clear => ({ s with locked := false }, some .get)
  | .get => (s, some (.grow s.master))
  | .grow tmpwin =>
    ({ s with master := tmpwin.grow tmpwin.pixelsPerRow },
      some (.shrink (tmpwin.grow tmpwin.pixelsPerRow) tmpwin.pixelsPerRow))
  | .shrink tmpwin pixelsPerRow => ({ s with master := tmpwin.shrink pixelsPerRow }, none)

/-- The next step of a handler, and the handler behind it, unless it has returned. -/
def handlerStep (s : Terminals) : Handler → Terminals × Option Handler
  | .winch pc => ((sigwinchHandlerParent s pc).1, (sigwinchHandlerParent s pc).2.map .winch)
  | .unlock pc => ((unlockWindow s pc).1, (unlockWindow s pc).2.map .unlock)

/-- The state after the innermost handler `h` of a thread has gone on. -/
def goOn (s : Terminals) (th : Thread) (h : Handler) : Terminals :=
  { (handlerStep s h).1 with handlers := resume s.handlers th (handlerStep s h).2 }

/-- One event.  A signal is blocked on a thread where its own handler runs, and nowhere else; of
the handlers of one thread the innermost goes on, and of two threads either of them. -/
def sizeStep (s : Terminals) : SizeEvent → Option Terminals
  | .resize w => some { s with terminal := w, pending := true }
  | .winch th =>
    if s.pending = true ∧ (s.handlers th).any Handler.isWinch = false then
      some { s with pending := false, handlers := enter s.handlers th (.winch .get) }
    else none
  | .lock => some { s with locked := true }
  | .usr2 th =>
    if (s.handlers th).any Handler.isUnlock = false then
      some { s with handlers := enter s.handlers th (.unlock .test) }
    else none
  | .next th => (s.handlers th).head?.map (goOn s th)

/-- All handlers have returned, on both threads, and no SIGWINCH waits. -/
structure Terminals.Idle (s : Terminals) : Prop where
  pending : s.pending = false
  handlers : ∀ th, s.handlers th = []

instance (s : Terminals) : Decidable s.Idle :=
  decidable_of_iff (s.pending = false ∧ s.handlers .main = [] ∧ s.handlers .watcher = [])
    ⟨fun h => ⟨h.1, fun th => by cases th; exacts [h.2.1, h.2.2]⟩,
      fun h => ⟨h.pending, h.handlers .main, h.handlers .watcher⟩⟩

/-! ### What a step can be -/

/-- What is done with a handler in a step, or that none goes on. -/
inductive SizeSteps (s : Terminals) : SizeEvent → Terminals → Prop
  | resize (w : Winsize) : SizeSteps s (.resize w) { s with terminal := w, pending := true }
  | winch (th : Thread) (hpending : s.pending = true) :
    SizeSteps s (.winch th)
      { s with pending := false, handlers := enter s.handlers th (.winch .get) }
  | lock : SizeSteps s .lock { s with locked := true }
  | usr2 (th : Thread) :
    SizeSteps s (.usr2 th) { s with handlers := enter s.handlers th (.unlock .test) }
  | next {th : Thread} {h : Handler} (hh : (s.handlers th).head? = some h) :
    SizeSteps s (.next th) (goOn s th h)

theorem sizeStep_steps {s t : Terminals} {e : SizeEvent} (h : sizeStep s e = some t) :
    SizeSteps s e t := by
  cases e with
  | resize w =>
    cases h
    exact .resize w
  | winch th =>
    simp only [sizeStep] at h
    split at h
    next hguard =>
      cases h
      exact .winch th hguard.1
    next => cases h
  | lock =>
    cases h
    exact .lock
  | usr2 th =>
    simp only [sizeStep] at h
    split at h
    next =>
      cases h
      exact .usr2 th
    next => cases h
  | next th =>
    obtain ⟨f, hf, rfl⟩ := Option.map_eq_some_iff.mp h
    exact .next hf

/-! ### TIOCSWINSZ -/

/-- The next step of the handler is a TIOCSWINSZ. -/
def Handler.sets : Handler → Bool
  | .winch .set => true
  | .unlock (.grow _) => true
  | .unlock (.shrink _ _) => true
  | _ => false

/-- The step is a TIOCSWINSZ. -/
def SetsSize (s : Terminals) : SizeEvent → Prop
  | .next th => (s.handlers th).head?.any Handler.sets = true
  | _ => False

instance : ∀ (s : Terminals) (e : SizeEvent), Decidable (SetsSize s e)
  | s, .next th => inferInstanceAs (Decidable ((s.handlers th).head?.any Handler.sets = true))
  | _, .resize _ => .isFalse id
  | _, .winch _ => .isFalse id
  | _, .lock => .isFalse id
  | _, .usr2 _ => .isFalse id

theorem setsSize_next_iff {s : Terminals} {th : Thread} :
    SetsSize s (.next th) ↔ ∃ h, (s.handlers th).head? = some h ∧ h.sets = true := by
  rw [SetsSize, Option.any_eq_true]

section Steps

variable (s : Terminals) (h : Handler)

/-- A handler neither resizes the terminal nor is a signal sent by it. -/
@[simp] theorem handlerStep_terminal : (handlerStep s h).1.terminal = s.terminal := by
  rcases h with (_ | _) | (_ | _ | _ | _ | _) <;> rfl

@[simp] theorem handlerStep_pending : (handlerStep s h).1.pending = s.pending := by
  rcases h with (_ | _) | (_ | _ | _ | _ | _) <;> rfl

variable {s h}

/-- Only TIOCGWINSZ on standard input writes the variable. -/
theorem handlerStep_parentStdinWinsize (hne : h ≠ .winch .get) :
    (handlerStep s h).1.parentStdinWinsize = s.parentStdinWinsize := by
  rcases h with (_ | _) | (_ | _ | _ | _ | _)
  · exact absurd rfl hne
  all_goals rfl

/-- Only TIOCSWINSZ changes the size of the pty. -/
theorem handlerStep_master (hsets : h.sets = false) : (handlerStep s h).1.master = s.master := by
  rcases h with (_ | _) | (_ | _ | _ | _ | _)
  case winch.set => cases hsets
  case unlock.grow => cases hsets
  case unlock.shrink => cases hsets
  all_goals rfl

end Steps

/-! ### A resize on its way to the pty -/

/-- SIGWINCH waits, or its handler has not returned. -/
def Terminals.Owed (s : Terminals) : Prop :=
  s.pending = true ∨ ∃ pc, Active s.handlers (.winch pc)

/-- The variable has the size of the terminal, or will be written once more. -/
def Terminals.Fresh (s : Terminals) : Prop :=
  s.pending = true ∨ Active s.handlers (.winch .get) ∨ s.parentStdinWinsize = s.terminal

theorem Terminals.Idle.not_owed {s : Terminals} (h : s.Idle) : ¬ s.Owed := by
  rintro (hpending | ⟨pc, th, hpc⟩)
  · exact Bool.noConfusion (hpending.symm.trans h.pending)
  · rw [h.handlers th] at hpc
    cases hpc

section Owed

variable {s t : Terminals} {e : SizeEvent} {es : List SizeEvent}

/-- **Every step keeps the variable fresh**, on whatever thread it is: a resize makes SIGWINCH wait,
SIGWINCH begins a handler, and the handler writes the variable first. -/
theorem Terminals.Fresh.step (hs : s.Fresh) (h : SizeSteps s e t) : t.Fresh := by
  cases h with
  | resize w => exact .inl rfl
  | winch th hpending => exact .inr (.inl (active_enter.mpr (.inl rfl)))
  | lock => exact hs
  | usr2 th =>
    rcases hs with hs | hs | hs
    · exact .inl hs
    · exact .inr (.inl (active_enter.mpr (.inr hs)))
    · exact .inr (.inr hs)
  | @next th f hf =>
    by_cases hget : f = .winch .get
    · subst hget
      exact .inr (.inr rfl)
    · rcases hs with hs | hs | hs
      · exact .inl ((handlerStep_pending s f).trans hs)
      · refine .inr (.inl (hs.resume ?_))
        rw [hf]
        exact fun heq => hget (Option.some.inj heq)
      · refine .inr (.inr ?_)
        exact (handlerStep_parentStdinWinsize hget).trans (hs.trans (handlerStep_terminal s f).symm)

theorem fresh_exec {w₀ : Winsize} (hrun : exec sizeStep (.start w₀) es = some s) : s.Fresh :=
  exec_invariant (fun _ _ _ hs h => hs.step (sizeStep_steps h)) hrun (.inr (.inr rfl))

/-- What is on its way stays there until a TIOCSWINSZ, and nothing else leaves the terminal with
another size. -/
theorem owed_step (hsets : ¬ SetsSize s e) (h : SizeSteps s e t) (ht : ¬ t.Owed) :
    ¬ s.Owed ∧ t.terminal = s.terminal ∧ t.master = s.master := by
  cases h with
  | resize w => exact absurd (.inl rfl) ht
  | winch th hpending => exact absurd (.inr ⟨.get, active_enter.mpr (.inl rfl)⟩) ht
  | lock => exact ⟨ht, rfl, rfl⟩
  | usr2 th =>
    refine ⟨fun hs => ht ?_, rfl, rfl⟩
    exact hs.imp_right fun ⟨pc, hpc⟩ => ⟨pc, active_enter.mpr (.inr hpc)⟩
  | @next th f hf =>
    have hf' : f.sets = false := by
      rw [setsSize_next_iff] at hsets
      exact Bool.eq_false_iff.mpr fun hset => hsets ⟨f, hf, hset⟩
    refine ⟨fun hs => ht ?_, handlerStep_terminal s f, handlerStep_master hf'⟩
    rcases hs with hs | ⟨pc, hpc⟩
    · exact .inl ((handlerStep_pending s f).trans hs)
    · by_cases hhead : f = .winch pc
      · subst hhead
        -- the handler has got the size, and is to set it
        cases pc with
        | get => exact .inr ⟨.set, active_resume.mpr (.inl rfl)⟩
        | set => cases hf'
      · refine .inr ⟨pc, hpc.resume ?_⟩
        rw [hf]
        exact fun heq => hhead (Option.some.inj heq)

theorem owed_exec (hes : Along sizeStep (fun s e => ¬ SetsSize s e) s es)
    (hrun : exec sizeStep s es = some t) (ht : ¬ t.Owed) :
    ¬ s.Owed ∧ t.terminal = s.terminal ∧ t.master = s.master := by
  induction es generalizing s with
  | nil =>
    cases hrun
    exact ⟨ht, rfl, rfl⟩
  | cons e es ih =>
    obtain ⟨s', he, hrun⟩ := exec_cons_eq_some.mp hrun
    obtain ⟨hs', hterminal, hmaster⟩ := ih (hes.2 s' he) hrun
    obtain ⟨hs, hterminal', hmaster'⟩ := owed_step hes.1 (sizeStep_steps he) hs'
    exact ⟨hs, hterminal.trans hterminal', hmaster.trans hmaster'⟩

/-- An `unlock_session` that has set a row more takes it away again before it returns. -/
theorem shrink_exec {tmpwin : Winsize} {k : ℕ}
    (hes : Along sizeStep (fun s e => ¬ SetsSize s e) s es) (hrun : exec sizeStep s es = some t)
    (hs : Active s.handlers (.unlock (.shrink tmpwin k))) :
    Active t.handlers (.unlock (.shrink tmpwin k)) := by
  refine exec_invariant_along (I := fun s : Terminals =>
    Active s.handlers (.unlock (.shrink tmpwin k))) ?_ hes hrun hs
  intro s e t hs hsets hstep
  cases sizeStep_steps hstep with
  | resize w => exact hs
  | winch th hpending => exact active_enter.mpr (.inr hs)
  | lock => exact hs
  | usr2 th => exact active_enter.mpr (.inr hs)
  | @next th f hf =>
    refine hs.resume ?_
    rintro hhead
    exact hsets (setsSize_next_iff.mpr ⟨_, hhead, rfl⟩)

end Owed

/-! ### The last TIOCSWINSZ -/

/-- If the last TIOCSWINSZ of the run is the one with which `unlock_session` takes the row away, it
has read the size that the terminal has. -/
def KeepsResize (s₀ : Terminals) (es : List SizeEvent) : Prop :=
  ∀ s th tmpwin k, last sizeStep SetsSize s₀ es = some (s, .next th) →
    (s.handlers th).head? = some (.unlock (.shrink tmpwin k)) → tmpwin.shrink k = s.terminal

/-- **`sigwinch_handler_parent` is right when it is the last one**: the variable that it takes the
size from is fresh, whoever has written it. -/
theorem terminal_of_winch {s t : Terminals} {th : Thread} (hs : s.Fresh)
    (hhead : (s.handlers th).head? = some (.winch .set)) (h : sizeStep s (.next th) = some t)
    (ht : ¬ t.Owed) : t.master = t.terminal := by
  have hfresh := hs.step (sizeStep_steps h)
  have hsize : t.parentStdinWinsize = t.terminal := by
    rcases hfresh with hpending | hget | hsize
    · exact absurd (.inl hpending) ht
    · exact absurd (.inr ⟨_, hget⟩) ht
    · exact hsize
  rw [sizeStep, hhead, Option.map_some, Option.some.injEq] at h
  rw [← hsize, ← h]
  rfl

/-- **When the last TIOCSWINSZ is right**, in a run at the end of which nothing is on its way. -/
theorem master_eq_iff {w₀ : Winsize} {es : List SizeEvent} {t : Terminals}
    (hrun : exec sizeStep (.start w₀) es = some t) (hidle : t.Idle) :
    t.master = t.terminal ↔ KeepsResize (.start w₀) es := by
  cases hlast : last sizeStep SetsSize (.start w₀) es with
  | none =>
    -- nobody has set the size, so there was no resize
    obtain ⟨-, hterminal, hmaster⟩ := owed_exec (along_of_last hrun hlast) hrun hidle.not_owed
    refine iff_of_true (hmaster.trans hterminal.symm) ?_
    intro s th tmpwin k hlast'
    rw [hlast] at hlast'
    cases hlast'
  | some x =>
    obtain ⟨a, e⟩ := x
    obtain ⟨es₁, es₂, b, hes₁, hsets, hstep, hes₂, hquiet, -⟩ := exists_of_last hrun hlast
    obtain ⟨howed, hterminal, hmaster⟩ := owed_exec hquiet hes₂ hidle.not_owed
    cases e with
    | next th =>
      obtain ⟨f, hf, hset⟩ := setsSize_next_iff.mp hsets
      have hb := hstep
      rw [sizeStep, hf, Option.map_some, Option.some.injEq] at hb
      rw [hterminal, hmaster]
      rcases f with (_ | _) | (_ | _ | _ | tmpwin | ⟨tmpwin, k⟩)
      case winch.set =>
        refine iff_of_true (terminal_of_winch (fresh_exec hes₁) hf hstep howed) ?_
        intro s th' tmpwin k hlast' hhead
        rw [hlast] at hlast'
        cases hlast'
        rw [hf] at hhead
        cases hhead
      case unlock.grow =>
        -- it has not returned, and sets the size once more
        have hactive : Active b.handlers (.unlock (.shrink
            (tmpwin.grow tmpwin.pixelsPerRow) tmpwin.pixelsPerRow)) := by
          rw [← hb]
          exact active_resume.mpr (.inl rfl)
        obtain ⟨th', hmem⟩ := shrink_exec hquiet hes₂ hactive
        rw [hidle.handlers th'] at hmem
        cases hmem
      case unlock.shrink =>
        have hterminal' : b.terminal = a.terminal := by
          rw [← hb]
          exact handlerStep_terminal a _
        have hmaster' : b.master = tmpwin.shrink k := by
          rw [← hb]
          rfl
        rw [hterminal', hmaster']
        constructor
        · intro heq s th' tmpwin' k' hlast' hhead
          rw [hlast] at hlast'
          cases hlast'
          rw [hf] at hhead
          cases hhead
          exact heq
        · intro hkeeps
          exact hkeeps a th tmpwin k hlast hf
      all_goals cases hset
    | resize w => exact absurd hsets id
    | winch th => exact absurd hsets id
    | lock => exact absurd hsets id
    | usr2 th => exact absurd hsets id

/-! ### Runs without the race -/

/-- The size that `unlock_session` has read, and will set again. -/
def Handler.remembered : Handler → Option Winsize
  | .unlock (.grow tmpwin) => some tmpwin
  | .unlock (.shrink tmpwin pixelsPerRow) => some (tmpwin.shrink pixelsPerRow)
  | _ => none

/-- An `unlock_session` is between its TIOCGWINSZ and its last TIOCSWINSZ, and has read this. -/
def Terminals.Remembers (s : Terminals) (w : Winsize) : Prop :=
  ∃ h, Active s.handlers h ∧ h.remembered = some w

/-- When `sigwinch_handler_parent` sets the size, and when `unlock_session` reads it, no other
`unlock_session` is between its TIOCGWINSZ and its last TIOCSWINSZ, unless it has read just this
size. -/
def Unraced (s : Terminals) : SizeEvent → Prop
  | .next th =>
    ((s.handlers th).head? = some (.winch .set) →
      ∀ w, s.Remembers w → w = s.parentStdinWinsize) ∧
    ((s.handlers th).head? = some (.unlock .get) → ∀ w, s.Remembers w → w = s.master)
  | _ => True

/-- When no resize is on its way: what is remembered is the size of the terminal, and if nothing is,
the pty has it. -/
def Terminals.Settled (s : Terminals) : Prop :=
  ¬ s.Owed → (∀ w, s.Remembers w → w = s.terminal) ∧
    ((∀ w, ¬ s.Remembers w) → s.master = s.terminal)

section Unraced

variable {s t : Terminals} {e : SizeEvent} {w : Winsize}

/-- A handler that begins has read nothing. -/
theorem remembers_enter {th : Thread} {h : Handler} (hnone : h.remembered = none)
    (ht : t.handlers = enter s.handlers th h) : t.Remembers w ↔ s.Remembers w := by
  unfold Terminals.Remembers
  rw [ht]
  constructor
  · rintro ⟨g, hg, hw⟩
    rcases active_enter.mp hg with rfl | hg
    · rw [hnone] at hw
      cases hw
    · exact ⟨g, hg, hw⟩
  · rintro ⟨g, hg, hw⟩
    exact ⟨g, active_enter.mpr (.inr hg), hw⟩

/-- What is remembered after a step of a handler, it has just read, or it was remembered before. -/
theorem Terminals.Remembers.of_goOn {th : Thread} {f : Handler} (h : (goOn s th f).Remembers w) :
    (handlerStep s f).2.bind Handler.remembered = some w ∨ s.Remembers w := by
  obtain ⟨g, hg, hw⟩ := h
  rcases hg.of_resume with hf | hg
  · rw [hf]
    exact .inl hw
  · exact .inr ⟨g, hg, hw⟩

/-- What the other handlers have read, they remember. -/
theorem remembers_goOn {th : Thread} {f : Handler} (hf : (s.handlers th).head? = some f)
    (hnone : f.remembered = none) (h : s.Remembers w) : (goOn s th f).Remembers w := by
  obtain ⟨g, hg, hw⟩ := h
  refine ⟨g, hg.resume ?_, hw⟩
  rw [hf]
  intro heq
  rw [Option.some.inj heq, hw] at hnone
  cases hnone

/-- A step of `unlock_session` does not bring a resize nearer to the pty. -/
theorem not_owed_of_unlock {th : Thread} {pc : UnlockPc}
    (hpc : (s.handlers th).head? = some (.unlock pc)) (ht : ¬ (goOn s th (.unlock pc)).Owed) :
    ¬ s.Owed := by
  rintro (hs | ⟨pc', hs⟩)
  · exact ht (.inl ((handlerStep_pending s _).trans hs))
  · refine ht (.inr ⟨pc', hs.resume ?_⟩)
    rw [hpc]
    exact fun heq => Handler.noConfusion (Option.some.inj heq)

/-- A statement of `unlock_session` outside its system calls. -/
theorem Terminals.Settled.of_unlock {th : Thread} {pc : UnlockPc} (hs : s.Settled)
    (hpc : (s.handlers th).head? = some (.unlock pc))
    (hnone : (Handler.unlock pc).remembered = none)
    (hnone' : (handlerStep s (.unlock pc)).2.bind Handler.remembered = none) :
    (goOn s th (.unlock pc)).Settled := by
  intro ht
  obtain ⟨hall, hnobody⟩ := hs (not_owed_of_unlock hpc ht)
  have hsets : (Handler.unlock pc).sets = false := by
    cases pc with
    | grow tmpwin | shrink tmpwin k => cases hnone
    | _ => rfl
  have hterminal : (goOn s th (.unlock pc)).terminal = s.terminal := handlerStep_terminal s _
  have hmaster : (goOn s th (.unlock pc)).master = s.master := handlerStep_master hsets
  rw [hterminal, hmaster]
  refine ⟨fun w hw => ?_, fun h => hnobody fun w hw => h w (remembers_goOn hpc hnone hw)⟩
  rcases hw.of_goOn with hnew | hold
  · rw [hnone'] at hnew
    cases hnew
  · exact hall w hold

/-- **One step**, on any thread.  The condition is about the two calls by which a handler could come
to set an old size. -/
theorem Terminals.Settled.step (hfresh : s.Fresh) (hs : s.Settled) (hok : Unraced s e)
    (h : SizeSteps s e t) : t.Settled := by
  have hfresh' := hfresh.step h
  cases h with
  | resize w => exact fun ht => absurd (.inl rfl) ht
  | winch th hpending => exact fun ht => absurd (.inr ⟨.get, active_enter.mpr (.inl rfl)⟩) ht
  | lock => exact hs
  | usr2 th =>
    intro ht
    have howed : ¬ s.Owed := fun howed =>
      ht (howed.imp_right fun ⟨pc, hpc⟩ => ⟨pc, active_enter.mpr (.inr hpc)⟩)
    obtain ⟨hall, hnobody⟩ := hs howed
    have hiff : ∀ w, Terminals.Remembers
        { s with handlers := enter s.handlers th (.unlock .test) } w ↔ s.Remembers w :=
      fun w => remembers_enter rfl rfl
    exact ⟨fun w hw => hall w ((hiff w).mp hw), fun h => hnobody fun w hw => h w ((hiff w).mpr hw)⟩
  | @next th f hf =>
    rcases f with (_ | _) | (_ | _ | _ | tmpwin | ⟨tmpwin, k⟩)
    case winch.get =>
      -- the handler has got the size, and is to set it
      exact fun ht => absurd (.inr ⟨.set, active_resume.mpr (.inl rfl)⟩) ht
    case winch.set =>
      intro ht
      have hsize : s.parentStdinWinsize = s.terminal := by
        rcases hfresh' with hpending | hget | hsize
        · exact absurd (.inl hpending) ht
        · exact absurd (.inr ⟨_, hget⟩) ht
        · exact hsize
      refine ⟨fun w hw => ?_, fun _ => hsize⟩
      rcases hw.of_goOn with hnew | hold
      · cases hnew
      · exact (hok.1 hf w hold).trans hsize
    case unlock.test =>
      refine hs.of_unlock hf rfl ?_
      simp only [handlerStep, unlockWindow]
      split <;> rfl
    case unlock.clear => exact hs.of_unlock hf rfl rfl
    case unlock.get =>
      intro ht
      obtain ⟨hall, hnobody⟩ := hs (not_owed_of_unlock hf ht)
      have hmaster : s.master = s.terminal := by
        by_cases hw : ∃ w, s.Remembers w
        · obtain ⟨w, hw⟩ := hw
          rw [← hok.2 hf w hw, hall w hw]
        · exact hnobody (not_exists.mp hw)
      refine ⟨fun w hw => ?_, fun h => absurd ⟨_, active_resume.mpr (.inl rfl), rfl⟩ (h s.master)⟩
      rcases hw.of_goOn with hnew | hold
      · cases hnew
        exact hmaster
      · exact hall w hold
    case unlock.grow =>
      intro ht
      obtain ⟨hall, -⟩ := hs (not_owed_of_unlock hf ht)
      have hread : s.Remembers tmpwin := ⟨_, active_of_head hf, rfl⟩
      have hshrink : (Handler.unlock (.shrink (tmpwin.grow tmpwin.pixelsPerRow)
          tmpwin.pixelsPerRow)).remembered = some tmpwin :=
        congrArg some (tmpwin.shrink_grow _)
      refine ⟨fun w hw => ?_, fun h => absurd ⟨_, active_resume.mpr (.inl rfl), hshrink⟩ (h tmpwin)⟩
      rcases hw.of_goOn with hnew | hold
      · exact hall w (Option.some.inj (hshrink.symm.trans hnew) ▸ hread)
      · exact hall w hold
    case unlock.shrink =>
      intro ht
      obtain ⟨hall, -⟩ := hs (not_owed_of_unlock hf ht)
      refine ⟨fun w hw => ?_, fun _ => hall _ ⟨_, active_of_head hf, rfl⟩⟩
      rcases hw.of_goOn with hnew | hold
      · cases hnew
      · exact hall w hold

end Unraced

/-- **A run without the race** keeps every resize: when all handlers have returned, the pty has the
size of the terminal. -/
theorem master_eq_of_unraced {w₀ : Winsize} {es : List SizeEvent} {t : Terminals}
    (hrun : exec sizeStep (.start w₀) es = some t)
    (hok : Along sizeStep Unraced (.start w₀) es) (hidle : t.Idle) : t.master = t.terminal := by
  have hstart : (Terminals.start w₀).Fresh ∧ (Terminals.start w₀).Settled := by
    refine ⟨.inr (.inr rfl), fun _ => ⟨?_, fun _ => rfl⟩⟩
    rintro w ⟨h, ⟨th, hmem⟩, -⟩
    cases hmem
  obtain ⟨-, hsettled⟩ := exec_invariant_along (I := fun s : Terminals => s.Fresh ∧ s.Settled)
    (fun _ _ _ hs hok h => ⟨hs.1.step (sizeStep_steps h), hs.2.step hs.1 hok (sizeStep_steps h)⟩)
    hok hrun hstart
  refine (hsettled hidle.not_owed).2 ?_
  rintro w ⟨h, ⟨th, hmem⟩, -⟩
  rw [hidle.handlers th] at hmem
  cases hmem

/-- A window of this many rows. -/
def Winsize.rows (n : UInt16) : Winsize := ⟨n, 80, 0, 0⟩

/-- A lock, an unlock, and a resize while `unlock_session` still sleeps. -/
def resizeBefore : List SizeEvent :=
  [.lock, .usr2 .main, .next .main, .next .main, .resize (.rows 30), .winch .watcher,
    .next .watcher, .next .watcher, .next .main, .next .main, .next .main]

/-- Two `unlock_session`, one on each thread: the second one reads the row more of the first one,
and leaves it there, without any resize. -/
example : (exec sizeStep (.start (.rows 24))
    [.lock, .usr2 .main, .next .main, .next .main, .lock, .usr2 .watcher, .next .watcher,
      .next .watcher, .next .main, .next .main, .next .watcher, .next .watcher, .next .main,
      .next .watcher]).map (fun t => (t.terminal.wsRow, t.master.wsRow)) = some (24, 25) := by
  decide

end TtyRec
