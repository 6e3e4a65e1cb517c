import TtyRec.Agreement
import TtyRec.Lib.Settle

/-!
# Signal storms

A process whose lock changes sends the signal on to the other one, and a handler returns
early, "to avoid signal storm", when the lock already is what the signal asks for.  That
ends the echo of one request.  When a lock and an unlock cross, each process finds the
flag that the other request has left, and the two signals chase each other.

## Main definitions

* `Settles` — whatever the processes do by themselves comes to an end.
* `LockState.Only`, `LockEvent.Alone` — nothing of the other kind is underway.

## Main results

* `settles_of_alone` — **the forwarding stops, if no request is made while one of the other
  kind is underway.**
* `storm` — a lock and an unlock that cross.
-/

namespace TtyRec

open Run

/-- There is a bound on what the processes can do by themselves. -/
def Settles (s : LockState) : Prop :=
  ∃ n, ∀ (es : List LockEvent) (t : LockState), (∀ e ∈ es, e.internal = true) →
    exec lockStep s es = some t → es.length ≤ n

/-! ### One kind of request -/

/-- What a call in progress asks for. -/
def Frame.signal : Frame → LockSignal
  | .lockSessionTest | .lockSessionAssign | .lockSessionKill | .doLockAssign | .doLockKill => .urg
  | .unlockSessionTest | .unlockSessionAssign | .unlockSessionKill => .usr2

instance : Fintype Role where
  elems := {.parent, .child}
  complete r := by cases r <;> decide

instance : Fintype LockSignal where
  elems := {.urg, .usr2}
  complete sig := by cases sig <;> decide

/-- Every signal that is pending, and every call that is in progress, is of this kind. -/
def LockState.Only (sig : LockSignal) (s : LockState) : Prop :=
  ∀ r, (∀ sig', (s r).pending sig' = true → sig' = sig) ∧ ∀ f ∈ (s r).frames, f.signal = sig

/-- A request from outside, a signal or a `do_lock`, is made when nothing of the other kind is
underway. -/
def LockEvent.Alone (s : LockState) : LockEvent → Prop
  | .post _ sig => s.Only sig
  | .doLock => s.Only .urg
  | .deliver _ _ => True
  | .statement _ _ => True

instance (sig : LockSignal) (s : LockState) : Decidable (s.Only sig) :=
  inferInstanceAs (Decidable (∀ r, (∀ sig', (s r).pending sig' = true → sig' = sig) ∧
    ∀ f ∈ (s r).frames, f.signal = sig))

instance (s : LockState) : ∀ e : LockEvent, Decidable (e.Alone s)
  | .post _ sig => inferInstanceAs (Decidable (s.Only sig))
  | .doLock => inferInstanceAs (Decidable (s.Only .urg))
  | .deliver _ _ => isTrue trivial
  | .statement _ _ => isTrue trivial

theorem Frame.value_task (f : Frame) : f.task.value = f.signal.flag := by
  cases f <;> rfl

theorem LockState.only_mirror {s : LockState} {sig : LockSignal} :
    Mirror.Only sig.flag s.mirror ↔ s.Only sig := by
  constructor
  · intro h r
    obtain ⟨hpending, htasks⟩ := h r
    constructor
    · intro sig' hsig'
      exact LockSignal.flag_injective (hpending sig'.flag ⟨sig', rfl, hsig'⟩)
    · intro f hf
      have htask := htasks f.task (Multiset.mem_coe.mpr (List.mem_map_of_mem hf))
      rw [Frame.value_task] at htask
      exact LockSignal.flag_injective htask
  · intro h r
    obtain ⟨hpending, hframes⟩ := h r
    constructor
    · rintro v ⟨sig', rfl, hsig'⟩
      rw [hpending sig' hsig']
    · intro k hk
      obtain ⟨f, hf, rfl⟩ := List.mem_map.mp (Multiset.mem_coe.mp hk)
      rw [Frame.value_task, hframes f hf]

/-- **One step of the processes by themselves** keeps to one kind of request, and costs.  So there
are only so many of them. -/
theorem LockState.Only.internal {s t : LockState} {sig : LockSignal} {e : LockEvent}
    (h : s.Only sig) (he : e.internal = true) (hstep : lockStep s e = some t) :
    t.Only sig ∧ Mirror.cost Role.peer sig.flag t.mirror < Mirror.cost Role.peer sig.flag s.mirror := by
  obtain ⟨honly, hlt⟩ := (LockState.only_mirror.mpr h).inner Role.peer_involutive
    (lockStep_inner he hstep)
  exact ⟨LockState.only_mirror.mp honly, hlt⟩

/-- While everything is of one kind, the processes come to rest. -/
theorem LockState.Only.settles {s : LockState} {sig : LockSignal} (h : s.Only sig) : Settles s := by
  refine ⟨Mirror.cost Role.peer sig.flag s.mirror, ?_⟩
  intro es t hes hrun
  exact length_le_of_measure (I := LockState.Only sig) (fun _ _ _ hs he hstep => hs.internal he hstep)
    hes hrun h

/-! ### Runs -/

/-- A request does not change the kind of anything but itself. -/
theorem LockState.Only.raise {s : LockState} {sig : LockSignal} (h : s.Only sig) (r : Role) :
    LockState.Only sig (Function.update s r ((s r).raise sig)) := by
  intro r'
  by_cases hr : r' = r
  · subst hr
    rw [Function.update_self]
    refine ⟨?_, (h r').2⟩
    intro sig' hsig'
    by_cases hsig : sig' = sig
    · exact hsig
    · rw [Process.raise] at hsig'
      dsimp only at hsig'
      rw [Function.update_of_ne hsig] at hsig'
      exact (h r').1 sig' hsig'
  · rw [Function.update_of_ne hr]
    exact h r'

theorem LockState.Only.call {s : LockState} {sig : LockSignal} (h : s.Only sig) (r : Role)
    {f : Frame} (hf : f.signal = sig) :
    LockState.Only sig (Function.update s r { s r with frames := f :: (s r).frames }) := by
  intro r'
  by_cases hr : r' = r
  · subst hr
    rw [Function.update_self]
    refine ⟨(h r').1, ?_⟩
    intro f' hf'
    rcases List.mem_cons.mp hf' with rfl | hf'
    · exact hf
    · exact (h r').2 f' hf'
  · rw [Function.update_of_ne hr]
    exact h r'

/-- **One step of a run** whose requests are alone: there is one kind before and after. -/
theorem only_step {s t : LockState} {e : LockEvent} (h : ∃ sig, s.Only sig) (he : e.Alone s)
    (hstep : lockStep s e = some t) : ∃ sig, t.Only sig := by
  cases e with
  | post r sig =>
    cases hstep
    exact ⟨sig, LockState.Only.raise he r⟩
  | doLock =>
    cases hstep
    exact ⟨.urg, LockState.Only.call he .parent rfl⟩
  | deliver r sig =>
    obtain ⟨sig', h⟩ := h
    exact ⟨sig', (h.internal rfl hstep).1⟩
  | statement r f =>
    obtain ⟨sig', h⟩ := h
    exact ⟨sig', (h.internal rfl hstep).1⟩

theorem LockState.start_only (sig : LockSignal) : LockState.start.Only sig := by
  intro r
  refine ⟨?_, ?_⟩
  · intro sig' h
    cases h
  · intro f hf
    cases hf

/-- **The forwarding stops** in every state of every run in which a request is made only when
nothing of the other kind is underway. -/
theorem settles_of_alone (es : List LockEvent) {t : LockState}
    (halone : Along lockStep (fun s e => e.Alone s) LockState.start es)
    (hrun : exec lockStep LockState.start es = some t) : Settles t := by
  have hstart : ∃ sig, LockState.start.Only sig := ⟨.urg, LockState.start_only .urg⟩
  obtain ⟨sig, honly⟩ := exec_invariant_along (I := fun s => ∃ sig, LockState.Only sig s)
    (fun _ _ _ => only_step) halone hrun hstart
  exact honly.settles

/-- The child is locked, and when the parent has answered, SIGUSR2 reaches the parent. -/
theorem settles_of_alone_run :
    ∃ t, exec lockStep LockState.start (lockedByChild ++ [.post .parent .usr2]) = some t ∧
      Settles t :=
  ⟨_, rfl, settles_of_alone (lockedByChild ++ [.post .parent .usr2]) (by decide) rfl⟩

/-! ### Two requests that cross -/

/-- SIGURG and then SIGUSR2 reach the parent, which handles each before the child handles
any. -/
def crossing : List LockEvent :=
  [.post .parent .urg, .deliver .parent .urg, .statement .parent .lockSessionTest,
    .statement .parent .lockSessionAssign, .statement .parent .lockSessionKill,
    .post .parent .usr2, .deliver .parent .usr2, .statement .parent .unlockSessionTest,
    .statement .parent .unlockSessionAssign, .statement .parent .unlockSessionKill]

/-- A process handles SIGURG, and then SIGUSR2. -/
def handleBoth (r : Role) : List LockEvent :=
  [.deliver r .urg, .statement r .lockSessionTest, .statement r .lockSessionAssign,
    .statement r .lockSessionKill, .deliver r .usr2, .statement r .unlockSessionTest,
    .statement r .unlockSessionAssign, .statement r .unlockSessionKill]

/-- Both signals are pending at a process, and nothing else is underway. -/
def LockState.chasing (r : Role) : LockState := fun r' => ⟨false, fun _ => decide (r' = r), []⟩

/-- All that there is to see of the processes. -/
def LockState.view (s : LockState) : List (Bool × Bool × Bool × List Frame) :=
  [Role.parent, Role.child].map fun r =>
    ((s r).locked, (s r).pending .urg, (s r).pending .usr2, (s r).frames)

theorem LockState.view_injective : Function.Injective LockState.view := by
  intro s t h
  simp only [LockState.view, List.map_cons, List.map_nil, List.cons.injEq, Prod.mk.injEq,
    and_true] at h
  obtain ⟨⟨hl, hu, hs, hf⟩, hl', hu', hs', hf'⟩ := h
  have hext : ∀ {p q : Process}, p.locked = q.locked → p.pending .urg = q.pending .urg →
      p.pending .usr2 = q.pending .usr2 → p.frames = q.frames → p = q := by
    rintro ⟨l, p, f⟩ ⟨l', p', f'⟩ rfl hurg husr2 rfl
    have hp : p = p' := by
      funext sig
      cases sig with
      | urg => exact hurg
      | usr2 => exact husr2
    rw [hp]
  funext r
  cases r with
  | parent => exact hext hl hu hs hf
  | child => exact hext hl' hu' hs' hf'

theorem exec_of_view {s t : LockState} {es : List LockEvent}
    (h : (exec lockStep s es).map LockState.view = some t.view) : exec lockStep s es = some t := by
  obtain ⟨t', ht', hview⟩ := Option.map_eq_some_iff.mp h
  rw [ht', LockState.view_injective hview]

/-- After the requests have crossed, both signals are pending at the child. -/
theorem exec_crossing : exec lockStep LockState.start crossing = some (.chasing .child) :=
  exec_of_view rfl

/-- **A process that handles both hands both on**, because each handler looks at the flag that the
other one has left. -/
theorem exec_handleBoth (r : Role) :
    exec lockStep (.chasing r) (handleBoth r) = some (.chasing r.peer) := by
  apply exec_of_view
  cases r <;> rfl

/-- The signals go from the child to the parent, and back. -/
def chase : List LockEvent := handleBoth .child ++ handleBoth .parent

theorem exec_chase : exec lockStep (.chasing .child) chase = some (.chasing .child) := by
  rw [chase, exec_append, exec_handleBoth, Option.bind_some]
  exact exec_handleBoth .parent

/-- **A storm**: two requests are enough for signals without end.  The cycle is a run that comes
back to where it began. -/
theorem storm :
    ¬ ∀ (es : List LockEvent) (t : LockState), exec lockStep LockState.start es = some t →
      Settles t := by
  intro h
  obtain ⟨n, hn⟩ := h crossing _ exec_crossing
  have hinternal : ∀ e ∈ (List.replicate (n + 1) chase).flatten, e.internal = true := by
    intro e he
    obtain ⟨es, hes, he⟩ := List.mem_flatten.mp he
    rw [List.eq_of_mem_replicate hes] at he
    have hall : ∀ e ∈ chase, e.internal = true := by decide
    exact hall e he
  have hle := hn _ _ hinternal (exec_replicate exec_chase (n + 1))
  have hlength : chase.length = 16 := rfl
  rw [List.length_flatten, List.map_replicate, List.sum_replicate, hlength, smul_eq_mul] at hle
  omega

end TtyRec
