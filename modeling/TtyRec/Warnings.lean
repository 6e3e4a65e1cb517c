import TtyRec.Lib.Alarm
import TtyRec.Timeouts

/-!
# The warnings of the watcher

The watcher warns `warn_before_lock` seconds before it locks a session, and
`warn_before_kill` seconds before it kills one.  The first warning is always in time.  The
second is as long as a lock leaves the time for it: a locked session is killed
`timeout_kill - timeout_lock` seconds after it was locked, and when that is less than
`warn_before_kill`, a session that SIGURG or the cheat-code locks before `timeout_lock`
seconds without activity is warned too late.

## Main definitions

* `Mark`, `observe` — what a user sees of the session, with the times.
* `history` — all of it, in a run.
* `LocksLate` — a lock from outside leaves the time for the warning.
* `LockReady`, `KillReady` — the watcher as two alarms.

## Main results

* `warnings_in_time` — **the user is warned before a lock, and before the end of the session
  if the locks come late**.
* `warning_after_lock` — a session that is locked at once is killed three seconds after
  a warning of five.
-/

namespace TtyRec

open Run Alarm

/-- Activity, and what the watcher does and when: the events of the alarms. -/
inductive Mark where
  | activity
  | warnLock (now : ℤ)
  | lock (now : ℤ)
  | warnKill (now : ℤ)
  | kill (now : ℤ)
  deriving DecidableEq, Repr

/-- What the watcher does at `now`. -/
def Act.mark (now : ℤ) : Act → Option Mark
  | .warnLock _ => some (.warnLock now)
  | .signal .urg => some (.lock now)
  | .warnKill _ => some (.warnKill now)
  | .signal .term => some (.kill now)
  | _ => none

/-- What there is to see in a step. -/
def observe (o : ParentOptions) (s : Parent) : ParentEvent → List Mark
  | .tick now lockNow =>
    ((timeoutWatcher o now lockNow { s with clock := lockNow, lastTick := now }).acts.drop
      s.acts.length).filterMap (Act.mark now)
  | e => (activity s e).map fun _ => .activity

/-- What there is to see in a run that begins at `start`. -/
def history (o : ParentOptions) (start : ℤ) (es : List ParentEvent) : List Mark :=
  collect (parentStep o) (observe o) (Parent.start start) es

/-- A lock `idle` seconds after the last activity leaves the time for the warning. -/
def ParentOptions.Late (o : ParentOptions) (idle : ℤ) : Prop :=
  o.warnBeforeKill ≤ o.timeoutKill - o.timeoutLock ∨ o.timeoutLock ≤ idle

/-- A lock by SIGURG or the cheat-code leaves the time for the warning. -/
def LocksLate (o : ParentOptions) (s : Parent) : ParentEvent → Prop
  | .urg now => s.lockedSince = 0 → o.Late (now - s.lastActivity)
  | .input [c] (.sent _) now lockNow =>
    s.lockedSince = 0 → s.CheatLocks o c → o.Late (lockNow - now)
  | _ => True

instance (o : ParentOptions) (idle : ℤ) : Decidable (o.Late idle) :=
  inferInstanceAs (Decidable (_ ∨ _))

instance (o : ParentOptions) (s : Parent) : DecidablePred (LocksLate o s)
  | .urg _ => inferInstanceAs (Decidable (_ → _))
  | .input [_] (.sent _) _ _ => inferInstanceAs (Decidable (_ → _ → _))
  | .input [_] .eintr _ _ | .input [_] .error _ _ | .input [] _ _ _ | .input (_ :: _ :: _) _ _ _
  | .eof | .tick _ _ | .usr2 _ => .isTrue trivial

/-! ### The watcher as two alarms -/

/-- What the inactivity of a session is measured from, and how long it may last. -/
def killAlarm (o : ParentOptions) (last : ℤ) (s : Parent) : Alarm.State :=
  if s.lockedSince ≠ 0 then ⟨s.killWarned, s.lockedSince, o.timeoutKill - o.timeoutLock, last⟩
  else ⟨s.killWarned, s.lastActivity, o.timeoutKill, last⟩

/-- The alarm that locks the session looks at the clock when it is not locked. -/
def LockReady (o : ParentOptions) (last : ℤ) (s : Parent) (H : List Mark) : Prop :=
  Ready (· = .activity) .warnLock .lock o.warnBeforeLock (s.lockedSince = 0 ∧ o.useTty = true)
    ⟨s.lockWarned, s.lastActivity, o.timeoutLock, last⟩ H

/-- The alarm that kills it always does. -/
def KillReady (o : ParentOptions) (last : ℤ) (s : Parent) (H : List Mark) : Prop :=
  Ready (· = .activity) .warnKill .kill o.warnBeforeKill True (killAlarm o last s) H

theorem killAlarm_locked (o : ParentOptions) (last : ℤ) {s : Parent} (h : s.lockedSince ≠ 0) :
    killAlarm o last s = ⟨s.killWarned, s.lockedSince, o.timeoutKill - o.timeoutLock, last⟩ :=
  if_pos h

theorem killAlarm_unlocked (o : ParentOptions) (last : ℤ) {s : Parent} (h : s.lockedSince = 0) :
    killAlarm o last s = ⟨s.killWarned, s.lastActivity, o.timeoutKill, last⟩ :=
  if_neg (not_not.mpr h)

/-- What the alarms look at; a step that changes none of it is no concern of theirs. -/
structure SameAlarms (s t : Parent) : Prop where
  lockedSince : t.lockedSince = s.lockedSince
  lastActivity : t.lastActivity = s.lastActivity
  lockWarned : t.lockWarned = s.lockWarned
  killWarned : t.killWarned = s.killWarned

theorem LockReady.of_same {o : ParentOptions} {last : ℤ} {s t : Parent} {H : List Mark}
    (h : LockReady o last s H) (hsame : SameAlarms s t) : LockReady o last t H := by
  unfold LockReady
  rw [hsame.lockedSince, hsame.lastActivity, hsame.lockWarned]
  exact h

theorem KillReady.of_same {o : ParentOptions} {last : ℤ} {s t : Parent} {H : List Mark}
    (h : KillReady o last s H) (hsame : SameAlarms s t) : KillReady o last t H := by
  unfold KillReady killAlarm
  rw [hsame.lockedSince, hsame.lastActivity, hsame.killWarned]
  exact h

section Alarms

variable {o : ParentOptions} {s : Parent} {last : ℤ} {H : List Mark}

/-- A session is locked, and the deadline moves to where the lock puts it. -/
theorem KillReady.lock (h : KillReady o last s H) (hunlocked : s.lockedSince = 0) {t : Parent}
    (hlast : last ≤ t.lockedSince) (hne : t.lockedSince ≠ 0)
    (hlate : o.Late (t.lockedSince - s.lastActivity)) (hwarned : t.killWarned = s.killWarned) :
    KillReady o last t H := by
  unfold KillReady at h ⊢
  rw [killAlarm_unlocked o last hunlocked] at h
  rw [killAlarm_locked o last hne, hwarned]
  rcases hlate with hshort | hidle
  · exact h.move_early hlast hshort
  · apply h.move_later
    · dsimp only
      omega
    · exact id

/-- Activity, by which the lock is due later and is warned of again. -/
theorem LockReady.active (h : LockReady o last s H) {t : Parent} (hlast : last ≤ t.lastActivity)
    (hwarned : t.lockWarned = false) : LockReady o last t (H ++ [.activity]) := by
  unfold LockReady
  rw [hwarned]
  exact Ready.restart h (fun _ => Mark.noConfusion) hlast o.warnBeforeLock_le

theorem KillReady.active (h : KillReady o last s H) {t : Parent} (hlast : last ≤ t.lastActivity)
    (hunlocked : t.lockedSince = 0) (hwarned : t.killWarned = false) :
    KillReady o last t (H ++ [.activity]) := by
  have hlast' : (killAlarm o last s).last = last := by
    unfold killAlarm
    split <;> rfl
  have hrestart : Ready (· = .activity) .warnKill .kill o.warnBeforeKill True
      ⟨false, t.lastActivity, o.timeoutKill, (killAlarm o last s).last⟩ (H ++ [.activity]) :=
    Ready.restart h (fun _ => Mark.noConfusion) (hlast'.trans_le hlast) o.warnBeforeKill_le
  rw [hlast'] at hrestart
  unfold KillReady
  rw [killAlarm_unlocked o last hunlocked, hwarned]
  exact hrestart

end Alarms

/-! ### A tick -/

/-- What a part of a tick does, and that it is no activity. -/
theorem mark_ne_activity (now : ℤ) (l : List Act) :
    ∀ x ∈ l.filterMap (Act.mark now), x ≠ .activity := by
  intro x hx
  obtain ⟨a, -, ha⟩ := List.mem_filterMap.mp hx
  rintro rfl
  unfold Act.mark at ha
  split at ha <;> simp at ha

theorem mark_ne_kill (now : ℤ) {l : List Act} (hl : .signal .term ∉ l) (t : ℤ) :
    .kill t ∉ l.filterMap (Act.mark now) := by
  intro hx
  obtain ⟨a, ha, hmark⟩ := List.mem_filterMap.mp hx
  unfold Act.mark at hmark
  split at hmark
  case h_4 => exact hl ha
  all_goals simp at hmark

theorem mark_ne_lock (now : ℤ) {l : List Act} (hl : .signal .urg ∉ l) (t : ℤ) :
    .lock t ∉ l.filterMap (Act.mark now) := by
  intro hx
  obtain ⟨a, ha, hmark⟩ := List.mem_filterMap.mp hx
  unfold Act.mark at hmark
  split at hmark
  case h_2 => exact hl ha
  all_goals simp at hmark

section Tick

variable {o : ParentOptions} {s : Parent} {last now : ℤ} {H : List Mark}

/-- The warning of a lock. -/
theorem warnLock_ready (hunlocked : s.lockedSince = 0) (htty : o.useTty = true)
    (hpos : 0 < o.warnBeforeLock) (hlast : last ≤ now) (htick : now ≤ last + 1) :
    ∃ l, (warnLock o now s).acts = s.acts ++ l ∧ .signal .term ∉ l ∧
      (LockReady o last s H →
        LockReady o now (warnLock o now s) (H ++ l.filterMap (Act.mark now))) := by
  unfold warnLock
  split
  next hwarn =>
    refine ⟨[.warnLock o.warnBeforeLock], rfl, by simp, ?_⟩
    intro h
    exact h.warns (fun _ _ => Mark.noConfusion) ⟨hunlocked, htty⟩ hwarn.2.1 htick
  next hquiet =>
    refine ⟨[], (List.append_nil _).symm, List.not_mem_nil, ?_⟩
    intro h
    rw [List.filterMap_nil, List.append_nil]
    apply h.quiet hlast
    intro hfresh _
    dsimp only at hfresh ⊢
    by_contra hlong
    exact hquiet ⟨hpos, hfresh, by omega⟩

/-- The first half of a tick, which warns of the lock or locks. -/
theorem watchLock_ready (hpos : 0 < o.warnBeforeLock) (hlast : last ≤ now) (htick : now ≤ last + 1)
    (lockNow : ℤ) (h : LockReady o last s H) :
    ∃ l, (watchLock o now lockNow s).acts = s.acts ++ l ∧
      LockReady o now (watchLock o now lockNow s) (H ++ l.filterMap (Act.mark now)) := by
  unfold watchLock
  dsimp only
  split
  next hidle =>
    obtain ⟨htty, hunlocked⟩ := hidle
    obtain ⟨l, hl, -, hwarn⟩ := warnLock_ready hunlocked htty hpos hlast htick (H := H)
    obtain ⟨hsame, hlocked⟩ := warnLock_same o now s
    have hready := hwarn h
    split
    next hlong =>
      refine ⟨l ++ [.signal .urg], by simp [doLock, hl], ?_⟩
      have hacts := hready.acts hpos (fun t t' heq => Mark.lock.inj heq) (fun _ => Mark.noConfusion)
        ⟨hlocked.trans hunlocked, htty⟩ le_rfl (Int.le.intro 1 rfl) hlong.2
      rw [List.filterMap_append, ← List.append_assoc]
      exact hacts.move_later le_rfl fun _ => ⟨hlocked.trans hunlocked, htty⟩
    · exact ⟨l, hl, hready⟩
  next hother =>
    refine ⟨[], (List.append_nil _).symm, ?_⟩
    rw [List.filterMap_nil, List.append_nil]
    exact h.quiet hlast fun _ harmed => absurd ⟨harmed.2, harmed.1⟩ hother

theorem watchLock_killWarned (o : ParentOptions) (now lockNow : ℤ) (s : Parent) :
    (watchLock o now lockNow s).killWarned = s.killWarned := by
  have hwarn : (warnLock o now s).killWarned = s.killWarned := by
    unfold warnLock
    split <;> rfl
  unfold watchLock
  dsimp only
  split
  · split
    · exact hwarn
    · exact hwarn
  · rfl

theorem watchKill_lockWarned (o : ParentOptions) (now : ℤ) (s : Parent) :
    (watchKill o now s).lockWarned = s.lockWarned ∧
      ∃ l, (watchKill o now s).acts = s.acts ++ l ∧ .signal .urg ∉ l := by
  have hat : ∀ idle limit, (watchKillAt o idle limit s).lockWarned = s.lockWarned ∧
      ∃ l, (watchKillAt o idle limit s).acts = s.acts ++ l ∧ .signal .urg ∉ l := by
    intro idle limit
    unfold watchKillAt
    split
    · exact ⟨rfl, [.warnKill o.warnBeforeKill], rfl, by simp⟩
    · split
      · exact ⟨rfl, [.signal .term], rfl, by simp⟩
      · exact ⟨rfl, [], (List.append_nil _).symm, List.not_mem_nil⟩
  unfold watchKill
  split
  · split
    · exact hat _ _
    · exact hat _ _
  · exact ⟨rfl, [], (List.append_nil _).symm, List.not_mem_nil⟩

/-- A lock by the watcher comes late. -/
theorem watchLock_killReady (h : KillReady o last s H) {lockNow : ℤ} (hpos : 0 < now)
    (hlast : last ≤ now) (hlock : now ≤ lockNow) {l : List Act}
    (hl : (watchLock o now lockNow s).acts = s.acts ++ l) :
    KillReady o last (watchLock o now lockNow s) (H ++ l.filterMap (Act.mark now)) := by
  have hterm : .signal .term ∉ l := by
    obtain ⟨l', hl', hterm⟩ := watchLock_acts o now lockNow s
    rw [hl] at hl'
    rw [List.append_cancel_left hl']
    exact hterm
  have hready : KillReady o last s (H ++ l.filterMap (Act.mark now)) :=
    h.append (mark_ne_activity now l) (mark_ne_kill now hterm)
  obtain ⟨hsame, hcases⟩ := watchLock_cases o now lockNow s
  have hwarned := watchLock_killWarned o now lockNow s
  rcases hcases with ⟨hls, -⟩ | ⟨hunlocked, -, -, hlong, hls⟩
  · unfold KillReady killAlarm at hready ⊢
    rw [hls, hsame.lastActivity, hwarned]
    exact hready
  · apply hready.lock hunlocked
    · omega
    · omega
    · exact .inr (by omega)
    · exact hwarned

/-- An alarm that is measured from `ref`. -/
theorem watchKillAt_ready (hpos : 0 < o.warnBeforeKill) (hlast : last ≤ now)
    (htick : now ≤ last + 1) {ref limit : ℤ}
    (h : Ready (· = .activity) .warnKill .kill o.warnBeforeKill True
      ⟨s.killWarned, ref, limit, last⟩ H) :
    ∃ l, (watchKillAt o (now - ref) limit s).acts = s.acts ++ l ∧
      Ready (· = .activity) .warnKill .kill o.warnBeforeKill True
        ⟨(watchKillAt o (now - ref) limit s).killWarned, ref, limit, now⟩
        (H ++ l.filterMap (Act.mark now)) := by
  unfold watchKillAt
  split
  next hwarn =>
    refine ⟨[.warnKill o.warnBeforeKill], rfl, ?_⟩
    exact h.warns (fun _ _ => Mark.noConfusion) trivial hwarn.2.1 htick
  next hquiet =>
    split
    next hover =>
      refine ⟨[.signal .term], rfl, ?_⟩
      exact h.acts hpos (fun _ _ heq => Mark.kill.inj heq) (fun _ => Mark.noConfusion) trivial hlast
        htick hover
    next =>
      refine ⟨[], (List.append_nil _).symm, ?_⟩
      rw [List.filterMap_nil, List.append_nil]
      apply h.quiet hlast
      intro hfresh _
      dsimp only at hfresh ⊢
      by_contra hlong
      exact hquiet ⟨hpos, hfresh, by omega⟩

/-- The second half of a tick, which warns of the end or sends SIGTERM. -/
theorem watchKill_ready (hpos : 0 < o.warnBeforeKill) (hlast : last ≤ now) (htick : now ≤ last + 1)
    (h : KillReady o last s H) :
    ∃ l, (watchKill o now s).acts = s.acts ++ l ∧
      KillReady o now (watchKill o now s) (H ++ l.filterMap (Act.mark now)) := by
  have hK := o.warnBeforeKill_le
  obtain ⟨hsame, hls⟩ := watchKill_same o now s
  have hactivity := hsame.lastActivity
  unfold KillReady killAlarm at h ⊢
  rw [hls, hactivity]
  unfold watchKill
  rw [if_pos (by omega)]
  by_cases hlocked : s.lockedSince ≠ 0
  · rw [if_pos hlocked] at h
    simp only [if_pos hlocked]
    exact watchKillAt_ready hpos hlast htick h
  · rw [if_neg hlocked] at h
    simp only [if_neg hlocked]
    exact watchKillAt_ready hpos hlast htick h

end Tick

/-! ### Steps -/

/-- The cheat-codes warn of nothing. -/
theorem afterInput_warned (o : ParentOptions) (bytes : List UInt8) (now : ℤ) (s : Parent) :
    (afterInput o bytes now s).lockWarned = s.lockWarned ∧
      (afterInput o bytes now s).killWarned = s.killWarned := by
  have hlock : ∀ c, (handleLockseq c now s).lockWarned = s.lockWarned ∧
      (handleLockseq c now s).killWarned = s.killWarned := by
    intro c
    unfold handleLockseq
    split
    · split <;> exact ⟨rfl, rfl⟩
    · exact ⟨rfl, rfl⟩
  have hkill : ∀ c (u : Parent), (handleKillseq c u).lockWarned = u.lockWarned ∧
      (handleKillseq c u).killWarned = u.killWarned := by
    intro c u
    unfold handleKillseq
    generalize (if killKey u.killseq c = true then u.killseq + 1 else 0) = k
    dsimp only
    split <;> exact ⟨rfl, rfl⟩
  unfold afterInput
  split
  next c =>
    unfold handleCheatcodes
    split
    · exact ⟨(hkill c _).1.trans (hlock c).1, (hkill c _).2.trans (hlock c).2⟩
    · exact ⟨rfl, rfl⟩
  · exact ⟨rfl, rfl⟩

/-- What a step does to the alarms. -/
inductive AlarmStep (o : ParentOptions) (s t : Parent) : ParentEvent → Prop where
  | tick {now lockNow : ℤ} (hclock : s.clock ≤ now) (htick : now ≤ s.lastTick + 1)
      (hlock : now ≤ lockNow)
      (ht : t = timeoutWatcher o now lockNow { s with clock := lockNow, lastTick := now }) :
      AlarmStep o s t (.tick now lockNow)
  | idle {e : ParentEvent} (hobserve : observe o s e = []) (hsame : SameAlarms s t)
      (hclock : s.clock ≤ t.clock) (htick : t.lastTick = s.lastTick) : AlarmStep o s t e
  | lock {now : ℤ} (hclock : s.clock ≤ now) (hunlocked : s.lockedSince = 0)
      (hsame : SameAlarms { s with lockedSince := now } t) (hnow : t.clock = now)
      (htick : t.lastTick = s.lastTick) : AlarmStep o s t (.urg now)
  | active {e : ParentEvent} (hobserve : observe o s e = [.activity])
      (hclock : s.clock ≤ t.lastActivity) (hactivity : t.lastActivity ≤ t.clock)
      (htick : t.lastTick = s.lastTick) (hlock : t.lockWarned = false)
      (hkill : t.killWarned = false)
      (hcheat : t.lockedSince = 0 ∨ s.lockedSince = 0 ∧ t.lastActivity ≤ t.lockedSince ∧
        ∃ c n, e = .input [c] (.sent n) t.lastActivity t.lockedSince ∧ s.CheatLocks o c) :
      AlarmStep o s t e

section Step

variable {o : ParentOptions} {s t : Parent} {e : ParentEvent}

/-- Input that is passed on: both warnings are forgotten, and the time counts from now.  The
cheat-code at its end may lock the session. -/
theorem alarmStep_of_sent {bytes : List UInt8} {n : ℕ} {now lockNow : ℤ}
    (hclock : s.clock ≤ now) (hle : now ≤ lockNow) (hunlocked : s.lockedSince = 0)
    (ht : t = afterInput o bytes lockNow ({ s with
      clock := lockNow
      lastActivity := now
      lockWarned := false
      killWarned := false }.act (.input (bytes.take n)))) :
    AlarmStep o s t (.input bytes (.sent n) now lockNow) := by
  subst ht
  generalize hu : ({ s with
    clock := lockNow, lastActivity := now, lockWarned := false, killWarned := false }.act
      (.input (bytes.take n))) = u
  have hnow : u.lastActivity = now := by rw [← hu]; rfl
  have hnow' : u.clock = lockNow := by rw [← hu]; rfl
  have hseq : u.lockseq = s.lockseq := by rw [← hu]; rfl
  have hlast : u.lastTick = s.lastTick := by rw [← hu]; rfl
  have hwarned : u.lockWarned = false ∧ u.killWarned = false := by rw [← hu]; exact ⟨rfl, rfl⟩
  have hls : u.lockedSince = 0 := by rw [← hu]; exact hunlocked
  obtain ⟨hsame, hcases⟩ := afterInput_cases o bytes lockNow u
  obtain ⟨hlock, hkill⟩ := afterInput_warned o bytes lockNow u
  have hla : (afterInput o bytes lockNow u).lastActivity = now := hsame.lastActivity.trans hnow
  refine .active ?_ (by omega) ?_ (hsame.lastTick.trans hlast) (hlock.trans hwarned.1)
    (hkill.trans hwarned.2) ?_
  · simp [observe, activity, hunlocked]
  · rw [hla, hsame.clock, hnow']
    exact hle
  · -- the code is complete, or it is not
    rcases hcases with hlocked | ⟨c, rfl, hcheat, hlocked⟩
    · exact .inl (hlocked.trans hls)
    · rw [hla, hlocked]
      refine .inr ⟨hunlocked, hle, c, n, rfl, ?_⟩
      unfold Parent.CheatLocks at hcheat ⊢
      rw [← hseq]
      exact hcheat

/-- A step, as far as the alarms are concerned: it is a tick, a lock, activity, or nothing. -/
theorem alarmStep_of_step (hstep : parentStep o s e = some t) : AlarmStep o s t e := by
  cases parentStep_steps hstep with
  | @dropped _ w _ _ _ hclock hlock hlocked =>
    refine .idle ?_ ⟨rfl, rfl, rfl, rfl⟩ (hclock.trans hlock) rfl
    cases w with
    | sent n => simp [observe, activity, hlocked]
    | eintr => rfl
    | error => rfl
  | sent _ hclock hlock hunlocked => exact alarmStep_of_sent hclock hlock hunlocked rfl
  | @failed _ w _ _ _ hclock hlock _ hw =>
    refine .idle ?_ ⟨rfl, rfl, rfl, rfl⟩ (hclock.trans hlock) rfl
    cases w with
    | sent n => exact absurd rfl (hw n)
    | eintr => rfl
    | error => rfl
  | eof => exact .idle rfl ⟨rfl, rfl, rfl, rfl⟩ le_rfl rfl
  | tick hclock htick hlock _ => exact .tick hclock htick hlock rfl
  | urg hclock =>
    unfold lockSession
    split
    next => exact .idle rfl ⟨rfl, rfl, rfl, rfl⟩ hclock rfl
    next hunlocked =>
      rw [not_not] at hunlocked
      exact .lock hclock hunlocked ⟨rfl, rfl, rfl, rfl⟩ rfl rfl
  | usr2 hclock =>
    unfold unlockSession
    dsimp only
    split
    next hunlocked => exact .active rfl hclock le_rfl rfl rfl rfl (.inl hunlocked)
    next => exact .active rfl hclock le_rfl rfl rfl rfl (.inl rfl)

/-- The clock does not go back, and no time that is kept is ahead of it. -/
structure Timely (s : Parent) : Prop where
  pos : 0 < s.lastActivity
  activity_le : s.lastActivity ≤ s.clock
  tick_le : s.lastTick ≤ s.clock

theorem timely_step (h : Timely s) (hstep : parentStep o s e = some t) : Timely t := by
  have hpos := h.pos
  have hactivity := h.activity_le
  have htick := h.tick_le
  cases alarmStep_of_step hstep with
  | @tick now lockNow hclock htick' hlock ht =>
    obtain ⟨hsame, -⟩ := watchLock_cases o now lockNow { s with clock := lockNow, lastTick := now }
    obtain ⟨hsame', -⟩ := watchKill_same o now
      (watchLock o now lockNow { s with clock := lockNow, lastTick := now })
    have hsame'' := hsame.trans hsame'
    have hla : t.lastActivity = s.lastActivity := ht ▸ hsame''.lastActivity
    have hcl : t.clock = lockNow := ht ▸ hsame''.clock
    have hlt : t.lastTick = now := ht ▸ hsame''.lastTick
    constructor <;> omega
  | idle _ hsame hclock hlast =>
    have hla := hsame.lastActivity
    constructor <;> omega
  | @lock now hclock _ hsame hnow hlast =>
    have hla : t.lastActivity = s.lastActivity := hsame.lastActivity
    constructor <;> omega
  | active _ hclock hactivity' hlast =>
    constructor <;> omega

/-- One step keeps what makes the next lock a heralded one: the alarm has gone off in time, or there
is still time for it. -/
theorem lockReady_step (hpos : 0 < o.warnBeforeLock) {H : List Mark} (htimely : Timely s)
    (h : LockReady o s.lastTick s H) (hstep : parentStep o s e = some t) :
    LockReady o t.lastTick t (H ++ observe o s e) := by
  have htickle := htimely.tick_le
  cases alarmStep_of_step hstep with
  | @tick now lockNow hclock htick hlock ht =>
    have h₀ : LockReady o s.lastTick { s with clock := lockNow, lastTick := now } H :=
      h.of_same ⟨rfl, rfl, rfl, rfl⟩
    -- the lock part of the watcher, and then its kill part, which neither warns of a lock nor locks
    obtain ⟨l, hl, hready⟩ := watchLock_ready hpos (htickle.trans hclock) htick lockNow h₀
    generalize hu : watchLock o now lockNow { s with clock := lockNow, lastTick := now } = u
      at hl hready
    obtain ⟨hwarned, l', hl', hurg⟩ := watchKill_lockWarned o now u
    obtain ⟨hsame, hls⟩ := watchKill_same o now u
    have hacts : t.acts = s.acts ++ (l ++ l') := by
      rw [ht, timeoutWatcher, hu, hl', hl, List.append_assoc]
    have hlast : t.lastTick = now := by
      rw [ht, timeoutWatcher, hu, hsame.lastTick, ← hu]
      exact (watchLock_cases o now lockNow _).1.lastTick
    have hobserve : observe o s (.tick now lockNow) =
        l.filterMap (Act.mark now) ++ l'.filterMap (Act.mark now) := by
      rw [observe, ← ht, hacts, List.drop_left, List.filterMap_append]
    rw [hlast, hobserve, ← List.append_assoc, ht, timeoutWatcher, hu]
    have hafter := hready.append (mark_ne_activity now l') (mark_ne_lock now hurg)
    unfold LockReady
    rw [hwarned, hls, hsame.lastActivity]
    exact hafter
  | idle hobserve hsame _ hlast =>
    rw [hobserve, List.append_nil, hlast]
    exact h.of_same hsame
  | @lock now _ hunlocked hsame _ hlast =>
    rw [hlast]
    -- while the session is locked, the watcher does not lock it
    have hlocked : LockReady o s.lastTick { s with lockedSince := now } H :=
      h.move_later le_rfl fun harmed => ⟨hunlocked, harmed.2⟩
    have hobserve : observe o s (.urg now) = [] := rfl
    rw [hobserve, List.append_nil]
    exact hlocked.of_same hsame
  | active hobserve hclock _ hlast hwarned =>
    rw [hobserve, hlast]
    exact h.active (htickle.trans hclock) hwarned

theorem killReady_step (hpos : 0 < o.warnBeforeKill) {H : List Mark} (htimely : Timely s)
    (h : KillReady o s.lastTick s H) (hok : LocksLate o s e) (hstep : parentStep o s e = some t) :
    KillReady o t.lastTick t (H ++ observe o s e) := by
  have htickle := htimely.tick_le
  have hactle := htimely.activity_le
  have hlapos := htimely.pos
  cases alarmStep_of_step hstep with
  | @tick now lockNow hclock htick hlock ht =>
    have h₀ : KillReady o s.lastTick { s with clock := lockNow, lastTick := now } H :=
      h.of_same ⟨rfl, rfl, rfl, rfl⟩
    obtain ⟨l, hl, -⟩ := watchLock_acts o now lockNow { s with clock := lockNow, lastTick := now }
    have hready := watchLock_killReady h₀ (by omega) (htickle.trans hclock) hlock hl
    generalize hu : watchLock o now lockNow { s with clock := lockNow, lastTick := now } = u
      at hl hready
    obtain ⟨l', hl', hafter⟩ := watchKill_ready hpos (htickle.trans hclock) htick hready
    have hacts : t.acts = s.acts ++ (l ++ l') := by
      rw [ht, timeoutWatcher, hu, hl', hl, List.append_assoc]
    have hlast : t.lastTick = now := by
      rw [ht, timeoutWatcher, hu, (watchKill_same o now u).1.lastTick, ← hu]
      exact (watchLock_cases o now lockNow _).1.lastTick
    have hobserve : observe o s (.tick now lockNow) =
        l.filterMap (Act.mark now) ++ l'.filterMap (Act.mark now) := by
      rw [observe, ← ht, hacts, List.drop_left, List.filterMap_append]
    rw [hlast, hobserve, ← List.append_assoc, ht, timeoutWatcher, hu]
    exact hafter
  | idle hobserve hsame _ hlast =>
    rw [hobserve, List.append_nil, hlast]
    exact h.of_same hsame
  | @lock now hclock hunlocked hsame _ hlast =>
    have hobserve : observe o s (.urg now) = [] := rfl
    have hls : t.lockedSince = now := hsame.lockedSince
    rw [hobserve, List.append_nil, hlast]
    apply h.lock hunlocked
    · omega
    · omega
    · rw [hls]
      exact hok hunlocked
    · exact hsame.killWarned
  | active hobserve hclock hactivity hlast _ hwarned hcheat =>
    rw [hobserve, hlast]
    have hreset : KillReady o s.lastTick { t with lockedSince := 0 } (H ++ [.activity]) :=
      h.active (htickle.trans hclock) rfl hwarned
    rcases hcheat with hunlocked | ⟨hunlocked, hle, c, n, rfl, hcheat⟩
    · exact hreset.of_same ⟨hunlocked, rfl, rfl, rfl⟩
    · -- the activity comes first, and then the lock
      apply hreset.lock rfl
      · omega
      · omega
      · exact hok hunlocked hcheat
      · rfl

end Step

/-! ### Runs -/

/-- **The user is warned in time**: every lock by the watcher comes after a warning that is
at least `warn_before_lock` seconds old, without activity in between; so does every SIGTERM
by the watcher, with `warn_before_kill`, in every run in which the locks by SIGURG and the
cheat-code leave the time for the warning. -/
theorem warnings_in_time (o : ParentOptions) {start : ℤ} (hstart : 0 < start)
    {es : List ParentEvent} {t : Parent}
    (hrun : exec (parentStep o) (Parent.start start) es = some t) :
    (0 < o.warnBeforeLock → Heralded (· = .activity) .warnLock .lock o.warnBeforeLock
        (history o start es)) ∧
      (0 < o.warnBeforeKill → Along (parentStep o) (LocksLate o) (Parent.start start) es →
        Heralded (· = .activity) .warnKill .kill o.warnBeforeKill (history o start es)) := by
  have htimely : Timely (Parent.start start) := ⟨hstart, le_rfl, le_rfl⟩
  have hfirst : start - start = 0 := sub_self start
  constructor
  · intro hpos
    -- at the start the warning is still ahead
    have hready : LockReady o start (Parent.start start) [] := by
      refine ⟨History.each_nil _, fun hw => absurd hw Bool.noConfusion, ?_⟩
      intro _ _
      have hle := o.warnBeforeLock_le
      dsimp only [Parent.start]
      omega
    have hstep : ∀ s H e s', Timely s ∧ LockReady o s.lastTick s H → True →
        parentStep o s e = some s' →
        Timely s' ∧ LockReady o s'.lastTick s' (H ++ observe o s e) := by
      intro s H e s' hs _ hstep
      exact ⟨timely_step hs.1 hstep, lockReady_step hpos hs.1 hs.2 hstep⟩
    have halong : Along (parentStep o) (fun _ _ => True) (Parent.start start) es :=
      along_of_forall (fun _ _ => trivial) _ es
    exact (exec_invariant_collect hstep halong hrun ⟨htimely, hready⟩).2.heralded
  · intro hpos hlate
    -- at the start the warning is still ahead
    have hready : KillReady o start (Parent.start start) [] := by
      refine ⟨History.each_nil _, fun hw => absurd hw Bool.noConfusion, ?_⟩
      intro _ _
      have hle := o.warnBeforeKill_le
      rw [killAlarm_unlocked o start rfl]
      dsimp only [Parent.start]
      omega
    have hstep : ∀ s H e s', Timely s ∧ KillReady o s.lastTick s H → LocksLate o s e →
        parentStep o s e = some s' →
        Timely s' ∧ KillReady o s'.lastTick s' (H ++ observe o s e) := by
      intro s H e s' hs hok hstep
      exact ⟨timely_step hs.1 hstep, killReady_step hpos hs.1 hs.2 hok hstep⟩
    exact (exec_invariant_collect hstep hlate hrun ⟨htimely, hready⟩).2.heralded

/-- `-t 8 -k 11 --warn-before-lock 4 --warn-before-kill 5`. -/
def warnFourWarnFive : ParentOptions where
  useTty := true
  cheatcodes := false
  timeoutLock := 8
  timeoutKill := 11
  warnBeforeLock := 4
  warnBeforeKill := 5
  lock_nonneg := Int.le.intro 8 rfl
  kill_nonneg := Int.le.intro 11 rfl
  lock_le_kill _ _ := Int.le.intro 3 rfl
  warnBeforeLock_nonneg := Int.le.intro 4 rfl
  warnBeforeLock_le := Int.le.intro 4 rfl
  warnBeforeKill_nonneg := Int.le.intro 5 rfl
  warnBeforeKill_le := Int.le.intro 6 rfl

/-- The user has left: the session is locked after nine seconds, and killed after thirteen. -/
theorem warnings_in_time_idle :
    ∃ es, history warnFourWarnFive 1000 es =
        [.warnLock 1005, .warnKill 1007, .lock 1009, .kill 1013] ∧
      Heralded (· = .activity) .warnLock .lock 4 (history warnFourWarnFive 1000 es) ∧
      Heralded (· = .activity) .warnKill .kill 5 (history warnFourWarnFive 1000 es) := by
  obtain ⟨t, hrun⟩ := Option.isSome_iff_exists.mp (show (exec (parentStep warnFourWarnFive)
    (Parent.start 1000) ((List.range 13).map fun n => .tick (1001 + n) (1001 + n))).isSome = true
    by decide)
  have h := warnings_in_time warnFourWarnFive (by decide) hrun
  exact ⟨_, by decide, h.1 (by decide), h.2 (by decide) (by decide)⟩

/-- **A warning that comes too late**: SIGURG locks the session at once.  The warning of five
seconds comes one second later, and three seconds after it the session is killed. -/
theorem warning_after_lock :
    ∃ t, exec (parentStep warnFourWarnFive) (Parent.start 1000)
        [.urg 1000, .tick 1001 1001, .tick 1002 1002, .tick 1003 1003, .tick 1004 1004] = some t ∧
      0 < warnFourWarnFive.warnBeforeKill ∧
      ¬ Heralded (· = .activity) .warnKill .kill warnFourWarnFive.warnBeforeKill
        (history warnFourWarnFive 1000
          [.urg 1000, .tick 1001 1001, .tick 1002 1002, .tick 1003 1003, .tick 1004 1004]) := by
  obtain ⟨t, hrun⟩ := Option.isSome_iff_exists.mp (show (exec (parentStep warnFourWarnFive)
    (Parent.start 1000)
      [.urg 1000, .tick 1001 1001, .tick 1002 1002, .tick 1003 1003, .tick 1004 1004]).isSome = true
    by decide)
  have hhistory : history warnFourWarnFive 1000
      [.urg 1000, .tick 1001 1001, .tick 1002 1002, .tick 1003 1003, .tick 1004 1004] =
        [.warnKill 1001, .kill 1004] := by decide
  refine ⟨t, hrun, by decide, ?_⟩
  rw [hhistory]
  intro h
  obtain ⟨before, ⟨H₁, H₂, hH, -⟩, hle⟩ := h [.warnKill 1001] _ [] rfl 1004 rfl
  have hmem : Mark.warnKill before ∈ [Mark.warnKill 1001] :=
    hH ▸ List.mem_append_right _ List.mem_cons_self
  have hbefore : before = 1001 := Mark.warnKill.inj (List.mem_singleton.mp hmem)
  have hW : warnFourWarnFive.warnBeforeKill = 5 := rfl
  omega

end TtyRec
