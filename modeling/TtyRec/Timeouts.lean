import TtyRec.Parent

/-!
# The kill timeout

The watcher kills an unlocked session when `timeout_kill` seconds have passed since the last
activity, and a locked one when `timeout_kill - timeout_lock` seconds have passed since it was
locked.  The second is the first if the session was locked after `timeout_lock` seconds
without activity, as it is when the watcher locks it.  A session that SIGURG or the
cheat-code locks at another time is killed at another time.

## Main definitions

* `activity` — what counts as activity.
* `LocksOnTime` — a lock from outside comes when the watcher would lock.
* `LockInv` — the invariant.

## Main results

* `kill_measures_inactivity` — **the watcher kills after the right time of inactivity**, if
  all the locks are on time.
* `lock_moves_deadline` — a session that is locked at once is killed early.
-/

namespace TtyRec

open Run

/-- The times of the last forwarded input or SIGUSR2. -/
def activity (s : Parent) : ParentEvent → List ℤ
  | .input _ (.sent _) now _ => if s.lockedSince = 0 then [now] else []
  | .usr2 now => [now]
  | _ => []

/-- The key completes the sequence of eight `^L` that locks the session. -/
def Parent.CheatLocks (o : ParentOptions) (c : UInt8) (s : Parent) : Prop :=
  o.cheatcodes = true ∧ c = 0x0c ∧ 8 ≤ s.lockseq + 1

/-- A session that is locked `idle` seconds after the last activity is locked when the
watcher would lock it. -/
def ParentOptions.OnTime (o : ParentOptions) (idle : ℤ) : Prop :=
  o.timeoutLock ≤ idle ∧ idle ≤ o.timeoutLock + 2

/-- A lock by SIGURG or the cheat-code is on time. -/
def LocksOnTime (o : ParentOptions) (s : Parent) : ParentEvent → Prop
  | .urg now => s.lockedSince = 0 → o.OnTime (now - s.lastActivity)
  | .input [c] _ now lockNow => s.lockedSince = 0 → s.CheatLocks o c → o.OnTime (lockNow - now)
  | _ => True

instance (o : ParentOptions) (idle : ℤ) : Decidable (o.OnTime idle) :=
  inferInstanceAs (Decidable (_ ∧ _))

instance (o : ParentOptions) (c : UInt8) (s : Parent) : Decidable (s.CheatLocks o c) :=
  inferInstanceAs (Decidable (_ ∧ _ ∧ _))

instance (o : ParentOptions) (s : Parent) : DecidablePred (LocksOnTime o s)
  | .urg _ => inferInstanceAs (Decidable (_ → _))
  | .input [_] _ _ _ => inferInstanceAs (Decidable (_ → _ → _))
  | .input [] _ _ _ | .input (_ :: _ :: _) _ _ _ | .eof | .tick _ _ | .usr2 _ => .isTrue trivial

/-- The invariant: the session is not idle for too long, or was locked on time.  It is about the
last tick, since the watcher looks once a second. -/
structure LockInv (o : ParentOptions) (s : Parent) : Prop where
  pos : 0 < s.lastActivity
  activity_le : s.lastActivity ≤ s.clock
  tick_le : s.lastTick ≤ s.clock
  unlocked : s.lockedSince = 0 → o.useTty = true → 0 < o.timeoutLock →
    s.lastTick - s.lastActivity ≤ o.timeoutLock
  locked : s.lockedSince ≠ 0 → o.OnTime (s.lockedSince - s.lastActivity)

/-! ### What the functions do to the times -/

/-- Everything but `acts`, the warnings and the cheat-codes, as far as the deadlines look at it. -/
structure SameTimes (s t : Parent) : Prop where
  lastActivity : t.lastActivity = s.lastActivity
  clock : t.clock = s.clock
  lastTick : t.lastTick = s.lastTick

theorem SameTimes.trans {s t u : Parent} (h : SameTimes s t) (h' : SameTimes t u) : SameTimes s u :=
  ⟨h'.lastActivity.trans h.lastActivity, h'.clock.trans h.clock, h'.lastTick.trans h.lastTick⟩

theorem handleLockseq_cases (c : UInt8) (now : ℤ) (s : Parent) :
    SameTimes s (handleLockseq c now s) ∧
      ((handleLockseq c now s).lockedSince = s.lockedSince ∨
        c = 0x0c ∧ 8 ≤ s.lockseq + 1 ∧ (handleLockseq c now s).lockedSince = now) := by
  unfold handleLockseq
  split
  next hc =>
    split
    next h8 => exact ⟨⟨rfl, rfl, rfl⟩, .inr ⟨hc, h8, rfl⟩⟩
    · exact ⟨⟨rfl, rfl, rfl⟩, .inl rfl⟩
  · exact ⟨⟨rfl, rfl, rfl⟩, .inl rfl⟩

theorem handleKillseq_same (c : UInt8) (s : Parent) :
    SameTimes s (handleKillseq c s) ∧ (handleKillseq c s).lockedSince = s.lockedSince := by
  unfold handleKillseq
  generalize (if killKey s.killseq c = true then s.killseq + 1 else 0) = k
  dsimp only
  split
  · exact ⟨⟨rfl, rfl, rfl⟩, rfl⟩
  · exact ⟨⟨rfl, rfl, rfl⟩, rfl⟩

/-- The cheat-codes lock the session, or leave the lock alone. -/
theorem handleCheatcodes_cases (o : ParentOptions) (c : UInt8) (now : ℤ) (s : Parent) :
    SameTimes s (handleCheatcodes o c now s) ∧
      ((handleCheatcodes o c now s).lockedSince = s.lockedSince ∨
        s.CheatLocks o c ∧ (handleCheatcodes o c now s).lockedSince = now) := by
  unfold handleCheatcodes
  split
  next hcheat =>
    obtain ⟨hsame, hlock⟩ := handleLockseq_cases c now s
    obtain ⟨hsame', hlock'⟩ := handleKillseq_same c (handleLockseq c now s)
    refine ⟨hsame.trans hsame', ?_⟩
    rw [hlock']
    rcases hlock with hlock | ⟨hc, h8, hlock⟩
    · exact .inl hlock
    · exact .inr ⟨⟨hcheat, hc, h8⟩, hlock⟩
  · exact ⟨⟨rfl, rfl, rfl⟩, .inl rfl⟩

theorem afterInput_cases (o : ParentOptions) (bytes : List UInt8) (now : ℤ) (s : Parent) :
    SameTimes s (afterInput o bytes now s) ∧
      ((afterInput o bytes now s).lockedSince = s.lockedSince ∨
        ∃ c, bytes = [c] ∧ s.CheatLocks o c ∧ (afterInput o bytes now s).lockedSince = now) := by
  match bytes with
  | [] => exact ⟨⟨rfl, rfl, rfl⟩, .inl rfl⟩
  | [c] =>
    obtain ⟨hsame, hlock⟩ := handleCheatcodes_cases o c now s
    exact ⟨hsame, hlock.imp_right fun hlock => ⟨c, rfl, hlock⟩⟩
  | _ :: _ :: _ => exact ⟨⟨rfl, rfl, rfl⟩, .inl rfl⟩

theorem warnLock_same (o : ParentOptions) (now : ℤ) (s : Parent) :
    SameTimes s (warnLock o now s) ∧ (warnLock o now s).lockedSince = s.lockedSince := by
  unfold warnLock
  split
  · exact ⟨⟨rfl, rfl, rfl⟩, rfl⟩
  · exact ⟨⟨rfl, rfl, rfl⟩, rfl⟩

/-- The watcher locks a session that was idle for too long, or leaves the lock alone. -/
theorem watchLock_cases (o : ParentOptions) (now lockNow : ℤ) (s : Parent) :
    SameTimes s (watchLock o now lockNow s) ∧
      ((watchLock o now lockNow s).lockedSince = s.lockedSince ∧
          (s.lockedSince = 0 → o.useTty = true → 0 < o.timeoutLock →
            now - s.lastActivity ≤ o.timeoutLock) ∨
        s.lockedSince = 0 ∧ o.useTty = true ∧ 0 < o.timeoutLock ∧
          o.timeoutLock < now - s.lastActivity ∧
          (watchLock o now lockNow s).lockedSince = lockNow) := by
  obtain ⟨hsame, hlock⟩ := warnLock_same o now s
  unfold watchLock
  dsimp only
  rw [hsame.lastActivity]
  split
  next hidle =>
    split
    -- idle for longer than `timeout_lock`
    next hlong =>
      exact ⟨⟨hsame.lastActivity, hsame.clock, hsame.lastTick⟩,
        .inr ⟨hidle.2, hidle.1, hlong.1, hlong.2, rfl⟩⟩
    next hshort =>
      refine ⟨hsame, .inl ⟨hlock, ?_⟩⟩
      intro _ _ hpos
      by_contra hlong
      exact hshort ⟨hpos, not_le.mp hlong⟩
  next hother =>
    refine ⟨⟨rfl, rfl, rfl⟩, .inl ⟨rfl, ?_⟩⟩
    intro hunlocked htty _
    exact absurd ⟨htty, hunlocked⟩ hother

theorem watchKill_same (o : ParentOptions) (now : ℤ) (s : Parent) :
    SameTimes s (watchKill o now s) ∧ (watchKill o now s).lockedSince = s.lockedSince := by
  have hat : ∀ idle limit, SameTimes s (watchKillAt o idle limit s) ∧
      (watchKillAt o idle limit s).lockedSince = s.lockedSince := by
    intro idle limit
    unfold watchKillAt
    split
    · exact ⟨⟨rfl, rfl, rfl⟩, rfl⟩
    · split
      · exact ⟨⟨rfl, rfl, rfl⟩, rfl⟩
      · exact ⟨⟨rfl, rfl, rfl⟩, rfl⟩
  unfold watchKill
  split
  · split
    · exact hat _ _
    · exact hat _ _
  · exact ⟨⟨rfl, rfl, rfl⟩, rfl⟩

/-! ### Steps -/

section Step

variable {o : ParentOptions} {s t : Parent}

/-- A session that is locked is locked on time. -/
private theorem lockInv_lock (h : LockInv o s) {now : ℤ} (hclock : s.clock ≤ now)
    (hlock : o.OnTime (now - s.lastActivity)) (ht : SameTimes { s with clock := now } t)
    (hnow : t.lockedSince = now) : LockInv o t := by
  have hpos := h.pos
  have hact := h.activity_le
  have htick := h.tick_le
  have hla : t.lastActivity = s.lastActivity := ht.lastActivity
  have hcl : t.clock = now := ht.clock
  have hlt : t.lastTick = s.lastTick := ht.lastTick
  refine ⟨by rw [hla]; exact hpos, by omega, by omega, ?_, ?_⟩
  · intro h0
    omega
  · intro _
    rw [hnow, hla]
    exact hlock

/-- An input or a signal that is activity. -/
private theorem lockInv_activity (h : LockInv o s) {now later : ℤ} (hclock : s.clock ≤ now)
    (hle : now ≤ later) (hact : t.lastActivity = now) (hcl : t.clock = later)
    (htick : t.lastTick = s.lastTick) (hlocked : t.lockedSince ≠ 0 → o.OnTime (t.lockedSince - now)) :
    LockInv o t := by
  have hpos := h.pos
  have hle' := h.activity_le
  have htle := h.tick_le
  refine ⟨by omega, by omega, by omega, fun _ _ _ => by omega, ?_⟩
  intro hne
  rw [hact]
  exact hlocked hne

/-- A tick, which locks the session on time or leaves it unlocked. -/
private theorem lockInv_tick (h : LockInv o s) {now lockNow : ℤ} (hclock : s.clock ≤ now)
    (htick : now ≤ s.lastTick + 1) (hlock : now ≤ lockNow) (hlock' : lockNow ≤ now + 1) :
    LockInv o (watchLock o now lockNow { s with clock := lockNow, lastTick := now }) := by
  obtain ⟨hsame, hcases⟩ := watchLock_cases o now lockNow { s with clock := lockNow, lastTick := now }
  generalize watchLock o now lockNow { s with clock := lockNow, lastTick := now } = t at hsame hcases
  have hpos := h.pos
  have hact := h.activity_le
  have hla : t.lastActivity = s.lastActivity := hsame.lastActivity
  have hcl : t.clock = lockNow := hsame.clock
  have hlt : t.lastTick = now := hsame.lastTick
  dsimp only at hcases
  rcases hcases with ⟨hls, hshort⟩ | ⟨hunlocked, htty, hL, hlong, hls⟩
  · refine ⟨by omega, by omega, by omega, ?_, ?_⟩
    · intro h0 htty hL
      rw [hlt, hla]
      exact hshort (hls ▸ h0) htty hL
    · intro hne
      rw [hls, hla]
      exact h.locked (hls ▸ hne)
  · -- it was not idle for too long at the last tick
    have hlast := h.unlocked hunlocked htty hL
    refine ⟨by omega, by omega, by omega, fun h0 => by omega, ?_⟩
    intro _
    rw [hls, hla]
    constructor <;> omega

/-- **One step**, when nobody locks the session but the watcher, or those who do so in time. -/
theorem lockInv_step (h : LockInv o s) {e : ParentEvent} (hok : LocksOnTime o s e)
    (hstep : parentStep o s e = some t) : LockInv o t := by
  have hpos := h.pos
  have hact := h.activity_le
  have htick := h.tick_le
  cases parentStep_steps hstep with
  | dropped _ hclock hlock _ =>
    -- only the clock goes on
    exact ⟨hpos, by dsimp only; omega, by dsimp only; omega, h.unlocked, h.locked⟩
  | @sent bytes n now lockNow _ hclock hlock hunlocked =>
    obtain ⟨hsame, hcases⟩ := afterInput_cases o bytes lockNow ({ s with
      clock := lockNow, lastActivity := now, lockWarned := false, killWarned := false }.act
        (.input (bytes.take n)))
    apply lockInv_activity h hclock hlock hsame.lastActivity hsame.clock hsame.lastTick
    intro hne
    rcases hcases with hls | ⟨c, rfl, hcheat, hls⟩
    · rw [hls] at hne
      exact absurd hunlocked hne
    · -- the byte was the last of the cheat-code
      rw [hls]
      exact hok hunlocked hcheat
  | failed _ hclock hlock _ _ =>
    exact ⟨hpos, by dsimp only; omega, by dsimp only; omega, h.unlocked, h.locked⟩
  | eof => exact ⟨hpos, hact, htick, h.unlocked, h.locked⟩
  | @tick now lockNow hclock htick' hlock hlock' =>
    have hinv := lockInv_tick h hclock htick' hlock hlock'
    obtain ⟨hsame, hls⟩ := watchKill_same o now
      (watchLock o now lockNow { s with clock := lockNow, lastTick := now })
    rw [timeoutWatcher]
    refine ⟨?_, ?_, ?_, ?_, ?_⟩
    · rw [hsame.lastActivity]; exact hinv.pos
    · rw [hsame.lastActivity, hsame.clock]; exact hinv.activity_le
    · rw [hsame.lastTick, hsame.clock]; exact hinv.tick_le
    · rw [hls, hsame.lastTick, hsame.lastActivity]; exact hinv.unlocked
    · rw [hls, hsame.lastActivity]; exact hinv.locked
  | urg hclock =>
    unfold lockSession
    split
    next hlocked =>
      exact ⟨hpos, by dsimp only; omega, by dsimp only; omega, h.unlocked, h.locked⟩
    next hunlocked =>
      rw [not_not] at hunlocked
      exact lockInv_lock h hclock (hok hunlocked) ⟨rfl, rfl, rfl⟩ rfl
  | usr2 hclock =>
    unfold unlockSession
    dsimp only
    split
    next hunlocked =>
      exact lockInv_activity h hclock le_rfl rfl rfl rfl fun hne => absurd hunlocked hne
    next hlocked =>
      exact lockInv_activity h hclock le_rfl rfl rfl rfl fun hne => absurd rfl hne

end Step

/-! ### What a tick does -/

/-- The session is idle for longer than the watcher allows. -/
def Overdue (o : ParentOptions) (now : ℤ) (s : Parent) : Prop :=
  if s.lockedSince ≠ 0 then o.timeoutKill - o.timeoutLock < now - s.lockedSince
  else o.timeoutKill < now - s.lastActivity

theorem watchLock_acts (o : ParentOptions) (now lockNow : ℤ) (s : Parent) :
    ∃ l, (watchLock o now lockNow s).acts = s.acts ++ l ∧ .signal .term ∉ l := by
  have hwarn : ∃ l, (warnLock o now s).acts = s.acts ++ l ∧ .signal .term ∉ l := by
    unfold warnLock
    split
    · exact ⟨[.warnLock o.warnBeforeLock], rfl, by simp⟩
    · exact ⟨[], by simp, by simp⟩
  obtain ⟨l, hl, hterm⟩ := hwarn
  unfold watchLock
  dsimp only
  split
  · split
    · exact ⟨l ++ [.signal .urg], by simp [doLock, hl], by simp [hterm]⟩
    · exact ⟨l, hl, hterm⟩
  · exact ⟨[], by simp, by simp⟩

/-- Without a warning, the session is killed when it is overdue. -/
theorem watchKill_acts {o : ParentOptions} (hkill : 0 < o.timeoutKill) (hwarn : o.warnBeforeKill = 0)
    (now : ℤ) (s : Parent) :
    ∃ l, (watchKill o now s).acts = s.acts ++ l ∧ (.signal .term ∈ l ↔ Overdue o now s) := by
  have hat : ∀ idle limit, ∃ l, (watchKillAt o idle limit s).acts = s.acts ++ l ∧
      (.signal .term ∈ l ↔ limit < idle) := by
    intro idle limit
    unfold watchKillAt
    rw [if_neg (by omega)]
    split
    next hlt => exact ⟨[.signal .term], rfl, by simp [hlt]⟩
    next hle => exact ⟨[], by simp, by simp [hle]⟩
  unfold watchKill Overdue
  rw [if_pos hkill]
  split
  · exact hat _ _
  · exact hat _ _

theorem timeoutWatcher_term {o : ParentOptions} (hkill : 0 < o.timeoutKill)
    (hwarn : o.warnBeforeKill = 0) (now lockNow : ℤ) (s : Parent) :
    .signal .term ∈ (timeoutWatcher o now lockNow s).acts.drop s.acts.length ↔
      Overdue o now (watchLock o now lockNow s) := by
  obtain ⟨l, hl, hterm⟩ := watchLock_acts o now lockNow s
  obtain ⟨l', hl', hterm'⟩ := watchKill_acts hkill hwarn now (watchLock o now lockNow s)
  rw [timeoutWatcher, hl', hl, List.append_assoc, List.drop_left, List.mem_append, ← hterm']
  exact ⟨fun h => h.resolve_left hterm, .inr⟩

/-- **A tick kills after the right time**, when all the locks were on time. -/
private theorem overdue_iff {o : ParentOptions} {s : Parent} (h : LockInv o s)
    (hkill : 0 < o.timeoutKill) {now lockNow : ℤ} (hclock : s.clock ≤ now)
    (htick : now ≤ s.lastTick + 1) (hlock : now ≤ lockNow) :
    (Overdue o now (watchLock o now lockNow { s with clock := lockNow, lastTick := now }) →
        o.timeoutKill < now - s.lastActivity) ∧
      (o.timeoutKill + 2 < now - s.lastActivity →
        Overdue o now (watchLock o now lockNow { s with clock := lockNow, lastTick := now })) := by
  obtain ⟨hsame, hcases⟩ := watchLock_cases o now lockNow { s with clock := lockNow, lastTick := now }
  generalize watchLock o now lockNow { s with clock := lockNow, lastTick := now } = t at hsame hcases
  have hpos := h.pos
  have hact := h.activity_le
  have hL := o.lock_nonneg
  have hla : t.lastActivity = s.lastActivity := hsame.lastActivity
  dsimp only at hcases
  unfold Overdue
  rw [hla]
  rcases hcases with ⟨hls, -⟩ | ⟨hunlocked, htty, hLpos, hlong, hls⟩
  · rw [hls]
    split
    next hlocked =>
      obtain ⟨hge, hle⟩ := h.locked hlocked
      constructor <;> intro hidle <;> omega
    next => constructor <;> intro hidle <;> omega
  · -- the watcher has just locked it, and will not kill it before the difference is over
    have hlast := h.unlocked hunlocked htty hLpos
    have hK := o.lock_le_kill hLpos hkill
    rw [hls, if_pos (by omega)]
    constructor <;> intro hidle <;> omega

/-! ### Runs -/

/-- The last activity is the last one there was: input that is forwarded, or SIGUSR2, whether or not
the session was locked. -/
theorem lastActivity_step {o : ParentOptions} {s t : Parent} {e : ParentEvent}
    (hstep : parentStep o s e = some t) :
    t.lastActivity = (activity s e).getLastD s.lastActivity := by
  cases parentStep_steps hstep with
  | @dropped _ w _ _ _ _ _ hlocked =>
    cases w with
    | sent n => simp [activity, hlocked]
    | eintr => rfl
    | error => rfl
  | sent _ _ _ hunlocked =>
    rw [(afterInput_cases _ _ _ _).1.lastActivity]
    simp [activity, hunlocked]
  | @failed _ w _ _ _ _ _ _ hw =>
    cases w with
    | sent n => exact absurd rfl (hw n)
    | eintr => rfl
    | error => rfl
  | eof => rfl
  | tick =>
    -- the watcher only reads it
    rw [timeoutWatcher, (watchKill_same _ _ _).1.lastActivity,
      (watchLock_cases _ _ _ _).1.lastActivity]
    rfl
  | urg =>
    unfold lockSession
    split
    · rfl
    · rfl
  | usr2 =>
    unfold unlockSession
    dsimp only
    split
    · rfl
    · rfl

/-- The time of the last activity in a run that begins at `now`. -/
def lastActivityOf (o : ParentOptions) (now : ℤ) (es : List ParentEvent) : ℤ :=
  (collect (parentStep o) activity (Parent.start now) es).getLastD now

theorem lastActivity_exec {o : ParentOptions} {now : ℤ} {es : List ParentEvent} {t : Parent}
    (hrun : exec (parentStep o) (Parent.start now) es = some t) :
    t.lastActivity = lastActivityOf o now es := by
  have hstep : ∀ (s : Parent) acc e s', s.lastActivity = acc.getLastD now → True →
      parentStep o s e = some s' → s'.lastActivity = (acc ++ activity s e).getLastD now := by
    intro s acc e s' hs _ h
    rw [lastActivity_step h, hs]
    simp [List.getLast?_append]
  have hstart : (Parent.start now).lastActivity = ([] : List ℤ).getLastD now := rfl
  exact exec_invariant_collect hstep (along_of_forall (fun _ _ => trivial) _ es) hrun hstart

/-- **The watcher kills after the right time of inactivity**, in every run in which the locks
by SIGURG and the cheat-code come when the watcher would lock: a tick sends SIGTERM only if
more than `timeout_kill` seconds have passed since the last activity, and it does if more
than two seconds more have passed. -/
theorem kill_measures_inactivity (o : ParentOptions) (hkill : 0 < o.timeoutKill)
    (hwarn : o.warnBeforeKill = 0) {start : ℤ} (hstart : 0 < start) {es : List ParentEvent}
    {t t' : Parent} (hrun : exec (parentStep o) (Parent.start start) es = some t)
    (hok : Along (parentStep o) (LocksOnTime o) (Parent.start start) es) {now lockNow : ℤ}
    (htick : parentStep o t (.tick now lockNow) = some t') :
    (.signal .term ∈ t'.acts.drop t.acts.length →
        o.timeoutKill < now - lastActivityOf o start es) ∧
      (o.timeoutKill + 2 < now - lastActivityOf o start es →
        .signal .term ∈ t'.acts.drop t.acts.length) := by
  have hinv₀ : LockInv o (Parent.start start) :=
    ⟨hstart, le_rfl, le_rfl, fun _ _ hL => by simp [Parent.start, hL.le], fun hne => absurd rfl hne⟩
  have hinv : LockInv o t :=
    exec_invariant_along (fun _ _ _ h hok hstep => lockInv_step h hok hstep) hok hrun hinv₀
  rw [← lastActivity_exec hrun]
  cases parentStep_steps htick with
  | tick hclock htick' hlock _ =>
    have hterm := timeoutWatcher_term hkill hwarn now lockNow
      { t with clock := lockNow, lastTick := now }
    dsimp only at hterm
    rw [hterm]
    exact overdue_iff hinv hkill hclock htick' hlock

/-- `-t 2 -k 3`. -/
def lockTwoKillThree : ParentOptions where
  useTty := true
  cheatcodes := false
  timeoutLock := 2
  timeoutKill := 3
  warnBeforeLock := 0
  warnBeforeKill := 0
  lock_nonneg := Int.le.intro 2 rfl
  kill_nonneg := Int.le.intro 3 rfl
  lock_le_kill _ _ := Int.le.intro 1 rfl
  warnBeforeLock_nonneg := Int.le_refl 0
  warnBeforeLock_le := Int.le.intro 2 rfl
  warnBeforeKill_nonneg := Int.le_refl 0
  warnBeforeKill_le := Int.le.intro 3 rfl

/-- SIGURG comes after two seconds, and the session is killed after four. -/
theorem kill_measures_inactivity_urg :
    ∃ t t', exec (parentStep lockTwoKillThree) (Parent.start 1000)
        [.tick 1001 1001, .tick 1002 1002, .urg 1002, .tick 1003 1003] = some t ∧
      parentStep lockTwoKillThree t (.tick 1004 1004) = some t' ∧
      .signal .term ∈ t'.acts.drop t.acts.length ∧
      3 < 1004 - lastActivityOf lockTwoKillThree 1000
        [.tick 1001 1001, .tick 1002 1002, .urg 1002, .tick 1003 1003] := by
  obtain ⟨t, hrun⟩ := Option.isSome_iff_exists.mp (show (exec (parentStep lockTwoKillThree)
    (Parent.start 1000) [.tick 1001 1001, .tick 1002 1002, .urg 1002, .tick 1003 1003]).isSome =
      true by decide)
  have hterm : ((exec (parentStep lockTwoKillThree) (Parent.start 1000)
      [.tick 1001 1001, .tick 1002 1002, .urg 1002, .tick 1003 1003]).bind fun t =>
        (parentStep lockTwoKillThree t (.tick 1004 1004)).map fun t' =>
          t'.acts.drop t.acts.length) = some [.signal .term] := by decide
  rw [hrun, Option.bind_some] at hterm
  obtain ⟨t', htick, hacts⟩ := Option.map_eq_some_iff.mp hterm
  have hmem : Act.signal .term ∈ t'.acts.drop t.acts.length := by
    rw [hacts]
    exact List.mem_singleton_self _
  have h := kill_measures_inactivity lockTwoKillThree (by decide) rfl (by decide) hrun (by decide)
    htick
  exact ⟨t, t', hrun, htick, hmem, h.1 hmem⟩

/-- **A session that is locked at once is killed early**: SIGURG comes right after an input,
and two seconds later the session is killed, although the timeout is three. -/
theorem lock_moves_deadline :
    ∃ t t', exec (parentStep lockTwoKillThree) (Parent.start 1000)
        [.input [65] (.sent 1) 1000 1000, .urg 1000, .tick 1001 1001] = some t ∧
      parentStep lockTwoKillThree t (.tick 1002 1002) = some t' ∧
      .signal .term ∈ t'.acts.drop t.acts.length ∧
      ¬ lockTwoKillThree.timeoutKill < 1002 - lastActivityOf lockTwoKillThree 1000
        [.input [65] (.sent 1) 1000 1000, .urg 1000, .tick 1001 1001] :=
  ⟨_, _, rfl, rfl, by decide, by decide⟩

end TtyRec
