import TtyRec.Warnings

/-!
# The watcher does not forget a session

That the watcher does not lock or kill a session too early is one half of its purpose; the other
is that it does so at all.  A session without input must be locked, and one that nobody comes
back to must be killed, whoever locks it in the meantime and whatever warnings are asked for.  The
second count begins when the session is locked, so a lock from outside that comes late can delay
the end, but only once: activity alone unlocks a session.

## Main definitions

* `Killed` — SIGTERM went out after the last activity.
* `ParentOptions.idleLimit`, `ParentOptions.lockedLimit` — how long a session may be idle before it
  is locked, and locked before it is killed.
* `ParentOptions.longest` — how long it may be left alone.
* `IdleInv` — the invariant.

## Main results

* `idle_bounded` — **no session is left alone for longer**, in any run.
-/

namespace TtyRec

open Run History

/-- SIGTERM went out, and there was no activity since. -/
def Killed (H : List Mark) : Prop := ∃ now, Since (· = .activity) (.kill now) H

theorem Killed.append {H l : List Mark} (h : Killed H) (hl : ∀ x ∈ l, x ≠ .activity) :
    Killed (H ++ l) :=
  h.imp fun _ hsince => hsince.append hl

theorem killed_of_mem {H l : List Mark} {now : ℤ} (hmem : .kill now ∈ l)
    (hl : ∀ x ∈ l, x ≠ .activity) : Killed (H ++ l) := by
  obtain ⟨l₁, l₂, rfl⟩ := List.append_of_mem hmem
  refine ⟨now, H ++ l₁, l₂, (List.append_assoc _ _ _).symm, ?_⟩
  intro x hx
  exact hl x (List.mem_append_right _ (List.mem_cons_of_mem _ hx))

/-- How long a session may be idle before it is locked, or killed if it is not locked. -/
def ParentOptions.idleLimit (o : ParentOptions) : ℤ :=
  if o.useTty = true ∧ 0 < o.timeoutLock then o.timeoutLock else o.timeoutKill

/-- How long it may be locked before it is killed; the first tick may be spent on the warning. -/
def ParentOptions.lockedLimit (o : ParentOptions) : ℤ := max (o.timeoutKill - o.timeoutLock) 1

/-- How long it may be left alone. -/
def ParentOptions.longest (o : ParentOptions) : ℤ := o.idleLimit + 2 + o.lockedLimit

theorem ParentOptions.idleLimit_nonneg (o : ParentOptions) : 0 ≤ o.idleLimit := by
  unfold ParentOptions.idleLimit
  split
  · exact o.lock_nonneg
  · exact o.kill_nonneg

/-- The invariant, about the state and what was seen.  An unlocked session is idle for `idleLimit`
at most, and was locked in time if it is locked; then it has `lockedLimit` left.  Each bound is
about the last tick, as nothing happens in between, and gives way once SIGTERM has gone out. -/
structure IdleInv (o : ParentOptions) (s : Parent) (H : List Mark) : Prop where
  pos : 0 < s.lastActivity
  activity_le : s.lastActivity ≤ s.clock
  tick_le : s.lastTick ≤ s.clock
  lockable : s.lockedSince = 0 → o.useTty = true → 0 < o.timeoutLock →
    s.lastTick - s.lastActivity ≤ o.timeoutLock
  idle : s.lockedSince = 0 → s.lastTick - s.lastActivity ≤ o.idleLimit ∨ Killed H
  unwarned : s.lockedSince = 0 → 0 < o.warnBeforeKill → s.killWarned = false →
    s.lastTick - s.lastActivity ≤ o.timeoutKill - o.warnBeforeKill
  since : s.lockedSince ≠ 0 → s.lastActivity ≤ s.lockedSince ∧ s.lockedSince ≤ s.clock
  /-- It was locked in time, or the clock has run away from the watcher. -/
  late : s.lockedSince ≠ 0 → s.lockedSince - s.lastActivity ≤ o.idleLimit + 2 ∨
    (s.lastTick + 1 < s.clock ∧ s.lastTick - s.lastActivity ≤ o.idleLimit) ∨ Killed H
  locked : s.lockedSince ≠ 0 → s.lastTick - s.lockedSince ≤ o.lockedLimit ∨ Killed H
  lockedUnwarned : s.lockedSince ≠ 0 → 0 < o.warnBeforeKill → s.killWarned = false →
    s.lastTick - s.lockedSince ≤ max (o.timeoutKill - o.timeoutLock - o.warnBeforeKill) 0

/-! ### Steps -/

section Step

variable {o : ParentOptions} {s t : Parent} {H : List Mark}

/-- The clock goes on, and nothing else happens; the bounds are about the last tick, which stays. -/
theorem IdleInv.wait (h : IdleInv o s H) (ht : SameAlarms s t) (hclock : s.clock ≤ t.clock)
    (htick : t.lastTick = s.lastTick) : IdleInv o t H := by
  obtain ⟨hpos, hact, htl, hlockable, hidle, hunwarned, hsince, hlate, hlocked, hlu⟩ := h
  obtain ⟨hls, hla, -, hkw⟩ := ht
  constructor
  all_goals simp only [hls, hla, hkw, htick]
  · exact hpos
  · exact hact.trans hclock
  · exact htl.trans hclock
  · exact hlockable
  · exact hidle
  · exact hunwarned
  · exact fun hne => ⟨(hsince hne).1, (hsince hne).2.trans hclock⟩
  · exact fun hne => (hlate hne).imp_right (Or.imp_left fun hrun => ⟨hrun.1.trans_le hclock, hrun.2⟩)
  · exact hlocked
  · exact hlu

/-- Activity in an unlocked session. -/
theorem IdleInv.active (h : IdleInv o s H) {now : ℤ} (hclock : s.clock ≤ now)
    (hla : t.lastActivity = now) (hcl : now ≤ t.clock) (htick : t.lastTick = s.lastTick)
    (hunlocked : t.lockedSince = 0) (l : List Mark) : IdleInv o t (H ++ l) := by
  have hpos := h.pos
  have hact := h.activity_le
  have htl := h.tick_le
  have hlim := o.idleLimit_nonneg
  have hW := o.warnBeforeKill_le
  have hL := o.lock_nonneg
  refine ⟨by omega, by omega, by omega, fun _ _ _ => by omega, fun _ => .inl (by omega),
    fun _ _ _ => by omega, ?_, ?_, ?_, ?_⟩
  all_goals exact fun hne => absurd hunlocked hne

/-- A lock from outside, at any time.  The deadline is then measured from the lock. -/
theorem IdleInv.lock (h : IdleInv o s H) (hunlocked : s.lockedSince = 0) {now : ℤ}
    (hclock : s.clock ≤ now) (ht : SameTimes { s with clock := now } t) (hls : t.lockedSince = now) :
    IdleInv o t H := by
  have hpos := h.pos
  have hact := h.activity_le
  have htl := h.tick_le
  have hidle := h.idle hunlocked
  have hla : t.lastActivity = s.lastActivity := ht.lastActivity
  have hcl : t.clock = now := ht.clock
  have hlt : t.lastTick = s.lastTick := ht.lastTick
  have hD : 0 ≤ o.lockedLimit := (by decide : (0 : ℤ) ≤ 1).trans (le_max_right _ _)
  have hmax := le_max_right (o.timeoutKill - o.timeoutLock - o.warnBeforeKill) 0
  refine ⟨by omega, by omega, by omega, ?_, ?_, ?_, fun _ => by omega, ?_, fun _ => .inl (by omega),
    fun _ _ _ => by omega⟩
  · exact fun h0 => by omega
  · exact fun h0 => by omega
  · exact fun h0 => by omega
  · -- it is locked before the next tick is due, or there will be none
    intro _
    rcases hidle with hidle | hkilled
    · by_cases hrun : s.lastTick + 1 < now
      · exact .inr (.inl ⟨by omega, by omega⟩)
      · exact .inl (by omega)
    · exact .inr (.inr hkilled)

end Step

/-! ### A tick -/

section Tick

variable {o : ParentOptions} {s t : Parent} {H : List Mark}

theorem watchKill_eq (hkill : 0 < o.timeoutKill) (now last : ℤ) (s : Parent) :
    watchKill o now s =
      watchKillAt o (now - (killAlarm o last s).ref) (killAlarm o last s).limit s := by
  unfold watchKill killAlarm
  rw [if_pos hkill]
  split
  · rfl
  · rfl

/-- The second half of a tick: the session is warned, or it was warned in time, and then it is
killed or not idle for too long. -/
theorem watchKillAt_kills (o : ParentOptions) (idle limit : ℤ) (s : Parent) :
    ∃ l, (watchKillAt o idle limit s).acts = s.acts ++ l ∧
      (0 < o.warnBeforeKill ∧ s.killWarned = false ∧ (watchKillAt o idle limit s).killWarned = true ∨
        (watchKillAt o idle limit s).killWarned = s.killWarned ∧
          (0 < o.warnBeforeKill → s.killWarned = false → idle ≤ limit - o.warnBeforeKill) ∧
          (.signal .term ∈ l ∨ idle ≤ limit)) := by
  unfold watchKillAt
  split
  next hwarn => exact ⟨[.warnKill o.warnBeforeKill], rfl, .inl ⟨hwarn.1, hwarn.2.1, rfl⟩⟩
  next hquiet =>
    have hwarned : 0 < o.warnBeforeKill → s.killWarned = false → idle ≤ limit - o.warnBeforeKill := by
      intro hpos hfresh
      by_contra hlong
      exact hquiet ⟨hpos, hfresh, not_le.mp hlong⟩
    split
    · exact ⟨[.signal .term], rfl, .inr ⟨rfl, hwarned, .inl (List.mem_singleton_self _)⟩⟩
    next hshort =>
      exact ⟨[], (List.append_nil _).symm, .inr ⟨rfl, hwarned, .inr (not_lt.mp hshort)⟩⟩

/-- A session that is locked before the watcher looks whether it is to be killed. -/
theorem IdleInv.of_locked {s₁ : Parent} {last now idle limit : ℤ} {l' : List Act}
    (hpos : 0 < s₁.lastActivity) (htick : now ≤ last + 1) (hclock : now ≤ s₁.clock)
    (hlocked : s₁.lockedSince ≠ 0)
    (hsince : s₁.lastActivity ≤ s₁.lockedSince ∧ s₁.lockedSince ≤ s₁.clock)
    (hlate : s₁.lockedSince - s₁.lastActivity ≤ o.idleLimit + 2 ∨ Killed H)
    (hunwarned : 0 < o.warnBeforeKill → s₁.killWarned = false →
      last - s₁.lockedSince ≤ max (o.timeoutKill - o.timeoutLock - o.warnBeforeKill) 0)
    (ht : SameTimes s₁ t) (hls : t.lockedSince = s₁.lockedSince) (hlast : s₁.lastTick = now)
    (hidle : idle = now - s₁.lockedSince) (hlimit : limit = o.timeoutKill - o.timeoutLock)
    (hkilled : .signal .term ∈ l' → Killed H)
    (hkills : 0 < o.warnBeforeKill ∧ s₁.killWarned = false ∧ t.killWarned = true ∨
      t.killWarned = s₁.killWarned ∧
        (0 < o.warnBeforeKill → s₁.killWarned = false → idle ≤ limit - o.warnBeforeKill) ∧
        (.signal .term ∈ l' ∨ idle ≤ limit)) :
    IdleInv o t H := by
  have hmax := le_max_left (o.timeoutKill - o.timeoutLock) 1
  have hmax' := le_max_right (o.timeoutKill - o.timeoutLock) 1
  have hD : o.lockedLimit = max (o.timeoutKill - o.timeoutLock) 1 := rfl
  have hla : t.lastActivity = s₁.lastActivity := ht.lastActivity
  have hcl : t.clock = s₁.clock := ht.clock
  have hlt : t.lastTick = now := ht.lastTick.trans hlast
  have hne : t.lockedSince ≠ 0 := hls ▸ hlocked
  refine ⟨by omega, by omega, by omega, fun h0 => absurd h0 hne, fun h0 => absurd h0 hne,
    fun h0 => absurd h0 hne, fun _ => by rw [hla, hls, hcl]; exact hsince, ?_, ?_, ?_⟩
  · intro _
    rw [hla, hls]
    exact hlate.imp_right .inr
  · intro _
    rw [hlt, hls]
    rcases hkills with ⟨hWpos, hfresh, -⟩ | ⟨-, -, hterm | hle⟩
    · -- the warning came at the first tick that it was due
      have hlast' := hunwarned hWpos hfresh
      refine .inl ?_
      rcases max_choice (o.timeoutKill - o.timeoutLock - o.warnBeforeKill) 0 with heq | heq
      · omega
      · omega
    · exact .inr (hkilled hterm)
    · exact .inl (by omega)
  · intro _ hWpos hfresh
    rw [hlt, hls]
    rcases hkills with ⟨-, -, hwarned⟩ | ⟨hsame, hle, -⟩
    · rw [hwarned] at hfresh
      cases hfresh
    · have := hle hWpos (hsame ▸ hfresh)
      exact le_max_of_le_left (by omega)

theorem IdleInv.tick (h : IdleInv o s H) (hkill : 0 < o.timeoutKill) {now lockNow : ℤ}
    (hclock : s.clock ≤ now) (htick : now ≤ s.lastTick + 1) (hlock : now ≤ lockNow)
    (hlock' : lockNow ≤ now + 1) :
    IdleInv o (timeoutWatcher o now lockNow { s with clock := lockNow, lastTick := now })
      (H ++ observe o s (.tick now lockNow)) := by
  obtain ⟨hsame, hcases⟩ := watchLock_cases o now lockNow { s with clock := lockNow, lastTick := now }
  have hkw := watchLock_killWarned o now lockNow { s with clock := lockNow, lastTick := now }
  obtain ⟨l, hl, -⟩ := watchLock_acts o now lockNow { s with clock := lockNow, lastTick := now }
  rw [observe, timeoutWatcher]
  generalize watchLock o now lockNow { s with clock := lockNow, lastTick := now } = s₁ at *
  obtain ⟨hsame', hls'⟩ := watchKill_same o now s₁
  rw [watchKill_eq hkill now 0] at hsame' hls' ⊢
  obtain ⟨l', hl', hkills⟩ := watchKillAt_kills o (now - (killAlarm o 0 s₁).ref)
    (killAlarm o 0 s₁).limit s₁
  generalize watchKillAt o (now - (killAlarm o 0 s₁).ref) (killAlarm o 0 s₁).limit s₁ = s₂ at *
  have hla₁ : s₁.lastActivity = s.lastActivity := hsame.lastActivity
  have hcl₁ : s₁.clock = lockNow := hsame.clock
  have hlt₁ : s₁.lastTick = now := hsame.lastTick
  dsimp only at hl hkw hcases
  rw [hl', hl, List.append_assoc, List.drop_left]
  -- SIGTERM is seen
  have hkilled : .signal .term ∈ l' → Killed (H ++ (l ++ l').filterMap (Act.mark now)) := by
    intro hterm
    have hmem : .kill now ∈ (l ++ l').filterMap (Act.mark now) :=
      List.mem_filterMap.mpr ⟨_, List.mem_append_right l hterm, rfl⟩
    exact killed_of_mem hmem (mark_ne_activity now _)
  have hstays : Killed H → Killed (H ++ (l ++ l').filterMap (Act.mark now)) := fun hk =>
    hk.append (mark_ne_activity now _)
  generalize (l ++ l').filterMap (Act.mark now) = m at hkilled hstays
  have hpos := h.pos
  have hact := h.activity_le
  by_cases hlocked : s₁.lockedSince = 0
  · -- it was not locked, and is not
    have hshort : o.useTty = true → 0 < o.timeoutLock → now - s.lastActivity ≤ o.timeoutLock := by
      rcases hcases with ⟨hls, hshort⟩ | ⟨-, -, -, -, hls⟩
      · exact hshort (hls ▸ hlocked)
      · omega
    have hunlocked : s.lockedSince = 0 := by
      rcases hcases with ⟨hls, -⟩ | ⟨hunlocked, -⟩
      · exact hls ▸ hlocked
      · exact hunlocked
    have hunwarned := h.unwarned hunlocked
    have hls₂ : s₂.lockedSince = 0 := hls'.trans hlocked
    have hla : s₂.lastActivity = s.lastActivity := hsame'.lastActivity.trans hla₁
    have hcl : s₂.clock = lockNow := hsame'.clock.trans hcl₁
    have hlt : s₂.lastTick = now := hsame'.lastTick.trans hlt₁
    rw [killAlarm_unlocked o 0 hlocked] at hkills
    dsimp only at hkills
    rw [hla₁, hkw] at hkills
    refine ⟨by omega, by omega, by omega, ?_, ?_, ?_, fun hne => absurd hls₂ hne,
      fun hne => absurd hls₂ hne, fun hne => absurd hls₂ hne, fun hne => absurd hls₂ hne⟩
    · intro _
      rw [hlt, hla]
      exact hshort
    · intro _
      rw [hlt, hla]
      unfold ParentOptions.idleLimit
      split
      next hlock => exact .inl (hshort hlock.1 hlock.2)
      next =>
        rcases hkills with ⟨hWpos, hfresh, -⟩ | ⟨-, -, hterm | hle⟩
        · have := hunwarned hWpos hfresh
          exact .inl (by omega)
        · exact .inr (hkilled hterm)
        · exact .inl hle
    · intro _ hWpos hfresh
      rw [hlt, hla]
      rcases hkills with ⟨-, -, hwarned⟩ | ⟨hsame, hle, -⟩
      · rw [hwarned] at hfresh
        cases hfresh
      · exact hle hWpos (hsame ▸ hfresh)
  · rw [killAlarm_locked o 0 hlocked] at hkills
    rcases hcases with ⟨hls, -⟩ | ⟨hunlocked, htty, hL, hlong, hls⟩
    · -- it was locked before
      have hne : s.lockedSince ≠ 0 := hls ▸ hlocked
      obtain ⟨hsince, hsince'⟩ := h.since hne
      refine IdleInv.of_locked (by omega) htick (by omega) hlocked (by omega) ?_ ?_ hsame' hls' hlt₁
        rfl rfl hkilled hkills
      · rw [hls, hla₁]
        rcases h.late hne with hle | ⟨hrun, -⟩ | hk
        · exact .inl hle
        · omega
        · exact .inr (hstays hk)
      · rw [hls, hkw]
        exact h.lockedUnwarned hne
    · -- the watcher has just locked it
      have hlast := h.lockable hunlocked htty hL
      have hlimit : o.idleLimit = o.timeoutLock := if_pos ⟨htty, hL⟩
      refine IdleInv.of_locked (by omega) (by omega : now ≤ now - 1 + 1) (by omega) hlocked
        (by omega) (.inl (by omega)) ?_ hsame' hls' hlt₁ rfl rfl hkilled hkills
      intro _ _
      exact le_max_of_le_right (by omega)

end Tick

/-! ### Runs -/

section Runs

variable {o : ParentOptions} {s t : Parent} {H : List Mark}

/-- **One step**, by the cases of `parentStep`; the watcher has its own lemmas. -/
theorem IdleInv.step (hkill : 0 < o.timeoutKill) (h : IdleInv o s H) {e : ParentEvent}
    (hstep : parentStep o s e = some t) : IdleInv o t (H ++ observe o s e) := by
  cases parentStep_steps hstep with
  | @dropped bytes w now lockNow _ hclock hlock hlocked =>
    have hnone : observe o s (.input bytes w now lockNow) = [] := by
      cases w <;> simp [observe, activity, hlocked]
    rw [hnone, List.append_nil]
    exact h.wait ⟨rfl, rfl, rfl, rfl⟩ (hclock.trans hlock) rfl
  | @sent bytes n now lockNow _ hclock hlock hunlocked =>
    obtain ⟨hsame, hcases⟩ := afterInput_cases o bytes lockNow ({ s with
      clock := lockNow, lastActivity := now, lockWarned := false, killWarned := false }.act
        (.input (bytes.take n)))
    rcases hcases with hls | ⟨c, -, -, hls⟩
    · exact h.active hclock hsame.lastActivity (hlock.trans_eq hsame.clock.symm) hsame.lastTick
        (hls.trans hunlocked) _
    · -- the byte was the last of the cheat-code
      have hactive : IdleInv o ({ s with
          clock := lockNow, lastActivity := now, lockWarned := false, killWarned := false }.act
          (.input (bytes.take n))) (H ++ observe o s (.input bytes (.sent n) now lockNow)) := by
        refine h.active hclock ?_ ?_ ?_ ?_ _
        · rfl
        · exact hlock
        · rfl
        · exact hunlocked
      exact hactive.lock hunlocked le_rfl hsame hls
  | @failed bytes w now lockNow _ hclock hlock _ hw =>
    have hnone : observe o s (.input bytes w now lockNow) = [] := by
      cases w with
      | sent n => exact absurd rfl (hw n)
      | _ => simp [observe, activity]
    rw [hnone, List.append_nil]
    exact h.wait ⟨rfl, rfl, rfl, rfl⟩ (hclock.trans hlock) rfl
  | eof =>
    rw [show observe o s .eof = [] from rfl, List.append_nil]
    exact h.wait ⟨rfl, rfl, rfl, rfl⟩ le_rfl rfl
  | tick hclock htick hlock hlock' => exact h.tick hkill hclock htick hlock hlock'
  | @urg now hclock =>
    rw [show observe o s (.urg now) = [] from rfl, List.append_nil]
    unfold lockSession
    split
    next => exact h.wait ⟨rfl, rfl, rfl, rfl⟩ hclock rfl
    next hunlocked => exact h.lock (not_not.mp hunlocked) hclock ⟨rfl, rfl, rfl⟩ rfl
  | @usr2 now hclock =>
    unfold unlockSession
    dsimp only
    split
    next hunlocked =>
      refine h.active hclock ?_ ?_ ?_ ?_ _
      · rfl
      · exact le_rfl
      · rfl
      · exact hunlocked
    next =>
      refine h.active hclock ?_ ?_ ?_ ?_ _
      · rfl
      · exact le_rfl
      · rfl
      · rfl

/-- **No session is left alone for too long.**  In every run, whoever locks the session and
whatever warnings the user asked for, an unlocked session with a lock timeout is never idle for
longer than the timeout when the watcher has looked, and when it looks at a session that has been
idle for longer than `longest`, SIGTERM has gone out since the last activity. -/
theorem idle_bounded (o : ParentOptions) (hkill : 0 < o.timeoutKill) {start : ℤ} (hstart : 0 < start)
    {es : List ParentEvent} {t : Parent}
    (hrun : exec (parentStep o) (Parent.start start) es = some t) :
    (t.lockedSince = 0 → o.useTty = true → 0 < o.timeoutLock →
        t.lastTick - lastActivityOf o start es ≤ o.timeoutLock) ∧
      (o.longest < t.lastTick - lastActivityOf o start es → Killed (history o start es)) := by
  have hW := o.warnBeforeKill_le
  have hlim := o.idleLimit_nonneg
  -- nothing has happened yet
  have hinv₀ : IdleInv o (Parent.start start) [] := by
    refine ⟨hstart, le_rfl, le_rfl, fun _ _ hL => ?_, fun _ => .inl ?_, fun _ _ _ => ?_, ?_, ?_, ?_,
      ?_⟩
    · simp [Parent.start, hL.le]
    · simpa [Parent.start] using hlim
    · simpa [Parent.start] using hW
    all_goals exact fun hne => absurd rfl hne
  have hinv : IdleInv o t (history o start es) :=
    exec_invariant_collect (I := fun s H => IdleInv o s H) (fun _ _ _ _ h _ hstep => h.step hkill hstep)
      (along_of_forall (fun _ _ => trivial) _ es) hrun hinv₀
  rw [← lastActivity_exec hrun]
  refine ⟨hinv.lockable, ?_⟩
  intro hlong
  have hmax := le_max_right (o.timeoutKill - o.timeoutLock) 1
  have hL : o.longest = o.idleLimit + 2 + o.lockedLimit := rfl
  have hD : o.lockedLimit = max (o.timeoutKill - o.timeoutLock) 1 := rfl
  -- locked or not, the session is late only after SIGTERM
  by_cases hunlocked : t.lockedSince = 0
  · exact (hinv.idle hunlocked).resolve_left (by omega)
  · rcases hinv.late hunlocked with hlate | ⟨-, hidle⟩ | hkilled
    · exact (hinv.locked hunlocked).resolve_left (by omega)
    · omega
    · exact hkilled

end Runs

/-- Fourteen seconds without input, with a lock after eight and the end due after eleven. -/
def fourteenTicks : List ParentEvent :=
  (List.range 14).map fun n => .tick (1001 + n) (1001 + n)

theorem idle_bounded_ticks : Killed (history warnFourWarnFive 1000 fourteenTicks) := by
  have htick : (exec (parentStep warnFourWarnFive) (Parent.start 1000) fourteenTicks).map
      Parent.lastTick = some 1014 := by decide
  obtain ⟨t, hrun, hlast⟩ := Option.map_eq_some_iff.mp htick
  refine (idle_bounded warnFourWarnFive (by decide) (by decide) hrun).2 ?_
  rw [hlast]
  decide

end TtyRec
