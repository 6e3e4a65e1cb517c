import TtyRec.ExitStatus

/-!
# The session comes to its end

The three processes end one after the other: the command exits, the child finds nothing left to
read and waits for it, and `finish` in the parent waits for the child.  Nothing else makes the
parent end: it reads its input, which may last for ever.  So whether the session ends depends on
`finish`, which calls `done` only for the pid that is in `child`, and it may run before `fork` has
returned into that variable.

A process does something by itself when no signal comes from outside and no call fails.  Each
such step brings the session closer to its end, and what it stops at is the end, or a parent whose
`finish` has waited for a child that had no name yet.

## Main definitions

* `Own` — a step of the session by itself.
* `Session.cost` — what is left to do.
* `Session.Over`, `Session.Orphaned` — where a session stops.
* `ReapsUnnamed` — `finish` comes before the assignment.

## Main results

* `shuts_down` — **a session goes on for `cost` steps at most, and stops at its end**, unless the
  parent waits for its input in vain.
-/

namespace TtyRec.Exits

open Run

/-! ### What a process does by itself -/

/-- A process goes on, assigns a variable that it has not assigned, gets the signal of an offspring
that has ended, or is a command that exits. -/
def Proc.Own (p : Proc) : Choice → Prop
  | .go => True
  | .setChild => p.childSet = false
  | .setSubchild => p.subchildSet = false
  | .signal .chld => ∃ status, p.offspring = .zombie status
  | .exits _ => True
  | _ => False

/-- The child also has nothing left to read when the command has ended.  This takes for granted that
nothing but the command keeps the terminal or the pipes open, so that their end follows its own. -/
def Own (s : Session) (e : Event) : Prop :=
  match e.who with
  | .parent => s.parent.Own e.choice
  | .child => s.child.Own e.choice ∨ e.choice = .over ∧ s.subchild.ended.isSome = true
  | .subchild => s.subchild.Own e.choice

/-! ### What is left to do -/

/-- More than what is left when the function has taken a step: `fail` leaves two calls of `done`
(8), `finish` one (4), and `done` leaves `cleanup` (1). -/
def Frame.weight : Frame → ℕ
  | .finish _ => 6
  | .swing => 1
  | .fail => 10
  | .done _ _ => 4
  | .cleanup _ _ => 1

def weight (frames : List Frame) : ℕ := (frames.map Frame.weight).sum

/-- SIGCHLD is still to be handled here.  That makes one frame of `finish` (6), and one is enough,
because the signal is blocked in its own handler. -/
def slot (frames : List Frame) : ℕ := if .finish true ∈ frames ∨ .finish false ∈ frames then 0 else 7

/-- An offspring that has ended may still interrupt each of the two threads once; a running one may
do so when it has ended, and one that does not exist yet when it has been forked. -/
def Proc.offspringCost (p : Proc) : ℕ :=
  match p.offspring with
  | .none => 17
  | .running => 16
  | .zombie _ => 1 + slot p.handlers + slot p.watcher
  | .reaped => 0

/-- The main flow, which every step brings closer to its end.  The loop of the child comes round
once more when `finish` has not set `can_exit`, and when the offspring is still there. -/
def Proc.flowCost (p : Proc) : ℕ :=
  match p.flow with
  | .unborn => 80
  | .setup => 70
  | .fork => 60
  | .assign => 30 + (if p.childSet = true then 0 else 1) + if p.subchildSet = true then 0 else 1
  | .shell => 21
  | .command => 20
  | .reading => 20
  | .canExit => if p.canExit = true then 5 else if p.offspring = .reaped then 9 else 13
  | .waitpid => if p.offspring = .reaped then 8 else 12
  | .done _ => 4
  | .cleanup _ => 1
  | .returned => 1

def Proc.cost (p : Proc) : ℕ :=
  if p.ended.isSome = true then 0
  else p.flowCost + weight p.handlers + weight p.watcher + p.offspringCost

/-- Each of the three has its own, and no step of one adds to that of another. -/
def Session.cost (s : Session) : ℕ := s.subchild.cost + s.child.cost + s.parent.cost

@[simp] theorem weight_nil : weight [] = 0 := rfl

@[simp] theorem weight_cons (f : Frame) (fs : List Frame) :
    weight (f :: fs) = f.weight + weight fs := by
  simp [weight]

@[simp] theorem weight_append (fs gs : List Frame) : weight (fs ++ gs) = weight fs + weight gs := by
  simp [weight]

theorem slot_le (frames : List Frame) : slot frames ≤ 7 := by
  unfold slot
  split <;> omega

theorem slot_append_of_le {fs gs hs : List Frame}
    (h : ∀ die, .finish die ∈ fs → .finish die ∈ gs) : slot (gs ++ hs) ≤ slot (fs ++ hs) := by
  unfold slot
  simp only [List.mem_append]
  split
  · omega
  next hnot =>
    rw [if_neg]
    rintro ((hmem | hmem) | (hmem | hmem))
    · exact hnot (.inl (.inl (h true hmem)))
    · exact hnot (.inl (.inr hmem))
    · exact hnot (.inr (.inl (h false hmem)))
    · exact hnot (.inr (.inr hmem))

theorem Proc.cost_of_running {p : Proc} (h : p.ended = none) :
    p.cost = p.flowCost + weight p.handlers + weight p.watcher + p.offspringCost := by
  rw [Proc.cost, h]
  rfl

theorem Proc.cost_of_ended {p : Proc} (h : p.ended.isSome = true) : p.cost = 0 :=
  if_pos h

theorem Proc.offspringCost_zombie {p : Proc} {status : ℕ} (h : p.offspring = .zombie status) :
    p.offspringCost = 1 + slot p.handlers + slot p.watcher := by
  rw [Proc.offspringCost, h]

theorem Proc.offspringCost_of_eq {p q : Proc} (h : q.offspring = p.offspring)
    (hslot : (∃ status, p.offspring = .zombie status) →
      slot q.handlers + slot q.watcher ≤ slot p.handlers + slot p.watcher) :
    q.offspringCost ≤ p.offspringCost := by
  unfold Proc.offspringCost
  rw [h]
  cases hp : p.offspring with
  | zombie status =>
    have hle := hslot ⟨status, hp⟩
    dsimp only
    omega
  | _ => exact le_rfl

theorem Proc.flowCost_pos (p : Proc) : 0 < p.flowCost := by
  unfold Proc.flowCost
  split
  all_goals first | omega | split_ifs <;> omega

theorem Proc.cost_pos {p : Proc} (h : p.ended = none) : 0 < p.cost := by
  have := p.flowCost_pos
  rw [Proc.cost_of_running h]
  omega

section Process

variable {p q : Proc} {c : Choice} {th : Thread} {timeouts : Bool}

/-- What a function above the main flow leaves alone.  Most of what is known about a process
survives its handlers by this. -/
structure Keeps (p q : Proc) : Prop where
  handlers : q.handlers = p.handlers
  watcher : q.watcher = p.watcher
  flow : q.flow = p.flow
  installed : q.installed = p.installed
  role : q.role = p.role
  childSet : q.childSet = p.childSet
  subchildSet : q.subchildSet = p.subchildSet

/-- Whatever a function above the main flow does, the two stacks, the main flow and the pid
variables are as before; the machine itself puts the rest of the function back. -/
theorem frameStep_keeps {f : Frame} {r : Proc × List Frame} (hstep : frameStep f c p = some r) :
    Keeps p r.1 := by
  unfold frameStep at hstep
  split at hstep
  next =>
    cases hstep
    unfold finish
    split
    · split_ifs <;> exact ⟨rfl, rfl, rfl, rfl, rfl, rfl, rfl⟩
    · exact ⟨rfl, rfl, rfl, rfl, rfl, rfl, rfl⟩
  next =>
    cases hstep
    exact ⟨rfl, rfl, rfl, rfl, rfl, rfl, rfl⟩
  next =>
    cases hstep
    exact ⟨rfl, rfl, rfl, rfl, rfl, rfl, rfl⟩
  next =>
    split at hstep <;>
    · cases hstep
      exact ⟨rfl, rfl, rfl, rfl, rfl, rfl, rfl⟩
  next =>
    cases hstep
    exact ⟨rfl, rfl, rfl, rfl, rfl, rfl, rfl⟩
  next =>
    cases hstep
    unfold done
    split_ifs <;> exact ⟨rfl, rfl, rfl, rfl, rfl, rfl, rfl⟩
  next =>
    cases hstep
    exact ⟨rfl, rfl, rfl, rfl, rfl, rfl, rfl⟩
  next => cases hstep

/-- It may wait for the offspring; only `finish` does that. -/
theorem frameStep_offspring {f : Frame} {r : Proc × List Frame} (hstep : frameStep f c p = some r) :
    r.1.offspring = p.offspring ∨
      (∃ status, p.offspring = .zombie status) ∧ r.1.offspring = .reaped := by
  unfold frameStep at hstep
  split at hstep
  next =>
    cases hstep
    unfold finish
    split
    next status hz => split_ifs <;> exact .inr ⟨⟨_, hz⟩, rfl⟩
    next => exact .inl rfl
  next =>
    cases hstep
    exact .inl rfl
  next =>
    cases hstep
    exact .inl rfl
  next =>
    split at hstep <;>
    · cases hstep
      exact .inl rfl
  next =>
    cases hstep
    exact .inl rfl
  next =>
    cases hstep
    unfold done
    split_ifs <;> exact .inl rfl
  next =>
    cases hstep
    exact .inl rfl
  next => cases hstep

/-- The main flow is no further from its end when the offspring is waited for. -/
theorem Proc.flowCost_le_of_reaped (hflow : q.flow = p.flow) (hchild : q.childSet = p.childSet)
    (hsub : q.subchildSet = p.subchildSet) (hcan : p.canExit = true → q.canExit = true)
    (hr : p.offspring = .reaped → q.offspring = .reaped) : q.flowCost ≤ p.flowCost := by
  unfold Proc.flowCost
  rw [hflow, hchild, hsub]
  split
  case h_8 =>
    split_ifs <;> first | omega | simp_all
  case h_9 =>
    split_ifs <;> first | omega | simp_all
  all_goals exact le_rfl

/-- A function above the main flow goes on, and less is left of it. -/
theorem frameStep_cost {f : Frame} {r : Proc × List Frame} (hown : p.Own c)
    (hstep : frameStep f c p = some r) :
    r.1.ended.isSome = true ∨ r.1.ended = p.ended ∧ r.1.flowCost ≤ p.flowCost ∧
      ((∃ status, p.offspring = .zombie status) ∧ r.1.offspring = .reaped ∧
          weight r.2 ≤ f.weight ∨
        r.1.offspring = p.offspring ∧ weight r.2 < f.weight ∧
          ((∃ status, p.offspring = .zombie status) → ∀ die, f ≠ .finish die)) := by
  unfold frameStep at hstep
  split at hstep
  next die =>
    cases hstep
    refine .inr ?_
    unfold finish
    split
    next status hz =>
      -- the loop of `finish` takes a status: the frame stays, but the offspring is gone
      have hle : ∀ canExit, (p.canExit = true → canExit = true) →
          { p.reap status with canExit := canExit }.flowCost ≤ p.flowCost := by
        intro canExit hcan
        exact Proc.flowCost_le_of_reaped rfl rfl rfl hcan fun _ => rfl
      split_ifs
      · exact ⟨rfl, hle true fun _ => rfl, .inl ⟨⟨_, hz⟩, rfl, le_rfl⟩⟩
      · exact ⟨rfl, hle p.canExit id, .inl ⟨⟨_, hz⟩, rfl, le_rfl⟩⟩
      · exact ⟨rfl, hle p.canExit id, .inl ⟨⟨_, hz⟩, rfl, le_rfl⟩⟩
    next hnot =>
      -- there is nothing to wait for, and `finish` returns or calls `done`
      refine ⟨rfl, le_rfl, .inr ⟨rfl, ?_, ?_⟩⟩
      · split_ifs <;> simp [Frame.weight]
      · rintro ⟨status, hz⟩
        exact absurd hz (hnot status)
  next =>
    cases hstep
    exact .inr ⟨rfl, le_rfl, .inr ⟨rfl, by simp [Frame.weight], fun _ _ => Frame.noConfusion⟩⟩
  next => exact hown.elim
  next =>
    split at hstep
    · cases hstep
      exact .inr ⟨rfl, le_rfl, .inr ⟨rfl, by simp [Frame.weight], fun _ _ => Frame.noConfusion⟩⟩
    · cases hstep
      -- a `fail` before the handlers are installed is the end of the process
      exact .inl rfl
  next => exact hown.elim
  next status origin =>
    cases hstep
    refine .inr ?_
    unfold done
    split_ifs <;>
    exact ⟨rfl, le_rfl, .inr ⟨rfl, by simp [Frame.weight], fun _ _ => Frame.noConfusion⟩⟩
  next =>
    cases hstep
    exact .inl rfl
  next => cases hstep

/-- SIGCHLD is delivered only where no `finish` is on the stack, and after it there is one. -/
theorem handler_chld {frames : List Frame} {f : Frame} (hf : handler .chld p frames = some f) :
    f = .finish false ∧ slot frames = 7 ∧ slot (f :: frames) = 0 := by
  rw [handler] at hf
  split at hf
  · cases hf
  next hnot =>
    cases hf
    exact ⟨rfl, if_neg hnot, if_pos (.inr List.mem_cons_self)⟩

/-- SIGCHLD arrives on one of the threads.  The frame of `finish` costs 6, and the slot that it
fills was worth 7. -/
theorem cost_signal (hrun : p.ended = none) {status : ℕ} (hz : p.offspring = .zombie status)
    (hended : q.ended = p.ended) (hoff : q.offspring = p.offspring) (hflow : q.flowCost = p.flowCost)
    (hframes : weight q.handlers + weight q.watcher = 6 + (weight p.handlers + weight p.watcher))
    (hslots : slot q.handlers + slot q.watcher + 7 = slot p.handlers + slot p.watcher) :
    q.cost < p.cost := by
  rw [Proc.cost_of_running hrun, Proc.cost_of_running (hended.trans hrun),
    Proc.offspringCost_zombie hz, Proc.offspringCost_zombie (hoff.trans hz), hflow]
  omega

/-- A function above the main flow has gone on, on the thread whose stack is `f :: fs`; the stack of
the other thread is `l`. -/
theorem cost_frame {f : Frame} {r : Proc × List Frame} (fs l : List Frame) (hrun : p.ended = none)
    (hrun' : r.1.ended = none) (hq : q.ended = r.1.ended ∧ q.offspring = r.1.offspring)
    (hflow : q.flowCost ≤ p.flowCost)
    (hframes : weight q.handlers + weight q.watcher = weight (r.2 ++ fs) + weight l)
    (hframes' : weight p.handlers + weight p.watcher = weight (f :: fs) + weight l)
    (hslots : slot q.handlers + slot q.watcher = slot (r.2 ++ fs) + slot l)
    (hslots' : slot p.handlers + slot p.watcher = slot (f :: fs) + slot l)
    (hrest : (∃ status, p.offspring = .zombie status) ∧ r.1.offspring = .reaped ∧
        weight r.2 ≤ f.weight ∨
      r.1.offspring = p.offspring ∧ weight r.2 < f.weight ∧
        ((∃ status, p.offspring = .zombie status) → ∀ die, f ≠ .finish die)) :
    q.cost < p.cost := by
  rw [Proc.cost_of_running hrun, Proc.cost_of_running (hq.1.trans hrun')]
  rw [weight_append] at hframes
  rw [weight_cons] at hframes'
  rcases hrest with ⟨⟨status, hz⟩, hreaped, hle⟩ | ⟨hoff, hlt, hnot⟩
  · -- the offspring is waited for
    have hoff : q.offspringCost = 0 := by
      rw [Proc.offspringCost, hq.2, hreaped]
    rw [hoff, Proc.offspringCost_zombie hz]
    omega
  · -- the function has got lighter, and it was no `finish` that leaves its slot while there is
    -- something to wait for
    have hle : q.offspringCost ≤ p.offspringCost := by
      apply Proc.offspringCost_of_eq (hq.2.trans hoff)
      intro hz
      rw [hslots, hslots']
      have hslot : slot (r.2 ++ fs) ≤ slot ([f] ++ fs) := by
        apply slot_append_of_le
        intro die hmem
        exact absurd (List.mem_singleton.mp hmem).symm (hnot hz die)
      rw [List.singleton_append] at hslot
      omega
    omega

/-- The main flow has gone on, and what is above it is as before. -/
theorem cost_flow (hrun : p.ended = none) (hended : q.ended = p.ended)
    (hhandlers : q.handlers = p.handlers) (hwatcher : q.watcher = p.watcher)
    (hlt : q.flowCost + q.offspringCost < p.flowCost + p.offspringCost) : q.cost < p.cost := by
  rw [Proc.cost_of_running hrun, Proc.cost_of_running (hended.trans hrun), hhandlers, hwatcher]
  omega

theorem cost_setFlow (hrun : p.ended = none) {fl : Flow}
    (hlt : { p with flow := fl }.flowCost < p.flowCost) : { p with flow := fl }.cost < p.cost :=
  cost_flow hrun rfl rfl rfl (Nat.add_lt_add_right hlt _)

/-- A step of the main flow.  Where it waits for the offspring, `offspringCost` pays for the rounds
of the loop that are still to come. -/
theorem flowStep_cost (hown : p.Own c) (hrun : p.ended = none)
    (hstep : flowStep timeouts c p = some q) : q.cost < p.cost := by
  have hpos := Proc.cost_pos hrun
  by_cases hcan : p.flow = .canExit
  · -- the test of the loop
    unfold flowStep at hstep
    rw [hcan] at hstep
    dsimp only at hstep
    split at hstep
    · cases hstep
      refine cost_setFlow hrun ?_
      split_ifs with h
      · simp [Proc.flowCost, hcan, h]
      · simp only [Proc.flowCost, hcan, if_neg h]
        split_ifs <;> omega
    · cases hstep
  · cases flowStep_steps hstep with
    | install hfl hq =>
      subst hq
      exact cost_flow hrun rfl rfl rfl (by simp [Proc.flowCost, Proc.offspringCost, hfl])
    | fails | failsReading | eof | libzstd => exact hown.elim
    | fork hfl hq =>
      subst hq
      refine cost_flow hrun rfl rfl rfl ?_
      simp only [Proc.flowCost, Proc.offspringCost, hfl]
      split_ifs <;> omega
    | setChild hfl hq =>
      subst hq
      refine cost_flow hrun rfl rfl rfl ?_
      have hset : p.childSet = false := hown
      simp only [Proc.flowCost, Proc.offspringCost, hfl, hset]
      simp
    | setSubchild hfl _ hq =>
      subst hq
      refine cost_flow hrun rfl rfl rfl ?_
      have hset : p.subchildSet = false := hown
      simp only [Proc.flowCost, Proc.offspringCost, hfl, hset]
      simp
    | assigned hfl hq =>
      subst hq
      refine cost_flow hrun rfl rfl rfl ?_
      simp only [Proc.flowCost, Proc.offspringCost, hfl]
      omega
    | exec hfl hq =>
      subst hq
      exact cost_setFlow hrun (by simp [Proc.flowCost, hfl])
    | test hfl => exact absurd hfl hcan
    -- a status is taken: the cost of the zombie is gone
    | reap hfl hz hfl' hq =>
      subst hq
      refine cost_flow hrun rfl rfl rfl ?_
      rw [Proc.offspringCost_zombie hz]
      rcases hfl' with rfl | rfl
      · simp only [Proc.flowCost, Proc.offspringCost, Proc.reap, hfl, hz, reduceCtorEq, if_true,
          if_false]
        split_ifs <;> omega
      · simp only [Proc.flowCost, Proc.offspringCost, Proc.reap, hfl, hz, reduceCtorEq, if_false]
        omega
    | noChild hfl hr hq =>
      rcases hq with rfl | rfl
      · refine cost_flow hrun rfl rfl rfl ?_
        simp [Proc.flowCost, Proc.offspringCost, hfl, hr]
      · exact cost_setFlow hrun (by simp [Proc.flowCost, hfl, hr])
    | refused hfl _ hq =>
      subst hq
      exact cost_setFlow hrun (by simp [Proc.flowCost, hfl])
    | enter hfl hq =>
      subst hq
      refine cost_flow hrun rfl rfl rfl ?_
      simp [Proc.flowCost, Proc.offspringCost, hfl]
    -- the process ends, and an ended one costs nothing
    | exits _ hq | exit _ hq | returns _ hq =>
      subst hq
      exact lt_of_eq_of_lt (Proc.cost_of_ended rfl) hpos

/-- **A process that does something by itself has less left to do.** The main flow and each function
above it have a price, and only signals from outside raise it. -/
theorem procStep_cost (hown : p.Own c) (hstep : procStep timeouts th c p = some q) :
    q.cost < p.cost := by
  obtain ⟨hrun, hborn, hsteps⟩ := procStep_steps hstep
  have hpos := Proc.cost_pos hrun
  cases hsteps with
  | killed => exact hown.elim
  -- the signal of the offspring, on either thread
  | @signal sig f _ hf hq =>
    cases sig with
    | chld =>
      obtain ⟨status, hz⟩ := hown
      obtain ⟨rfl, h7, h0⟩ := handler_chld hf
      subst hq
      refine cost_signal hrun hz rfl rfl rfl ?_ ?_
      · simp only [weight_cons, Frame.weight]
        omega
      · show slot (.finish false :: p.handlers) + slot p.watcher + 7 = _
        rw [h0, h7]
        omega
    | _ => exact hown.elim
  | @signalWatcher sig f _ hf hq =>
    cases sig with
    | chld =>
      obtain ⟨status, hz⟩ := hown
      obtain ⟨rfl, h7, h0⟩ := handler_chld hf
      subst hq
      refine cost_signal hrun hz rfl rfl rfl ?_ ?_
      · simp only [weight_cons, Frame.weight]
        omega
      · show slot p.handlers + slot (.finish false :: p.watcher) + 7 = _
        rw [h0, h7]
    | _ => exact hown.elim
  | flow hframes hflow =>
    refine flowStep_cost hown hrun (?_ : flowStep timeouts c p = some q)
    cases c with
    | signal | killed => cases hflow
    | _ => simpa [procStep, hrun, hborn, hframes] using hstep
  -- a function above the main flow, on either thread; the stack of the other one does not change
  | @frame _ f fs r hframes hr hq =>
    subst hq
    have hwatcher := (frameStep_keeps hr).watcher
    rcases frameStep_cost hown hr with hended | ⟨hsame, hflow, hrest⟩
    · refine lt_of_eq_of_lt (Proc.cost_of_ended ?_) hpos
      exact hended
    · refine cost_frame fs p.watcher hrun (hsame.trans hrun) ⟨rfl, rfl⟩ hflow ?_ ?_ ?_ ?_ hrest
      · rw [hwatcher]
      · rw [hframes]
      · rw [hwatcher]
      · rw [hframes]
  | @frameWatcher _ f fs r hframes hr hq =>
    subst hq
    have hhandlers := (frameStep_keeps hr).handlers
    rcases frameStep_cost hown hr with hended | ⟨hsame, hflow, hrest⟩
    · refine lt_of_eq_of_lt (Proc.cost_of_ended ?_) hpos
      exact hended
    · refine cost_frame fs p.handlers hrun (hsame.trans hrun) ⟨rfl, rfl⟩ hflow ?_ ?_ ?_ ?_ hrest
      · rw [hhandlers, Nat.add_comm]
      · rw [hframes, Nat.add_comm]
      · rw [hhandlers, Nat.add_comm]
      · rw [hframes, Nat.add_comm]

/-! ### What stops a process -/

/-- No function above the main flow blocks: each of them can always go on. -/
theorem frameStep_go (f : Frame) (p : Proc) : (frameStep f .go p).isSome = true := by
  cases f with
  | fail =>
    rw [frameStep]
    split <;> rfl
  | _ => rfl

/-- A process that cannot go on by itself has nothing above its main flow, and this reads, or waits
for an offspring that does not end. -/
theorem Proc.stopped (hrun : p.ended = none) (hborn : p.flow ≠ .unborn)
    (hinstalled : p.flow = .reading → p.installed = true)
    (hstop : ∀ th c, p.Own c → procStep timeouts th c p = none) :
    p.handlers = [] ∧ p.watcher = [] ∧
      (p.flow = .reading ∧ (∀ status, p.offspring ≠ .zombie status) ∨
        p.flow = .waitpid ∧ (p.offspring = .none ∨ p.offspring = .running)) := by
  have hready : ¬ (p.ended.isSome = true ∨ p.flow = .unborn) := by simp [hrun, hborn]
  -- whatever is on a stack goes on
  have hhandlers : p.handlers = [] := by
    cases hframes : p.handlers with
    | nil => rfl
    | cons f fs =>
      have hnone := hstop .main .go trivial
      simp only [procStep, if_neg hready, hframes, Option.map_eq_none_iff] at hnone
      have hsome := frameStep_go f p
      rw [hnone] at hsome
      cases hsome
  have hwatcher : p.watcher = [] := by
    cases hframes : p.watcher with
    | nil => rfl
    | cons f fs =>
      have hnone := hstop .watcher .go trivial
      simp only [procStep, if_neg hready, hframes, Option.map_eq_none_iff] at hnone
      have hsome := frameStep_go f p
      rw [hnone] at hsome
      cases hsome
  -- so it is the main flow that does not
  have hflow : ∀ c, p.Own c → (∀ sig, c ≠ .signal sig) → flowStep timeouts c p = none := by
    intro c hown hsig
    have hnone := hstop .main c hown
    cases c with
    | signal sig => exact absurd rfl (hsig sig)
    | killed => exact hown.elim
    | _ => simpa [procStep, hrun, hborn, hhandlers] using hnone
  refine ⟨hhandlers, hwatcher, ?_⟩
  have hgo := hflow .go trivial fun _ => Choice.noConfusion
  unfold flowStep at hflow hgo
  cases hfl : p.flow with
  | unborn => exact absurd hfl hborn
  | reading =>
    -- a zombie would still send its SIGCHLD
    refine .inl ⟨rfl, ?_⟩
    intro status hz
    have hnone := hstop .main (.signal .chld) ⟨status, hz⟩
    simp [procStep, hrun, hfl, hhandlers, handler, hinstalled hfl] at hnone
  | waitpid =>
    refine .inr ⟨rfl, ?_⟩
    -- `waitpid` blocks only as long as the offspring runs, or when there has never been one
    simp only [hfl, if_true, flowWait] at hgo
    cases hoff : p.offspring with
    | none => exact .inl rfl
    | running => exact .inr rfl
    | zombie status =>
      simp only [hoff] at hgo
      split at hgo <;> cases hgo
    | reaped =>
      simp only [hoff] at hgo
      split at hgo <;> cases hgo
  | assign =>
    rw [hfl] at hflow hgo
    -- the variables that are not assigned yet can be
    have hchild : p.childSet = true := by
      cases hset : p.childSet with
      | true => rfl
      | false => cases hflow .setChild hset fun _ => Choice.noConfusion
    have hsub : p.role = .child → p.subchildSet = true := by
      intro hrole
      cases hset : p.subchildSet with
      | true => rfl
      | false =>
        have hnone := hflow .setSubchild hset fun _ => Choice.noConfusion
        rw [if_pos hrole] at hnone
        cases hnone
    dsimp only at hgo
    rw [if_pos ⟨hchild, hsub⟩] at hgo
    cases hgo
  | command =>
    rw [hfl] at hflow
    cases hflow (.exits 0) trivial fun _ => Choice.noConfusion
  | done status =>
    rw [hfl] at hgo
    dsimp only at hgo
    split at hgo <;> cases hgo
  | _ =>
    rw [hfl] at hgo
    cases hgo

/-! ### The offspring -/

/-- Everything but the main flow leaves it alone, and may only wait for the offspring. -/
theorem procStep_cases (hstep : procStep timeouts th c p = some q) :
    q.flow = p.flow ∧ q.installed = p.installed ∧ q.role = p.role ∧
        (q.offspring = p.offspring ∨
          (∃ status, p.offspring = .zombie status) ∧ q.offspring = .reaped) ∨
      FlowSteps timeouts p q c := by
  obtain ⟨-, -, hsteps⟩ := procStep_steps hstep
  cases hsteps with
  | killed _ hq | signal _ _ hq | signalWatcher _ _ hq =>
    subst hq
    exact .inl ⟨rfl, rfl, rfl, .inl rfl⟩
  | flow _ hflow => exact .inr hflow
  | frame _ hr hq | frameWatcher _ hr hq =>
    subst hq
    have hkeeps := frameStep_keeps hr
    exact .inl ⟨hkeeps.flow, hkeeps.installed, hkeeps.role, frameStep_offspring hr⟩

/-- Where a main flow can be: behind `fork` there is an offspring, before it there is none, a
process that reads has its handlers, and the subchild never gets to the places of the other two. -/
structure Shaped (p : Proc) : Prop where
  forked : p.flow = .assign ∨ p.flow = .reading ∨ p.flow = .canExit ∨ p.flow = .waitpid →
    p.offspring ≠ .none
  early : p.flow = .unborn ∨ p.flow = .setup ∨ p.flow = .fork → p.offspring = .none
  installed : p.role = .child ∨ p.flow = .fork ∨ p.flow = .assign ∨ p.flow = .reading →
    p.installed = true
  subchild : p.role = .subchild →
    p.flow = .unborn ∨ p.flow = .shell ∨ p.flow = .command ∨ p.flow = .returned

/-- A handler or a function that it has called takes a step: the main flow stays where it is, and
at most the offspring, which has ended, is waited for. -/
theorem Shaped.framed (h : Shaped p) (hflow : q.flow = p.flow) (hinst : q.installed = p.installed)
    (hrole : q.role = p.role) (hoff : q.offspring = p.offspring ∨
      (∃ status, p.offspring = .zombie status) ∧ q.offspring = .reaped) : Shaped q := by
  obtain ⟨hforked, hearly, hinstalled, hsub⟩ := h
  rw [← hflow] at hforked hearly hinstalled hsub
  rw [← hinst, ← hrole] at hinstalled
  rw [← hrole] at hsub
  refine ⟨?_, ?_, hinstalled, hsub⟩
  · intro hfl
    rcases hoff with hoff | ⟨-, hr⟩
    · rw [hoff]
      exact hforked hfl
    · rw [hr]
      exact Offspring.noConfusion
  · intro hfl
    rcases hoff with hoff | ⟨⟨status, hz⟩, -⟩
    · rw [hoff]
      exact hearly hfl
    · -- before `fork` there is nothing that could have ended
      exact absurd ((hearly hfl).symm.trans hz) Offspring.noConfusion

/-- The main flow moves to a place behind `fork`.  It has something to wait for there if it is to
wait, its handlers are installed if it has a loop, and it is none of the places of the other two
if it is the subchild. -/
theorem Shaped.move (h : Shaped p) (hrole : q.role = p.role) (hinst : q.installed = p.installed)
    (hlate : q.flow ≠ .unborn ∧ q.flow ≠ .setup ∧ q.flow ≠ .fork)
    (hforked : q.flow = .assign ∨ q.flow = .reading ∨ q.flow = .canExit ∨ q.flow = .waitpid →
      q.offspring ≠ .none)
    (hinstalled : q.flow = .assign ∨ q.flow = .reading → p.installed = true)
    (hsub : p.role = .subchild → q.flow = .shell ∨ q.flow = .command ∨ q.flow = .returned) :
    Shaped q := by
  refine ⟨hforked, ?_, ?_, ?_⟩
  · rintro (hfl | hfl | hfl)
    · exact absurd hfl hlate.1
    · exact absurd hfl hlate.2.1
    · exact absurd hfl hlate.2.2
  · rw [hrole, hinst]
    rintro (hchild | hfl | hfl | hfl)
    · exact h.installed (.inl hchild)
    · exact absurd hfl hlate.2.2
    · exact hinstalled (.inl hfl)
    · exact hinstalled (.inr hfl)
  · rw [hrole]
    exact fun hs => .inr (hsub hs)

/-- The subchild forks nothing, and so it is never where the other two are. -/
theorem Shaped.role_ne (h : Shaped p)
    (hfl : ¬ (p.flow = .unborn ∨ p.flow = .shell ∨ p.flow = .command ∨ p.flow = .returned)) :
    p.role ≠ .subchild := fun hrole => hfl (h.subchild hrole)

/-- The main flow at the places before its loop. -/
theorem Shaped.starts (h : Shaped p) (hflow : FlowSteps timeouts p q c)
    (hfl : p.flow = .setup ∨ p.flow = .fork ∨ p.flow = .assign ∨ p.flow = .shell) : Shaped q := by
  cases hflow with
  | install hfl hq =>
    subst hq
    refine ⟨by simp, fun _ => h.early (.inr (.inl hfl)), fun _ => rfl, fun hrole => ?_⟩
    exact absurd hrole (h.role_ne (by simp [hfl]))
  | fails hfl hq =>
    subst hq
    exact h.move rfl rfl (by simp [Proc.fails]) (by simp [Proc.fails]) (by simp [Proc.fails])
      fun _ => .inr (.inr rfl)
  | fork hfl hq =>
    subst hq
    refine h.move rfl rfl (by simp) (fun _ => Offspring.noConfusion) ?_ ?_
    · exact fun _ => h.installed (.inr (.inl hfl))
    · exact fun hrole => absurd hrole (h.role_ne (by simp [hfl]))
  | setChild _ hq | setSubchild _ _ hq =>
    -- the pid variables are in no condition
    subst hq
    exact ⟨h.forked, h.early, h.installed, h.subchild⟩
  | assigned hfl hq =>
    subst hq
    refine h.move rfl rfl (by simp) (fun _ => h.forked (.inl hfl)) ?_ ?_
    · exact fun _ => h.installed (.inr (.inr (.inl hfl)))
    · exact fun hrole => absurd hrole (h.role_ne (by simp [hfl]))
  | exec hfl hq =>
    subst hq
    exact h.move rfl rfl (by simp) (by simp) (by simp) fun _ => .inr (.inl rfl)
  | failsReading hfl' | exits hfl' | eof hfl' | libzstd hfl' | test hfl' | reap hfl' | noChild hfl'
  | refused hfl' | enter hfl' | exit hfl' | returns hfl' => simp [hfl'] at hfl

/-- The main flow in the loop and at the calls of `waitpid` behind it: whatever has been forked
stays forked. -/
theorem Shaped.loops (h : Shaped p) (hflow : FlowSteps timeouts p q c)
    (hfl : p.flow = .reading ∨ p.flow = .canExit ∨ p.flow = .waitpid) : Shaped q := by
  have hsub : p.role ≠ .subchild := h.role_ne (by rcases hfl with hfl | hfl | hfl <;> simp [hfl])
  have hoff : p.offspring ≠ .none := h.forked (.inr hfl)
  cases hflow with
  | failsReading hfl hq =>
    subst hq
    refine h.move rfl rfl (by simp [Proc.fails]) (fun _ => hoff) ?_ (absurd · hsub)
    exact fun _ => h.installed (.inr (.inr (.inr hfl)))
  | eof hfl hover hq =>
    subst hq
    rcases hover with rfl | rfl
    · exact h.move rfl rfl (by simp) (fun _ => hoff) (by simp) (absurd · hsub)
    · exact h.move rfl rfl (by simp) (fun _ => hoff) (by simp) (absurd · hsub)
  | libzstd _ _ _ hq =>
    subst hq
    exact ⟨h.forked, h.early, h.installed, h.subchild⟩
  | test hfl htest hq =>
    subst hq
    rcases htest with ⟨-, rfl⟩ | rfl
    · exact h.move rfl rfl (by simp) (fun _ => hoff) (by simp) (absurd · hsub)
    · exact h.move rfl rfl (by simp) (fun _ => hoff) (by simp) (absurd · hsub)
  | reap hfl hz hfl' hq =>
    subst hq
    rcases hfl' with rfl | rfl
    · exact h.move rfl rfl (by simp) (fun _ => Offspring.noConfusion) (by simp) (absurd · hsub)
    · exact h.move rfl rfl (by simp) (fun _ => Offspring.noConfusion) (by simp) (absurd · hsub)
  | noChild hfl hr hq =>
    rcases hq with rfl | rfl
    · exact h.move rfl rfl (by simp) (fun _ => hoff) (by simp) (absurd · hsub)
    · exact h.move rfl rfl (by simp) (fun _ => hoff) (by simp) (absurd · hsub)
  | install hfl' | fork hfl' | setChild hfl' | setSubchild hfl' | assigned hfl' | exec hfl'
  | exits hfl' | refused hfl' | enter hfl' | exit hfl' | returns hfl' => simp [hfl'] at hfl
  | fails hfl' => rcases hfl' with hfl' | hfl' | hfl' <;> simp [hfl'] at hfl

/-- The main flow at the end: the command, `done`, and the end of `main`. -/
theorem Shaped.ends (h : Shaped p) (hflow : FlowSteps timeouts p q c)
    (hfl : p.flow = .command ∨ (∃ status, p.flow = .done status ∨ p.flow = .cleanup status) ∨
      p.flow = .returned) : Shaped q := by
  cases hflow with
  | exits _ hq | exit _ hq | returns _ hq =>
    subst hq
    exact ⟨h.forked, h.early, h.installed, h.subchild⟩
  | refused hfl _ hq =>
    subst hq
    exact h.move rfl rfl (by simp) (by simp) (by simp) fun _ => .inr (.inr rfl)
  | enter hfl hq =>
    subst hq
    refine h.move rfl rfl (by simp) (by simp) (by simp) fun hrole => ?_
    exact absurd hrole (h.role_ne (by simp [hfl]))
  | install hfl' | failsReading hfl' | fork hfl' | setChild hfl' | setSubchild hfl' | assigned hfl'
  | exec hfl' | eof hfl' | libzstd hfl' | test hfl' | reap hfl' | noChild hfl' => simp [hfl'] at hfl
  | fails hfl' => rcases hfl' with hfl' | hfl' | hfl' <;> simp [hfl'] at hfl

/-- Wherever the main flow goes, and whatever happens above it. -/
theorem Shaped.step (h : Shaped p) (hstep : procStep timeouts th c p = some q) : Shaped q := by
  rcases procStep_cases hstep with ⟨hflow, hinst, hrole, hoff⟩ | hflow
  · exact h.framed hflow hinst hrole hoff
  · cases hfl : p.flow with
    | unborn => exact absurd hfl (procStep_steps hstep).2.1
    | setup | fork | assign | shell => exact h.starts hflow (by simp [hfl])
    | reading | canExit | waitpid => exact h.loops hflow (by simp [hfl])
    | command | done _ | cleanup _ | returned => exact h.ends hflow (by simp [hfl])

theorem Shaped.begin (h : Shaped p) {fl : Flow} (hfl : fl = .fork ∧ p.role = .child ∨
    fl = .shell ∧ p.role = .subchild) : Shaped (p.begin fl) := by
  unfold Proc.begin
  split
  next hunborn =>
    rcases hfl with ⟨rfl, hrole⟩ | ⟨rfl, hrole⟩
    · refine ⟨by simp, fun _ => h.early (.inl hunborn), fun _ => h.installed (.inl hrole), ?_⟩
      exact fun hsub => Role.noConfusion (hrole.symm.trans hsub)
    · refine ⟨by simp, by simp, ?_, by simp⟩
      intro hchild
      simp [hrole] at hchild
  next => exact h

theorem Shaped.inform (h : Shaped p) (ended : Option Leave) : Shaped (p.inform ended) := by
  unfold Proc.inform
  split
  next l hrunning =>
    refine ⟨fun _ => Offspring.noConfusion, ?_, h.installed, h.subchild⟩
    intro hfl
    exact absurd ((h.early hfl).symm.trans hrunning) Offspring.noConfusion
  next => exact h

/-! ### A child that is waited for -/

/-- Above the main flow, on one of the threads. -/
def Proc.Above (p : Proc) (f : Frame) : Prop := f ∈ p.handlers ∨ f ∈ p.watcher

/-- The function ends the process. -/
def Frame.Ends : Frame → Prop
  | .finish die => die = true
  | .swing => False
  | _ => True

/-- A process whose mutex is taken is about to exit, and one that has waited for its offspring while
it reads is too.  This is what `finish` does by calling `done`, and it fails for a `finish` that
waits before the pid is in `child`. -/
structure Named (p : Proc) : Prop where
  entered : p.entered = true → p.ended = none →
    (∃ status origin, p.Above (.cleanup status origin)) ∨ ∃ status, p.flow = .cleanup status
  dying : p.offspring = .reaped → p.ended = none → p.flow = .assign ∨ p.flow = .reading →
    ∃ f, p.Above f ∧ f.Ends

/-- What is left of a function that has gone on. -/
theorem frameStep_next (hsub : p.subchildSet = false) {f : Frame} {r : Proc × List Frame}
    (hstep : frameStep f c p = some r) :
    (∃ l, r.1.ended = some l) ∨
      (∀ status origin, f ≠ .cleanup status origin) ∧ r.1.flow = p.flow ∧
        (r.1.entered = p.entered ∨ ∃ status origin, .cleanup status origin ∈ r.2) ∧
        (r.1.offspring = p.offspring ∧ (f.Ends → (∃ g ∈ r.2, g.Ends) ∨ p.entered = true) ∨
          (∃ die, f = .finish die) ∧ (∃ status, p.offspring = .zombie status) ∧
            (p.childSet = true → ∃ g ∈ r.2, g.Ends)) := by
  unfold frameStep at hstep
  split at hstep
  next die =>
    cases hstep
    refine .inr ⟨fun _ _ => Frame.noConfusion, ?_⟩
    unfold finish
    split
    next status hz =>
      -- it is the parent, so `finish` compares the pid with `child`
      rw [hsub, if_neg Bool.noConfusion]
      split_ifs with hchild
      · refine ⟨rfl, .inl rfl, .inr ⟨⟨die, rfl⟩, ⟨status, hz⟩, fun _ => ?_⟩⟩
        exact ⟨_, List.mem_singleton_self _, rfl⟩
      · exact ⟨rfl, .inl rfl, .inr ⟨⟨die, rfl⟩, ⟨status, hz⟩, fun hset => absurd hset hchild⟩⟩
    next =>
      refine ⟨rfl, .inl rfl, .inl ⟨rfl, fun hdie => .inl ?_⟩⟩
      rw [if_pos (show die = true from hdie)]
      exact ⟨_, List.mem_singleton_self _, trivial⟩
  next =>
    cases hstep
    exact .inr ⟨fun _ _ => Frame.noConfusion, rfl, .inl rfl, .inl ⟨rfl, fun he => he.elim⟩⟩
  next =>
    cases hstep
    exact .inr ⟨fun _ _ => Frame.noConfusion, rfl, .inl rfl, .inl ⟨rfl, fun he => he.elim⟩⟩
  next =>
    split at hstep
    · cases hstep
      refine .inr ⟨fun _ _ => Frame.noConfusion, rfl, .inl rfl, .inl ⟨rfl, fun _ => .inl ?_⟩⟩
      exact ⟨_, List.mem_cons_self, trivial⟩
    · cases hstep
      exact .inl ⟨_, rfl⟩
  next =>
    cases hstep
    refine .inr ⟨fun _ _ => Frame.noConfusion, rfl, .inl rfl, .inl ⟨rfl, fun _ => .inl ?_⟩⟩
    exact ⟨_, List.mem_cons_self, trivial⟩
  next status origin =>
    cases hstep
    refine .inr ⟨fun _ _ => Frame.noConfusion, ?_⟩
    unfold done
    split_ifs with hentered
    · -- `done` returns only if the mutex has been taken before
      exact ⟨rfl, .inl rfl, .inl ⟨rfl, fun _ => .inr hentered⟩⟩
    · refine ⟨rfl, .inr ⟨status, origin, List.mem_singleton_self _⟩, .inl ⟨rfl, fun _ => .inl ?_⟩⟩
      exact ⟨_, List.mem_singleton_self _, trivial⟩
  next =>
    cases hstep
    exact .inl ⟨_, rfl⟩
  next => cases hstep

/-- A function above the main flow goes on, and those beneath it stay. -/
theorem Named.frame (h : Named p) (hsub : p.subchildSet = false) {f : Frame}
    {r : Proc × List Frame} (hrun : p.ended = none) (hstep : frameStep f c p = some r)
    (hkeep : ∀ g, p.Above g → g = f ∨ q.Above g) (hnew : ∀ g ∈ r.2, q.Above g)
    (hq : q.ended = r.1.ended ∧ q.offspring = r.1.offspring ∧ q.flow = r.1.flow ∧
      q.entered = r.1.entered)
    (hnamed : (∃ die, f = .finish die) → (∃ status, p.offspring = .zombie status) →
      p.childSet = true) : Named q := by
  obtain ⟨hended, hoff, hflow, hentered⟩ := hq
  rcases frameStep_next hsub hstep with ⟨l, hl⟩ | ⟨hnot, hfl, hin, hrest⟩
  · have hdead : q.ended ≠ none := by
      rw [hended, hl]
      exact Option.some_ne_none l
    exact ⟨fun _ hrun => absurd hrun hdead, fun _ hrun => absurd hrun hdead⟩
  · -- `cleanup` stays where it is
    have hcleanup : p.entered = true → (∃ status origin, q.Above (.cleanup status origin)) ∨
        ∃ status, q.flow = .cleanup status := by
      intro hin
      rcases h.entered hin hrun with ⟨status, origin, habove⟩ | ⟨status, hcl⟩
      · exact .inl ⟨status, origin, (hkeep _ habove).resolve_left fun heq => hnot _ _ heq.symm⟩
      · exact .inr ⟨status, by rw [hflow, hfl, hcl]⟩
    constructor
    · intro hqin _
      rcases hin with hsame | ⟨status, origin, hmem⟩
      · exact hcleanup (by rw [← hsame, ← hentered, hqin])
      · exact .inl ⟨status, origin, hnew _ hmem⟩
    · intro hr _ hqfl
      rcases hrest with ⟨hsame, hends⟩ | ⟨hfinish, hz, hends⟩
      · obtain ⟨g, habove, hg⟩ := h.dying (by rw [← hsame, ← hoff, hr]) hrun (by rwa [← hfl, ← hflow])
        rcases hkeep g habove with rfl | hstays
        · -- it was the function at the top
          rcases hends hg with ⟨g', hmem, hg'⟩ | hpin
          · exact ⟨g', hnew _ hmem, hg'⟩
          · rcases hcleanup hpin with ⟨status, origin, habove'⟩ | ⟨status, hcl⟩
            · exact ⟨_, habove', trivial⟩
            · rw [hcl] at hqfl
              simp at hqfl
        · exact ⟨g, hstays, hg⟩
      · -- `finish` has just waited for the child, and goes on to `done`
        obtain ⟨g, hmem, hg⟩ := hends (hnamed hfinish hz)
        exact ⟨g, hnew g hmem, hg⟩

/-- Nothing above the main flow goes away, and the offspring and the mutex stay as they are. -/
theorem Named.more (h : Named p) (hrun : p.ended = none) (hkeep : ∀ g, p.Above g → q.Above g)
    (hq : q.offspring = p.offspring ∧ q.flow = p.flow ∧ q.entered = p.entered) : Named q := by
  obtain ⟨hoff, hflow, hentered⟩ := hq
  constructor
  · intro hin _
    rw [hflow]
    refine (h.entered (hentered ▸ hin) hrun).imp_left ?_
    rintro ⟨status, origin, habove⟩
    exact ⟨status, origin, hkeep _ habove⟩
  · intro hr _ hfl
    obtain ⟨f, habove, hf⟩ := h.dying (hoff ▸ hr) hrun (hflow ▸ hfl)
    exact ⟨f, hkeep f habove, hf⟩

/-- The main flow is about to exit, or is not where it reads. -/
theorem Named.leaves (h : Named p) (hrun : p.ended = none) (hkeep : ∀ g, p.Above g → q.Above g)
    (hflow : q.flow ≠ .assign ∧ q.flow ≠ .reading) (hp : ∀ status, p.flow ≠ .cleanup status)
    (hin : q.entered = p.entered ∨ ∃ status, q.flow = .cleanup status) : Named q := by
  constructor
  · intro hqin _
    rcases hin with hsame | hcl
    · rcases h.entered (hsame ▸ hqin) hrun with ⟨status, origin, habove⟩ | ⟨status, hcl⟩
      · exact .inl ⟨status, origin, hkeep _ habove⟩
      · exact absurd hcl (hp status)
    · exact .inr hcl
  · rintro - - (hfl | hfl)
    · exact absurd hfl hflow.1
    · exact absurd hfl hflow.2

theorem Named.dead {l : Leave} (hq : q.ended = some l) : Named q := by
  have hdead : q.ended ≠ none := by
    rw [hq]
    exact Option.some_ne_none l
  exact ⟨fun _ hrun => absurd hrun hdead, fun _ hrun => absurd hrun hdead⟩

/-- The main flow takes a step. -/
theorem Named.flow (h : Named p) (hrun : p.ended = none) (hframes : p.handlers = [])
    (hstep : FlowSteps timeouts p q c) : Named q := by
  -- `fail` is called where no handler is
  have hfails : ∀ fl g, p.Above g → (p.fails fl).Above g := by
    rintro fl g (habove | habove)
    · rw [hframes] at habove
      exact absurd habove List.not_mem_nil
    · exact .inr habove
  cases hstep with
  | install hfl hq =>
    subst hq
    exact h.leaves hrun (fun _ => id) ⟨by simp, by simp⟩ (by simp [hfl]) (.inl rfl)
  | fails hfl hq =>
    subst hq
    refine h.leaves hrun (hfails _) ⟨by simp [Proc.fails], by simp [Proc.fails]⟩ ?_ (.inl rfl)
    intro status hcl
    simp [hcl] at hfl
  | failsReading hfl hq =>
    subst hq
    exact h.more hrun (hfails _) ⟨rfl, hfl.symm, rfl⟩
  | fork hfl hq =>
    subst hq
    constructor
    · intro hin _
      refine (h.entered hin hrun).imp_right ?_
      rintro ⟨status, hcl⟩
      exact absurd (hfl.symm.trans hcl) Flow.noConfusion
    · exact fun hr => Offspring.noConfusion hr
  | setChild _ hq | setSubchild _ _ hq =>
    subst hq
    exact h.more hrun (fun _ => id) ⟨rfl, rfl, rfl⟩
  | assigned hfl hq =>
    subst hq
    constructor
    · intro hin _
      refine (h.entered hin hrun).imp_right ?_
      rintro ⟨status, hcl⟩
      exact absurd (hfl.symm.trans hcl) Flow.noConfusion
    · exact fun hr _ _ => h.dying hr hrun (.inl hfl)
  | exec hfl hq =>
    subst hq
    exact h.leaves hrun (fun _ => id) ⟨by simp, by simp⟩ (by simp [hfl]) (.inl rfl)
  | exits _ hq | libzstd _ _ _ hq | exit _ hq | returns _ hq =>
    subst hq
    exact .dead rfl
  | eof hfl hover hq =>
    subst hq
    refine h.leaves hrun (fun _ => id) ?_ (by simp [hfl]) (.inl rfl)
    rcases hover with rfl | rfl <;> simp
  | test hfl htest hq =>
    subst hq
    refine h.leaves hrun (fun _ => id) ?_ (by simp [hfl]) (.inl rfl)
    rcases htest with ⟨-, rfl⟩ | rfl <;> simp
  -- from here on the main flow itself is on its way to `done`
  | reap hfl hz hfl' hq =>
    subst hq
    refine h.leaves hrun (fun _ => id) ?_ (by simp [hfl]) (.inl rfl)
    rcases hfl' with rfl | rfl <;> simp
  | noChild hfl hr hq =>
    rcases hq with rfl | rfl
    · exact h.leaves hrun (fun _ => id) ⟨by simp, by simp⟩ (by simp [hfl]) (.inl rfl)
    · exact h.leaves hrun (fun _ => id) ⟨by simp, by simp⟩ (by simp [hfl]) (.inl rfl)
  | refused hfl _ hq =>
    subst hq
    exact h.leaves hrun (fun _ => id) ⟨by simp, by simp⟩ (by simp [hfl]) (.inl rfl)
  | enter hfl hq =>
    subst hq
    exact h.leaves hrun (fun _ => id) ⟨by simp, by simp⟩ (by simp [hfl]) (.inr ⟨_, rfl⟩)

/-- The stack of a thread. -/
def Proc.frames (p : Proc) : Thread → List Frame
  | .main => p.handlers
  | .watcher => p.watcher

/-- `finish` is about to wait for a child whose pid is not in `child` yet. -/
def Proc.ReapsUnnamed (p : Proc) (th : Thread) (c : Choice) : Prop :=
  p.childSet = false ∧ c = .go ∧ (∃ status, p.offspring = .zombie status) ∧
    ∃ die, (p.frames th).head? = some (.finish die)

instance (o : Offspring) : Decidable (∃ status, o = .zombie status) :=
  match o with
  | .zombie status => isTrue ⟨status, rfl⟩
  | .none | .running | .reaped => isFalse (by simp)

instance (p : Proc) (th : Thread) (c : Choice) : Decidable (p.ReapsUnnamed th c) :=
  inferInstanceAs (Decidable (_ ∧ _))

/-- **A child that is waited for has its name**: a `finish` that takes its status then knows it, and
calls `done`. -/
theorem Named.step (h : Named p) (hsub : p.subchildSet = false) (hnamed : ¬ p.ReapsUnnamed th c)
    (hstep : procStep timeouts th c p = some q) : Named q := by
  obtain ⟨hrun, -, hsteps⟩ := procStep_steps hstep
  -- the side condition is about the `finish` at the top, when it is to wait
  have hset : ∀ {f fs r}, p.frames th = f :: fs → frameStep f c p = some r →
      (∃ die, f = .finish die) → (∃ status, p.offspring = .zombie status) → p.childSet = true := by
    rintro f fs r hframes hr ⟨die, rfl⟩ hz
    by_contra hunset
    refine hnamed ⟨Bool.not_eq_true _ ▸ hunset, ?_, hz, die, by rw [hframes]; rfl⟩
    cases c with
    | go => rfl
    | _ => cases hr
  cases hsteps with
  | killed _ hq =>
    subst hq
    exact .dead rfl
  | signal _ _ hq =>
    subst hq
    exact h.more hrun (fun _ => Or.imp_left (List.mem_cons_of_mem _)) ⟨rfl, rfl, rfl⟩
  | signalWatcher _ _ hq =>
    subst hq
    exact h.more hrun (fun _ => Or.imp_right (List.mem_cons_of_mem _)) ⟨rfl, rfl, rfl⟩
  | flow hframes hflow => exact h.flow hrun hframes hflow
  | @frame _ f fs r hframes hr hq =>
    subst hq
    refine h.frame hsub hrun hr ?_ (fun g hg => .inl (List.mem_append_left _ hg)) ⟨rfl, rfl, rfl, rfl⟩
      (hset hframes hr)
    rintro g (hg | hg)
    · rw [hframes] at hg
      exact (List.mem_cons.mp hg).imp_right fun hg => .inl (List.mem_append_right _ hg)
    · exact .inr (.inr ((frameStep_keeps hr).watcher ▸ hg))
  | @frameWatcher _ f fs r hframes hr hq =>
    subst hq
    refine h.frame hsub hrun hr ?_ (fun g hg => .inr (List.mem_append_left _ hg)) ⟨rfl, rfl, rfl, rfl⟩
      (hset hframes hr)
    rintro g (hg | hg)
    · exact .inr (.inl ((frameStep_keeps hr).handlers ▸ hg))
    · rw [hframes] at hg
      exact (List.mem_cons.mp hg).imp_right fun hg => .inr (List.mem_append_right _ hg)

end Process

/-! ### The three of them -/

section Session

variable {p q : Proc} {c : Choice} {th : Thread} {timeouts : Bool} {s t : Session} {e : Event}

/-- A step forks, or leaves the offspring alone, or waits for it; no step does two of these. -/
theorem procStep_forks (hstep : procStep timeouts th c p = some q) :
    p.flow = .fork ∧ q.flow = .assign ∧ q.offspring = .running ∨
      ¬ (p.flow = .fork ∧ q.flow = .assign) ∧ (q.offspring = p.offspring ∨
        (∃ status, p.offspring = .zombie status) ∧ q.offspring = .reaped) := by
  rcases procStep_cases hstep with ⟨hflow, -, -, hoff⟩ | hflow
  · refine .inr ⟨?_, hoff⟩
    rintro ⟨hp, hq⟩
    exact absurd (hp.symm.trans (hflow.symm.trans hq)) Flow.noConfusion
  · cases hflow with
    | fork hfl hq =>
      subst hq
      exact .inl ⟨hfl, rfl, rfl⟩
    | fails hfl hq =>
      subst hq
      exact .inr ⟨fun h => Flow.noConfusion h.2, .inl rfl⟩
    | install hfl hq | failsReading hfl hq | setChild hfl hq | setSubchild hfl _ hq | assigned hfl hq
    | exec hfl hq | exits hfl hq | eof hfl _ hq | libzstd hfl _ _ hq | test hfl _ hq
    | refused hfl _ hq | enter hfl hq | exit hfl hq | returns hfl hq =>
      subst hq
      exact .inr ⟨fun h => Flow.noConfusion (hfl.symm.trans h.1), .inl rfl⟩
    | reap hfl hz _ hq =>
      subst hq
      exact .inr ⟨fun h => Flow.noConfusion (hfl.symm.trans h.1), .inr ⟨⟨_, hz⟩, rfl⟩⟩
    | noChild hfl _ hq =>
      rcases hq with rfl | rfl <;>
      exact .inr ⟨fun h => Flow.noConfusion (hfl.symm.trans h.1), .inl rfl⟩

/-- A process that has begun does not become unborn. -/
theorem procStep_born (hstep : procStep timeouts th c p = some q) : q.flow ≠ .unborn := by
  obtain ⟨-, hborn, -⟩ := procStep_steps hstep
  rcases procStep_cases hstep with ⟨hflow, -⟩ | hflow
  · rwa [hflow]
  · cases hflow with
    | setChild _ hq | setSubchild _ _ hq | exits _ hq | libzstd _ _ _ hq | exit _ hq | returns _ hq =>
      subst hq
      exact hborn
    | eof _ h hq | reap _ _ h hq =>
      subst hq
      rcases h with rfl | rfl <;> exact Flow.noConfusion
    | test _ h hq =>
      subst hq
      rcases h with ⟨-, rfl⟩ | rfl <;> exact Flow.noConfusion
    | noChild _ _ hq => rcases hq with rfl | rfl <;> exact Flow.noConfusion
    | install _ hq | fails _ hq | failsReading _ hq | fork _ hq | assigned _ hq | exec _ hq
    | refused _ _ hq | enter _ hq =>
      subst hq
      exact Flow.noConfusion

@[simp] theorem Proc.inform_flow (p : Proc) (ended : Option Leave) :
    (p.inform ended).flow = p.flow := by
  unfold Proc.inform
  split <;> rfl

@[simp] theorem Proc.inform_ended (p : Proc) (ended : Option Leave) :
    (p.inform ended).ended = p.ended := by
  unfold Proc.inform
  split <;> rfl

theorem Proc.inform_none (p : Proc) (ended : Option Leave) :
    (p.inform ended).offspring = .none ↔ p.offspring = .none := by
  unfold Proc.inform
  split
  next l hrunning => simp [hrunning]
  next => exact Iff.rfl

theorem Proc.inform_running {p : Proc} {ended : Option Leave}
    (h : (p.inform ended).offspring = .running) : p.offspring = .running ∧ ended = none := by
  cases ended with
  | none => exact ⟨by simpa [Proc.inform] using h, rfl⟩
  | some l =>
    cases hoff : p.offspring with
    | running => simp [Proc.inform, hoff] at h
    | _ => simp [Proc.inform, hoff] at h

/-- A process and its offspring: the one has forked exactly if the other is there, and an offspring
that counts as running has not ended. -/
structure Linked (p o : Proc) : Prop where
  born : p.offspring = .none ↔ o.flow = .unborn
  runs : p.offspring = .running → o.ended = none
  unborn : o.flow = .unborn → o.ended = none

/-- The process takes a step.  If it forks, its offspring begins. -/
theorem Linked.step {o : Proc} (h : Linked p o) (hp : Shaped p) (fl : Flow) (hfl : fl ≠ .unborn)
    (hstep : procStep timeouts th c p = some q) :
    Linked q (if p.flow = .fork ∧ q.flow = .assign then o.begin fl else o) := by
  rcases procStep_forks hstep with ⟨hpfl, hqfl, hoff⟩ | ⟨hnot, hoff⟩
  · rw [if_pos ⟨hpfl, hqfl⟩]
    -- `fork`: the offspring was not there before
    have hunborn := h.born.mp (hp.early (.inr (.inr hpfl)))
    have hbegin : o.begin fl = { o with flow := fl } := by
      unfold Proc.begin
      rw [hunborn]
    rw [hbegin]
    refine ⟨?_, fun _ => h.unborn hunborn, fun hq => absurd hq hfl⟩
    rw [hoff]
    exact ⟨fun hn => Offspring.noConfusion hn, fun hq => absurd hq hfl⟩
  · rw [if_neg hnot]
    -- no `fork`: the offspring at most changes from ended to waited for
    rcases hoff with hoff | ⟨⟨status, hz⟩, hr⟩
    · exact ⟨by rw [hoff]; exact h.born, by rw [hoff]; exact h.runs, h.unborn⟩
    · refine ⟨?_, fun hrun => Offspring.noConfusion (hr.symm.trans hrun), h.unborn⟩
      rw [hr, ← h.born, hz]
      simp

/-- The offspring takes a step, and its parent is told when that was the last. -/
theorem Linked.offspring {o o' : Proc} (h : Linked p o)
    (hstep : procStep timeouts th c o = some o') : Linked (p.inform o'.ended) o' := by
  obtain ⟨-, hborn, -⟩ := procStep_steps hstep
  have hborn' := procStep_born hstep
  refine ⟨?_, fun hrun => (Proc.inform_running hrun).2, fun hun => absurd hun hborn'⟩
  rw [Proc.inform_none, h.born]
  exact ⟨fun hun => absurd hun hborn, fun hun => absurd hun hborn'⟩

/-- The invariant of the session: each process fits the one that has forked it.  The chain of two
links is why a session that has nothing left to do has come to its end. -/
structure SessionLinked (s : Session) : Prop where
  inv : SessionInv s
  subchild : Shaped s.subchild
  child : Shaped s.child
  parent : Shaped s.parent
  upper : Linked s.parent s.child
  lower : Linked s.child s.subchild
  born : s.parent.flow ≠ .unborn

/-- At the beginning there is only the parent. -/
theorem sessionLinked_start : SessionLinked Session.start := by
  refine ⟨sessionInv_start, ?_, ?_, ?_, ?_, ?_, Flow.noConfusion⟩
  · exact ⟨by simp [Session.start, Proc.fresh], fun _ => rfl, fun _ => rfl, fun _ => .inl rfl⟩
  · exact ⟨by simp [Session.start, Proc.fresh], fun _ => rfl, fun _ => rfl, fun _ => .inl rfl⟩
  · exact ⟨by simp [Session.start, Proc.fresh], fun _ => rfl, by simp [Session.start, Proc.fresh],
      fun hrole => Role.noConfusion hrole⟩
  · exact ⟨⟨fun _ => rfl, fun _ => rfl⟩, fun _ => rfl, fun _ => rfl⟩
  · exact ⟨⟨fun _ => rfl, fun _ => rfl⟩, fun _ => rfl, fun _ => rfl⟩

theorem Proc.begin_offspring (p : Proc) (fl : Flow) : (p.begin fl).offspring = p.offspring := by
  unfold Proc.begin
  split <;> rfl

/-- The process is told what has become of its own offspring. -/
theorem Linked.inform {o : Proc} (h : Linked p o) (ended : Option Leave) :
    Linked p (o.inform ended) := by
  obtain ⟨hborn, hruns, hunborn⟩ := h
  constructor
  · rwa [Proc.inform_flow]
  · rwa [Proc.inform_ended]
  · rwa [Proc.inform_flow, Proc.inform_ended]

/-- The offspring begins, and has not forked yet. -/
theorem Linked.begins {o : Proc} (h : Linked p o) {fl : Flow} : Linked (p.begin fl) o := by
  obtain ⟨hborn, hruns, hunborn⟩ := h
  constructor
  · rwa [Proc.begin_offspring]
  · rwa [Proc.begin_offspring]
  · exact hunborn

/-- A step of one process touches its own links: upwards to the one that has forked it, which is
told of its end, and downwards to the one that it forks. -/
theorem sessionLinked_step (h : SessionLinked s) (hstep : sessionStep timeouts s e = some t) :
    SessionLinked t := by
  have hinv := sessionInv_step h.inv hstep
  unfold sessionStep at hstep
  split at hstep
  next =>
    obtain ⟨p, hp, rfl⟩ := Option.map_eq_some_iff.mp hstep
    -- the parent may fork the child
    have hupper := h.upper.step h.parent .fork (by simp) hp
    have hparent := h.parent.step hp
    split_ifs at hinv hupper ⊢
    · exact ⟨hinv, h.subchild, h.child.begin (.inl ⟨rfl, h.inv.child_role⟩), hparent, hupper,
        h.lower.begins, procStep_born hp⟩
    · exact ⟨hinv, h.subchild, h.child, hparent, hupper, h.lower, procStep_born hp⟩
  next =>
    obtain ⟨p, hp, rfl⟩ := Option.map_eq_some_iff.mp hstep
    -- the child may fork the subchild, and its end is for the parent
    have hlower := h.lower.step h.child .shell (by simp) hp
    have hchild := h.child.step hp
    have hupper := h.upper.offspring hp
    have hparent := h.parent.inform p.ended
    have hborn : (s.parent.inform p.ended).flow ≠ .unborn := by
      rw [Proc.inform_flow]
      exact h.born
    split_ifs at hinv hlower ⊢
    · exact ⟨hinv, h.subchild.begin (.inr ⟨rfl, h.inv.subchild_role⟩), hchild, hparent, hupper,
        hlower, hborn⟩
    · exact ⟨hinv, h.subchild, hchild, hparent, hupper, hlower, hborn⟩
  next =>
    obtain ⟨p, hp, rfl⟩ := Option.map_eq_some_iff.mp hstep
    exact ⟨hinv, h.subchild.step hp, h.child.inform p.ended, h.parent, h.upper.inform p.ended,
      h.lower.offspring hp, h.born⟩

/-- A process that begins has less to do than one that has not been forked. -/
theorem Proc.begin_cost (p : Proc) {fl : Flow} (hfl : fl = .fork ∨ fl = .shell) :
    (p.begin fl).cost ≤ p.cost := by
  unfold Proc.begin
  split
  next hunborn =>
    have hlt : { p with flow := fl }.flowCost ≤ p.flowCost := by
      rcases hfl with rfl | rfl <;> simp [Proc.flowCost, hunborn]
    unfold Proc.cost
    split
    · exact le_rfl
    · exact Nat.add_le_add_right (Nat.add_le_add_right (Nat.add_le_add_right hlt _) _) _
  next => exact le_rfl

/-- A running offspring costs more than the two signals of a zombie. -/
theorem Proc.inform_cost (p : Proc) (ended : Option Leave) : (p.inform ended).cost ≤ p.cost := by
  unfold Proc.inform
  split
  next l hrunning =>
    have hflow : { p with offspring := .zombie l.status }.flowCost = p.flowCost := by
      simp [Proc.flowCost, hrunning]
    have hhandlers := slot_le p.handlers
    have hwatcher := slot_le p.watcher
    unfold Proc.cost
    split
    · exact le_rfl
    · rw [hflow]
      simp only [Proc.offspringCost, hrunning]
      omega
  next => exact le_rfl

/-- The loop of the child finds nothing left to read. -/
theorem procStep_over (hstep : procStep timeouts th .over p = some q) : q.cost < p.cost := by
  obtain ⟨hrun, -, hsteps⟩ := procStep_steps hstep
  cases hsteps with
  | flow _ hflow =>
    cases hflow with
    | eof hfl hover hq =>
      subst hq
      refine cost_setFlow hrun ?_
      rcases hover with rfl | rfl <;>
      · simp only [Proc.flowCost, hfl]
        split_ifs <;> omega
  | @frame _ f _ _ _ hr | @frameWatcher _ f _ _ _ hr => cases f <;> cases hr

/-- **A session that does something by itself has less left to do.** What a step costs one process
may be paid by another. -/
theorem sessionStep_cost (hown : Own s e)
    (hstep : sessionStep timeouts s e = some t) : t.cost < s.cost := by
  unfold sessionStep at hstep
  unfold Own at hown
  split at hstep
  next hwho =>
    rw [hwho] at hown
    obtain ⟨p, hp, rfl⟩ := Option.map_eq_some_iff.mp hstep
    have hlt := procStep_cost hown hp
    -- a child that begins has less to do than one that is not forked yet
    have hle := s.child.begin_cost (.inl rfl)
    simp only [Session.cost]
    split_ifs <;> omega
  next hwho =>
    rw [hwho] at hown
    obtain ⟨p, hp, rfl⟩ := Option.map_eq_some_iff.mp hstep
    have hlt : p.cost < s.child.cost := by
      rcases hown with hown | ⟨hover, -⟩
      · exact procStep_cost hown hp
      · exact procStep_over (hover ▸ hp)
    have hle := s.subchild.begin_cost (.inr rfl)
    have hle' := s.parent.inform_cost p.ended
    simp only [Session.cost]
    split_ifs <;> omega
  next hwho =>
    rw [hwho] at hown
    obtain ⟨p, hp, rfl⟩ := Option.map_eq_some_iff.mp hstep
    have hlt := procStep_cost hown hp
    -- an offspring that runs costs more than its end
    have hle := s.child.inform_cost p.ended
    simp only [Session.cost]
    omega

/-! ### Where it stops -/

/-- Every process that there is has ended, so nothing is left behind. -/
structure Session.Over (s : Session) : Prop where
  parent : s.parent.ended.isSome = true
  child : s.child.flow = .unborn ∨ s.child.ended.isSome = true
  subchild : s.subchild.flow = .unborn ∨ s.subchild.ended.isSome = true

/-- The parent reads its input, and has waited for the child before.  It does not come out of its
`read` by itself, as SIGCHLD was handled while the pid was not in `child` yet. -/
structure Session.Orphaned (s : Session) : Prop where
  parent : s.parent.ended = none
  reading : s.parent.flow = .reading
  handlers : s.parent.handlers = []
  watcher : s.parent.watcher = []
  reaped : s.parent.offspring = .reaped
  child : s.child.ended.isSome = true
  subchild : s.subchild.flow = .unborn ∨ s.subchild.ended.isSome = true

/-- The command never blocks for ever: `Own` lets it exit. -/
theorem subchild_stopped (timeouts : Bool) (h : SessionLinked s)
    (hstop : ∀ th c, s.subchild.Own c → procStep timeouts th c s.subchild = none) :
    s.subchild.flow = .unborn ∨ s.subchild.ended.isSome = true := by
  by_contra hnot
  obtain ⟨hborn, hrun⟩ := not_or.mp hnot
  rw [Option.not_isSome_iff_eq_none] at hrun
  have hinstalled := fun hfl => h.subchild.installed (.inr (.inr (.inr hfl)))
  have hfl := h.subchild.subchild h.inv.subchild_role
  obtain ⟨-, -, ⟨hreading, -⟩ | ⟨hwaitpid, -⟩⟩ := Proc.stopped hrun hborn hinstalled hstop
  · simp [hreading] at hfl
  · simp [hwaitpid] at hfl

/-- The child is not left over either.  When the command has ended, its output has an end, and the
two calls of `waitpid` come back. -/
theorem child_stopped (timeouts : Bool) (h : SessionLinked s)
    (hsub : s.subchild.flow = .unborn ∨ s.subchild.ended.isSome = true)
    (hstop : ∀ th c, s.child.Own c ∨ c = .over ∧ s.subchild.ended.isSome = true →
      procStep timeouts th c s.child = none) :
    s.child.flow = .unborn ∨ s.child.ended.isSome = true := by
  by_contra hnot
  obtain ⟨hborn, hrun⟩ := not_or.mp hnot
  rw [Option.not_isSome_iff_eq_none] at hrun
  have hinstalled := fun hfl => h.child.installed (.inr (.inr (.inr hfl)))
  -- the command does not run any more, so the child does not wait for it
  have hrunning : s.child.offspring = .running → False := by
    intro hoff
    rcases hsub with hsub | hsub
    · rw [h.lower.born.mpr hsub] at hoff
      cases hoff
    · rw [h.lower.runs hoff] at hsub
      cases hsub
  obtain ⟨hhandlers, -, ⟨hreading, -⟩ | ⟨hwaitpid, hoff⟩⟩ :=
    Proc.stopped hrun hborn hinstalled fun th c hown => hstop th c (.inl hown)
  · -- the command has ended, so there is an end of what it has written
    have hforked := h.child.forked (.inr (.inl hreading))
    rcases hsub with hsub | hsub
    · exact hforked (h.lower.born.mpr hsub)
    · have hnone := hstop .main .over (.inr ⟨rfl, hsub⟩)
      simp [procStep, hrun, hreading, hhandlers] at hnone
      unfold flowStep at hnone
      rw [hreading] at hnone
      cases hnone
  · rcases hoff with hoff | hoff
    · exact h.child.forked (.inr (.inr (.inr hwaitpid))) hoff
    · exact hrunning hoff

/-- **A session that cannot go on by itself has come to its end, or its parent is left over.** -/
theorem session_stopped (h : SessionLinked s)
    (hstop : ∀ e, Own s e → sessionStep timeouts s e = none) : s.Over ∨ s.Orphaned := by
  have hsub := subchild_stopped timeouts h fun th c hown =>
    Option.map_eq_none_iff.mp (hstop ⟨.subchild, th, c⟩ hown)
  have hchild := child_stopped timeouts h hsub fun th c hown =>
    Option.map_eq_none_iff.mp (hstop ⟨.child, th, c⟩ hown)
  by_cases hended : s.parent.ended.isSome = true
  · exact .inl ⟨hended, hchild, hsub⟩
  refine .inr ?_
  have hrun := Option.not_isSome_iff_eq_none.mp hended
  -- nor does the parent wait for the child
  have hrunning : s.parent.offspring = .running → False := by
    intro hoff
    rcases hchild with hchild | hchild
    · rw [h.upper.born.mpr hchild] at hoff
      cases hoff
    · rw [h.upper.runs hoff] at hchild
      cases hchild
  obtain ⟨hhandlers, hwatcher, ⟨hreading, hzombie⟩ | ⟨hwaitpid, hoff⟩⟩ :=
    Proc.stopped hrun h.born (fun hfl => h.parent.installed (.inr (.inr (.inr hfl))))
      fun th c hown => Option.map_eq_none_iff.mp (hstop ⟨.parent, th, c⟩ hown)
  · -- the parent reads, and has waited for the child, which has ended
    have hforked := h.parent.forked (.inr (.inl hreading))
    have hreaped : s.parent.offspring = .reaped := by
      cases hoff : s.parent.offspring with
      | none => exact absurd hoff hforked
      | running => exact (hrunning hoff).elim
      | zombie status => exact absurd hoff (hzombie status)
      | reaped => rfl
    obtain ⟨l, hl, -⟩ := h.inv.parent.reaped hreaped
    exact ⟨hrun, hreading, hhandlers, hwatcher, hreaped, by rw [hl]; rfl, hsub⟩
  · rcases hoff with hoff | hoff
    · exact absurd hoff (h.parent.forked (.inr (.inr (.inr hwaitpid))))
    · exact (hrunning hoff).elim

/-- `finish` of the parent comes before `fork` has returned into `child`. -/
def ReapsUnnamed (s : Session) (e : Event) : Prop :=
  e.who = .parent ∧ s.parent.ReapsUnnamed e.thread e.choice

instance (s : Session) (e : Event) : Decidable (ReapsUnnamed s e) :=
  inferInstanceAs (Decidable (_ ∧ _))

theorem Named.inform (h : Named p) (ended : Option Leave) : Named (p.inform ended) := by
  unfold Proc.inform
  split
  · exact ⟨h.entered, fun hr => Offspring.noConfusion hr⟩
  · exact h

/-- In the session only the steps of the parent itself matter. -/
theorem named_step (h : SessionInv s) (hnamed : Named s.parent) (hok : ¬ ReapsUnnamed s e)
    (hstep : sessionStep timeouts s e = some t) : Named t.parent := by
  unfold sessionStep at hstep
  split at hstep
  next hwho =>
    obtain ⟨p, hp, rfl⟩ := Option.map_eq_some_iff.mp hstep
    have hsub : s.parent.subchildSet = false := by
      rw [← Bool.not_eq_true]
      intro hset
      exact Role.noConfusion ((h.parent.subchildSet hset).symm.trans h.parent_role)
    exact hnamed.step hsub (fun hreaps => hok ⟨hwho, hreaps⟩) hp
  next =>
    obtain ⟨p, hp, rfl⟩ := Option.map_eq_some_iff.mp hstep
    exact hnamed.inform p.ended
  next =>
    obtain ⟨p, hp, rfl⟩ := Option.map_eq_some_iff.mp hstep
    exact hnamed

theorem named_start : Named Session.start.parent :=
  ⟨fun h => Bool.noConfusion h, fun h => Offspring.noConfusion h⟩

/-- With a name for its child, the parent is not left over. -/
theorem Named.not_orphaned (h : Named s.parent) : ¬ s.Orphaned := by
  intro ho
  obtain ⟨f, habove, -⟩ := h.dying ho.reaped ho.parent (.inr ho.reading)
  rcases habove with habove | habove
  · rw [ho.handlers] at habove
    exact List.not_mem_nil habove
  · rw [ho.watcher] at habove
    exact List.not_mem_nil habove

end Session

/-- **The session comes to its end.**  From wherever it is, it goes on by itself for `cost` steps at
most; where it stops, every process has ended, or the parent is left over; and the parent is not
left over unless its `finish` has come before the assignment. -/
theorem shuts_down {timeouts : Bool} {es : List Event} {s : Session}
    (hrun : exec (sessionStep timeouts) Session.start es = some s) :
    (∀ es' s', exec (sessionStep timeouts) s es' = some s' →
        Along (sessionStep timeouts) Own s es' → es'.length ≤ s.cost) ∧
      ((∀ e, Own s e → sessionStep timeouts s e = none) → s.Over ∨ s.Orphaned) ∧
      (Along (sessionStep timeouts) (fun s e => ¬ ReapsUnnamed s e) Session.start es →
        ¬ s.Orphaned) := by
  refine ⟨?_, ?_, ?_⟩
  · intro es' s' hrun' hown
    exact length_le_of_measure_along (fun _ _ _ hok hstep => sessionStep_cost hok hstep) hown hrun'
  · have hlinked : SessionLinked s :=
      exec_invariant (fun _ _ _ h hstep => sessionLinked_step h hstep) hrun sessionLinked_start
    exact session_stopped hlinked
  · intro hok
    have hboth : SessionInv s ∧ Named s.parent :=
      exec_invariant_along (I := fun s => SessionInv s ∧ Named s.parent)
        (fun _ _ _ h hok hstep => ⟨sessionInv_step h.1 hstep, named_step h.1 h.2 hok hstep⟩) hok hrun
        ⟨sessionInv_start, named_start⟩
    exact hboth.2.not_orphaned

/-- The command has exited, with everything before it done. -/
def exitedRun : List Event :=
  [⟨.parent, .main, .go⟩, ⟨.parent, .main, .go⟩, ⟨.parent, .main, .setChild⟩,
    ⟨.child, .main, .go⟩, ⟨.child, .main, .setChild⟩, ⟨.child, .main, .setSubchild⟩,
    ⟨.parent, .main, .go⟩, ⟨.child, .main, .go⟩, ⟨.subchild, .main, .go⟩,
    ⟨.subchild, .main, .exits 3⟩]

theorem shuts_down_exited : ∃ s, exec (sessionStep true) Session.start exitedRun = some s ∧
    (∀ es' s', exec (sessionStep true) s es' = some s' → Along (sessionStep true) Own s es' →
      es'.length ≤ 71) ∧
    ((∀ e, Own s e → sessionStep true s e = none) → s.Over) := by
  have hcost : (exec (sessionStep true) Session.start exitedRun).map Session.cost = some 71 := by
    decide
  obtain ⟨s, hrun, hs⟩ := Option.map_eq_some_iff.mp hcost
  obtain ⟨hlength, hstop, horphaned⟩ := shuts_down hrun
  rw [hs] at hlength
  exact ⟨s, hrun, hlength, fun h => (hstop h).resolve_right (horphaned (by decide))⟩

/-- The child ends, and `finish` waits for it, before the parent knows its pid. -/
example : ∃ s, exec (sessionStep false) Session.start
    [⟨.parent, .main, .go⟩, ⟨.parent, .main, .go⟩, ⟨.child, .main, .fails⟩, ⟨.child, .main, .go⟩,
      ⟨.child, .main, .go⟩, ⟨.child, .main, .go⟩, ⟨.parent, .main, .signal .chld⟩,
      ⟨.parent, .main, .go⟩, ⟨.parent, .main, .go⟩, ⟨.parent, .main, .setChild⟩,
      ⟨.parent, .main, .go⟩] = some s ∧ s.Orphaned :=
  ⟨_, rfl, rfl, rfl, rfl, rfl, rfl, rfl, .inl rfl⟩

end TtyRec.Exits
