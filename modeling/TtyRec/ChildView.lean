import TtyRec.Exits
import TtyRec.Streams

/-!
# One child, seen twice

The machine of the streams follows `fscript` through the recording process, and the machine of the
three processes follows the exit status.  The recording process is the child, and so its loop, its
handlers, `fail` and `done` are in both.  This module relates them, as the one on the parent does:
every step of the recording process is a few steps of the session, or none.

The session knows less about `swing_output_file`, which may call `fail` when it finds no name, and
once more when `fopen` fails.  It ends the function with the first of these calls.  That is right
for the exit status, because a `fail` that comes back has found the mutex taken, and then no other
call of `done` has an effect.  So the relation keeps for every function on the stack whether the
mutex is known to be taken when it goes on.

## Main definitions

* `Frames`, `Flows` — a stack, or a main flow, of the one and of the other.
* `Alike`, `View` — the two children.

## Main results

* `Alike.frame`, `Alike.goesOn` — what a step of the one is in the other.
* `exists_session` — **every run of the recording process is one of the session**.
-/

namespace TtyRec.ChildView

open Run Streams

/-! ### The relation -/

/-- A function that does nothing any more about how the process ends once the mutex is taken. -/
def idle : Streams.Frame → Bool
  | .swing _ | .fail | .ending _ false | .done .called => true
  | _ => false

/-- The functions on a stack.  The flag says that the mutex is taken when the top of it goes on;
only then may there be idle functions that the session has not got. -/
inductive Frames : Bool → List Streams.Frame → List Exits.Frame → Prop
  | nil (b : Bool) : Frames b [] []
  | swing {b} (r : Rotation) {fs gs} (h : Frames b fs gs) : Frames b (.swing r :: fs) (.swing :: gs)
  | finish {b} {fs gs} (h : Frames b fs gs) : Frames b (.finish :: fs) (.finish false :: gs)
  | ending {b} (sig : Streams.Sig) (o : Exits.Origin) {fs gs} (h : Frames true fs gs) :
    Frames b (.ending sig false :: fs) (.done 0 o :: gs)
  | left {b} (sig : Streams.Sig) {fs gs} (h : Frames b fs gs) : Frames b (.ending sig true :: fs) gs
  | fail {b} {fs gs} (h : Frames true fs gs) : Frames b (.fail :: fs) (.fail :: gs)
  | called {b} (status : ℕ) (o : Exits.Origin) {fs gs} (h : Frames true fs gs) :
    Frames b (.done .called :: fs) (.done status o :: gs)
  | inside {b} {d : Streams.Ending} (hd : d ≠ .called) (status : ℕ) (o : Exits.Origin) {fs gs}
      (h : Frames true fs gs) : Frames b (.done d :: fs) (.cleanup status o :: gs)
  | idle {f : Streams.Frame} (hf : idle f = true) {fs gs} (h : Frames true fs gs) :
    Frames true (f :: fs) gs

/-- Where the main flow is. -/
inductive Flows : Streams.Flow → Exits.Flow → Prop
  | loop : Flows .loop .reading
  | record : Flows .record .reading
  | header (fp : Option ℕ) : Flows (.header fp) .reading
  | between : Flows .between .reading
  | payload (fp : Option ℕ) : Flows (.payload fp) .reading
  | canExit : Flows .canExit .canExit
  | called (status : ℕ) : Flows (.done .called) (.done status)
  | inside {d : Streams.Ending} (hd : d ≠ .called) (status : ℕ) : Flows (.done d) (.cleanup status)
  | returned : Flows .returned .returned

/-- The children, but for what their stacks hold when one of them has ended.  The session counts how
its offspring stands; the machine of the streams knows that from `can_exit` alone. -/
structure Alike (s : Recording) (p : Exits.Proc) : Prop where
  role : p.role = .child
  installed : p.installed = true
  subchildSet : p.subchildSet = true
  flow : Flows s.flow p.flow
  handlers : s.exited = false → Frames s.entered s.handlers p.handlers
  entered : p.entered = s.entered
  canExit : p.canExit = s.canExit
  /-- The command has been waited for when `can_exit` is set, and not before. -/
  running : s.canExit = false → p.offspring = .running
  reaped : s.canExit = true → p.offspring = .reaped
  ended : s.exited = p.ended.isSome

/-- The command is there when the child can wait for it. -/
def Waits (x : Exits.Session) : Prop :=
  x.child.offspring = .running → x.subchild.flow ≠ .unborn ∧ x.subchild.ended = none

/-- The child of the session, and the command that it waits for. -/
def View (s : Recording) (x : Exits.Session) : Prop := Alike s x.child ∧ Waits x

/-- The session goes on until the child is `p`. -/
def Reaches (timeouts : Bool) (x : Exits.Session) (p : Exits.Proc) : Prop :=
  ∃ ds y, exec (Exits.sessionStep timeouts) x ds = some y ∧ y.child = p ∧ Waits y

/-- A taken mutex stays taken, so what was known about the rest of a stack stays known. -/
theorem Frames.mono {b : Bool} {fs : List Streams.Frame} {gs : List Exits.Frame}
    (h : Frames b fs gs) {b' : Bool} (hb : b = true → b' = true) : Frames b' fs gs := by
  induction h generalizing b' with
  | nil b => exact .nil b'
  | swing r h ih => exact .swing r (ih hb)
  | finish h ih => exact .finish (ih hb)
  | ending sig o h ih => exact .ending sig o h
  | left sig h ih => exact .left sig (ih hb)
  | fail h ih => exact .fail h
  | called status o h ih => exact .called status o h
  | inside hd status o h ih => exact .inside hd status o h
  | idle hf h ih =>
    obtain rfl := hb rfl
    exact .idle hf h

theorem Frames.taken {b : Bool} {fs : List Streams.Frame} {gs : List Exits.Frame}
    (h : Frames b fs gs) : Frames true fs gs := h.mono fun _ => rfl

/-- `finish` is on the one stack only if it is on the other. -/
theorem Frames.finish_mem {b : Bool} {fs : List Streams.Frame} {gs : List Exits.Frame}
    (h : Frames b fs gs) {die : Bool} (hmem : .finish die ∈ gs) : .finish ∈ fs := by
  induction h with
  | nil b => cases hmem
  | finish h ih => exact List.mem_cons_self
  | left sig h ih | idle hf h ih => exact List.mem_cons_of_mem _ (ih hmem)
  | swing r h ih | ending sig o h ih | fail h ih | called status o h ih | inside hd status o h ih =>
    apply List.mem_cons_of_mem
    rcases List.mem_cons.mp hmem with heq | hmem
    · cases heq
    · exact ih hmem

theorem Frames.swing_mem {b : Bool} {fs : List Streams.Frame} {gs : List Exits.Frame}
    (h : Frames b fs gs) (hmem : .swing ∈ gs) : ∃ r, .swing r ∈ fs := by
  induction h with
  | nil b => cases hmem
  | swing r h ih => exact ⟨r, List.mem_cons_self⟩
  | left sig h ih | idle hf h ih =>
    obtain ⟨r, hr⟩ := ih hmem
    exact ⟨r, List.mem_cons_of_mem _ hr⟩
  | finish h ih | ending sig o h ih | fail h ih | called status o h ih | inside hd status o h ih =>
    rcases List.mem_cons.mp hmem with heq | hmem
    · cases heq
    · obtain ⟨r, hr⟩ := ih hmem
      exact ⟨r, List.mem_cons_of_mem _ hr⟩

/-! ### Steps of the session -/

section Session

variable {x : Exits.Session} {p q : Exits.Proc} {timeouts : Bool}

theorem Reaches.refl (h : Waits x) : Reaches timeouts x x.child := ⟨[], x, rfl, rfl, h⟩

/-- The child takes a step, and the parent is told if that was its last. -/
theorem Reaches.step (h : Reaches timeouts x p) {c : Exits.Choice}
    (hstep : Exits.procStep timeouts .main c p = some q) (hfork : p.flow ≠ .fork)
    (hoffspring : q.offspring = p.offspring ∨ q.offspring = .reaped) : Reaches timeouts x q := by
  obtain ⟨ds, y, hds, rfl, hy⟩ := h
  have hno : ¬ (y.child.flow = .fork ∧ q.flow = .assign) := fun hf => hfork hf.1
  refine ⟨ds ++ [⟨.child, .main, c⟩],
    { y with child := q, parent := y.parent.inform q.ended }, ?_, rfl, ?_⟩
  · rw [exec_append, hds, Option.bind_some, exec_cons, Exits.sessionStep]
    dsimp only
    rw [hstep, Option.map_some, Option.bind_some, exec_nil, if_neg hno]
  · intro hrunning
    rcases hoffspring with heq | heq
    · exact hy (heq.symm.trans hrunning)
    · cases heq.symm.trans hrunning

/-- The function at the top of the stack goes on. -/
theorem Reaches.top (h : Reaches timeouts x p) (hrun : p.ended = none) (hborn : p.flow ≠ .unborn)
    (hfork : p.flow ≠ .fork) {g : Exits.Frame} {gs : List Exits.Frame} (hgs : p.handlers = g :: gs)
    {d : Exits.Choice} (hd : d = .go ∨ d = .masked ∨ d = .fails)
    {r : Exits.Proc × List Exits.Frame} (hgo : Exits.frameStep g d p = some r)
    (hoffspring : r.1.offspring = p.offspring ∨ r.1.offspring = .reaped) :
    Reaches timeouts x { r.1 with handlers := r.2 ++ gs } := by
  have hproc := Exits.procStep_frame timeouts hrun hborn hgs hd
  rw [hgo, Option.map_some] at hproc
  exact h.step hproc hfork hoffspring

/-- The main flow goes on, when nothing is above it. -/
theorem Reaches.main (h : Reaches timeouts x p) (hrun : p.ended = none) (hborn : p.flow ≠ .unborn)
    (hfork : p.flow ≠ .fork) (hh : p.handlers = []) {c : Exits.Choice}
    (hgo : Exits.flowStep timeouts c p = some q) (hsignal : ∀ sig, c ≠ .signal sig)
    (hkilled : ∀ status, c ≠ .killed status)
    (hoffspring : q.offspring = p.offspring ∨ q.offspring = .reaped) : Reaches timeouts x q := by
  have hproc := Exits.procStep_flow timeouts hrun hborn hh hsignal hkilled
  exact h.step (hproc.trans hgo) hfork hoffspring

/-- The command ends.  It may do so at any time, and the child then has something to wait for. -/
theorem Reaches.await (h : Reaches timeouts x p) (hrunning : p.offspring = .running) :
    Reaches timeouts x { p with offspring := .zombie 9 } := by
  obtain ⟨ds, y, hds, rfl, hy⟩ := h
  obtain ⟨hborn, hended⟩ := hy hrunning
  have hinform : y.child.inform (some (.killed 9)) = { y.child with offspring := .zombie 9 } := by
    unfold Exits.Proc.inform
    rw [hrunning]
    rfl
  refine ⟨ds ++ [⟨.subchild, .main, .killed 9⟩],
    ⟨{ y.subchild with ended := some (.killed 9) }, { y.child with offspring := .zombie 9 },
      y.parent⟩, ?_, rfl, fun hrun => Exits.Offspring.noConfusion hrun⟩
  rw [exec_append, hds, Option.bind_some, exec_cons, Exits.sessionStep]
  dsimp only
  rw [Exits.procStep_kill timeouts hended hborn, Option.map_some, Option.bind_some, exec_nil,
    hinform]

end Session

/-! ### The functions above the main flow -/

section Frames

variable {s t : Recording} {x : Exits.Session} {p : Exits.Proc} {timeouts : Bool}

theorem Alike.ended_eq_none (h : Alike s p) (hs : s.exited = false) : p.ended = none := by
  rw [← Option.not_isSome_iff_eq_none, ← h.ended, hs]
  exact Bool.false_ne_true

theorem Alike.born (h : Alike s p) : p.flow ≠ .unborn ∧ p.flow ≠ .fork ∧ p.flow ≠ .command := by
  have hflow := h.flow
  generalize s.flow = f at hflow
  generalize p.flow = g at hflow
  refine ⟨?_, ?_, ?_⟩ <;> rintro rfl <;> cases hflow

/-- Other functions are on the stacks, and the streams do not matter. -/
theorem Alike.setHandlers (h : Alike s p) {fs : List Streams.Frame} {gs : List Exits.Frame}
    (hframes : Frames s.entered fs gs) (fscript : Option ℕ) (opened : ℕ) (failed : Bool) :
    Alike { s with handlers := fs, fscript := fscript, opened := opened }
      { p with handlers := gs, failed := failed } :=
  ⟨h.role, h.installed, h.subchildSet, h.flow, fun _ => hframes, h.entered, h.canExit, h.running,
    h.reaped, h.ended⟩

theorem Alike.top (h : Alike s p) (hx : Reaches timeouts x p) (hs : s.exited = false)
    {g : Exits.Frame} {gs : List Exits.Frame} (hgs : p.handlers = g :: gs) {d : Exits.Choice}
    (hd : d = .go ∨ d = .masked ∨ d = .fails) {q : Exits.Proc × List Exits.Frame}
    (hgo : Exits.frameStep g d p = some q)
    (hoffspring : q.1.offspring = p.offspring ∨ q.1.offspring = .reaped) :
    Reaches timeouts x { q.1 with handlers := q.2 ++ gs } :=
  hx.top (h.ended_eq_none hs) h.born.1 h.born.2.1 hgs hd hgo hoffspring

/-- What a step of `swing_output_file` does to the stack: it goes on, it returns, or it calls
`fail`. -/
theorem swingStep_cases {r : Rotation} {fs : List Streams.Frame} {c : Streams.Choice}
    {u : List (Ledger.Use ℕ)} (h : swingStep r fs c s = some (t, u)) :
    ∃ fs' fscript opened, t = { s with handlers := fs', fscript := fscript, opened := opened } ∧
      ((∃ r', fs' = .swing r' :: fs) ∨ fs' = fs ∨ ∃ r', fs' = .fail :: .swing r' :: fs) := by
  unfold swingStep at h
  cases r with
  | begun =>
    cases c with
    | go =>
      cases h
      exact ⟨_, _, _, rfl, .inl ⟨_, rfl⟩⟩
    | skip =>
      cases h
      exact ⟨_, _, _, rfl, .inr (.inl rfl)⟩
    | fails =>
      cases h
      exact ⟨_, _, _, rfl, .inr (.inr ⟨_, rfl⟩)⟩
    | _ => cases h
  | closed =>
    cases c with
    | go | fails =>
      cases h
      exact ⟨_, _, _, rfl, .inl ⟨_, rfl⟩⟩
    | _ => cases h
  | opened fp =>
    dsimp only at h
    split at h
    · cases fp with
      | some n =>
        cases h
        exact ⟨_, _, _, rfl, .inl ⟨_, rfl⟩⟩
      | none =>
        cases h
        exact ⟨_, _, _, rfl, .inr (.inr ⟨_, rfl⟩)⟩
    · cases h
  | named | loaded fp =>
    dsimp only at h
    split at h
    · cases h
      exact ⟨_, _, _, rfl, .inl ⟨_, rfl⟩⟩
    · cases h
  | assigned =>
    dsimp only at h
    split at h
    · cases h
      exact ⟨_, _, _, rfl, .inr (.inl rfl)⟩
    · cases h

/-- `swing_output_file` goes on, which the session sees only when it calls `fail` or returns. -/
theorem Alike.swing (h : Alike s p) (hx : Reaches timeouts x p) (hs : s.exited = false)
    {r : Rotation} {fs : List Streams.Frame} {gs : List Exits.Frame} (hgs : p.handlers = .swing :: gs)
    (hframes : Frames s.entered fs gs) {c : Streams.Choice} {u : List (Ledger.Use ℕ)}
    (hstep : swingStep r fs c s = some (t, u)) : ∃ q, Reaches timeouts x q ∧ Alike t q := by
  obtain ⟨fs', fscript, opened, rfl, ⟨r', rfl⟩ | rfl | ⟨r', rfl⟩⟩ := swingStep_cases hstep
  · refine ⟨p, hx, ?_⟩
    have hgo := h.setHandlers (.swing r' hframes) fscript opened p.failed
    rw [← hgs] at hgo
    exact hgo
  · have hgo : Exits.frameStep .swing .go p = some (p, []) := rfl
    exact ⟨_, h.top hx hs hgs (.inl rfl) hgo (.inl rfl), h.setHandlers hframes fscript opened p.failed⟩
  · -- when `fail` comes back, the mutex is taken, and what is left of the function is idle
    have hgo : Exits.frameStep .swing .fails p = some ({ p with failed := true }, [.fail]) := rfl
    refine ⟨_, h.top hx hs hgs (.inr (.inr rfl)) hgo (.inl rfl), ?_⟩
    have hidle : Frames true (.swing r' :: fs) gs := .idle rfl hframes.taken
    exact h.setHandlers (.fail hidle) fscript opened true

/-- `finish` takes the status of the command, or finds that there is nothing to wait for. -/
theorem Alike.finish (h : Alike s p) (hx : Reaches timeouts x p) (hs : s.exited = false)
    {fs : List Streams.Frame} {gs : List Exits.Frame} (hgs : p.handlers = .finish false :: gs)
    (hframes : Frames s.entered fs gs) {c : Streams.Choice} {u : List (Ledger.Use ℕ)}
    (hstep : Streams.frameStep .finish fs c s = some (t, u)) :
    ∃ q, Reaches timeouts x q ∧ Alike t q := by
  -- the iteration that waits for nothing
  have hlast : ∀ {p' : Exits.Proc}, p'.offspring = .running ∨ p'.offspring = .reaped →
      Exits.frameStep (.finish false) .go p' = some (p', []) := by
    intro p' hoffspring
    unfold Exits.frameStep Exits.finish
    rcases hoffspring with ho | ho <;> rw [ho] <;> rfl
  have hnothing : p.offspring = .running ∨ p.offspring = .reaped := by
    cases hcan : s.canExit with
    | false => exact .inl (h.running hcan)
    | true => exact .inr (h.reaped hcan)
  cases c with
  | skip =>
    cases hstep
    exact ⟨_, h.top hx hs hgs (.inl rfl) (hlast hnothing) (.inl rfl),
      h.setHandlers hframes s.fscript s.opened p.failed⟩
  | go =>
    cases hstep
    cases hcan : s.canExit with
    | true =>
      refine ⟨_, h.top hx hs hgs (.inl rfl) (hlast hnothing) (.inl rfl), ?_⟩
      exact ⟨h.role, h.installed, h.subchildSet, h.flow, fun _ => hframes, h.entered,
        h.canExit.trans hcan, nofun, fun _ => h.reaped hcan, h.ended⟩
    | false =>
      -- the command ends, `finish` takes its status, and then there is nothing to wait for
      have hawait := hx.await (h.running hcan)
      have hreap : Exits.frameStep (.finish false) .go { p with offspring := .zombie 9 } =
          some ({ p with childexit := 9, offspring := .reaped, canExit := true },
            [.finish false]) := by
        unfold Exits.frameStep Exits.finish
        exact congrArg some (if_pos h.subchildSet)
      have hreaped := hawait.top (h.ended_eq_none hs) h.born.1 h.born.2.1 hgs (.inl rfl) hreap
        (.inr rfl)
      refine ⟨_, hreaped.top (h.ended_eq_none hs) h.born.1 h.born.2.1 rfl (.inl rfl)
        (hlast (.inr rfl)) (.inl rfl), ?_⟩
      exact ⟨h.role, h.installed, h.subchildSet, h.flow, fun _ => hframes, h.entered, rfl, nofun,
        fun _ => rfl, h.ended⟩
  | _ => cases hstep

/-- Once the mutex is taken, what an idle function does is not in the session. -/
theorem Alike.stays (h : Alike s p) (hentered : s.entered = true) {f : Streams.Frame}
    {fs : List Streams.Frame} (hf : idle f = true) (hframes : Frames true fs p.handlers)
    {c : Streams.Choice} {u : List (Ledger.Use ℕ)}
    (hstep : Streams.frameStep f fs c s = some (t, u)) : Alike t p := by
  have hset : ∀ {fs'} fscript opened, Frames true fs' p.handlers →
      Alike { s with handlers := fs', fscript := fscript, opened := opened } p :=
    fun fscript opened hfs' => h.setHandlers (hentered.symm ▸ hfs') fscript opened p.failed
  cases f with
  | swing r =>
    obtain ⟨fs', fscript, opened, rfl, ⟨r', rfl⟩ | rfl | ⟨r', rfl⟩⟩ := swingStep_cases hstep
    · exact hset fscript opened (.idle rfl hframes)
    · exact hset fscript opened hframes
    · exact hset fscript opened (.idle rfl (.idle rfl hframes))
  | finish => cases hf
  | ending sig called =>
    cases called with
    | true => cases hf
    | false =>
      cases c with
      | go =>
        cases hstep
        exact hset s.fscript s.opened (.idle rfl (.left sig hframes))
      | _ => cases hstep
  | fail =>
    cases c with
    | go =>
      unfold Streams.frameStep at hstep
      dsimp only at hstep
      rw [if_pos rfl] at hstep
      split at hstep
      · cases hstep
        exact hset s.fscript s.opened (.idle rfl hframes)
      · cases hstep
        exact hset s.fscript s.opened (.idle rfl (.idle rfl hframes))
    | _ => cases hstep
  | done d =>
    cases d with
    | called =>
      cases c with
      | go =>
        -- it finds the mutex taken
        unfold Streams.frameStep at hstep
        simp only [if_true, Streams.endStep] at hstep
        rw [if_pos hentered] at hstep
        cases hstep
        exact hset s.fscript s.opened hframes
      | _ => cases hstep
    | _ => cases hf

/-- **A function goes on**: one lemma for each function that may be at the top. -/
theorem Alike.frame (h : Alike s p) (hx : Reaches timeouts x p) (hs : s.exited = false)
    {f : Streams.Frame} {fs : List Streams.Frame} (hfs : s.handlers = f :: fs)
    {c : Streams.Choice} {u : List (Ledger.Use ℕ)}
    (hstep : Streams.frameStep f fs c s = some (t, u)) :
    ∃ q, Reaches timeouts x q ∧ Alike t q := by
  have hframes : Frames s.entered (f :: fs) p.handlers := hfs ▸ h.handlers hs
  generalize hb : s.entered = b at hframes
  generalize hg : p.handlers = hs' at hframes
  cases hframes with
  | swing r hrest => exact h.swing hx hs hg (hb ▸ hrest) hstep
  | finish hrest => exact h.finish hx hs hg (hb ▸ hrest) hstep
  | @ending _ sig o _ gs hrest =>
    -- the handler calls `done`, which the session does not see
    cases c with
    | go =>
      cases hstep
      have hgo := h.setHandlers (.called 0 o (.left sig hrest)) s.fscript s.opened p.failed
      rw [← hg] at hgo
      exact ⟨p, hx, hgo⟩
    | _ => cases hstep
  | left sig hrest =>
    cases c with
    | go =>
      cases hstep
      rw [← hb, ← hg] at hrest
      exact ⟨p, hx, h.setHandlers hrest s.fscript s.opened p.failed⟩
    | _ => cases hstep
  | @fail _ _ gs hrest =>
    cases c with
    | go =>
      unfold Streams.frameStep at hstep
      dsimp only at hstep
      rw [if_pos rfl] at hstep
      split at hstep
      · cases hstep
        have hgo : Exits.frameStep .fail .masked p = some (p, [.done 1 .fail]) := rfl
        exact ⟨_, h.top hx hs hg (.inr (.inl rfl)) hgo (.inl rfl),
          h.setHandlers (.called 1 .fail hrest) s.fscript s.opened p.failed⟩
      · cases hstep
        have hgo : Exits.frameStep .fail .go p = some (p, [.done 0 .fail, .done 1 .fail]) :=
          if_pos h.installed
        exact ⟨_, h.top hx hs hg (.inl rfl) hgo (.inl rfl),
          h.setHandlers (.ending .term .fail (.called 1 .fail hrest)) s.fscript s.opened p.failed⟩
    | _ => cases hstep
  | @called _ status o _ gs hrest =>
    cases c with
    | go =>
      have hgo : Exits.frameStep (.done status o) .go p = some (Exits.done status o p) := rfl
      unfold Streams.frameStep at hstep
      simp only [if_true, Streams.endStep] at hstep
      cases hentered : s.entered with
      | true =>
        rw [hentered] at hstep
        cases hstep
        have hdone : Exits.done status o p = (p, []) := if_pos (h.entered.trans hentered)
        rw [hdone] at hgo
        exact ⟨_, h.top hx hs hg (.inl rfl) hgo (.inl rfl),
          h.setHandlers (hentered ▸ hrest) s.fscript s.opened p.failed⟩
      | false =>
        rw [hentered] at hstep
        cases hstep
        have hdone : Exits.done status o p =
            ({ p with entered := true }, [.cleanup status o]) :=
          if_neg (ne_true_of_eq_false (h.entered.trans hentered))
        rw [hdone] at hgo
        refine ⟨_, h.top hx hs hg (.inl rfl) hgo (.inl rfl), ?_⟩
        exact ⟨h.role, h.installed, h.subchildSet, h.flow,
          fun _ => .inside Streams.Ending.noConfusion status o hrest, rfl, h.canExit, h.running,
          h.reaped, h.ended⟩
    | _ => cases hstep
  | @inside _ d hd status o _ gs hrest =>
    have hinside : ∀ d', d' ≠ .called → Alike { s with handlers := .done d' :: fs } p := by
      intro d' hd'
      have hgo := h.setHandlers (.inside hd' status o hrest) s.fscript s.opened p.failed
      rw [← hg] at hgo
      exact hgo
    cases c with
    | go =>
      cases d with
      | called => exact absurd rfl hd
      | entered | loaded fp =>
        -- `fclose_wrapper`, which the session leaves out
        cases hstep
        refine ⟨p, hx, hinside _ ?_⟩
        exact Streams.Ending.noConfusion
      | closed =>
        cases hstep
        have hgo : Exits.frameStep (.cleanup status o) .go p =
            some ({ p with ended := some (.done status o) }, []) := rfl
        refine ⟨_, h.top hx hs hg (.inl rfl) hgo (.inl rfl), ?_⟩
        exact ⟨h.role, h.installed, h.subchildSet, h.flow, nofun, h.entered, h.canExit, h.running,
          h.reaped, rfl⟩
    | _ => cases hstep
  | idle hf hrest =>
    rw [← hg] at hrest
    exact ⟨p, hx, h.stays hb hf hrest hstep⟩

end Frames

/-! ### The main flow -/

section Flow

variable {s t : Recording} {x : Exits.Session} {p q : Exits.Proc} {timeouts : Bool}

/-- The main flow is at another place. -/
theorem Alike.setFlow (h : Alike s p) {f : Streams.Flow} {g : Exits.Flow} (hflow : Flows f g) :
    Alike { s with flow := f } { p with flow := g } :=
  ⟨h.role, h.installed, h.subchildSet, hflow, h.handlers, h.entered, h.canExit, h.running, h.reaped,
    h.ended⟩

theorem Alike.handlers_nil (h : Alike s p) (hs : s.exited = false) (hh : s.handlers = []) :
    p.handlers = [] := by
  have hframes := h.handlers hs
  rw [hh] at hframes
  generalize s.entered = b at hframes
  generalize p.handlers = gs at hframes
  cases hframes
  rfl

/-- The main flow of the session goes on. -/
theorem Alike.main (h : Alike s p) (hx : Reaches timeouts x p) (hs : s.exited = false)
    (hh : s.handlers = []) {c : Exits.Choice} (hgo : Exits.flowStep timeouts c p = some q)
    (hsignal : ∀ sig, c ≠ .signal sig) (hkilled : ∀ status, c ≠ .killed status)
    (hoffspring : q.offspring = p.offspring ∨ q.offspring = .reaped) : Reaches timeouts x q :=
  hx.main (h.ended_eq_none hs) h.born.1 h.born.2.1 (h.handlers_nil hs hh) hgo hsignal hkilled
    hoffspring

/-- libzstd fails, and `fwrite_wrapper` calls `exit`. -/
theorem Alike.libzstd (h : Alike s p) (hx : Reaches timeouts x p) (hs : s.exited = false)
    (hh : s.handlers = []) (hg : p.flow = .reading) :
    ∃ q, Reaches timeouts x q ∧ Alike { s with exited := true } q := by
  have hgo : Exits.flowStep timeouts (.libzstd 10) p =
      some { p with ended := some (.exit 10) } := by
    unfold Exits.flowStep
    simp only [hg]
    exact if_pos ⟨h.role, by decide, by decide⟩
  refine ⟨_, h.main hx hs hh hgo nofun nofun (.inl rfl), ?_⟩
  exact ⟨h.role, h.installed, h.subchildSet, h.flow, nofun, h.entered, h.canExit, h.running,
    h.reaped, rfl⟩

/-- `while (can_exit == 0)`, as long as it is 0.  The machine of the streams leaves the loop in one
step; in the session `waitpid` takes the status of the command, and when it is called once more, it
fails. -/
theorem Alike.waits (h : Alike s p) (hx : Reaches timeouts x p) (hs : s.exited = false)
    (hh : s.handlers = []) (hf : s.flow = .canExit) (hg : p.flow = .canExit)
    (hcan : s.canExit = false) :
    ∃ q, Reaches timeouts x q ∧ Alike { s with canExit := true } q := by
  have hrun := h.ended_eq_none hs
  have hnil := h.handlers_nil hs hh
  have hloop : ∀ {p' : Exits.Proc}, p'.flow = .canExit → p'.canExit = false →
      Exits.flowStep timeouts .go p' = some { p' with flow := .waitpid } := by
    intro p' hflow hcan'
    unfold Exits.flowStep
    simp only [hflow, hcan', Bool.false_eq_true, if_false]
  have hwait : ∀ {p' : Exits.Proc}, p'.flow = .waitpid →
      Exits.flowStep timeouts .go p' = Exits.flowWait p' := by
    intro p' hflow
    unfold Exits.flowStep
    rw [hflow]
    exact if_pos rfl
  -- the command may end at any time, so it ends here
  have hcall := h.main hx hs hh (hloop hg (h.canExit.trans hcan)) nofun nofun (.inl rfl)
  have hawait := hcall.await (h.running hcan)
  have hreap : Exits.flowWait { p with flow := .waitpid, offspring := .zombie 9 } =
      some { p with flow := .canExit, childexit := 9, offspring := .reaped } := if_pos h.role
  have hreaped := hawait.main hrun nofun nofun hnil ((hwait rfl).trans hreap) nofun nofun (.inr rfl)
  have hcall' := hreaped.main hrun nofun nofun hnil (hloop rfl (h.canExit.trans hcan)) nofun nofun
    (.inl rfl)
  have hfail : Exits.flowWait { p with
      flow := .waitpid, childexit := 9, offspring := .reaped } =
      some { p with
        flow := .canExit, childexit := 9, offspring := .reaped, canExit := true } := if_pos h.role
  refine ⟨_, hcall'.main hrun nofun nofun hnil ((hwait rfl).trans hfail) nofun nofun (.inl rfl), ?_⟩
  exact ⟨h.role, h.installed, h.subchildSet, hf.symm ▸ .canExit, h.handlers, h.entered, rfl, nofun,
    fun _ => rfl, h.ended⟩

/-- `done` at the end of `main`, which goes no further than the mutex when a handler has taken it.
-/
theorem Alike.done (h : Alike s p) (hx : Reaches timeouts x p) (hs : s.exited = false)
    (hh : s.handlers = []) {d : Streams.Ending} (hf : s.flow = .done d) {u : List (Ledger.Use ℕ)}
    (hstep : Streams.flowStep .go s = some (t, u)) : ∃ q, Reaches timeouts x q ∧ Alike t q := by
  have hflow : Flows (.done d) p.flow := hf ▸ h.flow
  generalize hg : p.flow = g at hflow
  unfold Streams.flowStep at hstep
  simp only [hf, if_true] at hstep
  cases hflow with
  | called status =>
    simp only [Streams.endStep] at hstep
    cases hentered : s.entered with
    | true =>
      -- another `done` has been there, and this one returns
      rw [if_pos hentered] at hstep
      cases hstep
      have hgo : Exits.flowStep timeouts .go p = some { p with flow := .returned } := by
        unfold Exits.flowStep
        rw [hg]
        exact if_pos (h.entered.trans hentered)
      exact ⟨_, h.main hx hs hh hgo nofun nofun (.inl rfl), h.setFlow .returned⟩
    | false =>
      rw [if_neg (ne_true_of_eq_false hentered)] at hstep
      cases hstep
      have hgo : Exits.flowStep timeouts .go p =
          some { p with entered := true, flow := .cleanup status } := by
        unfold Exits.flowStep
        rw [hg]
        exact if_neg (ne_true_of_eq_false (h.entered.trans hentered))
      refine ⟨_, h.main hx hs hh hgo nofun nofun (.inl rfl), ?_⟩
      exact ⟨h.role, h.installed, h.subchildSet, .inside Streams.Ending.noConfusion status,
        fun hs => (h.handlers hs).taken, rfl, h.canExit, h.running, h.reaped, h.ended⟩
  | inside hd status =>
    have hinside : ∀ d', d' ≠ .called → Alike { s with flow := .done d' } p := by
      intro d' hd'
      have hgo := h.setFlow (.inside hd' status)
      rw [← hg] at hgo
      exact hgo
    cases d with
    | called => exact absurd rfl hd
    | entered | loaded fp =>
      cases hstep
      refine ⟨p, hx, hinside _ ?_⟩
      exact Streams.Ending.noConfusion
    | closed =>
      cases hstep
      have hgo : Exits.flowStep timeouts .go p =
          some { p with ended := some (.done status .wait) } := by
        unfold Exits.flowStep
        simp only [hg]
      refine ⟨_, h.main hx hs hh hgo nofun nofun (.inl rfl), ?_⟩
      exact ⟨h.role, h.installed, h.subchildSet, hg ▸ .inside hd status, nofun, h.entered,
        h.canExit, h.running, h.reaped, rfl⟩

/-- **The main flow goes on.** What the loop writes is nothing that the session sees. -/
theorem Alike.goesOn (h : Alike s p) (hx : Reaches timeouts x p) (hs : s.exited = false)
    (hh : s.handlers = []) {c : Streams.Choice} {u : List (Ledger.Use ℕ)}
    (hstep : Streams.flowStep c s = some (t, u)) : ∃ q, Reaches timeouts x q ∧ Alike t q := by
  have hflow := h.flow
  generalize hf : s.flow = f at hflow
  generalize hg : p.flow = g at hflow
  -- within the loop the session has one place only
  have hloop : ∀ {f'}, g = .reading → Flows f' .reading → Alike { s with flow := f' } p := by
    intro f' hreading hflows
    have hgo := h.setFlow hflows
    rw [← hreading, ← hg] at hgo
    exact hgo
  cases hflow with
  | loop =>
    unfold Streams.flowStep at hstep
    simp only [hf] at hstep
    cases c with
    | output =>
      cases hstep
      exact ⟨p, hx, hloop rfl .record⟩
    | «over» =>
      cases hstep
      have hgo : Exits.flowStep timeouts .over p = some { p with flow := .canExit } := by
        unfold Exits.flowStep
        rw [hg]
        dsimp only
        rw [if_pos h.role]
      exact ⟨_, h.main hx hs hh hgo nofun nofun (.inl rfl), h.setFlow .canExit⟩
    | fails =>
      cases hstep
      have hgo : Exits.flowStep timeouts .fails p = some (p.fails .reading) := by
        unfold Exits.flowStep
        rw [hg]
      refine ⟨_, h.main hx hs hh hgo nofun nofun (.inl rfl), ?_⟩
      exact ⟨h.role, h.installed, h.subchildSet, hf ▸ .loop, fun _ => .fail (.nil true), h.entered,
        h.canExit, h.running, h.reaped, h.ended⟩
    | _ => cases hstep
  | record | between =>
    unfold Streams.flowStep at hstep
    simp only [hf] at hstep
    split at hstep
    · cases hstep
      exact ⟨p, hx, hloop rfl (by constructor)⟩
    · cases hstep
  | header fp =>
    unfold Streams.flowStep at hstep
    simp only [hf] at hstep
    cases c with
    | write =>
      cases hstep
      exact ⟨p, hx, h⟩
    | go =>
      cases hstep
      exact ⟨p, hx, hloop rfl .between⟩
    | libzstd =>
      cases hstep
      rw [← hf]
      exact h.libzstd hx hs hh hg
    | _ => cases hstep
  | payload fp =>
    unfold Streams.flowStep at hstep
    simp only [hf] at hstep
    cases c with
    | write =>
      cases hstep
      exact ⟨p, hx, h⟩
    | go =>
      cases hstep
      exact ⟨p, hx, hloop rfl .loop⟩
    | libzstd =>
      cases hstep
      rw [← hf]
      exact h.libzstd hx hs hh hg
    | _ => cases hstep
  | canExit =>
    unfold Streams.flowStep at hstep
    simp only [hf] at hstep
    split at hstep
    next hc =>
      split at hstep
      next hcan =>
        cases hstep
        have hgo : Exits.flowStep timeouts .go p = some { p with flow := .done p.childexit } := by
          unfold Exits.flowStep
          rw [hg]
          dsimp only
          rw [if_pos (h.canExit.trans hcan)]
        exact ⟨_, h.main hx hs hh hgo nofun nofun (.inl rfl), h.setFlow (.called p.childexit)⟩
      next hcan =>
        cases hstep
        rw [← hf]
        exact h.waits hx hs hh hf hg (Bool.eq_false_iff.mpr hcan)
    next => cases hstep
  | called status | inside hd status =>
    cases c with
    | go => exact h.done hx hs hh hf hstep
    | _ =>
      unfold Streams.flowStep at hstep
      simp only [hf] at hstep
      cases hstep
  | returned =>
    unfold Streams.flowStep at hstep
    simp only [hf] at hstep
    split at hstep
    · cases hstep
      have hgo : Exits.flowStep timeouts .go p = some { p with ended := some .returned } := by
        unfold Exits.flowStep
        simp only [hg]
      refine ⟨_, h.main hx hs hh hgo nofun nofun (.inl rfl), ?_⟩
      exact ⟨h.role, h.installed, h.subchildSet, hg ▸ hf ▸ .returned, nofun, h.entered, h.canExit,
        h.running, h.reaped, rfl⟩
    · cases hstep

end Flow

/-! ### The runs -/

/-- The handler of a signal in the session. -/
def sigOf : Streams.Sig → Exits.Sig
  | .usr1 => .usr1
  | .chld => .chld
  | .term => .term
  | .hup => .hup

/-- What is not blocked in the one machine is not blocked in the other. -/
theorem exists_handler {b : Bool} {fs : List Streams.Frame} {gs : List Exits.Frame}
    (h : Frames b fs gs) {sig : Streams.Sig} (hfree : ¬ fs.any sig.handles = true) {p : Exits.Proc}
    (hsub : p.subchildSet = true) :
    ∃ g, Exits.handler (sigOf sig) p gs = some g ∧ Frames b (sig.frame :: fs) (g :: gs) := by
  cases sig with
  | usr1 =>
    have hno : .swing ∉ gs := by
      intro hmem
      obtain ⟨r, hr⟩ := h.swing_mem hmem
      exact hfree (List.any_eq_true.mpr ⟨_, hr, rfl⟩)
    exact ⟨_, if_pos ⟨hsub, hno⟩, .swing .begun h⟩
  | chld =>
    have hno : ¬ (.finish true ∈ gs ∨ .finish false ∈ gs) := by
      rintro (hmem | hmem) <;>
        exact hfree (List.any_eq_true.mpr ⟨_, h.finish_mem hmem, rfl⟩)
    exact ⟨_, if_neg hno, .finish h⟩
  | term => exact ⟨_, rfl, .ending .term .term h.taken⟩
  | hup => exact ⟨_, rfl, .ending .hup .hup h.taken⟩

section Runs

variable {s t : Recording} {x : Exits.Session} {timeouts : Bool}

/-- A signal is delivered, and the same handler begins in both. -/
theorem Alike.signal {p : Exits.Proc} (h : Alike s p) (hx : Reaches timeouts x p)
    (hs : s.exited = false) {sig : Streams.Sig} (hfree : ¬ s.handlers.any sig.handles = true) :
    ∃ q, Reaches timeouts x q ∧ Alike { s with handlers := sig.frame :: s.handlers } q := by
  have hguard : ¬ (p.ended.isSome = true ∨ p.flow = .unborn) := by
    simp [h.ended_eq_none hs, h.born.1]
  obtain ⟨g, hg, hframes⟩ := exists_handler (h.handlers hs) hfree h.subchildSet
  have hproc : Exits.procStep timeouts .main (.signal (sigOf sig)) p =
      some { p with handlers := g :: p.handlers } := by
    unfold Exits.procStep
    rw [if_neg hguard]
    dsimp only
    rw [if_pos ⟨h.installed, h.born.2.2⟩, hg, Option.map_some]
  exact ⟨_, hx.step hproc h.born.2.1 (.inl rfl), h.setHandlers hframes s.fscript s.opened p.failed⟩

/-- **A step of the recording process** is a few steps of the session, or none.  The session may
have to catch up first, with what the machine of the streams does at once. -/
theorem View.step (h : View s x) {c : Streams.Choice} (hstep : streamsStep s c = some t) :
    ∃ ds y, exec (Exits.sessionStep timeouts) x ds = some y ∧ View t y := by
  obtain ⟨halike, hwaits⟩ := h
  have hx : Reaches timeouts x x.child := .refl hwaits
  -- the rest of the session is told by `Reaches`
  suffices hgo : ∃ q, Reaches timeouts x q ∧ Alike t q by
    obtain ⟨q, ⟨ds, y, hds, rfl, hy⟩, hq⟩ := hgo
    exact ⟨ds, y, hds, hq, hy⟩
  obtain ⟨⟨t', u⟩, hrec, rfl⟩ := Option.map_eq_some_iff.mp hstep
  unfold Streams.step at hrec
  split at hrec
  next => cases hrec
  next hs =>
    rw [Bool.not_eq_true] at hs
    by_cases hsignal : ∃ sig, c = .signal sig
    · obtain ⟨sig, rfl⟩ := hsignal
      dsimp only at hrec
      split at hrec
      next => cases hrec
      next hfree =>
        cases hrec
        exact halike.signal hx hs hfree
    · cases hh : s.handlers with
      | nil =>
        have hmain : Streams.flowStep c s = some (t', u) := by
          cases c with
          | signal sig => exact absurd ⟨sig, rfl⟩ hsignal
          | _ => simpa only [hh] using hrec
        exact halike.goesOn hx hs hh hmain
      | cons f fs =>
        have htop : Streams.frameStep f fs c s = some (t', u) := by
          cases c with
          | signal sig => exact absurd ⟨sig, rfl⟩ hsignal
          | _ => simpa only [hh] using hrec
        exact halike.frame hx hs hh htop

end Runs

/-- The events from the beginning of the session until the child is in its loop. -/
def untilLoop : List Exits.Event :=
  [⟨.parent, .main, .go⟩, ⟨.parent, .main, .go⟩, ⟨.child, .main, .go⟩,
    ⟨.child, .main, .setChild⟩, ⟨.child, .main, .setSubchild⟩, ⟨.child, .main, .go⟩]

theorem exists_view_start (timeouts : Bool) :
    ∃ x, exec (Exits.sessionStep timeouts) Exits.Session.start untilLoop = some x ∧
      View Recording.start x := by
  refine ⟨_, rfl, ?_, ?_⟩
  · exact ⟨rfl, rfl, rfl, .loop, fun _ => .nil false, rfl, rfl, fun _ => rfl, nofun, rfl⟩
  · exact fun _ => ⟨nofun, rfl⟩

/-- **Every run of the recording process is one of the session**: the three processes have a run
after which the child is the one that has been seen. -/
theorem exists_session (timeouts : Bool) {cs : List Streams.Choice} {s : Recording}
    (hrun : exec streamsStep Recording.start cs = some s) :
    ∃ ds x, exec (Exits.sessionStep timeouts) Exits.Session.start ds = some x ∧ View s x := by
  obtain ⟨x, hx, hview⟩ := exists_view_start timeouts
  obtain ⟨ds, y, hds, hy⟩ := exec_simulation_many
    (fun s x c t hview _ hstep => View.step hview hstep) hview
    (along_of_forall (fun _ _ => trivial) _ cs) hrun
  refine ⟨untilLoop ++ ds, y, ?_, hy⟩
  rw [exec_append, hx, Option.bind_some, hds]

end TtyRec.ChildView
