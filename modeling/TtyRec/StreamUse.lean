import TtyRec.Streams

/-!
# How the stream is used

`done` cannot be entered twice, but nothing keeps a rotation out of the other functions, or
`done` out of a rotation.  While a rotation has closed `fscript` and not assigned it, `done`
closes it again; while the loop is in `write_header` or `fwrite_wrapper`, or `done` in
`fclose_wrapper`, a rotation closes the stream it is about to use.  If the `fopen` of a rotation
fails, `fail` calls `done` with an `fscript` that is NULL.  As long as none of this happens, the
stream is used as it should be.

## Main definitions

* `Correct` — only open streams are written to and closed, and at the end each has been closed.
* `safe` — what must not happen.
* `Phase`, `Inv` — the invariant.

## Main results

* `streams_correct` — **the streams are used correctly in every run without these steps.**
* `streams_incorrect` — runs with one of them.
-/

namespace TtyRec.Streams

open Run Ledger

/-- Nothing but open streams is written to or closed, and when the process exits, every stream
that has been opened has been closed once. -/
def Correct (s : Recording) (H : List (Use ℕ)) : Prop :=
  Proper H ∧ (s.exited = true → ∀ id, .opens id ∈ H → H.count (.closes (some id)) = 1)

/-- The function goes on with the stream it has found in `fscript`. -/
def Flow.keeps : Flow → Bool
  | .header _ | .payload _ | .done (.loaded _) | .done .closed => true
  | _ => false

def Frame.keeps : Frame → Bool
  | .swing (.loaded _) | .swing .closed | .swing (.opened _) => true
  | .done (.loaded _) | .done .closed => true
  | _ => false

/-- The stream of `fscript` has been closed. -/
def Frame.dangling : Frame → Bool
  | .swing .closed | .swing (.opened _) => true
  | _ => false

/-- No function that has been interrupted goes on with the stream. -/
def quiet (fl : Flow) (fs : List Frame) : Bool := !fl.keeps && fs.all fun f => !f.keeps

/-- The step is not one of those that go wrong. -/
def safe (s : Recording) (c : Choice) : Bool :=
  match s.handlers, c with
  | _, .libzstd => false
  -- a rotation calls `fclose_wrapper`
  | .swing (.loaded _) :: fs, .go => quiet s.flow fs
  -- its `fopen` fails
  | .swing .closed :: _, .fails => false
  -- `done` reads `fscript`
  | .done .entered :: fs, .go => fs.all fun f => !f.dangling
  | _, _ => true

section Safe

variable {s : Recording} {fs : List Frame}

theorem safe_libzstd : safe s .libzstd = false := by
  rw [safe]

theorem safe_rotation {fp : Option ℕ} (hh : s.handlers = .swing (.loaded fp) :: fs) :
    safe s .go = quiet s.flow fs := by
  unfold safe
  rw [hh]

theorem safe_fopen (hh : s.handlers = .swing .closed :: fs) : safe s .fails = false := by
  unfold safe
  rw [hh]

theorem safe_done (hh : s.handlers = .done .entered :: fs) :
    safe s .go = fs.all fun f => !f.dangling := by
  unfold safe
  rw [hh]

end Safe

/-! ### The invariant -/

/-- The stream that is open, when no handler runs. -/
def Base (fl : Flow) (fscript cur : Option ℕ) : Prop :=
  match fl with
  | .header fp | .payload fp | .done (.loaded fp) => fp = fscript ∧ cur = fscript ∧ fscript ≠ none
  | .done .closed => cur = none
  | _ => cur = fscript ∧ fscript ≠ none

/-- The stream that is open, under the handlers. -/
def Phase (fl : Flow) (fscript cur : Option ℕ) : List Frame → Prop
  | [] => Base fl fscript cur
  | .swing (.loaded fp) :: fs => fp = fscript ∧ Phase fl fscript cur fs
  | .swing .closed :: fs => cur = none ∧ quiet fl fs = true
  | .swing (.opened fp) :: fs => cur = fp ∧ fp ≠ none ∧ quiet fl fs = true
  -- `done` does not come back to what it has interrupted
  | .done (.loaded fp) :: _ => fp = fscript ∧ cur = fscript ∧ fscript ≠ none
  | .done .closed :: _ => cur = none
  | _ :: fs => Phase fl fscript cur fs

def Flow.inDone : Flow → Bool
  | .done d => d != .called
  | _ => false

def Frame.inDone : Frame → Bool
  | .done d => d != .called
  | _ => false

/-- One stream at most is open, the functions know which, and who has the mutex is in `done`.
`Phase` reads the stack from the top: each function there may hold a stream that it has loaded, and
the one beneath goes on with what it leaves. -/
structure Inv (s : Recording) (H : List (Use ℕ)) : Prop where
  holds : ∃ cur, Holds H cur ∧
    if s.exited = true then cur = none else Phase s.flow s.fscript cur s.handlers
  fresh : ∀ id, .opens id ∈ H → id < s.opened
  returned : s.flow ≠ .returned
  mutex : s.flow.inDone.toNat + s.handlers.countP Frame.inDone = s.entered.toNat

theorem Inv.correct {s : Recording} {H : List (Use ℕ)} (h : Inv s H) : Correct s H := by
  obtain ⟨cur, hholds, hcur⟩ := h.holds
  refine ⟨hholds.proper, ?_⟩
  intro hexit id hid
  rw [if_pos hexit] at hcur
  subst hcur
  rw [hholds.once id hid, if_neg (Option.some_ne_none id).symm]

section Phase

variable {fl : Flow} {fscript cur : Option ℕ} {fs : List Frame}

/-- When no function holds a stream that it has loaded, `fscript` itself is what the next call will
use. -/
theorem phase_of_quiet (hquiet : quiet fl fs = true) (hcur : cur = fscript) (hne : fscript ≠ none) :
    Phase fl fscript cur fs := by
  obtain ⟨hfl, hfs⟩ := Bool.and_eq_true_iff.mp hquiet
  clear hquiet
  induction fs with
  | nil =>
    cases fl with
    | header fp => exact Bool.noConfusion hfl
    | payload fp => exact Bool.noConfusion hfl
    | done d =>
      cases d with
      | loaded fp => exact Bool.noConfusion hfl
      | closed => exact Bool.noConfusion hfl
      | called => exact ⟨hcur, hne⟩
      | entered => exact ⟨hcur, hne⟩
    | _ => exact ⟨hcur, hne⟩
  | cons f fs ih =>
    rw [List.all_cons, Bool.and_eq_true_iff] at hfs
    cases f with
    | swing r =>
      cases r with
      | loaded fp => exact Bool.noConfusion hfs.1
      | closed => exact Bool.noConfusion hfs.1
      | opened fp => exact Bool.noConfusion hfs.1
      | _ => exact ih hfs.2
    | done d =>
      cases d with
      | loaded fp => exact Bool.noConfusion hfs.1
      | closed => exact Bool.noConfusion hfs.1
      | _ => exact ih hfs.2
    | _ => exact ih hfs.2

/-- A rotation that has not closed the stream does not change it. -/
theorem Phase.base (h : Phase fl fscript cur fs)
    (hfs : ∀ f ∈ fs, f.keeps = true → ∃ fp, f = .swing (.loaded fp)) : Base fl fscript cur := by
  induction fs with
  | nil => exact h
  | cons f fs ih =>
    -- `keeps` leaves only the frames that `Phase` passes over
    have hkeeps := hfs f List.mem_cons_self
    have ih' := fun hp => ih hp fun g hg => hfs g (List.mem_cons_of_mem f hg)
    cases f with
    | swing r =>
      cases r with
      | loaded fp => exact ih' h.2
      | closed => simp [Frame.keeps] at hkeeps
      | opened fp => simp [Frame.keeps] at hkeeps
      | _ => exact ih' h
    | done d =>
      cases d with
      | loaded fp => simp [Frame.keeps] at hkeeps
      | closed => simp [Frame.keeps] at hkeeps
      | _ => exact ih' h
    | _ => exact ih' h

theorem Base.current (h : Base fl fscript cur) (hfl : fl.keeps = false ∨ fl.inDone = false) :
    cur = fscript ∧ fscript ≠ none := by
  cases fl with
  | header fp => exact h.2
  | payload fp => exact h.2
  | done d =>
    cases d with
    | loaded fp => simp [Flow.keeps, Flow.inDone] at hfl
    | closed => simp [Flow.keeps, Flow.inDone] at hfl
    | _ => exact h
  | _ => exact h

end Phase

/-! ### Steps -/

section Steps

variable {s : Recording} {H : List (Use ℕ)} {fl : Flow} {fs : List Frame}

/-- `dooutput` goes on without using a stream. -/
theorem Inv.setFlow (h : Inv s H) (hexit : s.exited = false) (hh : s.handlers = []) {fl₀ : Flow}
    (hfl : s.flow = fl₀) (hbase : ∀ cur, Base fl₀ s.fscript cur → Base fl s.fscript cur)
    (hret : fl ≠ .returned) (hmutex : fl.inDone = fl₀.inDone) :
    Inv { s with flow := fl } (H ++ []) := by
  subst hfl
  obtain ⟨cur, hholds, hcur⟩ := h.holds
  rw [if_neg (Bool.eq_false_iff.mp hexit), hh] at hcur
  rw [List.append_nil]
  refine ⟨⟨cur, hholds, ?_⟩, h.fresh, hret, ?_⟩
  · rw [if_neg (Bool.eq_false_iff.mp hexit), hh]
    exact hbase cur hcur
  · rw [hmutex]
    exact h.mutex

/-- A handler goes on without using a stream. -/
theorem Inv.setHandlers (h : Inv s H) (hexit : s.exited = false) {fs₀ : List Frame}
    (hh : s.handlers = fs₀)
    (hphase : ∀ cur, Phase s.flow s.fscript cur fs₀ → Phase s.flow s.fscript cur fs)
    (hmutex : fs.countP Frame.inDone = fs₀.countP Frame.inDone) :
    Inv { s with handlers := fs } (H ++ []) := by
  subst hh
  obtain ⟨cur, hholds, hcur⟩ := h.holds
  rw [if_neg (Bool.eq_false_iff.mp hexit)] at hcur
  rw [List.append_nil]
  refine ⟨⟨cur, hholds, ?_⟩, h.fresh, h.returned, ?_⟩
  · rw [if_neg (Bool.eq_false_iff.mp hexit)]
    exact hphase cur hcur
  · rw [hmutex]
    exact h.mutex

theorem Inv.setCanExit (h : Inv s H) : Inv { s with canExit := true } H :=
  ⟨h.holds, h.fresh, h.returned, h.mutex⟩

/-- A function of the loop writes. -/
theorem Inv.writes (h : Inv s H) (hexit : s.exited = false) (hh : s.handlers = []) {fp : Option ℕ}
    (hfl : s.flow = .header fp ∨ s.flow = .payload fp) : Inv s (H ++ [.writes fp]) := by
  obtain ⟨cur, hholds, hcur⟩ := h.holds
  rw [if_neg (Bool.eq_false_iff.mp hexit)] at hcur
  have hbase : fp = s.fscript ∧ cur = s.fscript ∧ s.fscript ≠ none := by
    rw [hh] at hcur
    rcases hfl with hfl | hfl
    · rw [hfl] at hcur
      exact hcur
    · rw [hfl] at hcur
      exact hcur
  obtain ⟨id, hid⟩ := Option.ne_none_iff_exists'.mp hbase.2.2
  obtain rfl : fp = some id := hbase.1.trans hid
  obtain rfl : cur = some id := hbase.2.1.trans hid
  refine ⟨⟨some id, hholds.writes, ?_⟩, fun id' hid' => h.fresh id' ?_, h.returned, h.mutex⟩
  · rw [if_neg (Bool.eq_false_iff.mp hexit)]
    exact hcur
  · simpa using hid'

/-- `done` closes the stream, and nothing is open from then on. -/
theorem Inv.closes (h : Inv s H) {fp : Option ℕ}
    (hopen : Holds H fp ∧ fp ≠ none) (hret : fl ≠ .returned)
    (hphase : Phase fl s.fscript none fs)
    (hmutex : fl.inDone.toNat + fs.countP Frame.inDone =
      s.flow.inDone.toNat + s.handlers.countP Frame.inDone) :
    Inv { s with flow := fl, handlers := fs } (H ++ [.closes fp]) := by
  obtain ⟨id, rfl⟩ := Option.ne_none_iff_exists'.mp hopen.2
  refine ⟨⟨none, hopen.1.closes, ?_⟩, fun id' hid' => h.fresh id' ?_, hret, ?_⟩
  · split
    · rfl
    · exact hphase
  · simpa using hid'
  · rw [hmutex]
    exact h.mutex

/-- `exit`, after which nothing is used any more. -/
theorem Inv.exits (h : Inv s H) (hexit : s.exited = false)
    (hcur : ∀ cur, Phase s.flow s.fscript cur s.handlers → cur = none) :
    Inv { s with exited := true } H := by
  obtain ⟨cur, hholds, hphase⟩ := h.holds
  rw [if_neg (Bool.eq_false_iff.mp hexit)] at hphase
  exact ⟨⟨cur, hholds, hcur cur hphase⟩, h.fresh, h.returned, h.mutex⟩

/-- `dooutput` calls `done`, which closes the stream if the mutex is free. -/
theorem flowStep_done_inv (h : Inv s H) (hexit : s.exited = false) (hh : s.handlers = [])
    {d : Ending} (hfl : s.flow = .done d) {r : Recording × List (Use ℕ)}
    (hstep : flowStep .go s = some r) : Inv r.1 (H ++ r.2) := by
  unfold flowStep at hstep
  rw [hfl] at hstep
  cases d with
  | called =>
    by_cases hent : s.entered = true
    · -- who has the mutex is in `done`, and that can only be the loop
      have hmutex := h.mutex
      rw [hfl, hh, hent] at hmutex
      exact Nat.noConfusion hmutex
    · simp only [endStep, if_neg hent, if_true] at hstep
      cases hstep
      obtain ⟨cur, hholds, hcur⟩ := h.holds
      rw [if_neg (Bool.eq_false_iff.mp hexit), hh, hfl] at hcur
      rw [List.append_nil]
      refine ⟨⟨cur, hholds, ?_⟩, h.fresh, Flow.noConfusion, ?_⟩
      · rw [if_neg (Bool.eq_false_iff.mp hexit), hh]
        exact hcur
      · rw [hh]
        rfl
  | entered =>
    cases hstep
    exact h.setFlow hexit hh hfl (fun _ hb => ⟨rfl, hb⟩) Flow.noConfusion rfl
  | loaded fp =>
    cases hstep
    obtain ⟨cur, hholds, hcur⟩ := h.holds
    rw [if_neg (Bool.eq_false_iff.mp hexit), hh, hfl] at hcur
    obtain ⟨rfl, rfl, hne⟩ := hcur
    exact h.closes ⟨hholds, hne⟩ Flow.noConfusion (by rw [hh]; rfl) (by rw [hfl]; rfl)
  | closed =>
    cases hstep
    rw [List.append_nil, ← hfl]
    apply h.exits hexit
    intro cur hp
    rw [hh, hfl] at hp
    exact hp

/-- `dooutput` takes a step.  It writes to the stream that is open, as no handler is above it. -/
theorem flowStep_inv (h : Inv s H) (hexit : s.exited = false) (hh : s.handlers = []) {c : Choice}
    (hc : c ≠ .libzstd) {r : Recording × List (Use ℕ)} (hstep : flowStep c s = some r) :
    Inv r.1 (H ++ r.2) := by
  unfold flowStep at hstep
  split at hstep
  next hfl =>
    split at hstep
    · cases hstep
      exact h.setFlow hexit hh hfl (fun _ hb => hb) Flow.noConfusion rfl
    · cases hstep
      exact h.setFlow hexit hh hfl (fun _ hb => hb) Flow.noConfusion rfl
    · cases hstep
      exact h.setHandlers hexit hh (fun _ hp => hp) rfl
    · exact (Option.some_ne_none _ hstep.symm).elim
  next hfl =>
    split at hstep
    · cases hstep
      exact h.setFlow hexit hh hfl (fun _ hb => ⟨rfl, hb⟩) Flow.noConfusion rfl
    · exact (Option.some_ne_none _ hstep.symm).elim
  next fp hfl =>
    split at hstep
    · cases hstep
      exact h.writes hexit hh (.inl hfl)
    · cases hstep
      exact h.setFlow hexit hh hfl (fun _ hb => hb.2) Flow.noConfusion rfl
    · exact (hc rfl).elim
    · exact (Option.some_ne_none _ hstep.symm).elim
  next hfl =>
    split at hstep
    · cases hstep
      exact h.setFlow hexit hh hfl (fun _ hb => ⟨rfl, hb⟩) Flow.noConfusion rfl
    · exact (Option.some_ne_none _ hstep.symm).elim
  next fp hfl =>
    split at hstep
    · cases hstep
      exact h.writes hexit hh (.inr hfl)
    · cases hstep
      exact h.setFlow hexit hh hfl (fun _ hb => hb.2) Flow.noConfusion rfl
    · exact (hc rfl).elim
    · exact (Option.some_ne_none _ hstep.symm).elim
  next hfl =>
    split at hstep
    · split at hstep
      · cases hstep
        exact h.setFlow hexit hh hfl (fun _ hb => hb) Flow.noConfusion rfl
      · -- `waitpid` has failed
        cases hstep
        rw [List.append_nil]
        exact h.setCanExit
    · exact (Option.some_ne_none _ hstep.symm).elim
  next d hfl =>
    split at hstep
    next hgo =>
      apply flowStep_done_inv h hexit hh hfl
      unfold flowStep
      rw [hfl]
      exact hstep
    · exact (Option.some_ne_none _ hstep.symm).elim
  next hfl => exact (h.returned hfl).elim

/-- `swing_output_file` takes a step that is safe: when it closes the stream, no function beneath it
goes on with that. -/
theorem swingStep_inv (h : Inv s H) (hexit : s.exited = false) {r : Rotation}
    (hh : s.handlers = .swing r :: fs) {c : Choice} (hsafe : safe s c = true)
    {q : Recording × List (Use ℕ)} (hstep : swingStep r fs c s = some q) : Inv q.1 (H ++ q.2) := by
  unfold swingStep at hstep
  split at hstep
  next =>
    split at hstep
    · cases hstep
      exact h.setHandlers hexit hh (fun _ hp => hp) rfl
    · cases hstep
      exact h.setHandlers hexit hh (fun _ hp => hp) rfl
    · cases hstep
      exact h.setHandlers hexit hh (fun _ hp => hp) rfl
    · exact (Option.some_ne_none _ hstep.symm).elim
  next =>
    split at hstep
    · cases hstep
      exact h.setHandlers hexit hh (fun _ hp => ⟨rfl, hp⟩) rfl
    · exact (Option.some_ne_none _ hstep.symm).elim
  next fp =>
    split at hstep
    next hgo =>
      subst hgo
      cases hstep
      have hquiet : quiet s.flow fs = true := (safe_rotation hh).symm.trans hsafe
      -- nothing that has been interrupted goes on with the stream: it is the one that is open
      obtain ⟨hfl, hfs⟩ := Bool.and_eq_true_iff.mp hquiet
      rw [Bool.not_eq_true'] at hfl
      rw [List.all_eq_true] at hfs
      obtain ⟨cur, hholds, hcur⟩ := h.holds
      rw [if_neg (Bool.eq_false_iff.mp hexit), hh] at hcur
      obtain ⟨rfl, hp⟩ := hcur
      have hbase := hp.base fun f hf hkeeps => by
        have hf' := hfs f hf
        rw [hkeeps] at hf'
        exact Bool.noConfusion hf'
      obtain ⟨rfl, hne⟩ := hbase.current (.inl hfl)
      exact h.closes ⟨hholds, hne⟩ h.returned ⟨rfl, hquiet⟩ (by rw [hh]; rfl)
    · exact (Option.some_ne_none _ hstep.symm).elim
  next =>
    split at hstep
    · cases hstep
      obtain ⟨cur, hholds, hcur⟩ := h.holds
      rw [if_neg (Bool.eq_false_iff.mp hexit), hh] at hcur
      obtain ⟨rfl, hquiet⟩ := hcur
      -- the streams are numbered as they are opened
      have hfresh : .opens s.opened ∉ H := fun hmem => (h.fresh _ hmem).ne rfl
      refine ⟨⟨some s.opened, hholds.opens hfresh, ?_⟩, ?_, h.returned, ?_⟩
      · rw [if_neg (Bool.eq_false_iff.mp hexit)]
        exact ⟨rfl, Option.some_ne_none _, hquiet⟩
      · intro id hid
        rcases List.mem_append.mp hid with hid | hid
        · exact (h.fresh id hid).trans (Nat.lt_succ_self _)
        · obtain rfl := Use.opens.inj (List.mem_singleton.mp hid)
          exact Nat.lt_succ_self _
      · have hmutex := h.mutex
        rw [hh] at hmutex
        exact hmutex
    · rw [safe_fopen hh] at hsafe
      exact Bool.noConfusion hsafe
    · exact (Option.some_ne_none _ hstep.symm).elim
  next fp =>
    obtain ⟨cur, hholds, hcur⟩ := h.holds
    rw [if_neg (Bool.eq_false_iff.mp hexit), hh] at hcur
    obtain ⟨rfl, hne, hquiet⟩ := hcur
    split at hstep
    · split at hstep
      · cases hstep
        rw [List.append_nil]
        refine ⟨⟨_, hholds, ?_⟩, h.fresh, h.returned, ?_⟩
        · -- `fscript` points to the stream that is open again, for whatever goes on below
          rw [if_neg (Bool.eq_false_iff.mp hexit)]
          exact phase_of_quiet hquiet rfl hne
        · have hmutex := h.mutex
          rw [hh] at hmutex
          exact hmutex
      · exact (hne rfl).elim
    · exact (Option.some_ne_none _ hstep.symm).elim
  next =>
    split at hstep
    · cases hstep
      exact h.setHandlers hexit hh (fun _ hp => hp) rfl
    · exact (Option.some_ne_none _ hstep.symm).elim

/-- Whoever is in `done` is alone there. -/
theorem Inv.alone (h : Inv s H) {d : Ending} (hh : s.handlers = .done d :: fs) (hd : d ≠ .called) :
    s.flow.inDone = false ∧ ∀ f ∈ fs, f.inDone = false := by
  have hmutex := h.mutex
  have hle := Bool.toNat_le s.entered
  have hin : (Frame.done d).inDone = true := bne_iff_ne.mpr hd
  rw [hh, List.countP_cons_of_pos hin] at hmutex
  constructor
  · rw [← Bool.toNat_eq_zero]
    omega
  · have hcount : fs.countP Frame.inDone = 0 := by omega
    exact fun f hf => Bool.eq_false_iff.mpr (List.countP_eq_zero.mp hcount f hf)

/-- `done` takes a step, in a handler. -/
theorem frameStep_done_inv (h : Inv s H) (hexit : s.exited = false) {d : Ending}
    (hh : s.handlers = .done d :: fs) (hsafe : safe s .go = true) {r : Recording × List (Use ℕ)}
    (hstep : frameStep (.done d) fs .go s = some r) : Inv r.1 (H ++ r.2) := by
  unfold frameStep at hstep
  cases d with
  | called =>
    by_cases hent : s.entered = true
    · simp only [endStep, if_pos hent, if_true] at hstep
      cases hstep
      exact h.setHandlers hexit hh (fun _ hp => hp) rfl
    · simp only [endStep, if_neg hent, if_true] at hstep
      cases hstep
      obtain ⟨cur, hholds, hcur⟩ := h.holds
      rw [if_neg (Bool.eq_false_iff.mp hexit), hh] at hcur
      rw [List.append_nil]
      refine ⟨⟨cur, hholds, ?_⟩, h.fresh, h.returned, ?_⟩
      · rw [if_neg (Bool.eq_false_iff.mp hexit)]
        exact hcur
      · have hmutex := h.mutex
        rw [hh, Bool.eq_false_iff.mpr hent] at hmutex
        have hin : (Frame.done .entered).inDone = true := rfl
        rw [List.countP_cons_of_pos hin, ← Nat.add_assoc]
        exact congrArg Nat.succ hmutex
  | entered =>
    cases hstep
    obtain ⟨hflow, hfs⟩ := h.alone hh Ending.noConfusion
    have hdangling := List.all_eq_true.mp ((safe_done hh).symm.trans hsafe)
    refine h.setHandlers hexit hh ?_ rfl
    intro cur hp
    have hp' : Phase s.flow s.fscript cur fs := hp
    have hbase := hp'.base fun f hf hkeeps => ?_
    · exact ⟨rfl, hbase.current (.inr hflow)⟩
    · -- nobody else is in `done`, and a rotation below has not closed the stream
      have hf₁ := hdangling f hf
      have hf₂ := hfs f hf
      cases f with
      | swing r =>
        cases r with
        | loaded fp => exact ⟨fp, rfl⟩
        | closed => exact Bool.noConfusion hf₁
        | opened fp => exact Bool.noConfusion hf₁
        | _ => exact Bool.noConfusion hkeeps
      | done d =>
        cases d with
        | loaded fp => exact Bool.noConfusion hf₂
        | closed => exact Bool.noConfusion hf₂
        | _ => exact Bool.noConfusion hkeeps
      | _ => exact Bool.noConfusion hkeeps
  | loaded fp =>
    cases hstep
    obtain ⟨cur, hholds, hcur⟩ := h.holds
    rw [if_neg (Bool.eq_false_iff.mp hexit), hh] at hcur
    obtain ⟨rfl, rfl, hne⟩ := hcur
    -- what is below does not go on
    exact h.closes ⟨hholds, hne⟩ h.returned rfl (by rw [hh]; rfl)
  | closed =>
    cases hstep
    rw [List.append_nil, ← hh]
    apply h.exits hexit
    intro cur hp
    rw [hh] at hp
    exact hp

/-- The function at the top takes a step.  Only `swing_output_file` and `done` use streams; the
others leave the recording alone, so the invariant is carried over. -/
theorem frameStep_inv (h : Inv s H) (hexit : s.exited = false) {f : Frame}
    (hh : s.handlers = f :: fs) {c : Choice} (hsafe : safe s c = true)
    {r : Recording × List (Use ℕ)} (hstep : frameStep f fs c s = some r) :
    Inv r.1 (H ++ r.2) := by
  cases f with
  | swing r => exact swingStep_inv h hexit hh hsafe hstep
  | done d =>
    -- `done` does not look at what the library does
    by_cases hgo : c = .go
    · subst hgo
      exact frameStep_done_inv h hexit hh hsafe hstep
    · rw [frameStep, if_neg hgo] at hstep
      exact (Option.some_ne_none _ hstep.symm).elim
  | finish =>
    unfold frameStep at hstep
    dsimp only at hstep
    split at hstep
    · cases hstep
      exact h.setCanExit.setHandlers hexit hh (fun _ hp => hp) rfl
    · cases hstep
      exact h.setHandlers hexit hh (fun _ hp => hp) rfl
    · exact (Option.some_ne_none _ hstep.symm).elim
  | ending sig called =>
    unfold frameStep at hstep
    dsimp only at hstep
    split at hstep
    · split at hstep
      · cases hstep
        exact h.setHandlers hexit hh (fun _ hp => hp) rfl
      · cases hstep
        exact h.setHandlers hexit hh (fun _ hp => hp) rfl
    · exact (Option.some_ne_none _ hstep.symm).elim
  | fail =>
    unfold frameStep at hstep
    dsimp only at hstep
    split at hstep
    · split at hstep
      · cases hstep
        exact h.setHandlers hexit hh (fun _ hp => hp) rfl
      · cases hstep
        exact h.setHandlers hexit hh (fun _ hp => hp) rfl
    · exact (Option.some_ne_none _ hstep.symm).elim

/-- **A step that is safe keeps the invariant.** The three steps that go wrong are the ones that
`safe` leaves out. -/
theorem step_inv {c : Choice} (h : Inv s H) (hsafe : safe s c = true)
    {r : Recording × List (Use ℕ)} (hstep : step s c = some r) : Inv r.1 (H ++ r.2) := by
  unfold step at hstep
  split at hstep
  · exact (Option.some_ne_none _ hstep.symm).elim
  next hexit =>
    rw [Bool.not_eq_true] at hexit
    split at hstep
    next sig =>
      split at hstep
      · exact (Option.some_ne_none _ hstep.symm).elim
      · cases hstep
        cases sig with
        | _ => exact h.setHandlers hexit rfl (fun _ hp => hp) rfl
    next =>
      split at hstep
      next hh =>
        refine flowStep_inv h hexit hh ?_ hstep
        rintro rfl
        rw [safe_libzstd] at hsafe
        exact Bool.noConfusion hsafe
      next f fs hh => exact frameStep_inv h hexit hh hsafe hstep

end Steps

theorem inv_start : Inv Recording.start [.opens 0] := by
  refine ⟨⟨some 0, holds_opens 0, rfl, Option.some_ne_none 0⟩, ?_, Flow.noConfusion, rfl⟩
  intro id hid
  obtain rfl := Use.opens.inj (List.mem_singleton.mp hid)
  exact Nat.one_pos

/-- **The streams are used correctly in every run without these steps**, whatever interrupts what:
no stream is used or closed that is not open, and at the end each was closed once. -/
theorem streams_correct {cs : List Choice} {s : Recording}
    (hsafe : Along streamsStep (fun s c => safe s c = true) Recording.start cs)
    (hrun : exec streamsStep Recording.start cs = some s) : Correct s (history cs) := by
  refine Inv.correct (exec_invariant_collect (I := Inv) ?_ hsafe hrun
    inv_start)
  intro s H c s' h hc hs
  obtain ⟨r, hr, rfl⟩ := Option.map_eq_some_iff.mp hs
  rw [uses, hr]
  exact step_inv h hc hr

/-- A rotation while the loop waits, and then SIGTERM in the middle of a write. -/
theorem streams_correct_term : ∃ cs s, exec streamsStep Recording.start cs = some s ∧
    s.exited = true ∧ Correct s (history cs) ∧
    history cs = [.opens 0, .closes (some 0), .opens 1, .writes (some 1), .closes (some 1)] := by
  let cs : List Choice := [.signal .usr1, .go, .go, .go, .go, .go, .go, .output, .go, .write,
    .signal .term, .go, .go, .go, .go, .go]
  obtain ⟨s, hs⟩ := Option.isSome_iff_exists.mp
    (show (exec streamsStep Recording.start cs).isSome = true by decide)
  have hsafe : Along streamsStep (fun s c => safe s c = true) Recording.start cs := by decide
  have hexit : (exec streamsStep Recording.start cs).map Recording.exited = some true := by decide
  rw [hs] at hexit
  exact ⟨cs, s, hs, Option.some.inj hexit, streams_correct hsafe hs, by decide⟩

/-- The `fopen` of a rotation fails; a rotation interrupts a write; SIGTERM interrupts a rotation;
libzstd fails. -/
theorem streams_incorrect :
    (∃ cs s, exec streamsStep Recording.start cs = some s ∧ ¬ Correct s (history cs) ∧
      history cs = [.opens 0, .closes (some 0), .closes none]) ∧
    (∃ cs s, exec streamsStep Recording.start cs = some s ∧ ¬ Correct s (history cs) ∧
      history cs = [.opens 0, .closes (some 0), .opens 1, .writes (some 0)]) ∧
    (∃ cs s, exec streamsStep Recording.start cs = some s ∧ ¬ Correct s (history cs) ∧
      history cs = [.opens 0, .closes (some 0), .closes (some 0)]) ∧
    (∃ cs s, exec streamsStep Recording.start cs = some s ∧ ¬ Correct s (history cs) ∧
      s.exited = true ∧ history cs = [.opens 0]) := by
  refine ⟨?_, ?_, ?_, ?_⟩
  · let cs : List Choice :=
      [.signal .usr1, .go, .go, .go, .fails, .go, .go, .go, .go, .go, .go]
    obtain ⟨s, hs⟩ := Option.isSome_iff_exists.mp
      (show (exec streamsStep Recording.start cs).isSome = true by decide)
    have hH : history cs = [.opens 0, .closes (some 0), .closes none] := by decide
    refine ⟨cs, s, hs, ?_, hH⟩
    intro h
    exact FileState.noConfusion (h.1 [.opens 0, .closes (some 0)] _ [] hH)
  · let cs : List Choice :=
      [.output, .go, .signal .usr1, .go, .go, .go, .go, .go, .go, .write]
    obtain ⟨s, hs⟩ := Option.isSome_iff_exists.mp
      (show (exec streamsStep Recording.start cs).isSome = true by decide)
    have hH : history cs = [.opens 0, .closes (some 0), .opens 1, .writes (some 0)] := by decide
    refine ⟨cs, s, hs, ?_, hH⟩
    intro h
    have hopen := h.1 [.opens 0, .closes (some 0), .opens 1] _ [] hH
    exact (fileState_opened_iff.mp hopen).2 (by decide)
  · let cs : List Choice := [.signal .usr1, .go, .go, .go, .signal .term, .go, .go, .go, .go]
    obtain ⟨s, hs⟩ := Option.isSome_iff_exists.mp
      (show (exec streamsStep Recording.start cs).isSome = true by decide)
    have hH : history cs = [.opens 0, .closes (some 0), .closes (some 0)] := by decide
    refine ⟨cs, s, hs, ?_, hH⟩
    intro h
    have hopen := h.1 [.opens 0, .closes (some 0)] _ [] hH
    exact (fileState_opened_iff.mp hopen).2 (by decide)
  · let cs : List Choice := [.output, .go, .libzstd]
    obtain ⟨s, hs⟩ := Option.isSome_iff_exists.mp
      (show (exec streamsStep Recording.start cs).isSome = true by decide)
    have hH : history cs = [.opens 0] := by decide
    have hexit : (exec streamsStep Recording.start cs).map Recording.exited = some true := by decide
    rw [hs] at hexit
    refine ⟨cs, s, hs, ?_, Option.some.inj hexit, hH⟩
    intro h
    have honce := h.2 (Option.some.inj hexit) 0 (by rw [hH]; exact List.mem_singleton_self _)
    rw [hH] at honce
    exact Nat.noConfusion honce

end TtyRec.Streams
