import TtyRec.RawMode

/-!
# Whether the parent gives the terminal back

Whoever has got the mutex of `done` sets the saved attributes before it calls `exit`.  But the
parent also ends when `fork` fails, with an `exit` of its own, and when `main` returns: `done`
comes back to the main flow at once if the other thread has got the mutex, and that thread may
not have set the attributes yet.

## Main definitions

* `GivenBack` — the last change of the attributes was the one in `done`.
* `Premature` — a step that ends the process before that.

## Main results

* `givenBack_iff` — **the parent gives the terminal back exactly if `fork` does not fail and
  `main` does not return while the other thread is in `done`**, before its `tcsetattr`.
-/

namespace TtyRec.RawMode

open Run

/-- The last change of the attributes was to set those that were saved. -/
def GivenBack (s : Proc) : Prop := s.sets.getLast? = some .saved

/-- The `exit` after a failed `fork`, and the end of `main` while the other thread has got the
mutex and has not set the attributes. -/
def Premature (s : Proc) (e : Thread × Choice) : Prop :=
  e = (.main, .go) ∧ s.handlers = [] ∧
    (s.flow = .exit ∨ s.flow = .returned ∧ .done .entered ∈ s.watcher)

/-! ### The invariant -/

/-- How many functions have got the mutex. -/
def holders (s : Proc) : ℕ :=
  s.flow.inDone.toNat + s.handlers.countP Frame.inDone + s.watcher.countP Frame.inDone

/-- How many of them have set the attributes. -/
def restorers (s : Proc) : ℕ :=
  s.flow.restored.toNat + s.handlers.countP Frame.restored + s.watcher.countP Frame.restored

/-- Who has the mutex is in `done`, and the attributes are set as far as it has come.  At most one
function has got the mutex, so the two counts are at most 1; and `main` returns only when another
`done` was there first. -/
structure Inv (s : Proc) : Prop where
  running : s.exited = false
  mutex : holders s = s.entered.toNat
  given : GivenBack s ↔ 0 < restorers s
  alone : s.flow.alone = true → s.threaded = false
  watcher : s.threaded = false → s.watcher = []
  returned : s.flow = .returned → s.entered = true

theorem inv_start : Inv .start :=
  ⟨rfl, rfl, by simp [GivenBack, restorers, Proc.start, Flow.restored], fun _ => rfl, fun _ => rfl,
    Flow.noConfusion⟩

theorem Frame.inDone_of_restored {f : Frame} (h : f.restored = true) : f.inDone = true := by
  cases f with
  | done d =>
    cases d with
    | restored => rfl
    | _ => exact Bool.noConfusion h
  | _ => exact Bool.noConfusion h

theorem restored_of_inDone {f : Frame} (h : f.inDone = false) : f.restored = false := by
  by_contra hr
  rw [Bool.not_eq_false] at hr
  exact absurd (Frame.inDone_of_restored hr) (by simp [h])

theorem Flow.restored_of_inDone {fl : Flow} (h : fl.inDone = false) : fl.restored = false := by
  cases fl with
  | done d =>
    cases d with
    | restored => exact Bool.noConfusion h
    | _ => rfl
  | _ => rfl

theorem countP_push (p : Frame → Bool) (f : Frame) (fs : List Frame) :
    (f :: fs).countP p = (p f).toNat + fs.countP p := by
  rw [List.countP_cons]
  cases p f with
  | true => exact Nat.add_comm _ 1
  | false => exact (Nat.zero_add _).symm

/-- Frames that are not in `done` count for nothing. -/
theorem countP_other {fs : List Frame} (h : ∀ f ∈ fs, f.inDone = false) :
    fs.countP Frame.inDone = 0 ∧ fs.countP Frame.restored = 0 := by
  constructor
  · rw [List.countP_eq_zero]
    intro f hf
    simp [h f hf]
  · rw [List.countP_eq_zero]
    intro f hf
    simp [restored_of_inDone (h f hf)]

/-- Where `done` is on the way to its `tcsetattr`, nobody else is in it. -/
theorem restorers_eq_zero {s : Proc} (h : Inv s) {fs : List Frame}
    (hfs : fs = s.handlers ∨ fs = s.watcher) (hmem : .done .entered ∈ fs) : restorers s = 0 := by
  have hle : ∀ l : List Frame, l.countP Frame.restored ≤ l.countP Frame.inDone := fun l =>
    List.countP_mono_left fun f _ hf => Frame.inDone_of_restored hf
  have hlt : fs.countP Frame.restored + 1 ≤ fs.countP Frame.inDone := by
    obtain ⟨l₁, l₂, rfl⟩ := List.append_of_mem hmem
    have h₁ := hle l₁
    have h₂ := hle l₂
    simp only [List.countP_append, List.countP_cons, Frame.restored, Frame.inDone, Ending.inDone]
    simp
    omega
  have hflow : s.flow.restored.toNat ≤ s.flow.inDone.toNat := by
    cases hi : s.flow.inDone with
    | true => exact Bool.toNat_le _
    | false => rw [Flow.restored_of_inDone hi]
  have hmutex := h.mutex
  have hone : s.entered.toNat ≤ 1 := Bool.toNat_le _
  have hh := hle s.handlers
  have hw := hle s.watcher
  unfold holders at hmutex
  unfold restorers
  rcases hfs with rfl | rfl <;> omega

/-! ### Steps -/

section Steps

variable {s t : Proc} {f : Frame} {fs gs : List Frame}

theorem givenBack_congr (h : t.sets = s.sets) : GivenBack t ↔ GivenBack s := by
  rw [GivenBack, h, GivenBack]

theorem givenBack_of_concat {x : Tcsetattr} (h : t.sets = s.sets ++ [x]) :
    GivenBack t ↔ x = .saved := by
  simp [GivenBack, h]

/-- What a frame leaves alone, and what it adds to the counts; or it is the `exit` of `done`. -/
theorem FrameSteps.counts (h : FrameSteps s f t gs) :
    (f = .done .restored ∧ t = { s with exited := true }) ∨
    (t.exited = s.exited ∧ t.flow = s.flow ∧ t.handlers = s.handlers ∧ t.threaded = s.threaded ∧
      t.watcher = s.watcher) ∧ (s.entered = true → t.entered = true) ∧
      gs.countP Frame.inDone + s.entered.toNat = f.inDone.toNat + t.entered.toNat ∧
      ((GivenBack t ↔ GivenBack s) ∧ gs.countP Frame.restored = f.restored.toNat ∨
        GivenBack t ∧ 0 < gs.countP Frame.restored) := by
  cases h with
  | other hf hgs =>
    obtain ⟨hin, hres⟩ := countP_other hgs
    refine .inr ⟨⟨rfl, rfl, rfl, rfl, rfl⟩, id, ?_, .inl ⟨Iff.rfl, ?_⟩⟩
    · rw [hin, hf]
      rfl
    · rw [hres, restored_of_inDone hf]
      rfl
  | enters hentered =>
    refine .inr ⟨⟨rfl, rfl, rfl, rfl, rfl⟩, fun _ => rfl, ?_, .inl ⟨Iff.rfl, rfl⟩⟩
    rw [hentered]
    rfl
  | restores =>
    exact .inr ⟨⟨rfl, rfl, rfl, rfl, rfl⟩, id, rfl,
      .inr ⟨(givenBack_of_concat rfl).mpr rfl, Nat.one_pos⟩⟩
  | exits => exact .inl ⟨rfl, rfl⟩

/-- What a step does: it goes on, or it ends the process, and the terminal is given back then
exactly if it does not come too early.  One statement for both, because the run lemma needs them
together. -/
def StepSpec (s : Proc) (e : Thread × Choice) (t : Proc) : Prop :=
  Inv t ∧ ¬ Premature s e ∨ t.exited = true ∧ (GivenBack t ↔ ¬ Premature s e)

/-- The `exit` of `done`, which the function reaches behind the call of `tcsetattr`. -/
theorem StepSpec.exits {e : Thread × Choice} (hexited : t.exited = true) (hsets : t.sets = s.sets)
    (hback : GivenBack s) (he : ¬ Premature s e) : StepSpec s e t := by
  exact .inr ⟨hexited, iff_of_true ((givenBack_congr hsets).mpr hback) he⟩

/-- A function that has set the attributes is still there to tell. -/
theorem givenBack_of_mem (h : Inv s) (hmem : .done .restored ∈ s.handlers ∨
    .done .restored ∈ s.watcher) : GivenBack s := by
  rw [h.given, restorers]
  rcases hmem with hmem | hmem
  · have hpos : 0 < s.handlers.countP Frame.restored :=
      List.countP_pos_iff.mpr ⟨_, hmem, rfl⟩
    omega
  · have hpos : 0 < s.watcher.countP Frame.restored :=
      List.countP_pos_iff.mpr ⟨_, hmem, rfl⟩
    omega

/-- The counts after a step of a frame; `a` and `b` are what the rest adds to them. -/
theorem Inv.frame (hinv : Inv s) {a b : ℕ} (ha : holders s = f.inDone.toNat + a)
    (hb : restorers s = f.restored.toNat + b)
    (hin : gs.countP Frame.inDone + s.entered.toNat = f.inDone.toNat + t.entered.toNat)
    (hres : (GivenBack t ↔ GivenBack s) ∧ gs.countP Frame.restored = f.restored.toNat ∨
      GivenBack t ∧ 0 < gs.countP Frame.restored) :
    gs.countP Frame.inDone + a = t.entered.toNat ∧
      (GivenBack t ↔ 0 < gs.countP Frame.restored + b) := by
  constructor
  · have hmutex := hinv.mutex
    omega
  · rcases hres with ⟨hsame, hcount⟩ | ⟨hback, hpos⟩
    · rw [hsame, hinv.given, hb, hcount]
    · exact iff_of_true hback (Nat.add_pos_left hpos b)

/-- A handler of the main thread.  While there is one, `main` does not return, so the step is not
premature. -/
theorem FrameSteps.spec_main (hinv : Inv s) (hh : s.handlers = f :: fs) (c : Choice)
    (h : FrameSteps s f t gs) : StepSpec s (.main, c) { t with handlers := gs ++ fs } := by
  have hpre : ¬ Premature s (.main, c) := by
    rintro ⟨-, hnil, -⟩
    exact List.cons_ne_nil f fs (hh.symm.trans hnil)
  rcases h.counts with ⟨rfl, rfl⟩ | ⟨⟨hexited, hflow, hhandlers, hthreaded, hwatcher⟩, hent, hin,
    hres⟩
  · exact .exits rfl rfl (givenBack_of_mem hinv (.inl (hh ▸ List.mem_cons_self))) hpre
  · -- the top of the stack is counted apart from the rest
    have ha : holders s = f.inDone.toNat +
        (s.flow.inDone.toNat + fs.countP Frame.inDone + s.watcher.countP Frame.inDone) := by
      rw [holders, hh, countP_push]
      omega
    have hb : restorers s = f.restored.toNat +
        (s.flow.restored.toNat + fs.countP Frame.restored + s.watcher.countP Frame.restored) := by
      rw [restorers, hh, countP_push]
      omega
    obtain ⟨hmutex, hgiven⟩ := hinv.frame ha hb hin hres
    refine .inl ⟨⟨hexited.trans hinv.running, ?_, ?_, ?_, ?_, ?_⟩, hpre⟩
    · simp only [holders, hflow, hwatcher, List.countP_append]
      omega
    · apply hgiven.trans
      simp only [restorers, hflow, hwatcher, List.countP_append]
      omega
    · rw [hflow, hthreaded]
      exact hinv.alone
    · rw [hthreaded, hwatcher]
      exact hinv.watcher
    · intro hret
      exact hent (hinv.returned (hflow.symm.trans hret))

/-- A handler of the watcher thread, which may call `exit` but is never premature itself. -/
theorem FrameSteps.spec_watcher (hinv : Inv s) (hh : s.watcher = f :: fs) (c : Choice)
    (h : FrameSteps s f t gs) : StepSpec s (.watcher, c) { t with watcher := gs ++ fs } := by
  have hpre : ¬ Premature s (.watcher, c) := fun ⟨he, _⟩ => Thread.noConfusion (congrArg Prod.fst he)
  rcases h.counts with ⟨rfl, rfl⟩ | ⟨⟨hexited, hflow, hhandlers, hthreaded, hwatcher⟩, hent, hin,
    hres⟩
  · exact .exits rfl rfl (givenBack_of_mem hinv (.inr (hh ▸ List.mem_cons_self))) hpre
  · have ha : holders s = f.inDone.toNat +
        (s.flow.inDone.toNat + s.handlers.countP Frame.inDone + fs.countP Frame.inDone) := by
      rw [holders, hh, countP_push]
      omega
    have hb : restorers s = f.restored.toNat +
        (s.flow.restored.toNat + s.handlers.countP Frame.restored + fs.countP Frame.restored) := by
      rw [restorers, hh, countP_push]
      omega
    obtain ⟨hmutex, hgiven⟩ := hinv.frame ha hb hin hres
    refine .inl ⟨⟨hexited.trans hinv.running, ?_, ?_, ?_, ?_, ?_⟩, hpre⟩
    · simp only [holders, hflow, hhandlers, List.countP_append]
      omega
    · apply hgiven.trans
      simp only [restorers, hflow, hhandlers, List.countP_append]
      omega
    · rw [hflow, hthreaded]
      exact hinv.alone
    · intro hone
      -- without a second thread nothing interrupts it
      rw [hthreaded] at hone
      exact absurd (hh.symm.trans (hinv.watcher hone)) (List.cons_ne_nil f fs)
    · intro hret
      exact hent (hinv.returned (hflow.symm.trans hret))

/-- The end of `main`: somebody has got the mutex, and that can only be the other thread. -/
theorem Inv.main_ends (hinv : Inv s) (hh : s.handlers = []) (hflow : s.flow = .returned) :
    StepSpec s (.main, .go) { s with exited := true } := by
  have hmutex := hinv.mutex
  simp only [holders, hh, hflow, hinv.returned hflow, Flow.inDone, List.countP_nil,
    Bool.toNat_false, Bool.toNat_true, zero_add] at hmutex
  refine .inr ⟨rfl, ?_⟩
  change GivenBack s ↔ _
  constructor
  · rintro hback ⟨-, -, hexit | ⟨-, hmem⟩⟩
    · exact Flow.noConfusion (hflow.symm.trans hexit)
    · exact absurd (hinv.given.mp hback) (restorers_eq_zero hinv (.inr rfl) hmem).not_gt
  · intro hpre
    -- the mutex is held on the other thread, where it is past `tcsetattr` unless the end is
    -- premature
    have hpos : 0 < s.watcher.countP Frame.inDone := by omega
    obtain ⟨f, hf, hdone⟩ := List.countP_pos_iff.mp hpos
    cases f with
    | done d =>
      cases d with
      | called => exact Bool.noConfusion hdone
      | entered => exact absurd ⟨rfl, hh, .inr ⟨hflow, hf⟩⟩ hpre
      | restored => exact givenBack_of_mem hinv (.inr hf)
    | _ => exact Bool.noConfusion hdone

/-- The main flow, with nothing above it.  Its steps change the counts only where it is in `done`
itself. -/
theorem FlowSteps.spec (hinv : Inv s) (hh : s.handlers = []) {c : Choice} (h : FlowSteps s c t) :
    StepSpec s (.main, c) t := by
  have hmutex := hinv.mutex
  have hgiven := hinv.given
  simp only [holders, hh, List.countP_nil] at hmutex
  simp only [restorers, hh, List.countP_nil] at hgiven
  -- a part of the main flow that is not the end of the process
  have hpre {f : Flow} (hflow : s.flow = f) (hexit : f ≠ .exit) (hret : f ≠ .returned) :
      ¬ Premature s (.main, c) := by
    rintro ⟨-, -, hmem | ⟨hmem, -⟩⟩
    · exact hexit (hflow.symm.trans hmem)
    · exact hret (hflow.symm.trans hmem)
  cases h with
  | fixtty hflow =>
    -- raw mode is set while there is only one thread, so nobody is in `done`
    have hwatcher := hinv.watcher (hinv.alone (by rw [hflow]; rfl))
    refine .inl ⟨⟨hinv.running, ?_, ?_, fun _ => ?_, hinv.watcher, by simp⟩,
      hpre hflow (by simp) (by simp)⟩
    · simpa [holders, hh, hflow, Flow.inDone] using hmutex
    · rw [givenBack_of_concat (s := s) rfl]
      simp [restorers, hh, hwatcher, Flow.restored]
    · exact hinv.alone (by rw [hflow]; rfl)
  | other hflow hends hflow' hfixtty hreturned hhandlers halone hthreaded =>
    obtain ⟨hin, hres⟩ := countP_other hhandlers
    refine .inl ⟨⟨hinv.running, ?_, ?_, ?_, ?_, fun hret => absurd hret hreturned⟩,
      hpre rfl hends.1 hends.2⟩
    · simpa [holders, hflow, hflow', hin] using hmutex
    · change GivenBack s ↔ _
      rw [hgiven]
      simp [restorers, Flow.restored_of_inDone hflow, Flow.restored_of_inDone hflow', hres]
    · intro h
      exact (halone h).2.trans (hinv.alone (halone h).1)
    · intro h
      apply hinv.watcher
      by_contra hne
      rw [Bool.not_eq_false] at hne
      exact Bool.noConfusion ((hthreaded hne).symm.trans h)
  | exit hflow =>
    -- nobody is in `done`, so the terminal is in raw mode
    have hwatcher := hinv.watcher (hinv.alone (by rw [hflow]; rfl))
    refine .inr ⟨rfl, ?_⟩
    change GivenBack s ↔ _
    rw [hgiven]
    refine iff_of_false ?_ (not_not.mpr ⟨rfl, hh, .inl hflow⟩)
    simp [hflow, hwatcher, Flow.restored]
  | enters hflow hentered =>
    refine .inl ⟨⟨hinv.running, ?_, ?_, by simp [Flow.alone], hinv.watcher, by simp⟩,
      hpre hflow (by simp) (by simp)⟩
    · simp only [hflow, hentered, Flow.inDone, Ending.inDone, Bool.toNat_false] at hmutex
      simp only [holders, hh, List.countP_nil, Flow.inDone, Ending.inDone, Bool.toNat_true]
      omega
    · change GivenBack s ↔ _
      rw [hgiven]
      simp [restorers, hh, hflow, Flow.restored]
  | returns hflow hentered =>
    refine .inl ⟨⟨hinv.running, ?_, ?_, by simp [Flow.alone], hinv.watcher, fun _ => hentered⟩,
      hpre hflow (by simp) (by simp)⟩
    · simpa [holders, hh, hflow, Flow.inDone, Ending.inDone] using hmutex
    · change GivenBack s ↔ _
      rw [hgiven]
      simp [restorers, hh, hflow, Flow.restored]
  | restores hflow =>
    refine .inl ⟨⟨hinv.running, ?_, ?_, by simp [Flow.alone], hinv.watcher, by simp⟩,
      hpre hflow (by simp) (by simp)⟩
    · simpa [holders, hh, hflow, Flow.inDone, Ending.inDone] using hmutex
    · rw [givenBack_of_concat (s := s) rfl]
      simp [restorers, Flow.restored]
  | exits hflow =>
    refine .exits rfl rfl (hgiven.mpr ?_) (hpre hflow (by simp) (by simp))
    · simp [hflow, Flow.restored]
  | returned hflow => exact hinv.main_ends hh hflow

/-- A handler counts for nothing when it begins. -/
theorem countP_frame (sig : Sig) (fs : List Frame) :
    (sig.frame :: fs).countP Frame.inDone = fs.countP Frame.inDone ∧
      (sig.frame :: fs).countP Frame.restored = fs.countP Frame.restored := by
  have hf : sig.frame.inDone = false := by cases sig <;> rfl
  rw [countP_push, countP_push, restored_of_inDone hf, hf]
  simp

/-- A signal on the main thread. -/
theorem Inv.push_main (hinv : Inv s) {sig : Sig} {c : Choice} (hc : c ≠ .go) :
    StepSpec s (.main, c) { s with handlers := sig.frame :: s.handlers } := by
  obtain ⟨hin, hres⟩ := countP_frame sig s.handlers
  refine .inl ⟨⟨hinv.running, ?_, ?_, hinv.alone, hinv.watcher, hinv.returned⟩, ?_⟩
  · rw [holders, hin]
    exact hinv.mutex
  · rw [restorers, hres]
    exact hinv.given
  · rintro ⟨he, -⟩
    exact hc (congrArg Prod.snd he)

/-- A signal on the other thread. -/
theorem Inv.push_watcher (hinv : Inv s) {sig : Sig} {c : Choice} (hthreaded : s.threaded = true) :
    StepSpec s (.watcher, c) { s with watcher := sig.frame :: s.watcher } := by
  obtain ⟨hin, hres⟩ := countP_frame sig s.watcher
  refine .inl ⟨⟨hinv.running, ?_, ?_, hinv.alone, ?_, hinv.returned⟩, ?_⟩
  · rw [holders, hin]
    exact hinv.mutex
  · rw [restorers, hres]
    exact hinv.given
  · intro h
    exact Bool.noConfusion (hthreaded.symm.trans h)
  · rintro ⟨he, -⟩
    exact Thread.noConfusion (congrArg Prod.fst he)

/-- **One step**, on either thread: a signal, the main flow, or the function at the top of a stack.
-/
theorem step_spec (hinv : Inv s) {timeouts : Bool} {e : Thread × Choice}
    (h : step timeouts s e = some t) : StepSpec s e t := by
  unfold step at h
  rw [if_neg (by simp [hinv.running])] at h
  split at h
  · split at h
    · cases h
    · cases h
      exact hinv.push_main nofun
  · split at h
    · cases h
    next hfree =>
      cases h
      exact hinv.push_watcher (by simpa using (not_or.mp hfree).1)
  next c _ =>
    split at h
    next hh =>
      exact (flowStep_steps hh hinv.alone h).spec hinv hh
    next f fs hh =>
      obtain ⟨r, hr, rfl⟩ := Option.map_eq_some_iff.mp h
      exact (frameStep_steps hr).spec_main hinv hh c
  next c _ =>
    split at h
    · cases h
    next f fs hh =>
      obtain ⟨r, hr, rfl⟩ := Option.map_eq_some_iff.mp h
      exact (frameStep_steps hr).spec_watcher hinv hh c

end Steps

/-! ### Runs -/

/-- A run from a state of the invariant.  The induction is on the run: either the step keeps the
invariant, or it was the last one. -/
theorem givenBack_of_inv (timeouts : Bool) {s t : Proc} {es : List (Thread × Choice)}
    (hinv : Inv s) (hrun : exec (step timeouts) s es = some t) :
    (t.exited = true → GivenBack t) ↔ Along (step timeouts) (fun s e => ¬ Premature s e) s es := by
  induction es generalizing s with
  | nil =>
    rw [exec_nil, Option.some.injEq] at hrun
    subst hrun
    exact iff_of_true (fun h => absurd (hinv.running.symm.trans h) nofun) trivial
  | cons e es ih =>
    obtain ⟨s', he, hes⟩ := exec_cons_eq_some.mp hrun
    have hnext : ∀ P : Proc → Prop, (∀ u, step timeouts s e = some u → P u) ↔ P s' := by
      intro P
      rw [he]
      simp
    rw [Along, hnext]
    rcases step_spec hinv he with ⟨hinv', hpre⟩ | ⟨hexited, hiff⟩
    · rw [ih hinv' hes]
      exact (and_iff_right hpre).symm
    · -- the process has ended, so the run has as well
      cases es with
      | nil =>
        rw [exec_nil, Option.some.injEq] at hes
        subst hes
        rw [← hiff]
        exact ⟨fun h => ⟨h hexited, trivial⟩, fun h _ => h.1⟩
      | cons e' es =>
        obtain ⟨u, hu, -⟩ := exec_cons_eq_some.mp hes
        unfold step at hu
        rw [if_pos hexited] at hu
        cases hu

/-- **The parent gives the terminal back exactly if** `fork` does not fail, or a handler ends the
process before the `exit` that follows, **and** `main` does not return while the other thread has
got the mutex of `done` and has not set the attributes. -/
theorem givenBack_iff (timeouts : Bool) {t : Proc} {es : List (Thread × Choice)}
    (hrun : exec (step timeouts) .start es = some t) :
    (t.exited = true → GivenBack t) ↔
      Along (step timeouts) (fun s e => ¬ Premature s e) .start es :=
  givenBack_of_inv timeouts inv_start hrun

/-- The parent, up to the loop of `doinput`. -/
def untilReading : List (Thread × Choice) :=
  [(.main, .go), (.main, .go), (.main, .go), (.main, .go), (.main, .go)]

/-- A `write` fails, the SIGTERM of `fail` is taken by the main thread, and SIGHUP comes while
`done` sets the attributes. -/
def failedWrite : List (Thread × Choice) :=
  untilReading ++ [(.main, .fails), (.main, .go), (.main, .go), (.main, .go),
    (.main, .signal .hup), (.main, .go), (.main, .go), (.main, .go), (.main, .go), (.main, .go)]

/-- This run ends, and the terminal is given back. -/
theorem givenBack_iff_failedWrite :
    ∃ t, exec (step true) .start failedWrite = some t ∧ t.exited = true ∧
      ((t.exited = true → GivenBack t) ↔
        Along (step true) (fun s e => ¬ Premature s e) .start failedWrite) := by
  have hrun : ∃ t, exec (step true) .start failedWrite = some t ∧ t.exited = true :=
    ⟨_, rfl, rfl⟩
  obtain ⟨t, hrun, hexited⟩ := hrun
  exact ⟨t, hrun, hexited, givenBack_iff true hrun⟩

/-- **Two runs that leave the terminal in raw mode**: `fork` fails; and SIGTERM comes to the other
thread, which has got the mutex when the child ends and `main` returns. -/
theorem raw_at_exit :
    (∃ t, exec (step false) .start [(.main, .go), (.main, .fails), (.main, .go)] = some t ∧
      t.exited = true ∧ ¬ GivenBack t) ∧
    ∃ t, exec (step true) .start (untilReading ++ [(.watcher, .signal .term), (.watcher, .go),
        (.watcher, .go), (.main, .over), (.main, .go), (.main, .go), (.main, .go)]) = some t ∧
      t.exited = true ∧ ¬ GivenBack t :=
  ⟨⟨_, rfl, rfl, nofun⟩, _, rfl, rfl, nofun⟩

end TtyRec.RawMode
