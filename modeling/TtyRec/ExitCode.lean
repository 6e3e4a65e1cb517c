import TtyRec.ExitStatus

/-!
# The exit code of the command

The exit code of the command goes through two processes.  It reaches the caller, whichever of
`finish` and the main flow waits first and whenever the pid variables are assigned, as long as
`done` does not send the main flow back.  It does when `finish` runs on the other thread of the
parent and has entered `done` there: then `main` returns, and the caller is told 0.

## Main definitions

* `Choice.Plain` — the command exits, and nothing else ends a process.
* `Alone` — the main flow of the parent calls `done`, and the other thread is not in it.
* `Orderly` — the invariant.

## Main results

* `exit_code_reaches_caller` — **the exit code of the command reaches the caller**, as long as
  the main flow of the parent is alone in `done`.
* `exit_code_lost` — when it is not, the caller is told 0.
-/

namespace TtyRec.Exits

open Run

def Frame.isCleanup : Frame → Bool
  | .cleanup _ _ => true
  | _ => false

def Flow.isCleanup : Flow → Bool
  | .cleanup _ => true
  | _ => false

def Flow.isDone : Flow → Bool
  | .done _ => true
  | _ => false

/-- The command exits with `e`, and nothing else ends a process: no SIGTERM and no SIGHUP, no
call of `fail`, no error of libzstd. -/
def Choice.Plain (e : UInt8) (role : Role) : Choice → Prop
  | .fails | .libzstd _ | .signal .term | .signal .hup => False
  | .exits code => code = e
  | .killed _ => role ≠ .subchild
  | _ => True

/-- When the main flow of the parent calls `done`, no handler on the other thread is in it.  A
handler on the main thread needs no such condition: the main flow does not go on before it has come
back. -/
def Alone (s : Session) (e : Event) : Prop :=
  e.who = .parent ∧ e.thread = .main ∧ s.parent.handlers = [] ∧ s.parent.flow.isDone = true →
    ∀ f ∈ s.parent.watcher, f.isCleanup = false

instance (e : UInt8) (role : Role) : DecidablePred (Choice.Plain e role)
  | .fails | .libzstd _ | .signal .term | .signal .hup => .isFalse not_false
  | .exits _ => inferInstanceAs (Decidable (_ = _))
  | .killed _ => inferInstanceAs (Decidable (_ ≠ _))
  | .go | .masked | .setChild | .setSubchild | .over | .signal .chld | .signal .usr1 =>
    .isTrue trivial

instance (s : Session) (e : Event) : Decidable (Alone s e) := inferInstanceAs (Decidable (_ → _))

/-- The invariant: `done` is called only with what was waited for, the process never returns from
`main`, and whoever has taken the mutex is still in `done`, so that nobody leaves before its `exit`.
-/
structure Orderly (e : UInt8) (p : Proc) : Prop where
  calls : Calls (· = .wait) p
  flow : p.flow ≠ .returned
  threaded : p.threaded = true → p.role = .parent
  watcher : p.role = .parent ∨ p.watcher = []
  entered : p.entered = true → p.ended = none → p.flow.isCleanup = true ∨
    ∃ f, (f ∈ p.handlers ∨ f ∈ p.watcher) ∧ f.isCleanup = true
  returned : p.ended ≠ some .returned
  exit : ∀ code, p.ended = some (.exit code) → code = e
  killed : ∀ status, p.ended = some (.killed status) → p.role ≠ .subchild

theorem Choice.Plain.allowed {e : UInt8} {role : Role} {c : Choice} (h : c.Plain e role) :
    c.Allowed (· = .wait) := by
  cases c with
  | fails => exact h.elim
  | signal sig =>
    cases sig with
    | term => exact h.elim
    | hup => exact h.elim
    | chld => trivial
    | usr1 => trivial
  | _ => trivial

section Orderly

variable {e : UInt8} {p q : Proc} {c : Choice}

/-- What the function at the top leaves alone, and who has entered `done`. -/
theorem frameStep_entered {f : Frame} {r : Proc × List Frame} (hstep : frameStep f c p = some r) :
    r.1.role = p.role ∧ r.1.flow = p.flow ∧ r.1.handlers = p.handlers ∧ r.1.watcher = p.watcher ∧
      r.1.threaded = p.threaded ∧
      (r.1.ended = p.ended ∧ (r.1.entered = true → p.entered = true ∧ f.isCleanup = false ∨
          ∃ g ∈ r.2, g.isCleanup = true) ∨
        ∃ l, r.1.ended = some l ∧
          ((∃ status origin, l = .done status origin) ∨ l = .terminated)) := by
  unfold frameStep at hstep
  split at hstep
  next die =>
    cases hstep
    -- no iteration of `finish` touches the mutex
    unfold finish
    split
    · split
      · exact ⟨rfl, rfl, rfl, rfl, rfl, .inl ⟨rfl, fun h => .inl ⟨h, rfl⟩⟩⟩
      · split
        · exact ⟨rfl, rfl, rfl, rfl, rfl, .inl ⟨rfl, fun h => .inl ⟨h, rfl⟩⟩⟩
        · exact ⟨rfl, rfl, rfl, rfl, rfl, .inl ⟨rfl, fun h => .inl ⟨h, rfl⟩⟩⟩
    · exact ⟨rfl, rfl, rfl, rfl, rfl, .inl ⟨rfl, fun h => .inl ⟨h, rfl⟩⟩⟩
  next =>
    cases hstep
    exact ⟨rfl, rfl, rfl, rfl, rfl, .inl ⟨rfl, fun h => .inl ⟨h, rfl⟩⟩⟩
  next =>
    cases hstep
    exact ⟨rfl, rfl, rfl, rfl, rfl, .inl ⟨rfl, fun h => .inl ⟨h, rfl⟩⟩⟩
  next =>
    split at hstep
    · cases hstep
      exact ⟨rfl, rfl, rfl, rfl, rfl, .inl ⟨rfl, fun h => .inl ⟨h, rfl⟩⟩⟩
    · cases hstep
      exact ⟨rfl, rfl, rfl, rfl, rfl, .inr ⟨_, rfl, .inr rfl⟩⟩
  next =>
    cases hstep
    exact ⟨rfl, rfl, rfl, rfl, rfl, .inl ⟨rfl, fun h => .inl ⟨h, rfl⟩⟩⟩
  next status origin =>
    cases hstep
    unfold done
    split
    -- the mutex is taken already, or this call takes it and `cleanup` is what is left
    next => exact ⟨rfl, rfl, rfl, rfl, rfl, .inl ⟨rfl, fun h => .inl ⟨h, rfl⟩⟩⟩
    next =>
      exact ⟨rfl, rfl, rfl, rfl, rfl, .inl ⟨rfl, fun _ => .inr ⟨_, List.mem_singleton_self _, rfl⟩⟩⟩
  next status origin =>
    cases hstep
    exact ⟨rfl, rfl, rfl, rfl, rfl, .inr ⟨_, rfl, .inl ⟨status, origin, rfl⟩⟩⟩
  next => cases hstep

/-- The main flow moves on, and has not been in `done`.  Whoever else has taken the mutex is on a
stack, and both stacks stay. -/
theorem Orderly.moves (h : Orderly e p) (hflow : p.flow.isCleanup = false) (hrun : p.ended = none)
    (hcalls : Calls (· = .wait) q) (hq : q.flow ≠ .returned) (hrole : q.role = p.role)
    (hthreaded : q.threaded = true → p.threaded = true ∨ p.role = .parent)
    (hhandlers : q.handlers = p.handlers) (hwatcher : q.watcher = p.watcher)
    (hentered : q.entered = true → p.entered = true ∨ q.flow.isCleanup = true)
    (hended : q.ended = none ∨ q.ended = some (.exit e)) : Orderly e q := by
  refine ⟨hcalls, hq, ?_, ?_, ?_, ?_, ?_, ?_⟩
  · intro ht
    rw [hrole]
    exact (hthreaded ht).elim h.threaded id
  · rw [hrole, hwatcher]
    exact h.watcher
  · intro hin hnone
    rw [hhandlers, hwatcher]
    rcases hentered hin with hin | hflow'
    · rcases h.entered hin hrun with hcleanup | hframes
      · exact absurd (hcleanup.symm.trans hflow) Bool.noConfusion
      · exact .inr hframes
    · exact .inl hflow'
  · rcases hended with hended | hended
    · rw [hended]
      exact (Option.some_ne_none _).symm
    · rw [hended]
      exact fun heq => Leave.noConfusion (Option.some.inj heq)
  · intro code hcode
    rcases hended with hended | hended
    · exact absurd (hended.symm.trans hcode) (Option.some_ne_none _).symm
    · exact (Leave.exit.inj (Option.some.inj (hended.symm.trans hcode))).symm
  · intro status hstatus
    rcases hended with hended | hended
    · exact absurd (hended.symm.trans hstatus) (Option.some_ne_none _).symm
    · exact absurd (Option.some.inj (hended.symm.trans hstatus)) Leave.noConfusion

/-- A step of the main flow.  The one that could spoil the exit code is `refused`: `done` finds the
mutex taken and comes back, and `main` returns 0. -/
theorem flowStep_orderly {timeouts : Bool} (h : Orderly e p) (hc : c.Plain e p.role)
    (hrun : p.ended = none) (hframes : p.handlers = [])
    (halone : p.flow.isDone = true → ∀ f ∈ p.watcher, f.isCleanup = false)
    (hcalls : Calls (· = .wait) q) (hstep : FlowSteps timeouts p q c) : Orderly e q := by
  cases hstep with
  | fails | failsReading | libzstd => exact hc.elim
  | install hfl hq | fork hfl hq | exec hfl hq =>
    subst hq
    exact h.moves (by rw [hfl]; rfl) hrun hcalls Flow.noConfusion rfl .inl rfl rfl .inl (.inl hrun)
  | setChild hfl hq | setSubchild hfl _ hq =>
    subst hq
    exact h.moves (by rw [hfl]; rfl) hrun hcalls h.flow rfl .inl rfl rfl .inl (.inl hrun)
  | assigned hfl hq =>
    subst hq
    refine h.moves (by rw [hfl]; rfl) hrun hcalls Flow.noConfusion rfl ?_ rfl rfl .inl (.inl hrun)
    intro ht
    rw [Bool.and_eq_true, beq_iff_eq] at ht
    exact .inr ht.2
  -- the command exits with `e`
  | exits hfl hq =>
    subst hq
    subst hc
    exact h.moves (by rw [hfl]; rfl) hrun hcalls h.flow rfl .inl rfl rfl .inl (.inr rfl)
  | eof hfl hfl' hq =>
    subst hq
    refine h.moves (by rw [hfl]; rfl) hrun hcalls ?_ rfl .inl rfl rfl .inl (.inl hrun)
    rcases hfl' with rfl | rfl
    · exact Flow.noConfusion
    · exact Flow.noConfusion
  | test hfl hfl' hq =>
    subst hq
    refine h.moves (by rw [hfl]; rfl) hrun hcalls ?_ rfl .inl rfl rfl .inl (.inl hrun)
    rcases hfl' with ⟨-, rfl⟩ | rfl
    · exact Flow.noConfusion
    · exact Flow.noConfusion
  | reap hfl _ hfl' hq =>
    subst hq
    refine h.moves (by rw [hfl]; rfl) hrun hcalls ?_ rfl .inl rfl rfl .inl (.inl hrun)
    rcases hfl' with rfl | rfl
    · exact Flow.noConfusion
    · exact Flow.noConfusion
  | noChild hfl _ hq =>
    rcases hq with rfl | rfl
    · exact h.moves (by rw [hfl]; rfl) hrun hcalls Flow.noConfusion rfl .inl rfl rfl .inl
        (.inl hrun)
    · exact h.moves (by rw [hfl]; rfl) hrun hcalls Flow.noConfusion rfl .inl rfl rfl .inl
        (.inl hrun)
  | refused hfl hentered _ =>
    -- somebody else is in `done`, but neither the main flow nor the other thread can be
    exfalso
    rcases h.entered hentered hrun with hin | ⟨f, hf | hf, hin⟩
    · rw [hfl] at hin
      exact Bool.noConfusion hin
    · rw [hframes] at hf
      exact absurd hf List.not_mem_nil
    · have hnot := halone (by rw [hfl]; rfl) f hf
      exact absurd (hin.symm.trans hnot) Bool.noConfusion
  | enter hfl hq =>
    subst hq
    exact h.moves (by rw [hfl]; rfl) hrun hcalls Flow.noConfusion rfl .inl rfl rfl
      (fun _ => .inr rfl) (.inl hrun)
  -- `exit` in `done`, with the status that was waited for
  | exit hfl hq =>
    subst hq
    exact ⟨hcalls, h.flow, h.threaded, h.watcher,
      fun _ hnone => absurd hnone (Option.some_ne_none _),
      fun heq => Leave.noConfusion (Option.some.inj heq),
      fun code heq => absurd (Option.some.inj heq) Leave.noConfusion,
      fun st heq => absurd (Option.some.inj heq) Leave.noConfusion⟩
  | returns hfl _ => exact absurd hfl h.flow

/-- A handler begins, or the function at the top takes a step and the process goes on.  Either the
`cleanup` that was on a stack is still there, or this step has put one there. -/
theorem Orderly.runs (h : Orderly e p) (hcalls : Calls (· = .wait) q) (hrole : q.role = p.role)
    (hflow : q.flow = p.flow) (hthreaded : q.threaded = p.threaded)
    (hwatcher : q.role = .parent ∨ q.watcher = [])
    (hentered : q.entered = true → p.entered = true ∧ (∀ f, (f ∈ p.handlers ∨ f ∈ p.watcher) →
        f.isCleanup = true → f ∈ q.handlers ∨ f ∈ q.watcher) ∨
      ∃ f, (f ∈ q.handlers ∨ f ∈ q.watcher) ∧ f.isCleanup = true)
    (hended : q.ended = p.ended) : Orderly e q := by
  refine ⟨hcalls, hflow ▸ h.flow, ?_, hwatcher, ?_, hended ▸ h.returned, hended ▸ h.exit, ?_⟩
  · intro ht
    rw [hrole]
    exact h.threaded (hthreaded.symm.trans ht)
  · intro hin hnone
    rw [hflow]
    rcases hentered hin with ⟨hin', hkeep⟩ | hframe
    · rcases h.entered hin' (hended.symm.trans hnone) with hcleanup | ⟨f, hf, hcleanup⟩
      · exact .inl hcleanup
      · exact .inr ⟨f, hkeep f hf hcleanup, hcleanup⟩
    · exact .inr hframe
  · intro status hstatus
    rw [hrole]
    exact h.killed status (hended.symm.trans hstatus)

/-- The function at the top leaves the process, through the `exit` of `done` or by the SIGTERM of
`fail`. -/
theorem Orderly.leaves (h : Orderly e p) (hcalls : Calls (· = .wait) q) (hrole : q.role = p.role)
    (hflow : q.flow = p.flow) (hthreaded : q.threaded = p.threaded)
    (hwatcher : q.role = .parent ∨ q.watcher = []) {l : Leave} (hl : q.ended = some l)
    (hcases : (∃ status origin, l = .done status origin) ∨ l = .terminated) : Orderly e q := by
  have hne : l ≠ .returned ∧ (∀ code, l ≠ .exit code) ∧ ∀ status, l ≠ .killed status := by
    rcases hcases with ⟨status, origin, rfl⟩ | rfl
    · exact ⟨Leave.noConfusion, fun _ => Leave.noConfusion, fun _ => Leave.noConfusion⟩
    · exact ⟨Leave.noConfusion, fun _ => Leave.noConfusion, fun _ => Leave.noConfusion⟩
  refine ⟨hcalls, hflow ▸ h.flow, ?_, hwatcher,
    fun _ hnone => absurd (hnone.symm.trans hl) (Option.some_ne_none _).symm, ?_, ?_, ?_⟩
  · intro ht
    rw [hrole]
    exact h.threaded (hthreaded.symm.trans ht)
  · intro heq
    exact hne.1 (Option.some.inj (hl.symm.trans heq))
  · intro code heq
    exact absurd (Option.some.inj (hl.symm.trans heq)) (hne.2.1 code)
  · intro status heq
    exact absurd (Option.some.inj (hl.symm.trans heq)) (hne.2.2 status)

/-- **A step of a process** is orderly, if the step says so and the main flow does not call `done`
while the other thread is in it. -/
theorem procStep_orderly (h : Orderly e p) (hc : c.Plain e p.role) {timeouts : Bool} {th : Thread}
    (halone : th = .main → p.handlers = [] → p.flow.isDone = true →
      ∀ f ∈ p.watcher, f.isCleanup = false)
    (hstep : procStep timeouts th c p = some q) : Orderly e q := by
  have hcalls : Calls (· = .wait) q := procStep_calls rfl h.calls hc.allowed hstep
  obtain ⟨hrun, -, hsteps⟩ := procStep_steps hstep
  cases hsteps with
  | killed _ hq =>
    subst hq
    exact ⟨hcalls, h.flow, h.threaded, h.watcher,
      fun _ hnone => absurd hnone (Option.some_ne_none _),
      fun heq => Leave.noConfusion (Option.some.inj heq),
      fun code heq => absurd (Option.some.inj heq) Leave.noConfusion, fun _ _ => hc⟩
  | signal _ _ hq =>
    subst hq
    refine h.runs hcalls rfl rfl rfl h.watcher (fun hin => .inl ⟨hin, ?_⟩) rfl
    intro f hf _
    exact hf.imp_left (List.mem_cons_of_mem _)
  | signalWatcher hthreaded _ hq =>
    subst hq
    refine h.runs hcalls rfl rfl rfl (.inl (h.threaded hthreaded))
      (fun hin => .inl ⟨hin, fun f hf _ => ?_⟩) rfl
    exact hf.imp_right (List.mem_cons_of_mem _)
  | flow hframes hflow => exact flowStep_orderly h hc hrun hframes (halone rfl hframes) hcalls hflow
  -- the function at the top of the main thread: it is not the `cleanup` of somebody else
  | @frame _ f fs r hframes hr hq =>
    subst hq
    obtain ⟨hrole, hflow, -, hwatcher, hthreaded, hended⟩ := frameStep_entered hr
    have hwatcher' : r.1.role = .parent ∨ r.1.watcher = [] := by
      rw [hrole, hwatcher]
      exact h.watcher
    rcases hended with ⟨hended, hentered⟩ | ⟨l, hl, hcases⟩
    · refine h.runs hcalls hrole hflow hthreaded hwatcher' ?_ hended
      intro hin
      rcases hentered hin with ⟨hin', hnot⟩ | ⟨g, hg, hcleanup⟩
      · refine .inl ⟨hin', ?_⟩
        intro g hg hcleanup
        rw [hframes, List.mem_cons] at hg
        rcases hg with (rfl | hg) | hg
        · exact absurd (hcleanup.symm.trans hnot) Bool.noConfusion
        · exact .inl (List.mem_append_right _ hg)
        · exact .inr (hwatcher ▸ hg)
      · exact .inr ⟨g, .inl (List.mem_append_left _ hg), hcleanup⟩
    · exact h.leaves hcalls hrole hflow hthreaded hwatcher' hl hcases
  | @frameWatcher _ f fs r hframes hr hq =>
    subst hq
    obtain ⟨hrole, hflow, hhandlers, -, hthreaded, hended⟩ := frameStep_entered hr
    -- only the parent has another thread
    have hparent : r.1.role = .parent := by
      rw [hrole]
      apply h.watcher.resolve_right
      intro hnil
      exact absurd (hframes.symm.trans hnil) (List.cons_ne_nil f fs)
    rcases hended with ⟨hended, hentered⟩ | ⟨l, hl, hcases⟩
    · refine h.runs hcalls hrole hflow hthreaded (.inl hparent) ?_ hended
      intro hin
      rcases hentered hin with ⟨hin', hnot⟩ | ⟨g, hg, hcleanup⟩
      · refine .inl ⟨hin', ?_⟩
        intro g hg hcleanup
        rw [hframes, List.mem_cons] at hg
        rcases hg with hg | rfl | hg
        · exact .inl (hhandlers ▸ hg)
        · exact absurd (hcleanup.symm.trans hnot) Bool.noConfusion
        · exact .inr (List.mem_append_right _ hg)
      · exact .inr ⟨g, .inr (List.mem_append_left _ hg), hcleanup⟩
    · exact h.leaves hcalls hrole hflow hthreaded (.inl hparent) hl hcases

theorem Orderly.begin (h : Orderly e p) {fl : Flow} (hfl : fl ≠ .returned) :
    Orderly e (p.begin fl) := by
  unfold Proc.begin
  split
  next hunborn =>
    refine ⟨⟨h.calls.handlers, h.calls.watcher, h.calls.failed, h.calls.ended⟩, hfl, h.threaded,
      h.watcher, fun hin hrun => ?_, h.returned, h.exit, h.killed⟩
    rcases h.entered hin hrun with hcleanup | hframe
    · rw [hunborn] at hcleanup
      exact Bool.noConfusion hcleanup
    · exact .inr hframe
  next => exact h

theorem Orderly.inform (h : Orderly e p) (ended : Option Leave) : Orderly e (p.inform ended) := by
  unfold Proc.inform
  split
  next =>
    exact ⟨⟨h.calls.handlers, h.calls.watcher, h.calls.failed, h.calls.ended⟩, h.flow, h.threaded,
      h.watcher, h.entered, h.returned, h.exit, h.killed⟩
  next => exact h

/-- The exit code that is handed on is the one of the command, because of all the ways to leave only
the `exit` of `done` and that of the command itself are left. -/
theorem Orderly.status {σ : ℕ → Prop} (h : Orderly e p) (hinv : Inv σ p)
    (hσ : ∀ status, σ status → status = exited e) {l : Leave} (hl : p.ended = some l)
    (hkilled : ∀ status, l ≠ .killed status) : l.status = exited e := by
  have hcalls := h.calls.ended l hl
  have hok := hinv.ended l hl
  cases l with
  | done status origin =>
    obtain rfl : origin = .wait := hcalls
    rw [Leave.status, hσ status hok, wexitstatus_exited]
  | returned => exact absurd hl h.returned
  | exit code => rw [Leave.status, h.exit code hl]
  | killed status => exact absurd rfl (hkilled status)
  | terminated => exact absurd hcalls Origin.noConfusion

end Orderly

/-! ### Runs -/

/-- The invariant of the session: its three processes are orderly, and what they know of each other
is true.  Whatever status one of them ends with is that of the command. -/
structure OrderlySession (e : UInt8) (s : Session) : Prop where
  inv : SessionInv s
  subchild : Orderly e s.subchild
  child : Orderly e s.child
  parent : Orderly e s.parent

theorem orderlySession_start (e : UInt8) : OrderlySession e Session.start := by
  have hfresh : ∀ role installed fl, fl = .unborn ∨ fl = .setup →
      Orderly e (Proc.fresh role installed fl) := by
    intro role installed fl hfl
    refine ⟨⟨fun f hf => absurd hf List.not_mem_nil, fun f hf => absurd hf List.not_mem_nil,
      fun h => Bool.noConfusion h, fun l hl => absurd hl (Option.some_ne_none l).symm⟩, ?_,
      fun h => Bool.noConfusion h, .inr rfl, fun h => Bool.noConfusion h,
      (Option.some_ne_none _).symm, fun code hl => absurd hl (Option.some_ne_none _).symm,
      fun st hl => absurd hl (Option.some_ne_none _).symm⟩
    rcases hfl with rfl | rfl
    · exact Flow.noConfusion
    · exact Flow.noConfusion
  exact ⟨sessionInv_start, hfresh _ _ _ (.inl rfl), hfresh _ _ _ (.inl rfl),
    hfresh _ _ _ (.inr rfl)⟩

/-- **A step of the session.** The process that takes it is orderly by `procStep_orderly`, and the
others are told. -/
theorem orderlySession_step {e : UInt8} {timeouts : Bool} {s t : Session} {ev : Event}
    (h : OrderlySession e s) (hplain : ev.choice.Plain e ev.who) (halone : Alone s ev)
    (hstep : sessionStep timeouts s ev = some t) : OrderlySession e t := by
  have hinv := sessionInv_step h.inv hstep
  unfold sessionStep at hstep
  split at hstep
  -- the parent: it may fork the child
  next hwho =>
    obtain ⟨p, hp, rfl⟩ := Option.map_eq_some_iff.mp hstep
    rw [hwho, ← h.inv.parent_role] at hplain
    have hparent := procStep_orderly h.parent hplain
      (fun hth hnil hdone => halone ⟨hwho, hth, hnil, hdone⟩) hp
    refine ⟨hinv, h.subchild, ?_, hparent⟩
    dsimp only
    split
    · exact h.child.begin Flow.noConfusion
    · exact h.child
  next hwho =>
    obtain ⟨p, hp, rfl⟩ := Option.map_eq_some_iff.mp hstep
    rw [hwho, ← h.inv.child_role] at hplain
    have hchild := procStep_orderly h.child hplain (fun _ _ _ f hf => ?_) hp
    · refine ⟨hinv, ?_, hchild, h.parent.inform p.ended⟩
      dsimp only
      split
      · exact h.subchild.begin Flow.noConfusion
      · exact h.subchild
    · -- the child has only one thread
      rcases h.child.watcher with hrole | hnil
      · exact absurd (h.inv.child_role.symm.trans hrole) Role.noConfusion
      · exact absurd (hnil ▸ hf) List.not_mem_nil
  next hwho =>
    obtain ⟨p, hp, rfl⟩ := Option.map_eq_some_iff.mp hstep
    rw [hwho, ← h.inv.subchild_role] at hplain
    have hsub := procStep_orderly h.subchild hplain (fun _ _ _ f hf => ?_) hp
    · exact ⟨hinv, hsub, h.child.inform p.ended, h.parent⟩
    · rcases h.subchild.watcher with hrole | hnil
      · exact absurd (h.inv.subchild_role.symm.trans hrole) Role.noConfusion
      · exact absurd (hnil ▸ hf) List.not_mem_nil

/-- **The exit code of the command reaches the caller**: in every run in which the command
exits with `e`, nothing else ends a process, and the main flow of the parent calls `done` only
while no handler on its other thread is in `done`, the child exits with `e`, and so does the
parent. -/
theorem exit_code_reaches_caller (timeouts : Bool) (e : UInt8) {es : List Event} {s : Session}
    (hrun : exec (sessionStep timeouts) Session.start es = some s)
    (hplain : ∀ ev ∈ es, ev.choice.Plain e ev.who)
    (halone : Along (sessionStep timeouts) Alone Session.start es) :
    (∀ l, s.child.ended = some l → (∀ status, l ≠ .killed status) → l.status = exited e) ∧
      ∀ l, s.parent.ended = some l → (∀ status, l ≠ .killed status) →
        (∀ status, s.child.ended ≠ some (.killed status)) → l.status = exited e := by
  have hplain' : Along (sessionStep timeouts) (fun _ ev => ev.choice.Plain e ev.who)
      Session.start es :=
    along_of_forall_mem hplain Session.start
  have hok := hplain'.and halone
  have h : OrderlySession e s :=
    exec_invariant_along (fun _ _ _ h hok hstep => orderlySession_step h hok.1 hok.2 hstep) hok hrun
      (orderlySession_start e)
  -- the subchild has become the command, and ends with its code
  have hsub : ∀ status, s.subchild.EndedWith status → status = exited e := by
    rintro _ ⟨l, hl, rfl⟩
    apply h.subchild.status h.inv.subchild (fun _ => False.elim) hl
    intro status heq
    subst heq
    exact h.subchild.killed status hl h.inv.subchild_role
  have hchild : ∀ l, s.child.ended = some l → (∀ status, l ≠ .killed status) →
      l.status = exited e :=
    fun l hl hkilled => h.child.status h.inv.child hsub hl hkilled
  refine ⟨hchild, ?_⟩
  intro l hl hkilled hchildKilled
  -- what the parent waits for is the status of the child
  refine h.parent.status h.inv.parent ?_ hl hkilled
  rintro _ ⟨l', hl', rfl⟩
  apply hchild l' hl'
  intro status heq
  subst heq
  exact hchildKilled status hl'

/-- All three run. -/
def begins : List Event :=
  [⟨.parent, .main, .go⟩, ⟨.parent, .main, .go⟩, ⟨.parent, .main, .setChild⟩, ⟨.parent, .main, .go⟩,
    ⟨.child, .main, .go⟩, ⟨.child, .main, .setChild⟩, ⟨.child, .main, .setSubchild⟩,
    ⟨.child, .main, .go⟩, ⟨.subchild, .main, .go⟩]

/-- The child reads to the end of the output, waits for the command, and exits. -/
def childEnds : List Event :=
  ⟨.child, .main, .over⟩ :: List.replicate 7 ⟨.child, .main, .go⟩

/-- In the parent, `finish` interrupts the main flow. -/
def parentFinishes : List Event :=
  ⟨.parent, .main, .signal .chld⟩ :: List.replicate 4 ⟨.parent, .main, .go⟩

/-- The input is over, and while `finish` is in `done` on the other thread, the main flow waits
for the child, too. -/
def parentReturns : List Event :=
  [⟨.parent, .main, .over⟩, ⟨.parent, .watcher, .signal .chld⟩, ⟨.parent, .watcher, .go⟩,
    ⟨.parent, .watcher, .go⟩, ⟨.parent, .watcher, .go⟩, ⟨.parent, .main, .go⟩,
    ⟨.parent, .main, .go⟩, ⟨.parent, .main, .go⟩]

/-- The command exits with 3, and so do the child and the parent. -/
theorem exit_code_reaches_caller_three :
    ∃ s, exec (sessionStep true) Session.start
        (begins ++ ⟨.subchild, .main, .exits 3⟩ :: (childEnds ++ parentFinishes)) = some s ∧
      (∃ l, s.child.ended = some l ∧ l.status = exited 3) ∧
      ∃ l, s.parent.ended = some l ∧ l.status = exited 3 := by
  obtain ⟨s, hrun⟩ := Option.isSome_iff_exists.mp (show (exec (sessionStep true) Session.start
    (begins ++ ⟨.subchild, .main, .exits 3⟩ :: (childEnds ++ parentFinishes))).isSome = true by
      decide)
  have hends : (exec (sessionStep true) Session.start
      (begins ++ ⟨.subchild, .main, .exits 3⟩ :: (childEnds ++ parentFinishes))).map
        (fun s => (s.child.ended, s.parent.ended)) =
      some (some (.done 768 .wait), some (.done 768 .wait)) := by decide
  rw [hrun, Option.map_some, Option.some.injEq, Prod.mk.injEq] at hends
  have h := exit_code_reaches_caller true 3 hrun (by decide) (by decide)
  refine ⟨s, hrun, ⟨_, hends.1, h.1 _ hends.1 fun _ => Leave.noConfusion⟩, _, hends.2,
    h.2 _ hends.2 (fun _ => Leave.noConfusion) ?_⟩
  rw [hends.1]
  exact fun _ heq => Leave.noConfusion (Option.some.inj heq)

/-- **The exit code is lost**: the command and the child exit with 3, and the parent, whose
`main` returns while its other thread is in `done`, with 0. -/
theorem exit_code_lost :
    ∃ s, exec (sessionStep true) Session.start
        (begins ++ ⟨.subchild, .main, .exits 3⟩ :: (childEnds ++ parentReturns)) = some s ∧
      (∀ ev ∈ begins ++ ⟨.subchild, .main, .exits 3⟩ :: (childEnds ++ parentReturns),
        ev.choice.Plain 3 ev.who) ∧
      (∃ l, s.child.ended = some l ∧ l.status = exited 3) ∧
      ∃ l, s.parent.ended = some l ∧ l.status = exited 0 ∧ l.status ≠ exited 3 := by
  obtain ⟨s, hrun⟩ := Option.isSome_iff_exists.mp (show (exec (sessionStep true) Session.start
    (begins ++ ⟨.subchild, .main, .exits 3⟩ :: (childEnds ++ parentReturns))).isSome = true by
      decide)
  have hends : (exec (sessionStep true) Session.start
      (begins ++ ⟨.subchild, .main, .exits 3⟩ :: (childEnds ++ parentReturns))).map
        (fun s => (s.child.ended, s.parent.ended)) =
      some (some (.done 768 .wait), some .returned) := by decide
  rw [hrun, Option.map_some, Option.some.injEq, Prod.mk.injEq] at hends
  exact ⟨s, hrun, by decide, ⟨_, hends.1, by decide⟩, _, hends.2, rfl, by decide⟩

end TtyRec.Exits
