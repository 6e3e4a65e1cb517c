import TtyRec.Recorder
import TtyRec.Lib.History
import Mathlib.Data.List.DropRight

/-!
# The lock screen

While a session is locked, `dooutput` drops what the command prints, so that the lock screen
stays as `lock_session` has drawn it.  But `locked_since` is tested once for a chunk, and
SIGURG may come between the test and the `write`.

## Main definitions

* `Covered` — of what is on the terminal: no output on a lock screen.
* `sinceTest` — what has happened since the last test of `locked_since`.
* `NeverOvertaken` — no `write` comes after a SIGURG that the test before it has not seen.

## Main results

* `covered_iff_neverOvertaken` — **no output is written on the lock screen exactly if no
  SIGURG comes between a test and the `write` behind it**, or SIGUSR2 takes it back.
-/

namespace TtyRec

open Run History

/-! ### What is on the terminal -/

/-- Output of the command, as opposed to what the program itself draws. -/
def Sent.IsOutput : Sent → Prop
  | .output _ _ => True
  | _ => False

/-- The terminal is restored. -/
def Sent.IsRestore : Sent → Prop
  | .restore => True
  | _ => False

/-- The lock screen is on the terminal: it was drawn, and not restored since. -/
def Screened (sent : List Sent) : Prop := Since Sent.IsRestore .lockScreen sent

/-- No output is written while the lock screen is on the terminal. -/
def Covered (sent : List Sent) : Prop := Each (fun H x => x.IsOutput → ¬ Screened H) sent

/-! ### What has happened since the test -/

/-- The test of `locked_since`. -/
def Event.isCheck : Event → Bool
  | .check _ => true
  | _ => false

/-- SIGUSR2. -/
def Event.IsUsr2 : Event → Prop
  | .usr2 => True
  | _ => False

/-- A `write` of output that does not fail. -/
def Event.Sends : Event → Prop
  | .write (.sent _) => True
  | _ => False

/-- What has happened since the last test of `locked_since`. -/
def sinceTest (es : List Event) : List Event := es.rtakeWhile fun e => !e.isCheck

@[simp] theorem sinceTest_check (es : List Event) (now : WallClock) :
    sinceTest (es ++ [.check now]) = [] :=
  List.rtakeWhile_concat_neg _ _ _ (by simp [Event.isCheck])

theorem sinceTest_concat (es : List Event) {e : Event} (he : e.isCheck = false) :
    sinceTest (es ++ [e]) = sinceTest es ++ [e] :=
  List.rtakeWhile_concat_pos _ _ _ (by simp [he])

/-- SIGURG has come since the last test, and no SIGUSR2 after it. -/
def Overtaken (es : List Event) : Prop := Since Event.IsUsr2 .urg (sinceTest es)

/-- No `write` comes after a SIGURG that the test before it has not seen. -/
def NeverOvertaken (es : List Event) : Prop := Each (fun H e => e.Sends → ¬ Overtaken H) es

theorem not_overtaken_check (es : List Event) (now : WallClock) :
    ¬ Overtaken (es ++ [.check now]) := by
  rw [Overtaken, sinceTest_check]
  exact not_since_nil _ _

theorem overtaken_concat {es : List Event} {e : Event} (he : e.isCheck = false) :
    Overtaken (es ++ [e]) ↔ e = .urg ∨ ¬ e.IsUsr2 ∧ Overtaken es := by
  rw [Overtaken, sinceTest_concat es he, since_concat_iff, Overtaken]

/-- An event that is not the `write` of output. -/
theorem neverOvertaken_concat {es : List Event} {e : Event} (he : ¬ e.Sends) :
    NeverOvertaken (es ++ [e]) ↔ NeverOvertaken es := by
  rw [NeverOvertaken, each_concat, NeverOvertaken]
  exact and_iff_left fun hs => absurd hs he

/-! ### The screen and `locked_since` -/

variable {S N : Type*}

/-- The lock screen is on the terminal as long as `locked_since` is set. -/
def ScreenFollows (s : Control N) : Prop := s.locked = true ↔ Screened s.sent

theorem covered_concat {sent : List Sent} {x : Sent} (hx : ¬ x.IsOutput) :
    Covered (sent ++ [x]) ↔ Covered sent := by
  rw [Covered, each_concat, Covered]
  exact and_iff_left fun ho => absurd ho hx

theorem covered_output {sent : List Sent} (fd : Fd) (bytes : List UInt8) :
    Covered (sent ++ [.output fd bytes]) ↔ Covered sent ∧ ¬ Screened sent := by
  rw [Covered, each_concat, Covered]
  exact and_congr_right' (imp_iff_right trivial)

theorem lockScreen_locked (s : Control N) : (lockScreen s).locked = true := by
  unfold lockScreen
  split
  next hl => exact hl
  next => rfl

theorem unlockScreen_locked (s : Control N) : (unlockScreen s).locked = false := by
  unfold unlockScreen
  split
  next => rfl
  next hl => exact Bool.eq_false_iff.mpr hl

/-- Drawing the screen: it is on the terminal from then on, and no output was written on it. -/
theorem lockScreen_screen {s : Control N} (hs : ScreenFollows s) :
    ScreenFollows (lockScreen s) ∧ (Covered (lockScreen s).sent ↔ Covered s.sent) := by
  unfold lockScreen
  split
  · exact ⟨hs, Iff.rfl⟩
  · exact ⟨iff_of_true rfl (since_concat _ _ _), covered_concat id⟩

/-- Restoring the terminal: the screen is gone, and no output was written on it. -/
theorem unlockScreen_screen {s : Control N} (hs : ScreenFollows s) :
    ScreenFollows (unlockScreen s) ∧ (Covered (unlockScreen s).sent ↔ Covered s.sent) := by
  unfold unlockScreen
  split
  · refine ⟨iff_of_false Bool.false_ne_true ?_, covered_concat id⟩
    rw [Screened, since_concat_iff]
    rintro (h | ⟨h, -⟩)
    · exact absurd h nofun
    · exact h trivial
  · exact ⟨hs, Iff.rfl⟩

/-! ### The invariant -/

/-- Where the test has passed, the session is locked if SIGURG has come since.  The run is kept in
the statement, because what matters are deliveries and the state only shows what they left. -/
structure ScreenInv (es : List Event) (s : Control N) : Prop where
  screen : ScreenFollows s
  tested : ∀ c h, s.pc = .write c h → (s.locked = true ↔ Overtaken es)
  covered : Covered s.sent ↔ NeverOvertaken es

/-- A statement that neither tests nor sends, and does not lead to the `write`. -/
theorem ScreenInv.of_same {es : List Event} {s t : Control N} {e : Event} (h : ScreenInv es s)
    (he : ¬ e.Sends) (hl : t.locked = s.locked) (hsent : t.sent = s.sent)
    (hpc : ∀ c hdr, t.pc ≠ .write c hdr) : ScreenInv (es ++ [e]) t := by
  refine ⟨?_, fun c hdr hw => absurd hw (hpc c hdr), ?_⟩
  · rw [ScreenFollows, hl, hsent]
    exact h.screen
  · rw [hsent, neverOvertaken_concat he]
    exact h.covered

/-- A handler, which leaves the process where it is. -/
theorem ScreenInv.of_handler {es : List Event} {s t : Control N} {e : Event} (h : ScreenInv es s)
    (he : ¬ e.Sends) (hscreen : ScreenFollows t) (hcov : Covered t.sent ↔ Covered s.sent)
    (htested : (s.locked = true ↔ Overtaken es) → (t.locked = true ↔ Overtaken (es ++ [e])))
    (hpc : t.pc = s.pc) : ScreenInv (es ++ [e]) t := by
  refine ⟨hscreen, ?_, ?_⟩
  · intro c hdr hw
    rw [hpc] at hw
    exact htested (h.tested c hdr hw)
  · rw [hcov, neverOvertaken_concat he]
    exact h.covered

theorem afterWrite_ne_write (c : Chunk) (h : Header) (c' : Chunk) (h' : Header) :
    afterWrite c h ≠ .write c' h' := by
  unfold afterWrite
  split <;> exact Pc.noConfusion

theorem ControlSteps.screenInv {cfg : Config} {es : List Event} {s t : Control N} {e : Event}
    (h : ScreenInv es s) (hstep : ControlSteps cfg s e t) : ScreenInv (es ++ [e]) t := by
  cases hstep with
  | data hpc _ _ => exact h.of_same id rfl rfl nofun
  | eintr hpc | selectFailed hpc =>
    exact h.of_same id rfl rfl (by simp [hpc])
  | ttyEnds hpc _ _ => exact h.of_same id rfl rfl nofun
  | @pipeEnds fd r hpc _ =>
    refine h.of_same id (closePipe_locked fd s) (closePipe_sent fd s) ?_
    intro c hdr
    rcases closePipe_pc fd hpc with heq | heq <;> simp [heq]
  | @check c now hpc =>
    unfold checkLock
    split
    · exact h.of_same id rfl rfl nofun
    next hl =>
      -- the test has passed, and nothing has happened since
      refine ⟨h.screen, fun _ _ _ => iff_of_false hl (not_overtaken_check es now), ?_⟩
      rw [neverOvertaken_concat id]
      exact h.covered
  | @sent c hdr n hpc =>
    have hscreen : Screened s.sent ↔ Overtaken es := h.screen.symm.trans (h.tested c hdr hpc)
    refine ⟨?_, fun c' h' hw => absurd hw (afterWrite_ne_write c hdr c' h'), ?_⟩
    · -- output leaves the screen as it is
      have hkeep : Screened (s.sent ++ [.output c.fd (c.bytes.take n)]) ↔ Screened s.sent := by
        rw [Screened, since_concat_iff]
        simp [Sent.IsRestore, Screened]
      exact h.screen.trans hkeep.symm
    · rw [covered_output, h.covered, hscreen, NeverOvertaken, NeverOvertaken, each_concat]
      exact and_congr_right' (imp_iff_right trivial).symm
  | @writeEintr c hdr hpc =>
    exact h.of_same id rfl rfl (afterWrite_ne_write c hdr)
  | writeError hpc => exact h.of_same id rfl rfl nofun
  | account hpc => exact h.of_same id rfl rfl nofun
  | urg hlive =>
    obtain ⟨hscreen, hcov⟩ := lockScreen_screen h.screen
    refine h.of_handler id hscreen hcov (fun _ => ?_) (lockScreen_pc s)
    exact iff_of_true (lockScreen_locked s) ((overtaken_concat rfl).mpr (.inl rfl))
  | usr2 hlive =>
    obtain ⟨hscreen, hcov⟩ := unlockScreen_screen h.screen
    refine h.of_handler id hscreen hcov (fun _ => ?_) (unlockScreen_pc s)
    refine iff_of_false (by simp [unlockScreen_locked]) ?_
    rw [overtaken_concat rfl]
    simp [Event.IsUsr2]

section Steps

variable [DecidableEq N] {cfg : Config} {host : Host} {fileName : Timeval → N}
  {fwriteWrapper : FwriteWrapper S} {fcloseWrapper : FcloseWrapper S}

theorem screenInv_step {es : List Event} {s t : Recorder S N} {e : Event}
    (h : ScreenInv es s.toControl)
    (hstep : step cfg host fileName fwriteWrapper fcloseWrapper s e = some t) :
    ScreenInv (es ++ [e]) t.toControl := by
  -- a call of a wrapper leads to another statement, or ends the process
  have hcall : ∀ {α : Type} (u : Recorder S N) (pc : Pc) (o : Outcome (α × (OutFile × S))),
      (∀ c hdr, pc ≠ .write c hdr) →
      (Recorder.afterCall u pc o).locked = u.locked ∧
        (Recorder.afterCall u pc o).sent = u.sent ∧
        ∀ c hdr, (Recorder.afterCall u pc o).pc ≠ .write c hdr := by
    intro α u pc o hpc
    cases o with
    | ret r => exact ⟨rfl, rfl, hpc⟩
    | exit status => exact ⟨rfl, rfl, nofun⟩
    | spin => exact ⟨rfl, rfl, nofun⟩
  cases step_steps hstep with
  | control hc => exact hc.screenInv h
  | @header c hdr now hpc =>
    obtain ⟨hl, hsent, hne⟩ := hcall { s with recorded := s.recorded ++ [⟨hdr, c.bytes⟩] }
      (.payload c hdr) (writeHeader host fwriteWrapper hdr now (s.fscript, s.wrapper)) nofun
    exact h.of_same id hl hsent hne
  | @payload c hdr now hpc =>
    obtain ⟨hl, hsent, hne⟩ := hcall s (.account c)
      (fwriteWrapper 1 c.bytes now (s.fscript, s.wrapper)) nofun
    exact h.of_same id hl hsent hne
  | @usr1 now named opens hlive =>
    have husr1 : (s.locked = true ↔ Overtaken es) →
        (s.locked = true ↔ Overtaken (es ++ [.usr1 now named opens])) := by
      intro htested
      rw [overtaken_concat rfl, htested]
      simp [Event.IsUsr2]
    unfold swingOutputFile
    dsimp only
    split
    · cases opens with
      | true => exact h.of_handler id h.screen Iff.rfl husr1 rfl
      | false => exact h.of_same id rfl rfl nofun
    · exact h.of_handler id h.screen Iff.rfl husr1 rfl
  | finish hpc =>
    obtain ⟨hscreen, hcov⟩ := unlockScreen_screen h.screen
    refine ⟨hscreen, nofun, ?_⟩
    rw [neverOvertaken_concat id]
    exact hcov.trans h.covered

/-- **The lock screen.**  In every run, no output of the command is written between the lock
screen and its restoration exactly if no SIGURG comes between a test of `locked_since` and the
`write` behind it, or SIGUSR2 takes it back before the `write`. -/
theorem covered_iff_neverOvertaken (cfg : Config) (host : Host) (fileName : Timeval → N)
    (fwriteWrapper : FwriteWrapper S) (fcloseWrapper : FcloseWrapper S) (disk : N → List UInt8)
    (name : N) (short : ℕ → Option ℕ) (wrapper : S) {es : List Event} {t : Recorder S N}
    (hrun : exec (step cfg host fileName fwriteWrapper fcloseWrapper)
      (Recorder.start disk name short wrapper) es = some t) :
    Covered t.sent ↔ NeverOvertaken es := by
  have hstart : ScreenInv [] (Recorder.start disk name short wrapper).toControl :=
    ⟨iff_of_false Bool.false_ne_true (not_since_nil _ _), nofun,
      iff_of_true (each_nil _) (each_nil _)⟩
  have hinv := exec_invariant_past
    (I := fun es (s : Recorder S N) => ScreenInv es s.toControl)
    (fun es s e t h hstep => screenInv_step h hstep) hrun hstart
  exact hinv.covered

end Steps

/-- The screen is locked and unlocked between the test and the `write` of one chunk; a second
chunk is dropped, as SIGURG comes before its test. -/
def lockRun : List Event :=
  [.read .stdout (.data [65]), .check (.ofSec 1000), .urg, .usr2, .write (.sent 1),
    .header fun _ => 0, .payload fun _ => 0, .account, .read .stdout (.data [66]), .urg,
    .check (.ofSec 1000)]

/-- The terminal of this run is never written to while it shows the lock screen. -/
theorem covered_iff_neverOvertaken_run :
    ∃ t : Recorder Unit ℤ,
      exec (step .tty .little Timeval.tvSec fwriteNone fcloseNone)
        (Recorder.start (fun _ => []) 0 (fun _ => none) ()) lockRun = some t ∧
      t.sent = [.lockScreen, .restore, .output .stdout [65], .lockScreen] ∧
      (Covered t.sent ↔ NeverOvertaken lockRun) := by
  have hrun : ∃ t : Recorder Unit ℤ,
      exec (step .tty .little Timeval.tvSec fwriteNone fcloseNone)
        (Recorder.start (fun _ => []) 0 (fun _ => none) ()) lockRun = some t ∧
      t.sent = [.lockScreen, .restore, .output .stdout [65], .lockScreen] := ⟨_, rfl, rfl⟩
  obtain ⟨t, hrun, hsent⟩ := hrun
  exact ⟨t, hrun, hsent, covered_iff_neverOvertaken .tty .little Timeval.tvSec fwriteNone
    fcloseNone (fun _ => []) 0 (fun _ => none) () hrun⟩

/-- **SIGURG between the test and the `write`** puts the output on the lock screen. -/
theorem output_on_lockScreen :
    ∃ t : Recorder Unit ℤ,
      exec (step .tty .little Timeval.tvSec fwriteNone fcloseNone)
        (Recorder.start (fun _ => []) 0 (fun _ => none) ())
        [.read .stdout (.data [65]), .check (.ofSec 1000), .urg, .write (.sent 1)] = some t ∧
      t.sent = [.lockScreen, .output .stdout [65]] ∧ ¬ Covered t.sent := by
  refine ⟨_, rfl, rfl, ?_⟩
  intro hcov
  exact hcov [.lockScreen] (.output .stdout [65]) [] rfl trivial (since_concat _ _ [])

end TtyRec
