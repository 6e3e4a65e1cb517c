import TtyRec.Timeouts

/-!
# Sessions without a terminal

Without a terminal the output of the command comes through pipes, the parent reads no input,
and the watcher does not lock: "if we don't have a tty, we can't lock".  The handler of
SIGURG does not look, so a signal still locks, and from then on the output is dropped.

What `dooutput` reads is followed from statement to statement: a chunk is `unsent` until it is
handed to `write`, and then `unrecorded` until it is handed to `write_header`.

## Main definitions

* `Pc.unsent`, `Pc.unrecorded` — the chunk that is on its way.
* `offered`, `toRecord` — the chunks that were handed to `write`, and those of them that are
  to be recorded.
* `PassesOn` — the session is not locked, and nothing is lost.

## Main results

* `passesOn_iff_noUrg` — **a session without a terminal passes everything on exactly if no
  SIGURG is delivered.**
-/

namespace TtyRec

open Run

variable {S N : Type*}

/-! ### The way of a chunk -/

/-- The chunk between its read and its `write`. -/
def Pc.unsent : Pc → List (Fd × List UInt8)
  | .check c | .write c _ => [(c.fd, c.bytes)]
  | _ => []

/-- The chunk between its `write` and its `write_header`. -/
def Pc.unrecorded : Pc → List (List UInt8)
  | .header c _ => [c.bytes]
  | _ => []

/-- What a step hands to `write`. -/
def offered (s : Recorder S N) (e : Event) : List (Fd × List UInt8) :=
  match e, s.pc with
  | .write _, .write c _ => [(c.fd, c.bytes)]
  | _, _ => []

/-- What is to be recorded of it: all but what goes to a stealth stream.  A `write` that fails
ends the loop. -/
def toRecord (cfg : Config) (s : Recorder S N) (e : Event) : List (List UInt8) :=
  match e, s.pc with
  | .write .error, _ => []
  | .write _, .write c _ => if cfg.stealth c.fd then [] else [c.bytes]
  | _, _ => []

/-- `dont_write` says whether the stream is stealth. -/
def Pc.Marked (cfg : Config) : Pc → Prop
  | .check c | .write c _ => c.dontWrite = cfg.stealth c.fd
  | _ => True

/-- What a step does with the chunks when the session is not locked: what was on its way before,
with what is read, is what went out and what is on its way now.  The same holds of the recording,
without the stealth streams. -/
structure Flow (cfg : Config) (s : Recorder S N) (e : Event) (t : Recorder S N) : Prop where
  unlocked : t.locked = false
  marked : t.pc.Marked cfg
  sent : t.pc.Live → ∃ got, t.got = s.got ++ got ∧ s.pc.unsent ++ got = offered s e ++ t.pc.unsent
  kept : t.pc.Live → ∃ rs, t.recorded = s.recorded ++ rs ∧
    rs.map Record.payload ++ t.pc.unrecorded = s.pc.unrecorded ++ toRecord cfg s e

section Steps

variable {cfg : Config} {s t : Recorder S N}

theorem unlockScreen_of_unlocked {c : Control N} (h : c.locked = false) : unlockScreen c = c := by
  unfold unlockScreen
  rw [if_neg (by rw [h]; exact Bool.false_ne_true)]

/-- Where there is no chunk, nothing happens to it. -/
theorem Flow.of_idle {e : Event} {c : Control N} (hl : c.locked = false) (hgot : c.got = s.got)
    (hrec : c.recorded = s.recorded) (hs : s.pc.unsent = [] ∧ s.pc.unrecorded = [])
    (hc : c.pc.unsent = [] ∧ c.pc.unrecorded = []) (hmarked : c.pc.Marked cfg)
    (he : offered s e = [] ∧ toRecord cfg s e = []) : Flow cfg s e { s with toControl := c } where
  unlocked := hl
  marked := hmarked
  sent _ := ⟨[], by rw [hgot, List.append_nil], by rw [hs.1, hc.1, he.1]⟩
  kept _ := ⟨[], by rw [hrec, List.append_nil], by rw [hs.2, hc.2, he.2, List.map_nil]⟩

/-- A handler that comes back with nothing changed that is looked at here. -/
theorem Flow.of_same {e : Event} (hl : t.locked = false) (hm : t.pc.Marked cfg)
    (hgot : t.got = s.got) (hrec : t.recorded = s.recorded) (hpc : t.pc = s.pc)
    (he : offered s e = [] ∧ toRecord cfg s e = []) : Flow cfg s e t where
  unlocked := hl
  marked := hm
  sent _ := ⟨[], by rw [hgot, List.append_nil], by rw [hpc, he.1, List.append_nil]; rfl⟩
  kept _ := ⟨[], by rw [hrec, List.append_nil], by rw [hpc, he.2, List.append_nil]; rfl⟩

/-- The process has ended. -/
theorem Flow.of_dead {e : Event} (hl : t.locked = false) {status : ℕ}
    (hpc : t.pc = .exited status) : Flow cfg s e t where
  unlocked := hl
  marked := by
    rw [hpc]
    trivial
  sent hlive := by
    rw [hpc] at hlive
    exact hlive.elim
  kept hlive := by
    rw [hpc] at hlive
    exact hlive.elim

/-- A pipe is closed, with nothing of it on its way. -/
theorem flow_closePipe (hl : s.locked = false) {e : Event} (hpc : s.pc = .read) (fd : Fd)
    (he : offered s e = [] ∧ toRecord cfg s e = []) :
    Flow cfg s e { s with toControl := closePipe fd s.toControl } := by
  have hs : s.pc.unsent = [] ∧ s.pc.unrecorded = [] := by
    rw [hpc]
    exact ⟨rfl, rfl⟩
  have hpc' := closePipe_pc fd hpc
  refine .of_idle ((closePipe_locked _ _).trans hl) (closePipe_got _ _) (closePipe_recorded _ _) hs
    ?_ ?_ he
  · rcases hpc' with h | h <;> rw [h] <;> exact ⟨rfl, rfl⟩
  · rcases hpc' with h | h <;> rw [h] <;> trivial

/-- A `write` that does not fail.  What was to be sent has been offered, and what was to be recorded
is recorded next, or dropped in stealth mode. -/
theorem flow_afterWrite (hl : s.locked = false) (hm : s.pc.Marked cfg) {k : Chunk} {hdr : Header}
    (hpc : s.pc = .write k hdr) {r : WriteResult} (hr : r = .eintr ∨ ∃ n, r = .sent n)
    (sent : List Sent) :
    Flow cfg s (.write r)
      { s with toControl := { s.toControl with pc := afterWrite k hdr, sent := sent } } := by
  have hmark : k.dontWrite = cfg.stealth k.fd := by
    rw [hpc] at hm
    exact hm
  have hs : s.pc.unsent = [(k.fd, k.bytes)] ∧ s.pc.unrecorded = [] := by
    rw [hpc]
    exact ⟨rfl, rfl⟩
  have hoff : offered s (.write r) = [(k.fd, k.bytes)] := by
    unfold offered
    rw [hpc]
  have hrec : toRecord cfg s (.write r) = if k.dontWrite then [] else [k.bytes] := by
    unfold toRecord
    rw [hpc, hmark]
    rcases hr with rfl | ⟨n, rfl⟩ <;> rfl
  refine ⟨hl, ?_, fun _ => ⟨[], by rw [List.append_nil], ?_⟩,
    fun _ => ⟨[], by rw [List.append_nil], ?_⟩⟩
  · unfold afterWrite
    dsimp only
    split <;> trivial
  · rw [hs.1, hoff]
    unfold afterWrite
    dsimp only
    split <;> rfl
  · rw [hs.2, hrec]
    unfold afterWrite
    dsimp only
    split <;> rfl

/-- The statements and handlers that leave the recording alone. -/
theorem flow_control (hl : s.locked = false) (hm : s.pc.Marked cfg) (htty : cfg.useTty = false)
    {e : Event} (hurg : e ≠ .urg) {c : Control N} (h : ControlSteps cfg s.toControl e c) :
    Flow cfg s e { s with toControl := c } := by
  cases h with
  | @data fd bytes dontWrite hpc _ hmark =>
    have hs : s.pc.unsent = [] ∧ s.pc.unrecorded = [] := by
      rw [hpc]
      exact ⟨rfl, rfl⟩
    refine ⟨hl, hmark htty, fun _ => ⟨[(fd, bytes)], rfl, ?_⟩, fun _ => ⟨[], ?_, ?_⟩⟩
    · rw [hs.1]
      rfl
    · rw [List.append_nil]
    · rw [hs.2]
      rfl
  | eintr hpc | selectFailed hpc => exact .of_same hl hm rfl rfl rfl ⟨rfl, rfl⟩
  | ttyEnds _ hf => exact absurd (htty.symm.trans hf) Bool.noConfusion
  | @pipeEnds fd r hpc hr =>
    apply flow_closePipe hl hpc fd
    rcases hr with rfl | rfl
    · exact ⟨rfl, rfl⟩
    · exact ⟨rfl, rfl⟩
  | @check k now hpc =>
    have hs : s.pc.unsent = [(k.fd, k.bytes)] ∧ s.pc.unrecorded = [] := by
      rw [hpc]
      exact ⟨rfl, rfl⟩
    have hc : checkLock k now s.toControl =
        { s.toControl with pc := .write k ⟨now.tv, k.bytes.length⟩ } := by
      unfold checkLock
      rw [if_neg (by rw [hl]; exact Bool.false_ne_true)]
    rw [hpc] at hm
    rw [hc]
    refine ⟨hl, hm, fun _ => ⟨[], by rw [List.append_nil], ?_⟩,
      fun _ => ⟨[], by rw [List.append_nil], ?_⟩⟩
    · rw [hs.1]
      rfl
    · rw [hs.2]
      rfl
  | @sent _ _ n hpc => exact flow_afterWrite hl hm hpc (.inr ⟨n, rfl⟩) _
  | writeEintr hpc => exact flow_afterWrite hl hm hpc (.inl rfl) s.sent
  | @writeError k hdr hpc =>
    -- the loop ends, and the chunk is not recorded
    have hs : s.pc.unsent = [(k.fd, k.bytes)] ∧ s.pc.unrecorded = [] := by
      rw [hpc]
      exact ⟨rfl, rfl⟩
    have hoff : offered s (.write .error) = [(k.fd, k.bytes)] := by
      unfold offered
      rw [hpc]
    refine ⟨hl, trivial, fun _ => ⟨[], by rw [List.append_nil], ?_⟩,
      fun _ => ⟨[], by rw [List.append_nil], ?_⟩⟩
    · rw [hs.1, hoff]
      rfl
    · rw [hs.2]
      rfl
  | @account k hpc =>
    have hs : s.pc.unsent = [] ∧ s.pc.unrecorded = [] := by
      rw [hpc]
      exact ⟨rfl, rfl⟩
    exact .of_idle hl rfl rfl hs ⟨rfl, rfl⟩ trivial ⟨rfl, rfl⟩
  | urg => exact absurd rfl hurg
  | usr2 =>
    have hc : unlockScreen s.toControl = s.toControl := unlockScreen_of_unlocked hl
    rw [hc]
    exact .of_same hl hm rfl rfl rfl ⟨rfl, rfl⟩

variable [DecidableEq N] {host : Host} {fileName : Timeval → N} {fwriteWrapper : FwriteWrapper S}
  {fcloseWrapper : FcloseWrapper S}

/-- **One step** of a session without a terminal that is not locked, and is not interrupted
by SIGURG. -/
theorem flow_step (htty : cfg.useTty = false) (hl : s.locked = false) (hm : s.pc.Marked cfg)
    {e : Event} (hurg : e ≠ .urg)
    (h : step cfg host fileName fwriteWrapper fcloseWrapper s e = some t) : Flow cfg s e t := by
  -- where a call of a wrapper may end the process
  have hcall : ∀ {α : Type} (u : Recorder S N) (pc : Pc) (o : Outcome (α × (OutFile × S))),
      u.locked = false → pc.unsent = [] ∧ pc.unrecorded = [] ∧ pc.Marked cfg →
      (Recorder.afterCall u pc o).locked = false ∧ (Recorder.afterCall u pc o).pc.Marked cfg ∧
        (Recorder.afterCall u pc o).got = u.got ∧
        (Recorder.afterCall u pc o).recorded = u.recorded ∧
        (Recorder.afterCall u pc o).pc.unsent = [] ∧
        (Recorder.afterCall u pc o).pc.unrecorded = [] := by
    intro α u pc o hu hpc
    cases o with
    | ret r => exact ⟨hu, hpc.2.2, rfl, rfl, hpc.1, hpc.2.1⟩
    | exit status => exact ⟨hu, trivial, rfl, rfl, rfl, rfl⟩
    | spin => exact ⟨hu, trivial, rfl, rfl, rfl, rfl⟩
  cases step_steps h with
  | control hc => exact flow_control hl hm htty hurg hc
  | @header k hdr now hpc =>
    obtain ⟨hl', hm', hgot, hrec, hun, hur⟩ := hcall
      { s with recorded := s.recorded ++ [⟨hdr, k.bytes⟩] } (.payload k hdr)
      (writeHeader host fwriteWrapper hdr now (s.fscript, s.wrapper)) hl ⟨rfl, rfl, trivial⟩
    refine ⟨hl', hm', fun _ => ⟨[], ?_, ?_⟩, fun _ => ⟨[⟨hdr, k.bytes⟩], hrec, ?_⟩⟩
    · rw [hgot, List.append_nil]
    · rw [hun, hpc]
      rfl
    · rw [hur, hpc]
      rfl
  | @payload k hdr now hpc =>
    obtain ⟨hl', hm', hgot, hrec, hun, hur⟩ := hcall s (.account k)
      (fwriteWrapper 1 k.bytes now (s.fscript, s.wrapper)) hl ⟨rfl, rfl, trivial⟩
    refine ⟨hl', hm', fun _ => ⟨[], ?_, ?_⟩, fun _ => ⟨[], ?_, ?_⟩⟩
    · rw [hgot, List.append_nil]
    · rw [hun, hpc]
      rfl
    · rw [hrec, List.append_nil]
    · rw [hur, hpc]
      rfl
  | @usr1 now named opens hlive =>
    unfold swingOutputFile
    dsimp only
    split
    · cases opens with
      | true => exact .of_same hl hm rfl rfl rfl ⟨rfl, rfl⟩
      | false => exact .of_dead hl rfl
    · exact .of_same hl hm rfl rfl rfl ⟨rfl, rfl⟩
  | finish =>
    rw [unlockScreen_of_unlocked hl]
    exact .of_dead hl rfl

/-- A process that has ended does nothing. -/
theorem live_of_step {e : Event}
    (h : step cfg host fileName fwriteWrapper fcloseWrapper s e = some t) : s.pc.Live := by
  rcases step_cases h with ⟨c, -, hquiet, -⟩ | ⟨k, hdr, now, -, hpc, -⟩ |
    ⟨k, hdr, now, -, hpc, -⟩ | ⟨now, named, opens, -, hlive, -, -⟩ | ⟨status, -, hpc, -⟩
  · exact hquiet.live.1
  · rw [hpc]
    trivial
  · rw [hpc]
    trivial
  · exact hlive
  · rw [hpc]
    trivial

/-! ### Runs of the recorder -/

/-- SIGURG is delivered to the child. -/
def Event.Urg : Event → Prop
  | .urg => True
  | _ => False

variable (cfg host fileName fwriteWrapper fcloseWrapper) in
/-- The session is not locked, and while the process runs, all that it has read is handed to
`write` and recorded, but for the chunk on its way, the chunks of a stealth stream, and a chunk
whose `write` has failed. -/
structure PassesOn (s₀ : Recorder S N) (es : List Event) (t : Recorder S N) : Prop where
  unlocked : t.locked = false
  passed : t.pc.Live → t.got =
    collect (step cfg host fileName fwriteWrapper fcloseWrapper) offered s₀ es ++ t.pc.unsent
  recorded : t.pc.Live → t.recorded.map Record.payload ++ t.pc.unrecorded =
    collect (step cfg host fileName fwriteWrapper fcloseWrapper) (toRecord cfg) s₀ es

/-- **A run without SIGURG** passes everything on.  The session is never locked, and this is the
condition that all branches of the loop share. -/
theorem passesOn_of_noUrg (htty : cfg.useTty = false) (disk : N → List UInt8) (name : N)
    (short : ℕ → Option ℕ) (wrapper : S) {es : List Event} (hes : ∀ e ∈ es, ¬ e.Urg)
    (hrun : exec (step cfg host fileName fwriteWrapper fcloseWrapper)
      (Recorder.start disk name short wrapper) es = some t) :
    PassesOn cfg host fileName fwriteWrapper fcloseWrapper
      (Recorder.start disk name short wrapper) es t := by
  have hne : ∀ e ∈ es, e ≠ .urg := by
    rintro e he rfl
    exact hes _ he trivial
  have halong : Along (step cfg host fileName fwriteWrapper fcloseWrapper)
      (fun _ e => e ≠ .urg) (Recorder.start disk name short wrapper) es :=
    along_of_forall_mem hne _
  -- the chunks that are handed to `write`
  have hsent : ∀ (s : Recorder S N) acc e t,
      (s.locked = false ∧ s.pc.Marked cfg) ∧ (s.pc.Live → s.got = acc ++ s.pc.unsent) →
      e ≠ .urg → step cfg host fileName fwriteWrapper fcloseWrapper s e = some t →
      (t.locked = false ∧ t.pc.Marked cfg) ∧
        (t.pc.Live → t.got = acc ++ offered s e ++ t.pc.unsent) := by
    rintro s acc e t ⟨⟨hl, hm⟩, hgot⟩ hurg hstep
    have hflow := flow_step htty hl hm hurg hstep
    refine ⟨⟨hflow.unlocked, hflow.marked⟩, ?_⟩
    intro hlive
    obtain ⟨got, ht, hbal⟩ := hflow.sent hlive
    rw [ht, hgot (live_of_step hstep), List.append_assoc, hbal, List.append_assoc]
  -- and those that are recorded
  have hkept : ∀ (s : Recorder S N) acc e t,
      (s.locked = false ∧ s.pc.Marked cfg) ∧
        (s.pc.Live → s.recorded.map Record.payload ++ s.pc.unrecorded = acc) →
      e ≠ .urg → step cfg host fileName fwriteWrapper fcloseWrapper s e = some t →
      (t.locked = false ∧ t.pc.Marked cfg) ∧
        (t.pc.Live → t.recorded.map Record.payload ++ t.pc.unrecorded =
          acc ++ toRecord cfg s e) := by
    rintro s acc e t ⟨⟨hl, hm⟩, hrec⟩ hurg hstep
    have hflow := flow_step htty hl hm hurg hstep
    refine ⟨⟨hflow.unlocked, hflow.marked⟩, ?_⟩
    intro hlive
    obtain ⟨rs, ht, hbal⟩ := hflow.kept hlive
    rw [ht, List.map_append, List.append_assoc, hbal, ← List.append_assoc,
      hrec (live_of_step hstep)]
  have hsent₀ : ((Recorder.start disk name short wrapper).locked = false ∧
      (Recorder.start disk name short wrapper).pc.Marked cfg) ∧
      ((Recorder.start disk name short wrapper).pc.Live →
        (Recorder.start disk name short wrapper).got = ([] : List (Fd × List UInt8)) ++
          (Recorder.start disk name short wrapper).pc.unsent) := ⟨⟨rfl, trivial⟩, fun _ => rfl⟩
  have hkept₀ : ((Recorder.start disk name short wrapper).locked = false ∧
      (Recorder.start disk name short wrapper).pc.Marked cfg) ∧
      ((Recorder.start disk name short wrapper).pc.Live →
        (Recorder.start disk name short wrapper).recorded.map Record.payload ++
          (Recorder.start disk name short wrapper).pc.unrecorded = ([] : List (List UInt8))) :=
    ⟨⟨rfl, trivial⟩, fun _ => rfl⟩
  have hpassed := exec_invariant_collect hsent halong hrun hsent₀
  have hrecorded := exec_invariant_collect hkept halong hrun hkept₀
  exact ⟨hpassed.1.1, hpassed.2, hrecorded.2⟩

/-- SIGURG locks the session, whether or not there is a terminal. -/
theorem locked_of_urg (h : step cfg host fileName fwriteWrapper fcloseWrapper s .urg = some t) :
    t.locked = true := by
  cases step_steps h with
  | control hc =>
    cases hc with
    | urg =>
      change (lockScreen s.toControl).locked = true
      unfold lockScreen
      split
      next hl => exact hl
      next => rfl

/-- A run that ends with SIGURG leaves the session locked. -/
theorem locked_of_exec_urg {es : List Event} {e : Event} (hurg : e.Urg)
    (hrun : exec (step cfg host fileName fwriteWrapper fcloseWrapper) s (es ++ [e]) = some t) :
    t.locked = true := by
  obtain ⟨s', -, he⟩ := exec_concat_eq_some.mp hrun
  cases e with
  | urg => exact locked_of_urg he
  | _ => exact hurg.elim

end Steps

/-! ### Runs of the parent -/

/-- SIGURG is delivered to the parent. -/
def ParentEvent.Urg : ParentEvent → Prop
  | .urg _ => True
  | _ => False

/-- **One step of a parent without a terminal**: only SIGURG locks.  Nothing is read then, and the
watcher looks for a terminal before it locks. -/
theorem noTty_step {o : ParentOptions} (ho : o.useTty = false) {s t : Parent} {e : ParentEvent}
    (hclock : 0 < s.clock) (h : parentStep o s e = some t) :
    0 < t.clock ∧ (e.Urg → t.lockedSince ≠ 0) ∧
      (¬ e.Urg → s.lockedSince = 0 → t.lockedSince = 0) := by
  cases parentStep_steps h with
  | dropped htty | sent htty | failed htty =>
    rw [ho] at htty
    exact absurd htty Bool.false_ne_true
  | eof => exact ⟨hclock, fun hurg => hurg.elim, fun _ hl => hl⟩
  | @tick now lockNow hnow _ hlock _ =>
    obtain ⟨hsame, hcases⟩ := watchLock_cases o now lockNow
      { s with clock := lockNow, lastTick := now }
    obtain ⟨hsame', hls⟩ := watchKill_same o now
      (watchLock o now lockNow { s with clock := lockNow, lastTick := now })
    have hcl : (timeoutWatcher o now lockNow { s with clock := lockNow, lastTick := now }).clock =
        lockNow := hsame'.clock.trans hsame.clock
    refine ⟨by omega, fun hurg => hurg.elim, ?_⟩
    intro _ hl
    rw [timeoutWatcher, hls]
    rcases hcases with ⟨hlock, -⟩ | ⟨-, htty, -⟩
    · rw [hlock]
      exact hl
    · -- the watcher does not lock without a terminal
      rw [ho] at htty
      exact absurd htty Bool.false_ne_true
  | @urg now hnow =>
    unfold lockSession
    split
    next hl => exact ⟨by dsimp only; omega, fun _ => hl, fun hurg => absurd trivial hurg⟩
    next =>
      refine ⟨?_, ?_, fun hurg => absurd trivial hurg⟩
      · change 0 < now
        omega
      · intro _
        change now ≠ 0
        omega
  | @usr2 now hnow =>
    unfold unlockSession
    dsimp only
    split
    next hl => exact ⟨by dsimp only; omega, fun hurg => hurg.elim, fun _ _ => hl⟩
    next =>
      refine ⟨?_, fun hurg => hurg.elim, fun _ _ => rfl⟩
      change 0 < now
      omega

/-- The clock does not stop being positive. -/
theorem noTty_clock {o : ParentOptions} (ho : o.useTty = false) {start : ℤ} (hstart : 0 < start)
    {es : List ParentEvent} {t : Parent}
    (hrun : exec (parentStep o) (Parent.start start) es = some t) : 0 < t.clock :=
  exec_invariant (I := fun s : Parent => 0 < s.clock)
    (fun _ _ _ hs hstep => (noTty_step ho hs hstep).1) hrun hstart

theorem unlocked_of_noUrg {o : ParentOptions} (ho : o.useTty = false) {start : ℤ}
    (hstart : 0 < start) {es : List ParentEvent} {t : Parent} (hes : ∀ e ∈ es, ¬ e.Urg)
    (hrun : exec (parentStep o) (Parent.start start) es = some t) : t.lockedSince = 0 := by
  have hstep : ∀ s e t, 0 < s.clock ∧ s.lockedSince = 0 → ¬ ParentEvent.Urg e →
      parentStep o s e = some t → 0 < t.clock ∧ t.lockedSince = 0 := by
    rintro s e t ⟨hclock, hl⟩ hurg hstep
    obtain ⟨hclock', -, hnext⟩ := noTty_step ho hclock hstep
    exact ⟨hclock', hnext hurg hl⟩
  exact (exec_invariant_along hstep (along_of_forall_mem hes _) hrun ⟨hstart, rfl⟩).2

/-! ### Both processes -/

/-- **A session without a terminal is never locked and loses nothing, exactly if no SIGURG is
delivered**: in every run of the parent, and in every run of the recorder, whatever other
signals are delivered. -/
theorem passesOn_iff_noUrg [DecidableEq N] {o : ParentOptions} (ho : o.useTty = false)
    {cfg : Config} (hcfg : cfg.useTty = false) (host : Host) (fileName : Timeval → N)
    (fwriteWrapper : FwriteWrapper S) (fcloseWrapper : FcloseWrapper S) {start : ℤ}
    (hstart : 0 < start) (disk : N → List UInt8) (name : N) (short : ℕ → Option ℕ) (wrapper : S) :
    (∀ {es : List ParentEvent} {p : Parent},
      exec (parentStep o) (Parent.start start) es = some p →
        (Throughout (parentStep o) (fun _ p => p.lockedSince = 0) (Parent.start start) es ↔
          ∀ e ∈ es, ¬ e.Urg)) ∧
    ∀ {es : List Event} {t : Recorder S N},
      exec (step cfg host fileName fwriteWrapper fcloseWrapper)
          (Recorder.start disk name short wrapper) es = some t →
        (Throughout (step cfg host fileName fwriteWrapper fcloseWrapper)
            (PassesOn cfg host fileName fwriteWrapper fcloseWrapper
              (Recorder.start disk name short wrapper))
            (Recorder.start disk name short wrapper) es ↔
          ∀ e ∈ es, ¬ e.Urg) := by
  constructor
  · intro es p hrun
    refine throughout_iff (fun es t hes hrun => unlocked_of_noUrg ho hstart hes hrun) ?_ hrun
    intro es e t hurg hrun hl
    obtain ⟨s, hs, he⟩ := exec_concat_eq_some.mp hrun
    exact (noTty_step ho (noTty_clock ho hstart hs) he).2.1 hurg hl
  · intro es t hrun
    refine throughout_iff (fun es t hes hrun => passesOn_of_noUrg hcfg disk name short wrapper hes hrun)
      ?_ hrun
    intro es e t hurg hrun hpasses
    exact absurd (hpasses.unlocked.symm.trans (locked_of_exec_urg hurg hrun)) Bool.false_ne_true

/-- A session through pipes, with a kill timeout. -/
def ParentOptions.noTty : ParentOptions where
  useTty := false
  cheatcodes := false
  timeoutLock := 0
  timeoutKill := 10
  warnBeforeLock := 0
  warnBeforeKill := 0
  lock_nonneg := noTimeout_le
  kill_nonneg := Int.le.intro 10 rfl
  lock_le_kill h _ := absurd h (by decide)
  warnBeforeLock_nonneg := noTimeout_le
  warnBeforeLock_le := noTimeout_le
  warnBeforeKill_nonneg := noTimeout_le
  warnBeforeKill_le := Int.le.intro 10 rfl

def Config.noTty : Config := ⟨false, false, true⟩

/-- A chunk of each stream, one of which is stealth, and the signals but SIGURG. -/
def pipeRun : List Event :=
  [.read .stdout (.data [65]), .usr2, .check (.ofSec 1000), .write (.sent 1), .header fun _ => 0,
    .usr1 ⟨1000, 0⟩ ⟨1000, 0⟩ true, .payload fun _ => 0, .account, .read .stderr (.data [66]),
    .check (.ofSec 1000), .write (.sent 1)]

/-- Nothing is locked and nothing lost in such a session. -/
theorem passesOn_iff_noUrg_run :
    Throughout (parentStep .noTty) (fun _ p => p.lockedSince = 0) (Parent.start 1000)
        [.tick 1001 1001, .usr2 1002] ∧
      Throughout (step .noTty .little Timeval.tvSec fwriteNone fcloseNone)
        (PassesOn .noTty .little Timeval.tvSec fwriteNone fcloseNone
          (Recorder.start (fun _ => []) (0 : ℤ) (fun _ => none) ()))
        (Recorder.start (fun _ => []) (0 : ℤ) (fun _ => none) ()) pipeRun := by
  obtain ⟨p, hrun⟩ := Option.isSome_iff_exists.mp (show (exec (parentStep .noTty)
    (Parent.start 1000) [.tick 1001 1001, .usr2 1002]).isSome = true by decide)
  obtain ⟨t, hrun'⟩ := Option.isSome_iff_exists.mp
    (show (exec (step .noTty .little Timeval.tvSec fwriteNone fcloseNone)
      (Recorder.start (fun _ => []) (0 : ℤ) (fun _ => none) ()) pipeRun).isSome = true from rfl)
  have ho : ParentOptions.noTty.useTty = false := rfl
  have hcfg : Config.noTty.useTty = false := rfl
  have hstart : (0 : ℤ) < 1000 := by decide
  have h := passesOn_iff_noUrg ho hcfg .little Timeval.tvSec fwriteNone fcloseNone hstart
    (fun _ => []) (0 : ℤ) (fun _ => none) ()
  exact ⟨(h.1 hrun).mpr (by simp [ParentEvent.Urg]), (h.2 hrun').mpr (by simp [pipeRun, Event.Urg])⟩

/-- **SIGURG makes a session without a terminal drop its output.** -/
theorem urg_drops :
    ∃ t : Recorder Unit ℤ,
      exec (step .noTty .little Timeval.tvSec fwriteNone fcloseNone)
        (Recorder.start (fun _ => []) 0 (fun _ => none) ())
        [.urg, .read .stdout (.data [65]), .check (.ofSec 1000)] = some t ∧
      t.locked = true ∧ t.pc = .read ∧ t.got = [(.stdout, [65])] ∧
      t.sent = [.lockScreen] ∧ t.recorded = [] := by
  exact ⟨_, rfl, rfl, rfl, rfl, rfl, rfl⟩

end TtyRec
