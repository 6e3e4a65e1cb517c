import TtyRec.NoTty
import TtyRec.Relay
import TtyRec.Rotation

/-!
# The two pipes

Without a terminal one loop serves the standard output and the standard error of the command.
`select` says which of the pipes are ready, the standard error goes first, and `target_fd`,
`dont_write` and `cc` say where the chunk goes and whether it is recorded.  A pipe is closed at
its end or on an error, and the loop ends with the second one.

## Main definitions

* `reads` — the chunks that are read in a run.
* `recordedOf` — those of them that do not come from a stealth stream.
* `Separates` — where the chunks of a run are.

## Main results

* `separates_step`, `separates_exec` — **a step, and a run, keep the streams apart.**
* `pipes_separated` — the same, with what the files hold at the end.
-/

namespace TtyRec

open Run StreamCodec

variable {S N : Type*}

/-! ### The chunks of a run -/

/-- The chunk that an event reads. -/
def Event.chunk : Event → List (Fd × List UInt8)
  | .read fd (.data bytes) => [(fd, bytes)]
  | _ => []

/-- The chunks that are read, in order. -/
def reads (es : List Event) : List (Fd × List UInt8) := es.flatMap Event.chunk

/-- A pipe reports its end, or an error, which the loop treats alike. -/
def Event.Ends (fd : Fd) : Event → Prop
  | .read fd' r => fd' = fd ∧ (r = .eof ∨ r = .error)
  | _ => False

/-- The bytes of one stream, taken out of the chunks of both. -/
def bytesOf (fd : Fd) (chunks : List (Fd × List UInt8)) : List UInt8 :=
  chunks.flatMap fun c => if c.1 = fd then c.2 else []

/-- The chunks that are to be recorded: all but those of a stealth stream. -/
def recordedOf (cfg : Config) (chunks : List (Fd × List UInt8)) : List (List UInt8) :=
  chunks.flatMap fun c => if cfg.stealth c.1 then [] else [c.2]

/-- The number of bytes of all chunks. -/
def totalBytes (chunks : List (Fd × List UInt8)) : ℕ := (chunks.map fun c => c.2.length).sum

/-- A chunk, on its way out. -/
def toSent (c : Fd × List UInt8) : Sent := .output c.1 c.2

@[simp] theorem reads_nil : reads [] = [] := rfl

@[simp] theorem reads_append (es es' : List Event) : reads (es ++ es') = reads es ++ reads es' :=
  List.flatMap_append

theorem reads_singleton (e : Event) : reads [e] = e.chunk := by
  simp [reads]

@[simp] theorem recordedOf_nil (cfg : Config) : recordedOf cfg [] = [] := rfl

@[simp] theorem recordedOf_singleton (cfg : Config) (c : Fd × List UInt8) :
    recordedOf cfg [c] = if cfg.stealth c.1 then [] else [c.2] := by
  simp [recordedOf]

@[simp] theorem recordedOf_append (cfg : Config) (cs cs' : List (Fd × List UInt8)) :
    recordedOf cfg (cs ++ cs') = recordedOf cfg cs ++ recordedOf cfg cs' :=
  List.flatMap_append

@[simp] theorem totalBytes_nil : totalBytes [] = 0 := rfl

@[simp] theorem totalBytes_singleton (c : Fd × List UInt8) : totalBytes [c] = c.2.length := by
  simp [totalBytes]

@[simp] theorem totalBytes_append (cs cs' : List (Fd × List UInt8)) :
    totalBytes (cs ++ cs') = totalBytes cs + totalBytes cs' := by
  simp [totalBytes]

/-- The chunks of a stream, written one by one. -/
theorem outputOf_map_toSent (fd : Fd) (chunks : List (Fd × List UInt8)) :
    outputOf fd (chunks.map toSent) = bytesOf fd chunks := by
  simp [outputOf, bytesOf, List.flatMap_map, toSent]

/-! ### Where the chunks are -/

/-- The chunk that is still to be recorded, unless its stream is stealth. -/
def Pc.unkept : Pc → List (List UInt8)
  | .check c | .write c _ => if c.dontWrite then [] else [c.bytes]
  | .header c _ => [c.bytes]
  | _ => []

/-- The bytes that `bytes_out` does not count yet. -/
def Pc.uncounted : Pc → ℕ
  | .check c | .write c _ | .header c _ | .payload c _ | .account c => c.bytes.length
  | _ => 0

/-- The `write` of a chunk is complete. -/
def writesAll (s : Recorder S N) (e : Event) : Bool :=
  match e, s.pc with
  | .write r, .write c _ => r = .sent c.bytes.length
  | _, _ => true

/-- **Where the chunks of a run are**: all of them went out, one after the other, but for the one
on its way; those that are not of a stealth stream are recorded; and a pipe is closed, or the loop
over, only when an end was reported. -/
structure Separates (cfg : Config) (es : List Event) (s : Control N) : Prop where
  unlocked : s.locked = false
  sent : s.sent ++ s.pc.unsent.map toSent = (reads es).map toSent
  recorded : s.recorded.map Record.payload ++ s.pc.unkept = recordedOf cfg (reads es)
  bytesOut : s.bytesOut + s.pc.uncounted = totalBytes (reads es)
  closed : ∀ fd, s.pipeOpened fd = false → ∃ e ∈ es, e.Ends fd
  ended : s.pc = .waiting → ∀ fd, s.pipeOpened fd = false

section Steps

variable {cfg : Config} {es : List Event} {e : Event} {c : Control N}

/-- One event more: what went out, was recorded and was counted, with what is on its way, grows
by the chunk that the event reads. -/
theorem Separates.concat {s : Control N} (h : Separates cfg es s) (hl : c.locked = s.locked)
    (hsent : c.sent ++ c.pc.unsent.map toSent =
      s.sent ++ s.pc.unsent.map toSent ++ e.chunk.map toSent)
    (hrec : c.recorded.map Record.payload ++ c.pc.unkept =
      s.recorded.map Record.payload ++ s.pc.unkept ++ recordedOf cfg e.chunk)
    (hbytes : c.bytesOut + c.pc.uncounted = s.bytesOut + s.pc.uncounted + totalBytes e.chunk)
    (hclosed : ∀ fd, c.pipeOpened fd = false → e.Ends fd ∨ s.pipeOpened fd = false)
    (hended : c.pc = .waiting → ∀ fd, c.pipeOpened fd = false) : Separates cfg (es ++ [e]) c where
  unlocked := hl.trans h.unlocked
  sent := by rw [hsent, h.sent, reads_append, reads_singleton, List.map_append]
  recorded := by rw [hrec, h.recorded, reads_append, reads_singleton, recordedOf_append]
  bytesOut := by rw [hbytes, h.bytesOut, reads_append, reads_singleton, totalBytes_append]
  closed := by
    intro fd hfd
    rcases hclosed fd hfd with hends | hold
    · exact ⟨e, by simp, hends⟩
    · obtain ⟨e', he', hends⟩ := h.closed fd hold
      exact ⟨e', List.mem_append_left _ he', hends⟩
  ended := hended

/-- An event that reads no chunk, and leaves the chunks where they are. -/
theorem Separates.of_same {s : Control N} (h : Separates cfg es s) (he : e.chunk = [])
    (hl : c.locked = s.locked) (hsent : c.sent = s.sent) (hrec : c.recorded = s.recorded)
    (hbytes : c.bytesOut = s.bytesOut) (hunsent : c.pc.unsent = s.pc.unsent)
    (hunkept : c.pc.unkept = s.pc.unkept) (huncounted : c.pc.uncounted = s.pc.uncounted)
    (hclosed : ∀ fd, c.pipeOpened fd = false → e.Ends fd ∨ s.pipeOpened fd = false)
    (hended : c.pc = .waiting → ∀ fd, c.pipeOpened fd = false) : Separates cfg (es ++ [e]) c := by
  refine h.concat hl ?_ ?_ ?_ hclosed hended
  · rw [he, hsent, hunsent, List.map_nil, List.append_nil]
  · rw [he, hrec, hunkept, recordedOf_nil, List.append_nil]
  · rw [he, hbytes, huncounted, totalBytes_nil, Nat.add_zero]

/-- Closing a pipe closes no other pipe, and the loop is over when both are closed. -/
theorem closePipe_ends (fd : Fd) {s : Control N} (hpc : s.pc = .read) :
    (∀ fd', (closePipe fd s).pipeOpened fd' = false → fd = fd' ∨ s.pipeOpened fd' = false) ∧
      ((closePipe fd s).pc = .waiting → ∀ fd', (closePipe fd s).pipeOpened fd' = false) := by
  cases fd <;>
  · unfold closePipe
    dsimp only
    split
    next hboth =>
      refine ⟨?_, fun _ => ?_⟩
      · rintro (_ | _) hfd <;> simp_all [Control.pipeOpened]
      · rintro (_ | _) <;> simp_all [Control.pipeOpened]
    next =>
      refine ⟨?_, fun hwait => absurd (hpc.symm.trans hwait) Pc.noConfusion⟩
      rintro (_ | _) hfd <;> simp_all [Control.pipeOpened]

/-- A pipe is closed; nothing was on its way from it. -/
theorem Separates.closePipe {s : Control N} (h : Separates cfg es s) (hpc : s.pc = .read) (fd : Fd)
    {r : ReadResult} (hr : r = .eof ∨ r = .error) :
    Separates cfg (es ++ [.read fd r]) (closePipe fd s) := by
  have hchunk : (Event.read fd r).chunk = [] := by rcases hr with rfl | rfl <;> rfl
  obtain ⟨hclosed, hended⟩ := closePipe_ends fd hpc
  have hidle : (TtyRec.closePipe fd s).pc.unsent = s.pc.unsent ∧
      (TtyRec.closePipe fd s).pc.unkept = s.pc.unkept ∧
      (TtyRec.closePipe fd s).pc.uncounted = s.pc.uncounted := by
    rw [hpc]
    rcases closePipe_pc fd hpc with hpc' | hpc' <;> rw [hpc'] <;> exact ⟨rfl, rfl, rfl⟩
  refine h.of_same hchunk (closePipe_locked _ _) (closePipe_sent _ _) (closePipe_recorded _ _)
    (closePipe_bytesOut _ _) hidle.1 hidle.2.1 hidle.2.2 ?_ hended
  intro fd' hfd'
  exact (hclosed fd' hfd').imp_left fun heq => ⟨heq, hr⟩

/-- The statements and handlers that leave the recording alone. -/
theorem separates_control (htty : cfg.useTty = false) {s : Recorder S N}
    (h : Separates cfg es s.toControl) (hurg : e ≠ .urg) (hall : writesAll s e = true)
    (hstep : ControlSteps cfg s.toControl e c) : Separates cfg (es ++ [e]) c := by
  cases hstep with
  | @data fd bytes dontWrite hpc _ hmark =>
    refine h.concat rfl ?_ ?_ ?_ (fun _ => .inr) fun hwait => Pc.noConfusion hwait
    · simp [hpc, Event.chunk, Pc.unsent]
    · simp [hpc, Event.chunk, Pc.unkept, hmark htty]
    · simp [hpc, Event.chunk, Pc.uncounted]
  | eintr hpc | selectFailed hpc =>
    exact h.of_same rfl rfl rfl rfl rfl rfl rfl rfl (fun _ => .inr) h.ended
  | ttyEnds _ hf => exact absurd (htty.symm.trans hf) Bool.noConfusion
  | pipeEnds hpc hr => exact h.closePipe hpc _ hr
  | @check k now hpc =>
    have hlock : checkLock k now s.toControl =
        { s.toControl with pc := .write k ⟨now.tv, k.bytes.length⟩ } := by
      unfold checkLock
      rw [if_neg (by rw [h.unlocked]; exact Bool.false_ne_true)]
    rw [hlock]
    refine h.of_same rfl rfl rfl rfl rfl ?_ ?_ ?_ (fun _ => .inr) fun hwait => Pc.noConfusion hwait
    all_goals rw [hpc]; rfl
  | @sent k hdr n hpc =>
    -- the whole chunk goes out
    have hn : n = k.bytes.length := by
      unfold writesAll at hall
      rw [hpc] at hall
      simpa using hall
    have hafter : afterWrite k hdr = .account k ∧ k.dontWrite = true ∨
        afterWrite k hdr = .header k hdr ∧ k.dontWrite = false := by
      unfold afterWrite
      cases k.dontWrite with
      | true => exact .inl ⟨rfl, rfl⟩
      | false => exact .inr ⟨rfl, rfl⟩
    rcases hafter with ⟨ha, hd⟩ | ⟨ha, hd⟩ <;> rw [ha]
    · -- a stealth stream
      refine h.concat rfl ?_ ?_ ?_ (fun _ => .inr) fun hwait => Pc.noConfusion hwait
      · simp [hpc, hn, Event.chunk, Pc.unsent, toSent]
      · simp [hpc, hd, Event.chunk, Pc.unkept]
      · simp [hpc, Event.chunk, Pc.uncounted]
    · refine h.concat rfl ?_ ?_ ?_ (fun _ => .inr) fun hwait => Pc.noConfusion hwait
      · simp [hpc, hn, Event.chunk, Pc.unsent, toSent]
      · simp [hpc, hd, Event.chunk, Pc.unkept]
      · simp [hpc, Event.chunk, Pc.uncounted]
  | writeEintr hpc | writeError hpc =>
    unfold writesAll at hall
    rw [hpc] at hall
    simp at hall
  | @account k hpc =>
    refine h.concat rfl ?_ ?_ ?_ (fun _ => .inr) fun hwait => Pc.noConfusion hwait
    · simp [hpc, Event.chunk, Pc.unsent]
    · simp [hpc, Event.chunk, Pc.unkept]
    · simp [hpc, Event.chunk, Pc.uncounted]
  | urg => exact absurd rfl hurg
  | usr2 =>
    rw [unlockScreen_of_unlocked h.unlocked]
    exact h.of_same rfl rfl rfl rfl rfl rfl rfl rfl (fun _ => .inr) h.ended

variable [DecidableEq N] {host : Host} {fileName : Timeval → N} {fwriteWrapper : FwriteWrapper S}
  {fcloseWrapper : FcloseWrapper S} {s t : Recorder S N}

/-- **One step keeps the streams apart**, as long as the process lives.  The chunk that is read is
on its way until it is recorded and counted. -/
theorem separates_step (htty : cfg.useTty = false) (h : Separates cfg es s.toControl)
    (hurg : e ≠ .urg) (hall : writesAll s e = true)
    (hstep : step cfg host fileName fwriteWrapper fcloseWrapper s e = some t) (hlive : t.pc.Live) :
    Separates cfg (es ++ [e]) t.toControl := by
  cases step_steps hstep with
  | control hc => exact separates_control htty h hurg hall hc
  -- the chunk counts as recorded from its header on
  | @header k hdr now hpc =>
    cases hret : writeHeader host fwriteWrapper hdr now (s.fscript, s.wrapper) with
    | ret r =>
      refine h.concat rfl ?_ ?_ ?_ (fun _ => .inr) fun hwait => Pc.noConfusion hwait
      · simp [Recorder.afterCall, hpc, Event.chunk, Pc.unsent]
      · simp [Recorder.afterCall, hpc, Event.chunk, Pc.unkept]
      · simp [Recorder.afterCall, hpc, Event.chunk, Pc.uncounted]
    | exit status =>
      rw [hret] at hlive
      exact hlive.elim
    | spin =>
      rw [hret] at hlive
      exact hlive.elim
  | @payload k hdr now hpc =>
    cases hret : fwriteWrapper 1 k.bytes now (s.fscript, s.wrapper) with
    | ret r =>
      refine h.of_same rfl rfl rfl rfl rfl ?_ ?_ ?_ (fun _ => .inr)
        fun hwait => Pc.noConfusion hwait
      all_goals rw [hpc]; rfl
    | exit status =>
      rw [hret] at hlive
      exact hlive.elim
    | spin =>
      rw [hret] at hlive
      exact hlive.elim
  -- the recording is not what is kept apart, so a rotation matters only if it ends the process
  | @usr1 now named opens =>
    unfold swingOutputFile at hlive ⊢
    dsimp only at hlive ⊢
    split
    next hrot =>
      rw [if_pos hrot] at hlive
      cases opens with
      | true => exact h.of_same rfl rfl rfl rfl rfl rfl rfl rfl (fun _ => .inr) h.ended
      | false => exact hlive.elim
    next => exact h.of_same rfl rfl rfl rfl rfl rfl rfl rfl (fun _ => .inr) h.ended
  | finish => exact hlive.elim

/-- A run whose last state is alive was alive all the time. -/
theorem live_of_exec {es' : List Event}
    (hrun : exec (step cfg host fileName fwriteWrapper fcloseWrapper) s es' = some t)
    (hlive : t.pc.Live) : s.pc.Live := by
  cases es' with
  | nil =>
    rw [exec_nil, Option.some.injEq] at hrun
    rwa [hrun]
  | cons e es' =>
    obtain ⟨s', hs, -⟩ := exec_cons_eq_some.mp hrun
    exact live_of_step hs

/-- **A run keeps the streams apart**, as long as the process lives.  The induction is on the events
behind those that were taken. -/
theorem separates_exec (htty : cfg.useTty = false) {es' : List Event}
    (h : Separates cfg es s.toControl) (hurg : ∀ e ∈ es', ¬ e.Urg)
    (hall : Along (step cfg host fileName fwriteWrapper fcloseWrapper)
      (fun s e => writesAll s e = true) s es')
    (hrun : exec (step cfg host fileName fwriteWrapper fcloseWrapper) s es' = some t)
    (hlive : t.pc.Live) : Separates cfg (es ++ es') t.toControl := by
  induction es' generalizing es s with
  | nil =>
    rw [exec_nil, Option.some.injEq] at hrun
    rwa [List.append_nil, ← hrun]
  | cons e es' ih =>
    obtain ⟨s', hs, hrun'⟩ := exec_cons_eq_some.mp hrun
    have hne : e ≠ .urg := by
      rintro rfl
      exact hurg _ List.mem_cons_self trivial
    have hnext := separates_step htty h hne hall.1 hs (live_of_exec hrun' hlive)
    have hrest := ih hnext (fun e' he' => hurg e' (List.mem_cons_of_mem e he')) (hall.2 s' hs) hrun'
    rwa [List.append_assoc, List.singleton_append] at hrest

omit [DecidableEq N] in
/-- When the loop begins nothing was read. -/
theorem separates_start (disk : N → List UInt8) (name : N) (short : ℕ → Option ℕ) (wrapper : S) :
    Separates cfg [] (Recorder.start disk name short wrapper).toControl where
  unlocked := rfl
  sent := rfl
  recorded := rfl
  bytesOut := rfl
  closed := by rintro (_ | _) <;> simp [Recorder.start, Control.pipeOpened]
  ended hwait := Pc.noConfusion hwait

/-- A session that is never locked gets no SIGURG. -/
theorem noUrg_of_unlocked (htty : cfg.useTty = false) {disk : N → List UInt8} {name : N}
    {short : ℕ → Option ℕ} {wrapper : S}
    (hrun : exec (step cfg host fileName fwriteWrapper fcloseWrapper)
      (Recorder.start disk name short wrapper) es = some t)
    (h : Throughout (step cfg host fileName fwriteWrapper fcloseWrapper)
      (fun _ s => s.locked = false) (Recorder.start disk name short wrapper) es) :
    ∀ e ∈ es, ¬ e.Urg := by
  refine (throughout_iff ?_ ?_ hrun).mp h
  · intro es t hes hrun
    exact (passesOn_of_noUrg htty disk name short wrapper hes hrun).unlocked
  · intro es e t hurg hrun hl
    exact absurd (hl.symm.trans (locked_of_exec_urg hurg hrun)) Bool.false_ne_true

end Steps

/-! ### The whole run -/

section Whole

variable [DecidableEq N] (cfg : Config) (host : Host) (fileName : Timeval → N)
  (fwriteWrapper : FwriteWrapper S) (fcloseWrapper : FcloseWrapper S)

/-- The session is never locked, and every `write` is complete.  These are the two ways in which the
loop drops output, and both are set aside here. -/
structure Undisturbed (s₀ : Recorder S N) (es : List Event) : Prop where
  unlocked : Throughout (step cfg host fileName fwriteWrapper fcloseWrapper)
    (fun _ s => s.locked = false) s₀ es
  whole : Along (step cfg host fileName fwriteWrapper fcloseWrapper)
    (fun s e => writesAll s e = true) s₀ es

end Whole

/-- The files that were closed hold the chunks, one record each, behind the records `rs₀`. -/
def Recorder.HoldsChunks (Closed : List UInt8 → List UInt8 → Prop) (rs₀ : List Record)
    (chunks : List (List UInt8)) (t : Recorder S N) : Prop :=
  ∃ segs : List (List Record), List.Forall₂ (HoldsRecords Closed) (t.closed.map t.disk) segs ∧
    segs.flatten.map Record.payload = rs₀.map Record.payload ++ chunks

section Ended

variable [DecidableEq N] {cfg : Config} {host : Host} {fileName : Timeval → N}
  {fwriteWrapper : FwriteWrapper S} {fcloseWrapper : FcloseWrapper S} {disk : N → List UInt8}
  {name : N} {short : ℕ → Option ℕ} {wrapper : S} {es : List Event} {t : Recorder S N}

theorem Undisturbed.separates (htty : cfg.useTty = false)
    (h : Undisturbed cfg host fileName fwriteWrapper fcloseWrapper
      (Recorder.start disk name short wrapper) es)
    (hrun : exec (step cfg host fileName fwriteWrapper fcloseWrapper)
      (Recorder.start disk name short wrapper) es = some t)
    (hlive : t.pc.Live) : Separates cfg es t.toControl := by
  have hurg := noUrg_of_unlocked htty hrun h.unlocked
  simpa using separates_exec htty (separates_start disk name short wrapper) hurg h.whole hrun hlive

/-- A recording that is complete at the end holds the chunks of the run. -/
theorem Undisturbed.holdsChunks (htty : cfg.useTty = false)
    (h : Undisturbed cfg host fileName fwriteWrapper fcloseWrapper
      (Recorder.start disk name short wrapper) es) {status : ℕ}
    (hrun : exec (step cfg host fileName fwriteWrapper fcloseWrapper)
      (Recorder.start disk name short wrapper) (es ++ [.finish status]) = some t)
    {Closed : List UInt8 → List UInt8 → Prop} {rs₀ : List Record} (hc : t.Complete Closed rs₀) :
    t.HoldsChunks Closed rs₀ (recordedOf cfg (reads es)) := by
  obtain ⟨s, hs, hfinish⟩ := exec_concat_eq_some.mp hrun
  obtain ⟨segs, hfiles, -, hall⟩ := hc
  cases step_steps hfinish with
  | control hc => cases hc
  | finish hpc =>
    have hlive : s.pc.Live := by
      rw [hpc]
      trivial
    have hsep := h.separates htty hs hlive
    have hrec := hsep.recorded
    have hkept : s.pc.unkept = [] := by
      rw [hpc]
      rfl
    rw [hkept, List.append_nil] at hrec
    refine ⟨segs, hfiles, ?_⟩
    rw [hall id, List.map_append, ← hrec, unlockScreen_of_unlocked hsep.unlocked]
    rfl

end Ended

/-- **Pipe mode keeps the two streams apart.**  In a session without a terminal that is never
locked, all writes being complete, what went out, with the chunk on its way, are the chunks that
were read, each to its own stream, so that each stream gets what was read of its pipe, in order; the chunks that are not of a stealth
stream are recorded in the order in which they were read, and no others; `bytes_out` counts all
of them; and the loop ends only when both pipes have reported an end or an error.  When the
process has ended, and no rotation has cut a record, the files hold these chunks. -/
theorem pipes_separated [DecidableEq N] {cfg : Config} (htty : cfg.useTty = false) (host : Host)
    (fileName : Timeval → N) (disk : N → List UInt8) (name : N) :
    (∀ {S : Type} (fwriteWrapper : FwriteWrapper S) (fcloseWrapper : FcloseWrapper S)
        (short : ℕ → Option ℕ) (wrapper : S) {es : List Event} {t : Recorder S N},
      exec (step cfg host fileName fwriteWrapper fcloseWrapper)
          (Recorder.start disk name short wrapper) es = some t →
      Undisturbed cfg host fileName fwriteWrapper fcloseWrapper
          (Recorder.start disk name short wrapper) es →
      t.pc.Live →
        t.sent ++ t.pc.unsent.map toSent = (reads es).map toSent ∧
        (∀ fd, outputOf fd t.sent ++ t.pc.inFlight fd = bytesOf fd (reads es)) ∧
        t.recorded.map Record.payload ++ t.pc.unkept = recordedOf cfg (reads es) ∧
        t.bytesOut + t.pc.uncounted = totalBytes (reads es) ∧
        (t.pc = .waiting → ∀ fd, ∃ e ∈ es, e.Ends fd)) ∧
    ∀ {rs₀ : List Record}, (∀ r ∈ rs₀, r.Valid) →
      (disk name = rs₀.flatMap Record.encode →
        ∀ {es : List Event} {status : ℕ} {t : Recorder Unit N},
          exec (step cfg host fileName fwriteNone fcloseNone)
              (Recorder.start disk name (fun _ => none) ()) (es ++ [.finish status]) = some t →
          Undisturbed cfg host fileName fwriteNone fcloseNone
              (Recorder.start disk name (fun _ => none) ()) es →
          Along (step cfg host fileName fwriteNone fcloseNone)
              (fun s e => RotatesBetween fileName s.toControl e)
              (Recorder.start disk name (fun _ => none) ()) (es ++ [.finish status]) →
          t.HoldsChunks Eq rs₀ (recordedOf cfg (reads es))) ∧
      ∀ {C : Type} {enc : Encoder C UInt8 UInt8} {Frame : List UInt8 → List UInt8 → Prop}
        (_ : enc.Lawful Frame) (zcfg : ZConfig) (fuel : ℕ), bufsiz ≤ fuel →
        Concat Frame (disk name) (rs₀.flatMap Record.encode) →
        ∀ {es : List Event} {status : ℕ} {t : Recorder (ZWriter C) N},
          exec (step cfg host fileName (fwriteWrapperZstd enc zcfg fuel) (fcloseWrapperZstd enc))
              (Recorder.start disk name (fun _ => none) ZWriter.start) (es ++ [.finish status]) =
            some t →
          Undisturbed cfg host fileName (fwriteWrapperZstd enc zcfg fuel) (fcloseWrapperZstd enc)
              (Recorder.start disk name (fun _ => none) ZWriter.start) es →
          Along (step cfg host fileName (fwriteWrapperZstd enc zcfg fuel) (fcloseWrapperZstd enc))
              (fun s e => RotatesBetween fileName s.toControl e)
              (Recorder.start disk name (fun _ => none) ZWriter.start) (es ++ [.finish status]) →
          t.HoldsChunks (Concat Frame) rs₀ (recordedOf cfg (reads es)) := by
  constructor
  · intro S fwriteWrapper fcloseWrapper short wrapper es t hrun hund hlive
    have hsep := hund.separates htty hrun hlive
    refine ⟨hsep.sent, ?_, hsep.recorded, hsep.bytesOut,
      fun hwait fd => hsep.closed fd (hsep.ended hwait fd)⟩
    intro fd
    -- the chunk on its way goes to the stream it was read for
    have hflight : outputOf fd (t.pc.unsent.map toSent) = t.pc.inFlight fd := by
      cases t.pc <;> simp [Pc.unsent, Pc.inFlight, outputOf, toSent]
    rw [← hflight, ← outputOf_append, hsep.sent, outputOf_map_toSent]
  · intro rs₀ hrs₀
    have hcomplete := complete_of_rotatesBetween cfg host fileName disk name hrs₀
    constructor
    · intro hdisk es status t hrun hund hok
      exact hund.holdsChunks htty hrun (hcomplete.1 hdisk _ t hrun hok)
    · intro C enc Frame law zcfg fuel hfuel hdisk es status t hrun hund hok
      exact hund.holdsChunks htty hrun (hcomplete.2 law zcfg fuel hfuel hdisk _ t hrun hok)

/-- A chunk of each stream, of which the standard error is stealth; both pipes end. -/
def twoPipes : List Event :=
  [.read .stderr (.data [66]), .check (.ofSec 1000), .write (.sent 1), .account, .selectFailed,
    .read .stdout .eintr, .read .stdout (.data [65]), .check (.ofSec 1000), .write (.sent 1),
    .header fun _ => 0, .payload fun _ => 0, .account, .read .stdout .eof, .read .stderr .error]

theorem pipes_separated_twoPipes :
    ∃ s t : Recorder Unit ℤ,
      exec (step .noTty .little Timeval.tvSec fwriteNone fcloseNone)
        (Recorder.start (fun _ => []) 0 (fun _ => none) ()) twoPipes = some s ∧
      exec (step .noTty .little Timeval.tvSec fwriteNone fcloseNone)
        (Recorder.start (fun _ => []) 0 (fun _ => none) ()) (twoPipes ++ [.finish 0]) = some t ∧
      s.sent ++ s.pc.unsent.map toSent = (reads twoPipes).map toSent ∧
      (∀ fd, outputOf fd s.sent ++ s.pc.inFlight fd = bytesOf fd (reads twoPipes)) ∧
      s.recorded.map Record.payload ++ s.pc.unkept = recordedOf .noTty (reads twoPipes) ∧
      s.bytesOut + s.pc.uncounted = totalBytes (reads twoPipes) ∧
      (∀ fd, ∃ e ∈ twoPipes, e.Ends fd) ∧
      t.HoldsChunks Eq [] (recordedOf .noTty (reads twoPipes)) := by
  have htty : Config.noTty.useTty = false := rfl
  have h := pipes_separated htty .little Timeval.tvSec (fun _ => []) (0 : ℤ)
  obtain ⟨s, hs⟩ := Option.isSome_iff_exists.mp
    (show (exec (step .noTty .little Timeval.tvSec fwriteNone fcloseNone)
      (Recorder.start (fun _ => []) (0 : ℤ) (fun _ => none) ()) twoPipes).isSome = true from rfl)
  obtain ⟨t, ht⟩ := Option.isSome_iff_exists.mp
    (show (exec (step .noTty .little Timeval.tvSec fwriteNone fcloseNone)
      (Recorder.start (fun _ => []) (0 : ℤ) (fun _ => none) ()) (twoPipes ++ [.finish 0])).isSome =
        true from rfl)
  have hund : Undisturbed .noTty .little Timeval.tvSec fwriteNone fcloseNone
      (Recorder.start (fun _ => []) (0 : ℤ) (fun _ => none) ()) twoPipes := by
    refine ⟨?_, by decide⟩
    have hurg : ∀ e ∈ twoPipes, ¬ e.Urg := by simp [twoPipes, Event.Urg]
    rintro es₁ es₂ s' hes hs'
    exact (passesOn_of_noUrg htty _ _ _ _ (fun e he => hurg e (hes ▸ List.mem_append_left _ he))
      hs').unlocked
  have hpc : s.pc = .waiting := by
    have hwait : (exec (step .noTty .little Timeval.tvSec fwriteNone fcloseNone)
      (Recorder.start (fun _ => []) (0 : ℤ) (fun _ => none) ()) twoPipes).map (fun s => s.pc) =
        some .waiting := rfl
    simpa [hs] using hwait
  have hlive : s.pc.Live := by
    rw [hpc]
    trivial
  obtain ⟨hsent, hout, hrec, hbytes, hends⟩ :=
    h.1 fwriteNone fcloseNone (fun _ => none) () hs hund hlive
  have hnone : ∀ r ∈ ([] : List Record), r.Valid := fun r hr => absurd hr List.not_mem_nil
  exact ⟨s, t, hs, ht, hsent, hout, hrec, hbytes, hends hpc,
    (h.2 hnone).1 rfl ht hund (by decide)⟩

end TtyRec
