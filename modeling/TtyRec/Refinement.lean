import TtyRec.Recorder
import TtyRec.Zstd.Write

/-!
# The recording does not depend on the wrappers

A recorder that writes through any wrappers does, event by event, what the recorder
does that writes plainly, and its files hold what the plain files hold, in the form
of the wrappers: for zstd, complete frames with the same plaintext.  So what is
proved of the plain recorder is proved of all of them.

## Main definitions

* `Refines` — the plain recorder that a recorder refines.

## Main results

* `refines_step` — one event.
* `refines_exec`, `refines_lift` — **a recorder and the plain recorder have the same
  runs.**
-/

namespace TtyRec

open Run StreamCodec

variable {S N : Type*} {limit : ℕ} {fwriteWrapper : FwriteWrapper S}
  {fcloseWrapper : FcloseWrapper S} {Idle : S → Prop}
  {Rep : OutFile × S → List UInt8 → List UInt8 → Prop} {Closed : List UInt8 → List UInt8 → Prop}

/-- A header that is written through wrappers that keep what they are given. -/
theorem Keeps.writeHeader (hk : Keeps limit fwriteWrapper fcloseWrapper Idle Rep Closed)
    (hlimit : bufsiz ≤ limit) (host : Host) (h : Header) (now : ℕ → ℤ) {st : OutFile × S}
    {base p : List UInt8} (hrep : Rep st base p) (hc : st.1.Complete) :
    ∃ n st', writeHeader host fwriteWrapper h now st = .ret (n, st') ∧
      Rep st' base (p ++ headerBytes .little h) ∧ st'.1.Complete := by
  have hlen : (headerBytes host h).length ≤ limit := by
    rw [length_headerBytes]
    exact le_trans (by decide) hlimit
  obtain ⟨n, st', hcall, hrep', hc'⟩ := hk.write 4 (headerBytes host h) now hlen hrep hc
  rw [headerBytes_host] at hrep'
  unfold TtyRec.writeHeader
  rw [hcall]
  simp only [Outcome.ret_bind]
  by_cases hn : n = 0
  · rw [if_pos hn]
    exact ⟨0, st', rfl, hrep', hc'⟩
  · rw [if_neg hn]
    exact ⟨1, st', rfl, hrep', hc'⟩

/-- A form that files can have: the empty file holds nothing, and a file that is written on holds
more.  Plain files and concatenations of frames are of this kind. -/
structure Appends (Closed : List UInt8 → List UInt8 → Prop) : Prop where
  nil : Closed [] []
  append : ∀ {x y p q}, Closed x p → Closed y q → Closed (x ++ y) (p ++ q)

theorem appends_concat {Frame : List UInt8 → List UInt8 → Prop} : Appends (Concat Frame) :=
  ⟨.nil, Concat.append⟩

/-- The recorder `t` is where the plain recorder `s` is, and its files hold what
those of `s` hold: those that were closed, and the others in `K`. -/
structure Refines (Rep : OutFile × S → List UInt8 → List UInt8 → Prop)
    (Closed : List UInt8 → List UInt8 → Prop) (K : Set N) (s : Recorder Unit N) (t : Recorder S N) : Prop where
  control : t.toControl = s.toControl
  ok : s.pc.Ok
  disk : ∀ n, n ∈ K ∨ n ∈ s.closed → Closed (t.disk n) (s.disk n)
  complete : s.fscript.Complete ∧ t.fscript.Complete
  script : s.pc.Live → ∃ base base' p, Closed base base' ∧ s.fscript.data = base' ++ p ∧
    Rep (t.fscript, t.wrapper) base p

/-- When the loops begin. -/
theorem refines_start (hk : Keeps limit fwriteWrapper fcloseWrapper Idle Rep Closed)
    {disk disk' : N → List UInt8} {K : Set N} (hdisk : ∀ n ∈ K, Closed (disk' n) (disk n)) {name : N}
    (hname : Closed (disk' name) (disk name)) {z : S} (hz : Idle z) :
    Refines Rep Closed K (Recorder.start disk name (fun _ => none) ())
      (Recorder.start disk' name (fun _ => none) z) where
  control := rfl
  ok := trivial
  disk := by
    rintro n (hn | hn)
    · exact hdisk n hn
    · exact absurd hn List.not_mem_nil
  complete := ⟨fun _ => rfl, fun _ => rfl⟩
  script _ := ⟨disk' name, disk name, [], hname, (List.append_nil _).symm, hk.opened _ hz⟩

section Step

variable [DecidableEq N] {cfg : Config} {host : Host} {fileName : Timeval → N}
  {s s' : Recorder Unit N} {t t' : Recorder S N} {e : Event} {K : Set N}

omit [DecidableEq N] in
/-- A step that leaves the recording alone. -/
private theorem refines_quiet (h : Refines Rep Closed K s t) {c : Control N}
    (hq : Quiet s.toControl c) :
    Refines Rep Closed K { s with toControl := c } { t with toControl := c } where
  control := rfl
  ok := hq.ok h.ok
  disk := by
    intro n hn
    dsimp only at hn ⊢
    rw [hq.closed] at hn
    exact h.disk n hn
  complete := h.complete
  script _ := h.script hq.live.1

/-- Closing the file. -/
private theorem refines_closeScript (hk : Keeps limit fwriteWrapper fcloseWrapper Idle Rep Closed)
    (ha : Appends Closed) (h : Refines Rep Closed K s t) (hlive : s.pc.Live) :
    (closeScript fcloseWrapper t).toControl = (closeScript fcloseNone s).toControl ∧
      (∀ n, n ∈ K ∨ n ∈ (closeScript fcloseNone s).closed →
        Closed ((closeScript fcloseWrapper t).disk n) ((closeScript fcloseNone s).disk n)) ∧
      Idle (closeScript fcloseWrapper t).wrapper ∧
      (closeScript fcloseWrapper t).fscript.Complete := by
  obtain ⟨base, base', p, hbase, hdata, hrep⟩ := h.script hlive
  obtain ⟨x, hx, hclosed, hidle, hc⟩ := hk.close hrep h.complete.2
  have hctl := h.control
  refine ⟨?_, ?_, hidle, hc⟩
  · simp only [closeScript, hctl]
  · intro n hn
    simp only [closeScript, hctl, fcloseNone, id] at hn ⊢
    rcases eq_or_ne n s.name with rfl | hne
    · rw [Function.update_self, Function.update_self, hx, hdata]
      exact ha.append hbase hclosed
    · rw [Function.update_of_ne hne, Function.update_of_ne hne]
      refine h.disk n (hn.imp_right ?_)
      intro hn
      simpa [hne] using hn

/-- Opening the next one. -/
private theorem refines_openScript (hk : Keeps limit fwriteWrapper fcloseWrapper Idle Rep Closed)
    (ha : Appends Closed) (name : N) (hctl : t.toControl = s.toControl) (hok : s.pc.Ok)
    (hdisk : ∀ n, n ∈ K ∨ n ∈ s.closed → Closed (t.disk n) (s.disk n)) (hidle : Idle t.wrapper)
    (hs : s.fscript.Complete) (ht : t.fscript.Complete) :
    Refines Rep Closed K (openScript name s) (openScript name t) where
  control := by simp only [openScript, hctl]
  ok := hok
  disk := by
    intro n hn
    simp only [openScript] at hn ⊢
    rcases eq_or_ne n name with rfl | hne
    · rw [Function.update_self, Function.update_self]
      exact ha.nil
    · rw [Function.update_of_ne hne, Function.update_of_ne hne]
      exact hdisk n hn
  complete := ⟨hs, ht⟩
  script _ := by
    have hrep := hk.opened { t.fscript with data := [], error := false } hidle
    exact ⟨[], [], [], ha.nil, rfl, hrep⟩

omit [DecidableEq N] in
/-- Going on with what the two calls have written. -/
private theorem refines_afterCall (hctl : t.toControl = s.toControl) {pc : Pc} (hpc : pc.Ok)
    (hdisk : ∀ n, n ∈ K ∨ n ∈ s.closed → Closed (t.disk n) (s.disk n)) {base base' p : List UInt8}
    (hbase : Closed base base') {α : Type} {n m : α} {st : OutFile × Unit} {st' : OutFile × S}
    (hdata : st.1.data = base' ++ p) (hst : st.1.Complete) (hrep : Rep st' base p)
    (hst' : st'.1.Complete) :
    Refines Rep Closed K (s.afterCall pc (.ret (n, st))) (t.afterCall pc (.ret (m, st'))) where
  control := by simp only [Recorder.afterCall, hctl]
  ok := hpc
  disk := hdisk
  complete := ⟨hst, hst'⟩
  script _ := ⟨base, base', p, hbase, hdata, hrep⟩

/-- `write_header` in `dooutput`.  Whatever the wrapper makes of the header stands for the same
bytes, and the plain recorder has written them. -/
private theorem refines_header (hk : Keeps limit fwriteWrapper fcloseWrapper Idle Rep Closed)
    (hlimit : bufsiz ≤ limit) (h : Refines Rep Closed K s t) {now : ℕ → ℤ}
    (hstep : step cfg host fileName fwriteWrapper fcloseWrapper t (.header now) = some t') :
    ∃ s', step cfg host fileName fwriteNone fcloseNone s (.header now) = some s' ∧
      Refines Rep Closed K s' t' := by
  have hctl := h.control
  unfold step at hstep ⊢
  dsimp only at hstep ⊢
  rw [hctl] at hstep
  cases hpc : s.pc with
  | header c hdr =>
    rw [hpc] at hstep
    have hok : (Pc.payload c hdr).Ok := by
      have hs := h.ok
      rw [hpc] at hs
      exact hs
    obtain ⟨base, base', p, hbase, hdata, hrep⟩ := h.script (by rw [hpc]; trivial)
    obtain ⟨n, st, hcall, hrep', hst⟩ := hk.writeHeader hlimit host hdr now hrep h.complete.2
    dsimp only at hstep ⊢
    rw [hcall, Option.some.injEq] at hstep
    refine ⟨_, rfl, ?_⟩
    rw [← hstep, writeHeader_fwriteNone host hdr now h.complete.1]
    -- the record counts as recorded from its header on
    let c' : Control N :=
      { s.toControl with pc := .header c hdr, recorded := s.recorded ++ [⟨hdr, c.bytes⟩] }
    exact refines_afterCall (s := { s with toControl := c' }) (t := { t with toControl := c' })
      rfl hok h.disk hbase (by rw [hdata, List.append_assoc]) h.complete.1 hrep' hst
  | _ => rw [hpc] at hstep; cases hstep

/-- The call of `fwrite_wrapper` for the payload.  It fits into what the wrapper can take in one
call, because `read` has filled no more than its buffer. -/
private theorem refines_payload (hk : Keeps limit fwriteWrapper fcloseWrapper Idle Rep Closed)
    (hlimit : bufsiz ≤ limit) (h : Refines Rep Closed K s t) {now : ℕ → ℤ}
    (hstep : step cfg host fileName fwriteWrapper fcloseWrapper t (.payload now) = some t') :
    ∃ s', step cfg host fileName fwriteNone fcloseNone s (.payload now) = some s' ∧
      Refines Rep Closed K s' t' := by
  have hctl := h.control
  unfold step at hstep ⊢
  dsimp only at hstep ⊢
  rw [hctl] at hstep
  cases hpc : s.pc with
  | payload c hdr =>
    rw [hpc] at hstep
    have hok := h.ok
    rw [hpc] at hok
    obtain ⟨base, base', p, hbase, hdata, hrep⟩ := h.script (by rw [hpc]; trivial)
    have hlen : c.bytes.length ≤ limit := hok.2.1.trans hlimit
    obtain ⟨n, st, hcall, hrep', hst⟩ := hk.write 1 c.bytes now hlen hrep h.complete.2
    dsimp only at hstep ⊢
    rw [hcall, Option.some.injEq] at hstep
    refine ⟨_, rfl, ?_⟩
    have hacc : (Pc.account c).Ok := trivial
    rw [← hstep, fwriteNone, fwrite_of_complete h.complete.1]
    exact refines_afterCall hctl hacc h.disk hbase (by rw [hdata, List.append_assoc]) h.complete.1
      hrep' hst
  | _ => rw [hpc] at hstep; cases hstep

/-- `swing_output_file`.  Both recorders look at the same clock, so they rotate together; then the
one file is closed, and the next is opened or the recorder ends. -/
private theorem refines_usr1 (hk : Keeps limit fwriteWrapper fcloseWrapper Idle Rep Closed)
    (ha : Appends Closed) (h : Refines Rep Closed K s t) {now named : Timeval} {opens : Bool}
    (hstep : step cfg host fileName fwriteWrapper fcloseWrapper t (.usr1 now named opens) =
      some t') :
    ∃ s', step cfg host fileName fwriteNone fcloseNone s (.usr1 now named opens) = some s' ∧
      Refines Rep Closed K s' t' := by
  have hctl := h.control
  unfold step at hstep ⊢
  dsimp only at hstep ⊢
  rw [hctl] at hstep
  split at hstep
  next hlive =>
    rw [if_pos hlive]
    refine ⟨_, rfl, ?_⟩
    rw [← Option.some.inj hstep]
    unfold swingOutputFile
    rw [hctl]
    by_cases hrot : s.Rotates now
    · rw [if_pos hrot, if_pos hrot]
      -- the recorders in the middle of the handler
      have hmid : Refines Rep Closed K { s with lastRotate := now }
          { t with toControl := { s.toControl with lastRotate := now } } :=
        ⟨rfl, h.ok, h.disk, h.complete, h.script⟩
      obtain ⟨hc, hd, hidle, hcomp⟩ := refines_closeScript hk ha hmid hlive
      cases opens with
      | true => exact refines_openScript hk ha _ hc h.ok hd hidle h.complete.1 hcomp
      | false =>
        refine ⟨?_, trivial, hd, ⟨h.complete.1, hcomp⟩, fun hl => hl.elim⟩
        simp only [Bool.false_eq_true, if_false, hc]
    · rw [if_neg hrot, if_neg hrot]
      exact h
  · cases hstep

/-- `done`, which closes the last file. -/
private theorem refines_finish (hk : Keeps limit fwriteWrapper fcloseWrapper Idle Rep Closed)
    (ha : Appends Closed) (h : Refines Rep Closed K s t) {status : ℕ}
    (hstep : step cfg host fileName fwriteWrapper fcloseWrapper t (.finish status) = some t') :
    ∃ s', step cfg host fileName fwriteNone fcloseNone s (.finish status) = some s' ∧
      Refines Rep Closed K s' t' := by
  have hctl := h.control
  unfold step at hstep ⊢
  dsimp only at hstep ⊢
  rw [hctl] at hstep
  cases hpc : s.pc with
  | waiting =>
    rw [hpc] at hstep
    have hlive : s.pc.Live := by rw [hpc]; trivial
    -- a locked screen is given back first
    have hmid := refines_quiet h (quiet_unlockScreen hlive)
    have hlive' : (unlockScreen s.toControl).pc.Live := by rw [unlockScreen_pc]; exact hlive
    obtain ⟨hc, hd, hidle, hcomp⟩ := refines_closeScript hk ha hmid hlive'
    dsimp only at hstep ⊢
    refine ⟨_, rfl, ?_⟩
    rw [← Option.some.inj hstep]
    refine ⟨?_, trivial, hd, ⟨h.complete.1, hcomp⟩, fun hl => hl.elim⟩
    simp only [hc]
  | _ => rw [hpc] at hstep; cases hstep

/-- **One event.**  The plain recorder follows, and the relation between the two is kept: an event
that uses the recording is followed through the wrapper, and any other one is in the control state,
which the two share. -/
theorem refines_step (hk : Keeps limit fwriteWrapper fcloseWrapper Idle Rep Closed)
    (hlimit : bufsiz ≤ limit) (ha : Appends Closed) (h : Refines Rep Closed K s t)
    (hstep : step cfg host fileName fwriteWrapper fcloseWrapper t e = some t') :
    ∃ s', step cfg host fileName fwriteNone fcloseNone s e = some s' ∧
      Refines Rep Closed K s' t' := by
  have hctl := h.control
  -- an event that does not use the recording
  have hquiet : (stepControl cfg t.toControl e).map (fun c => { t with toControl := c }) =
      some t' → ∃ s', (stepControl cfg s.toControl e).map
        (fun c => { s with toControl := c }) = some s' ∧ Refines Rep Closed K s' t' := by
    intro hmap
    obtain ⟨c, hc, rfl⟩ := Option.map_eq_some_iff.mp hmap
    rw [hctl] at hc
    exact ⟨{ s with toControl := c }, by rw [hc]; rfl, refines_quiet h (quiet_of_stepControl hc)⟩
  cases e with
  | header now => exact refines_header hk hlimit h hstep
  | payload now => exact refines_payload hk hlimit h hstep
  | usr1 now named opens => exact refines_usr1 hk ha h hstep
  | finish status => exact refines_finish hk ha h hstep
  | read fd r => exact hquiet hstep
  | selectFailed => exact hquiet hstep
  | check now => exact hquiet hstep
  | write r => exact hquiet hstep
  | account => exact hquiet hstep
  | urg => exact hquiet hstep
  | usr2 => exact hquiet hstep

/-- **Every run of a recorder is a run of the plain recorder**, with every condition
on its steps that looks at the control state only. -/
theorem refines_exec (hk : Keeps limit fwriteWrapper fcloseWrapper Idle Rep Closed)
    (hlimit : bufsiz ≤ limit) (ha : Appends Closed) (ok : Control N → Event → Prop)
    {es : List Event} (h : Refines Rep Closed K s t)
    (hrun : exec (step cfg host fileName fwriteWrapper fcloseWrapper) t es = some t')
    (hok : Along (step cfg host fileName fwriteWrapper fcloseWrapper)
      (fun t e => ok t.toControl e) t es) :
    ∃ s', exec (step cfg host fileName fwriteNone fcloseNone) s es = some s' ∧
      Refines Rep Closed K s' t' ∧
      Along (step cfg host fileName fwriteNone fcloseNone) (fun s e => ok s.toControl e) s es := by
  have hsim : ∀ (s : Recorder Unit N) (t : Recorder S N) (e : Event) (t' : Recorder S N),
      Refines Rep Closed K s t → step cfg host fileName fwriteWrapper fcloseWrapper t e = some t' →
      ∃ s', step cfg host fileName fwriteNone fcloseNone s e = some s' ∧ Refines Rep Closed K s' t' :=
    fun _ _ _ _ hR hstep => refines_step hk hlimit ha hR hstep
  refine exec_simulation_along hsim ?_ h hrun hok
  intro s t e hR hte
  exact hR.control ▸ hte

/-- Whether an event can happen does not depend on the wrappers, but on the control state alone. -/
private theorem step_enabled (hctl : t.toControl = s.toControl)
    (hs : step cfg host fileName fwriteNone fcloseNone s e = some s') :
    ∃ t', step cfg host fileName fwriteWrapper fcloseWrapper t e = some t' := by
  -- the steps that leave the recording alone
  have hquiet : (stepControl cfg s.toControl e).map (fun c => { s with toControl := c }) =
      some s' → ∃ t', (stepControl cfg t.toControl e).map
        (fun c => { t with toControl := c }) = some t' := by
    intro hmap
    obtain ⟨c, hc, -⟩ := Option.map_eq_some_iff.mp hmap
    exact ⟨{ t with toControl := c }, by rw [hctl, hc]; rfl⟩
  cases e with
  | header now =>
    unfold step at hs ⊢
    dsimp only at hs ⊢
    rw [hctl]
    cases hpc : s.pc with
    | header c h => exact ⟨_, rfl⟩
    | _ => rw [hpc] at hs; cases hs
  | payload now =>
    unfold step at hs ⊢
    dsimp only at hs ⊢
    rw [hctl]
    cases hpc : s.pc with
    | payload c h => exact ⟨_, rfl⟩
    | _ => rw [hpc] at hs; cases hs
  | usr1 now named opens =>
    unfold step at hs ⊢
    dsimp only at hs ⊢
    rw [hctl]
    split at hs
    next hlive => exact ⟨_, if_pos hlive⟩
    · cases hs
  | finish status =>
    unfold step at hs ⊢
    dsimp only at hs ⊢
    rw [hctl]
    cases hpc : s.pc with
    | waiting => exact ⟨_, rfl⟩
    | _ => rw [hpc] at hs; cases hs
  | read fd r => exact hquiet hs
  | selectFailed => exact hquiet hs
  | check now => exact hquiet hs
  | write r => exact hquiet hs
  | account => exact hquiet hs
  | urg => exact hquiet hs
  | usr2 => exact hquiet hs

/-- **Every run of the plain recorder is a run of the recorder with other wrappers.** -/
theorem refines_lift (hk : Keeps limit fwriteWrapper fcloseWrapper Idle Rep Closed)
    (hlimit : bufsiz ≤ limit) (ha : Appends Closed) {es : List Event}
    (h : Refines Rep Closed K s t)
    (hrun : exec (step cfg host fileName fwriteNone fcloseNone) s es = some s') :
    ∃ t', exec (step cfg host fileName fwriteWrapper fcloseWrapper) t es = some t' ∧
      Refines Rep Closed K s' t' := by
  have hsim : ∀ (s : Recorder Unit N) (t : Recorder S N) (e : Event) (t' : Recorder S N),
      Refines Rep Closed K s t → step cfg host fileName fwriteWrapper fcloseWrapper t e = some t' →
      ∃ s', step cfg host fileName fwriteNone fcloseNone s e = some s' ∧ Refines Rep Closed K s' t' :=
    fun _ _ _ _ hR hstep => refines_step hk hlimit ha hR hstep
  exact exec_simulation_lift hsim (fun _ _ _ _ hR hs => step_enabled hR.control hs) h hrun

end Step

end TtyRec
