import TtyRec.Rotation
import TtyRec.Player

/-!
# Writes that fail

`dooutput` ignores what `write_header` and `fwrite_wrapper` return, so when a write to a
plain recording is cut short the next one follows at once.  That does no harm as long as
every piece has its place: a header at the end of a complete record, and a payload behind
its own header.  Then the file that a write was cut short in still decodes to all of the
records that were written in full, and to nothing else.  A piece that is written elsewhere
is taken for something it is not.

## Main definitions

* `InPlace` — a write that is out of place writes nothing.
* `wholeRecord` — the record whose header and payload were written in full.
* `Torn` — records, and the beginning of another one.
* `FaultInv` — the invariant.

## Main results

* `decodes_of_inPlace` — **what is decoded are the records that were written in full**,
  in order.
-/

namespace TtyRec

open Run

variable {N : Type*}

/-! ### What is asked of the writes -/

/-- The write before the next one has taken all the bytes of a header. -/
def Recorder.HeaderWhole (s : Recorder Unit N) : Prop :=
  s.fscript.takesAt (s.fscript.writes - 1) 12 = 12

instance (s : Recorder Unit N) : Decidable s.HeaderWhole :=
  inferInstanceAs (Decidable (_ = _))

/-- A header that does not follow a complete record is not written, not even in part,
and neither is a payload that does not follow its header. -/
def InPlace (s : Recorder Unit N) : Event → Prop
  | .header _ => leftover s.fscript.data = [] ∨ s.fscript.takes 12 = 0
  | .payload _ => s.HeaderWhole ∨ s.fscript.takes s.pc.pending.length = 0
  | _ => True

instance (s : Recorder Unit N) : DecidablePred (InPlace s)
  | .header _ | .payload _ => inferInstanceAs (Decidable (_ ∨ _))
  | .read _ _ | .selectFailed | .check _ | .write _ | .account | .usr1 _ _ _ | .urg | .usr2
  | .finish _ => .isTrue trivial

/-- The record that a statement completes, when its header was written in full and its
payload is. -/
def wholeRecord (s : Recorder Unit N) (e : Event) : List Record :=
  match e, s.pc with
  | .payload _, .payload c h =>
    if s.HeaderWhole ∧ s.fscript.takes c.bytes.length = c.bytes.length then [⟨h, c.bytes⟩] else []
  | _, _ => []

/-- The files of the session, in the order in which they were opened. -/
def Recorder.files {S : Type*} (s : Recorder S N) : List (List UInt8) :=
  s.closed.map s.disk ++ if s.pc.Live then [s.fscript.data] else []

/-! ### The invariant -/

/-- The file holds the records `rs`, and perhaps the beginning of another one. -/
def Torn (x : List UInt8) (rs : List Record) : Prop :=
  ∃ zs, x = rs.flatMap Record.encode ++ zs ∧ nextRecord zs = none

theorem Torn.records_eq {x : List UInt8} {rs : List Record} (h : Torn x rs)
    (hrs : ∀ r ∈ rs, r.Valid) : records x = rs := by
  obtain ⟨zs, rfl, hzs⟩ := h
  rw [records_flatMap_encode hrs, records_of_next_none hzs, List.append_nil]

/-- Playing the file gives the records `rs`, and stops at its end. -/
def Plays {S : Type*} (host : Host) (freadWrapper : FreadWrapper S) (z : S) (x : List UInt8)
    (rs : List Record) : Prop :=
  ∀ (waitFunc : Timeval → Timeval → List (List UInt8) → List (List UInt8)) (n : ℕ), rs.length < n →
    (ttyplayback host freadWrapper (fun _ => true) waitFunc n (InFile.ofBytes x, z)).records = rs ∧
      (ttyplayback host freadWrapper (fun _ => true) waitFunc n (InFile.ofBytes x, z)).stop = .eof

/-- A plain file of torn records. -/
theorem plays_torn (host : Host) {x : List UInt8} {rs : List Record} (h : Torn x rs)
    (hrs : ∀ r ∈ rs, r.Valid) : Plays host freadNone () x rs := by
  intro waitFunc n hn
  rw [← h.records_eq hrs] at hn ⊢
  exact ttyplayback_serves host serves_freadNone (InFile.at_ofBytes x) waitFunc hn

/-- A relation between two lists that holds because of what is in the second one. -/
theorem forall₂_imp_mem {α β : Type*} {R S : α → β → Prop} {xs : List α} {ys : List β}
    (h : List.Forall₂ R xs ys) (himp : ∀ x, ∀ y ∈ ys, R x y → S x y) : List.Forall₂ S xs ys := by
  induction h with
  | nil => exact .nil
  | cons hxy _ ih =>
    exact .cons (himp _ _ List.mem_cons_self hxy) (ih fun x y hy =>
      himp x y (List.mem_cons_of_mem _ hy))

/-- The record that is being written, between its header and the end of its payload. -/
def Pc.current : Pc → List Record
  | .payload c h => [⟨h, c.bytes⟩]
  | _ => []

theorem Pc.current_eq_nil {pc : Pc} (h : ¬ pc.InRecord) : pc.current = [] := by
  cases pc with
  | payload c h' => exact absurd trivial h
  | _ => rfl

/-- The invariant: `acc` are the records that were written in full, `segs` those of them
in the files that were closed, `last` those in the file that is written, and `zs` is what
follows them there. -/
structure FaultInv (rs₀ : List Record) (s : Recorder Unit N) (acc : List Record)
    (segs : List (List Record)) (last : List Record) (zs : List UInt8) : Prop where
  ok : s.pc.Ok
  valid : ∀ r ∈ rs₀ ++ acc, r.Valid
  all : segs.flatten ++ last = rs₀ ++ acc
  order : (acc ++ s.pc.current).Sublist s.recorded
  files : List.Forall₂ Torn (s.closed.map s.disk) segs
  script : s.pc.Live → s.fscript.data = last.flatMap Record.encode ++ zs ∧ nextRecord zs = none
  header : ∀ c h, s.pc = .payload c h → s.HeaderWhole → zs = headerBytes .little h
  ended : ¬ s.pc.Live → last = []
  fresh : s.pc.Live → s.name ∉ s.closed

section Invariant

variable [DecidableEq N] {cfg : Config} {host : Host} {fileName : Timeval → N}
  {s s' : Recorder Unit N} {e : Event} {rs₀ acc last : List Record} {segs : List (List Record)}
  {zs : List UInt8}

omit [DecidableEq N] in
/-- When the loop begins, every file holds whole records. -/
theorem faultInv_start {disk : N → List UInt8} {name : N} (hrs₀ : ∀ r ∈ rs₀, r.Valid)
    (hdisk : disk name = rs₀.flatMap Record.encode) (short : ℕ → Option ℕ) :
    FaultInv rs₀ (Recorder.start disk name short ()) [] [] rs₀ [] where
  ok := trivial
  valid := by simpa using hrs₀
  all := by simp
  order := List.nil_sublist _
  files := .nil
  script _ := ⟨by simp [Recorder.start, hdisk], rfl⟩
  header _ _ h := Pc.noConfusion h
  ended h := absurd trivial h
  fresh _ := List.not_mem_nil

omit [DecidableEq N] in
/-- A step that leaves the recording alone. -/
private theorem faultInv_quiet (h : FaultInv rs₀ s acc segs last zs) {c : Control N}
    (hq : Quiet s.toControl c) : FaultInv rs₀ { s with toControl := c } acc segs last zs where
  ok := hq.ok h.ok
  valid := h.valid
  all := h.all
  order := by
    have horder := h.order
    dsimp only
    rw [hq.recorded]
    rcases hq.pc with hpc | ⟨hs, hc⟩
    · rwa [hpc]
    · rw [Pc.current_eq_nil hc]
      rwa [Pc.current_eq_nil hs] at horder
  files := by
    dsimp only
    rw [hq.closed]
    exact h.files
  script _ := h.script hq.live.1
  header := by
    intro c' h' hpc'
    dsimp only at hpc'
    rcases hq.pc with hpc | ⟨-, hc⟩
    · exact h.header c' h' (hpc ▸ hpc')
    · rw [hpc'] at hc
      exact absurd trivial hc
  ended hl := absurd hq.live.2 hl
  fresh _ := by
    dsimp only
    rw [hq.closed, hq.name]
    exact h.fresh hq.live.1

/-- Closing the file.  It may end in a torn record, which stays at its end. -/
private theorem faultInv_closeScript (h : FaultInv rs₀ s acc segs last zs) (hlive : s.pc.Live) :
    List.Forall₂ Torn ((closeScript fcloseNone s).closed.map (closeScript fcloseNone s).disk)
      (segs ++ [last]) := by
  obtain ⟨hdata, hzs⟩ := h.script hlive
  rw [map_closeScript fcloseNone (h.fresh hlive)]
  exact List.rel_append h.files (.cons ⟨zs, hdata, hzs⟩ .nil)

/-- The beginning of a record is not a record. -/
private theorem nextRecord_take_encode {r : Record} (hr : r.Valid) {k : ℕ}
    (hk : k < 12 + r.payload.length) : nextRecord (r.encode.take k) = none := by
  refine nextRecord_of_prefix hr [] ?_ ?_
  · rw [List.append_nil]
    exact List.take_prefix _ _
  · rw [List.length_take]
    omega

/-- What `write_header` leaves in the file. -/
private theorem writeHeader_fwriteNone_short (host : Host) (h : Header) (now : ℕ → ℤ) (fp : OutFile)
    (u : Unit) : ∃ n, writeHeader host fwriteNone h now (fp, u) =
      .ret (n, ((fwrite (headerBytes .little h) fp).2, ())) := by
  simp only [writeHeader, fwriteNone, Outcome.ret_bind, headerBytes_host host, Outcome.pure_eq]
  split
  · exact ⟨0, rfl⟩
  · exact ⟨1, rfl⟩

omit [DecidableEq N] in
/-- The header of a record is written. -/
private theorem faultInv_header (h : FaultInv rs₀ s acc segs last zs) {c : Chunk} {hdr : Header}
    (hpc : s.pc = .header c hdr) (hok : leftover s.fscript.data = [] ∨ s.fscript.takes 12 = 0)
    (n : ℕ) :
    ∃ zs', FaultInv rs₀ (Recorder.afterCall { s with recorded := s.recorded ++ [⟨hdr, c.bytes⟩] }
      (.payload c hdr) (.ret (n, ((fwrite (headerBytes .little hdr) s.fscript).2, s.wrapper))))
      acc segs last zs' := by
  have hlive : s.pc.Live := by rw [hpc]; trivial
  have hrecOk : (Pc.payload c hdr).Ok := by
    have hs := h.ok
    rw [hpc] at hs
    exact hs
  have hr : (⟨hdr, c.bytes⟩ : Record).Valid := Record.valid_of_ok hrecOk
  obtain ⟨hdata, hzs⟩ := h.script hlive
  have hlen := length_headerBytes .little hdr
  have horder := h.order
  rw [Pc.current_eq_nil (by rw [hpc]; exact id), List.append_nil] at horder
  -- all but the bytes of the file
  have hinv : ∀ zs', s.fscript.data ++ (headerBytes .little hdr).take (s.fscript.takes 12) =
        last.flatMap Record.encode ++ zs' → nextRecord zs' = none →
      (s.fscript.takes 12 = 12 → zs' = headerBytes .little hdr) →
      FaultInv rs₀ (Recorder.afterCall { s with recorded := s.recorded ++ [⟨hdr, c.bytes⟩] }
        (.payload c hdr) (.ret (n, ((fwrite (headerBytes .little hdr) s.fscript).2, s.wrapper))))
        acc segs last zs' := by
    intro zs' hdata' hzs' hheader
    refine ⟨hrecOk, h.valid, h.all, horder.append_right _, h.files, fun _ => ⟨?_, hzs'⟩, ?_,
      fun hl => absurd trivial hl, fun _ => h.fresh hlive⟩
    · simp only [Recorder.afterCall, fwrite, hlen]
      exact hdata'
    · intro c' h' hpc' hwhole
      simp only [Recorder.afterCall, Pc.payload.injEq] at hpc'
      obtain ⟨rfl, rfl⟩ := hpc'
      exact hheader hwhole
  rcases hok with hleft | hnone
  · -- the header follows a complete record
    have hlast : ∀ r ∈ last, r.Valid := fun r hr =>
      h.valid r (h.all ▸ List.mem_append_right _ hr)
    rw [hdata, leftover_flatMap_encode hlast hzs] at hleft
    rw [hleft, List.append_nil] at hdata
    have htake : (headerBytes .little hdr).take (s.fscript.takes 12) =
        (⟨hdr, c.bytes⟩ : Record).encode.take (s.fscript.takes 12) := by
      rw [Record.encode, List.take_append_of_le_length]
      rw [hlen]
      exact s.fscript.takes_le 12
    refine ⟨(headerBytes .little hdr).take (s.fscript.takes 12), hinv _ (by rw [hdata]) ?_ ?_⟩
    · rw [htake]
      apply nextRecord_take_encode hr
      have hle := s.fscript.takes_le 12
      have hpos : 0 < c.bytes.length := List.length_pos_iff.mpr hrecOk.1
      simp only
      omega
    · intro hwhole
      rw [hwhole, List.take_of_length_le hlen.le]
  · -- nothing of it is written
    refine ⟨zs, hinv zs ?_ hzs ?_⟩
    · rw [hnone, List.take_zero, List.append_nil, hdata]
    · intro hwhole
      omega

omit [DecidableEq N] in
/-- The payload of a record is written. -/
private theorem faultInv_payload (h : FaultInv rs₀ s acc segs last zs) {c : Chunk} {hdr : Header}
    (hpc : s.pc = .payload c hdr)
    (hok : s.HeaderWhole ∨ s.fscript.takes c.bytes.length = 0) (n : ℕ) (now : ℕ → ℤ) :
    ∃ last' zs', FaultInv rs₀ (s.afterCall (.account c)
      (.ret (n, ((fwrite c.bytes s.fscript).2, s.wrapper)))) (acc ++ wholeRecord s (.payload now))
      segs last' zs' := by
  have hlive : s.pc.Live := by rw [hpc]; trivial
  have hrecOk : (Pc.payload c hdr).Ok := by
    have hs := h.ok
    rwa [hpc] at hs
  have hr : (⟨hdr, c.bytes⟩ : Record).Valid := Record.valid_of_ok hrecOk
  have hpos : 0 < c.bytes.length := List.length_pos_iff.mpr hrecOk.1
  obtain ⟨hdata, hzs⟩ := h.script hlive
  have horder := h.order
  rw [hpc, Pc.current] at horder
  have hwhole : wholeRecord s (.payload now) =
      if s.HeaderWhole ∧ s.fscript.takes c.bytes.length = c.bytes.length then [⟨hdr, c.bytes⟩]
      else [] := by
    simp only [wholeRecord, hpc]
  rw [hwhole]
  by_cases hall : s.HeaderWhole ∧ s.fscript.takes c.bytes.length = c.bytes.length
  · -- the record is complete
    rw [if_pos hall]
    have hz := h.header c hdr hpc hall.1
    refine ⟨last ++ [⟨hdr, c.bytes⟩], [], trivial, ?_, ?_, ?_, h.files, fun _ => ⟨?_, rfl⟩,
      (fun _ _ hpc' => Pc.noConfusion hpc'), fun hl => absurd trivial hl, fun _ => h.fresh hlive⟩
    · intro r hr'
      rw [← List.append_assoc, List.mem_append, List.mem_singleton] at hr'
      rcases hr' with hr' | rfl
      · exact h.valid r hr'
      · exact hr
    · rw [← List.append_assoc, h.all, List.append_assoc]
    · simpa [Recorder.afterCall, Pc.current] using horder
    · simp only [Recorder.afterCall, fwrite, hall.2, List.take_length, hdata, hz,
        List.flatMap_append, List.flatMap_cons, List.flatMap_nil, Record.encode, List.append_nil,
        List.append_assoc]
  · -- it is torn, or nothing of it is written
    rw [if_neg hall, List.append_nil]
    have hinv : ∀ zs', s.fscript.data ++ c.bytes.take (s.fscript.takes c.bytes.length) =
          last.flatMap Record.encode ++ zs' → nextRecord zs' = none →
        FaultInv rs₀ (s.afterCall (.account c)
          (.ret (n, ((fwrite c.bytes s.fscript).2, s.wrapper)))) acc segs last zs' := by
      intro zs' hdata' hzs'
      refine ⟨trivial, h.valid, h.all, ?_, h.files, fun _ => ⟨hdata', hzs'⟩,
        (fun _ _ hpc' => Pc.noConfusion hpc'), fun hl => absurd trivial hl, fun _ => h.fresh hlive⟩
      simp only [Recorder.afterCall, Pc.current, List.append_nil]
      exact (List.sublist_append_left _ _).trans horder
    by_cases hhead : s.HeaderWhole
    · have hz := h.header c hdr hpc hhead
      have hlt : s.fscript.takes c.bytes.length < c.bytes.length :=
        lt_of_le_of_ne (s.fscript.takes_le _) fun heq => hall ⟨hhead, heq⟩
      refine ⟨last, (⟨hdr, c.bytes⟩ : Record).encode.take
        (12 + s.fscript.takes c.bytes.length), hinv _ ?_ ?_⟩
      · rw [hdata, hz, Record.encode, List.append_assoc, ← length_headerBytes .little hdr,
          List.take_length_add_append]
      · exact nextRecord_take_encode hr (by simp only; omega)
    · have hnone : s.fscript.takes c.bytes.length = 0 := by
        rcases hok with hok | hok
        · exact absurd hok hhead
        · exact hok
      refine ⟨last, zs, hinv zs ?_ hzs⟩
      rw [hnone, List.take_zero, List.append_nil, hdata]

/-- **One event**, under the condition that a torn record is followed by nothing. -/
theorem faultInv_step (h : FaultInv rs₀ s acc segs last zs)
    (hok : RotatesBetween fileName s.toControl e ∧ InPlace s e)
    (hstep : step cfg host fileName fwriteNone fcloseNone s e = some s') :
    ∃ segs' last' zs', FaultInv rs₀ s' (acc ++ wholeRecord s e) segs' last' zs' := by
  rcases step_cases hstep with ⟨c, rfl, hq, he⟩ | ⟨c, hdr, now, rfl, hpc, rfl⟩ |
    ⟨c, hdr, now, rfl, hpc, rfl⟩ | ⟨now, named, opens, rfl, hlive, hrot, rfl⟩ |
    ⟨status, rfl, hpc, rfl⟩
  · have hnone : wholeRecord s e = [] := by
      cases e with
      | payload now => exact absurd trivial he
      | _ => rfl
    rw [hnone, List.append_nil]
    exact ⟨segs, last, zs, faultInv_quiet h hq⟩
  · obtain ⟨n, hcall⟩ := writeHeader_fwriteNone_short host hdr now s.fscript s.wrapper
    rw [hcall]
    obtain ⟨zs', h'⟩ := faultInv_header h hpc hok.2 n
    refine ⟨segs, last, zs', ?_⟩
    simpa [wholeRecord] using h'
  · have hplace := hok.2
    rw [InPlace, hpc, Pc.pending] at hplace
    obtain ⟨last', zs', h'⟩ := faultInv_payload h hpc hplace _ now
    exact ⟨segs, last', zs', h'⟩
  · -- a rotation
    obtain ⟨hrec, hname⟩ := hok.1 hrot
    have hmid : FaultInv rs₀ { s with lastRotate := now } acc segs last zs :=
      ⟨h.ok, h.valid, h.all, h.order, h.files, h.script, h.header, h.ended, h.fresh⟩
    have hfiles := faultInv_closeScript hmid hlive
    have hall : (segs ++ [last]).flatten ++ [] = rs₀ ++ acc := by simp [h.all]
    have horder := h.order
    rw [Pc.current_eq_nil hrec, List.append_nil] at horder
    refine ⟨segs ++ [last], [], [], ?_⟩
    simp only [wholeRecord, List.append_nil]
    cases opens with
    | false =>
      refine ⟨trivial, h.valid, hall, ?_, hfiles, fun hl => hl.elim,
        (fun _ _ hpc' => Pc.noConfusion hpc'), fun _ => rfl, fun hl => hl.elim⟩
      simpa [closeScript, Pc.current] using horder
    | true =>
      have hfresh : fileName named ∉ s.closed ++ [s.name] := hname rfl
      refine ⟨h.ok, h.valid, hall, h.order, ?_, fun _ => ⟨rfl, rfl⟩, ?_, fun _ => rfl,
        fun _ => hfresh⟩
      · have hfresh' : fileName named ∉ (closeScript fcloseNone { s with lastRotate := now }).closed :=
          hfresh
        rw [← map_openScript hfresh'] at hfiles
        exact hfiles
      · intro c' h' hpc'
        simp only [if_true, openScript, closeScript] at hpc'
        rw [hpc'] at hrec
        exact absurd trivial hrec
  · -- the end of the process
    have hpc' : (unlockScreen s.toControl).pc = s.pc := unlockScreen_pc s.toControl
    have hmid := faultInv_quiet h (quiet_unlockScreen (by rw [hpc]; trivial))
    have hlive : (unlockScreen s.toControl).pc.Live := by rw [hpc', hpc]; trivial
    have hfiles := faultInv_closeScript hmid hlive
    have horder := hmid.order
    dsimp only at horder
    rw [Pc.current_eq_nil (by rw [hpc', hpc]; exact id), List.append_nil] at horder
    refine ⟨segs ++ [last], [], [], ?_⟩
    simp only [wholeRecord, List.append_nil]
    refine ⟨trivial, hmid.valid, by simp [h.all], ?_, hfiles, fun hl => hl.elim,
      (fun _ _ hpc' => Pc.noConfusion hpc'), fun _ => rfl, fun hl => hl.elim⟩
    simpa [closeScript, Pc.current] using horder

/-- **What is decoded are the records that were written in full**, in order: in every
run, whatever the writes take, as long as a write that is out of place writes nothing
(and rotations are between records, to new names). -/
theorem decodes_of_inPlace (disk : N → List UInt8) (name : N) (hrs₀ : ∀ r ∈ rs₀, r.Valid)
    (hdisk : disk name = rs₀.flatMap Record.encode) (short : ℕ → Option ℕ) {es : List Event}
    {t : Recorder Unit N}
    (hrun : exec (step cfg host fileName fwriteNone fcloseNone)
      (Recorder.start disk name short ()) es = some t)
    (hok : Along (step cfg host fileName fwriteNone fcloseNone)
      (fun s e => RotatesBetween fileName s.toControl e ∧ InPlace s e)
      (Recorder.start disk name short ()) es) :
    ∃ segs, List.Forall₂ Torn t.files segs ∧ (∀ r ∈ segs.flatten, r.Valid) ∧
      segs.flatten = rs₀ ++ collect (step cfg host fileName fwriteNone fcloseNone) wholeRecord
        (Recorder.start disk name short ()) es ∧
      (collect (step cfg host fileName fwriteNone fcloseNone) wholeRecord
        (Recorder.start disk name short ()) es).Sublist t.recorded := by
  have hstep : ∀ (s : Recorder Unit N) acc (e : Event) (s' : Recorder Unit N),
      (∃ segs last zs, FaultInv rs₀ s acc segs last zs) →
      RotatesBetween fileName s.toControl e ∧ InPlace s e →
      step cfg host fileName fwriteNone fcloseNone s e = some s' →
      ∃ segs last zs, FaultInv rs₀ s' (acc ++ wholeRecord s e) segs last zs := by
    rintro s acc e s' ⟨segs, last, zs, h⟩ he hs
    exact faultInv_step h he hs
  have hstart := faultInv_start hrs₀ hdisk short
  obtain ⟨segs, last, zs, h⟩ := exec_invariant_collect hstep hok hrun ⟨[], rs₀, [], hstart⟩
  rw [List.nil_append] at h
  have horder := (List.sublist_append_left _ _).trans h.order
  unfold Recorder.files
  by_cases hlive : t.pc.Live
  · -- the file that is still written comes last
    rw [if_pos hlive]
    have hall : (segs ++ [last]).flatten = segs.flatten ++ last := by simp
    refine ⟨segs ++ [last], List.rel_append h.files (.cons ⟨zs, h.script hlive⟩ .nil), ?_, ?_, horder⟩
    · rw [hall, h.all]
      exact h.valid
    · rw [hall, h.all]
  · rw [if_neg hlive, List.append_nil]
    have hall := h.all
    rw [h.ended hlive, List.append_nil] at hall
    refine ⟨segs, h.files, ?_, hall, horder⟩
    rw [hall]
    exact h.valid

end Invariant

/-- Two chunks, in a terminal; during the header of the first one 20 seconds go by. -/
def runTwoChunks (bs₁ bs₂ : List UInt8) : List Event :=
  [.read .stdout (.data bs₁), .check (.ofSec 1000), .write (.sent 1),
    .header fun n => 1000 + 20 * n, .payload fun _ => 1020, .account,
    .read .stdout (.data bs₂), .check (.ofSec 1021), .write (.sent 1),
    .header fun _ => 1021, .payload fun _ => 1021, .account, .read .stdout .eof, .finish 0]

/-- A header that announces 14 bytes, and the record that is taken for them. -/
def swallowing : Record := ⟨⟨⟨1000, 0⟩, 14⟩, [253, 3, 0, 0, 0, 0, 0, 0, 2, 0, 0, 0, 65, 66]⟩

end TtyRec
