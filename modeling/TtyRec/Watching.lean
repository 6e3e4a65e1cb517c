import TtyRec.Recovery
import TtyRec.Reopening

/-!
# Watching a session that is being recorded

`ttyplay -p` reads the file that the recording process writes, while it is written.  The reads of
the one fall between the statements of the other in any way, and a read may see the beginning of a
record only.

## Main definitions

* `Recorder.fileAt` — what a file holds at a moment.
* `Grown` — what the files are like later.

## Main results

* `grown_exec` — **files only grow**, as long as a rotation opens a new one.
* `watched` — **what the watcher writes has been shown in the session, without a gap**, and it
  begins one chunk after what had been shown when the watcher came, or later.
-/

namespace TtyRec

open Run

variable {N : Type*} [DecidableEq N]

/-- What a file of the session holds: one that was closed, or the one that is written. -/
def Recorder.fileAt (s : Recorder Unit N) (n : N) : List UInt8 :=
  if n ∈ s.closed then s.disk n else s.fscript.data

/-- What the session has shown in a terminal, on top of an old recording. -/
def Control.shown (rs₀ : List Record) (s : Control N) : List UInt8 :=
  rs₀.flatMap Record.payload ++ outputOf .stdout s.sent

/-- The files of `s` at a later time: those that were closed are the same, and the others only
longer. -/
structure Grown (s t : Recorder Unit N) : Prop where
  closed : t.closed = s.closed ∧ t.name = s.name ∧ (s.pc.Live → t.pc.Live) ∨
    s.closed ++ [s.name] <+: t.closed
  kept : ∀ n ∈ s.closed, t.disk n = s.disk n
  file : ∀ n ∈ s.closed ++ [s.name], s.fileAt n <+: t.fileAt n

section Grown

variable {cfg : Config} {host : Host} {fileName : Timeval → N} {s t u : Recorder Unit N} {e : Event}
  {rs₀ last : List Record} {segs : List (List Record)}

theorem Grown.refl (s : Recorder Unit N) : Grown s s where
  closed := .inl ⟨rfl, rfl, id⟩
  kept _ _ := rfl
  file _ _ := List.prefix_rfl

/-- The files of the session stay its files. -/
theorem Grown.mem (h : Grown s t) {n : N} (hn : n ∈ s.closed ++ [s.name]) :
    n ∈ t.closed ++ [t.name] := by
  rcases h.closed with ⟨hclosed, hname, -⟩ | hclosed
  · rwa [hclosed, hname]
  · exact List.mem_append_left _ (hclosed.subset hn)

theorem Grown.closed_le (h : Grown s t) : s.closed <+: t.closed := by
  rcases h.closed with ⟨hclosed, -⟩ | hclosed
  · rw [hclosed]
  · exact (List.prefix_append _ _).trans hclosed

theorem Grown.trans (h : Grown s t) (h' : Grown t u) : Grown s u where
  closed := by
    rcases h.closed with ⟨hclosed, hname, hlive⟩ | hclosed
    · have hnext := h'.closed
      rw [hclosed, hname] at hnext
      exact hnext.imp_left fun ⟨hclosed', hname', hlive'⟩ => ⟨hclosed', hname', hlive' ∘ hlive⟩
    · exact .inr (hclosed.trans h'.closed_le)
  kept n hn := (h'.kept n (h.closed_le.subset hn)).trans (h.kept n hn)
  file n hn := (h.file n hn).trans (h'.file n (h.mem hn))

/-- A step that closes nothing writes at the end of the recording. -/
theorem script_prefix (hcomplete : s.fscript.Complete)
    (hstep : step cfg host fileName fwriteNone fcloseNone s e = some t) (hcloses : ¬ s.Closes e) :
    s.fscript.data <+: t.fscript.data ∧ t.pc.Live := by
  rcases step_cases hstep with ⟨c, rfl, hq, -⟩ | ⟨c, hdr, now, rfl, hpc, rfl⟩ |
    ⟨c, hdr, now, rfl, hpc, rfl⟩ | ⟨now, named, opens, rfl, -, hrot, -⟩ | ⟨status, rfl, -, -⟩
  · exact ⟨List.prefix_rfl, hq.live.2⟩
  · rw [writeHeader_fwriteNone host hdr now hcomplete]
    exact ⟨List.prefix_append _ _, trivial⟩
  · simp only [Recorder.afterCall, fwriteNone, fwrite_of_complete hcomplete]
    exact ⟨List.prefix_append _ _, trivial⟩
  · exact absurd hrot hcloses
  · exact absurd trivial hcloses

/-- The file that is closed keeps what it holds, and the others do. -/
theorem grown_of_closed (hfresh : s.name ∉ s.closed) (hclosed : t.closed = s.closed ++ [s.name])
    (hdisk : ∀ n ∈ s.closed ++ [s.name],
      t.disk n = Function.update s.disk s.name s.fscript.data n) : Grown s t := by
  have hkept : ∀ n ∈ s.closed, t.disk n = s.disk n := by
    intro n hn
    rw [hdisk n (List.mem_append_left _ hn), Function.update_of_ne]
    rintro rfl
    exact hfresh hn
  refine ⟨.inr (hclosed ▸ List.prefix_rfl), hkept, ?_⟩
  intro n hn
  have ht : t.fileAt n = t.disk n := if_pos (hclosed ▸ hn)
  rw [ht]
  by_cases hmem : n ∈ s.closed
  · rw [Recorder.fileAt, if_pos hmem, hkept n hmem]
  · rw [Recorder.fileAt, if_neg hmem, hdisk n hn]
    rcases List.mem_append.mp hn with hn | hn
    · exact absurd hn hmem
    · rw [List.mem_singleton.mp hn, Function.update_self]

/-- **One step**, when a rotation opens a new file: the one that is closed keeps its bytes from then
on. -/
theorem grown_step (h : RecordInv rs₀ s segs last) (hok : RotatesBetween fileName s.toControl e)
    (hstep : step cfg host fileName fwriteNone fcloseNone s e = some t) : Grown s t := by
  obtain ⟨hlive, ⟨hnot, -, hclosed, hname, hdisk⟩ | ⟨named, hopened, hswings⟩ | ⟨-, hends⟩⟩ :=
    step_files hstep
  · -- nothing is closed
    obtain ⟨hgrows, hlive'⟩ := script_prefix h.complete hstep hnot
    refine ⟨.inl ⟨hclosed, hname, fun _ => hlive'⟩, fun _ _ => by rw [hdisk], ?_⟩
    intro n _
    rw [Recorder.fileAt, Recorder.fileAt, hclosed, hdisk]
    split
    · exact List.prefix_rfl
    · exact hgrows
  · -- a rotation
    refine grown_of_closed (h.fresh hlive) hswings.closed ?_
    intro n hn
    rw [hswings.disk, Function.update_of_ne]
    · rfl
    · rintro rfl
      cases e with
      | usr1 now named' opens =>
        rw [openedAt] at hopened
        split at hopened
        next hrot =>
          cases hopened
          exact (hok hrot.1).2 hrot.2 hn
        next => cases hopened
      | _ => cases hopened
  · refine grown_of_closed (h.fresh hlive) hends.closed ?_
    intro n _
    rw [hends.disk]
    rfl

/-- **Files only grow** while rotations are between records. -/
theorem grown_exec (h : RecordInv rs₀ s segs last) {es : List Event}
    (hrun : exec (step cfg host fileName fwriteNone fcloseNone) s es = some t)
    (hok : Along (step cfg host fileName fwriteNone fcloseNone)
      (fun s e => RotatesBetween fileName s.toControl e) s es) : Grown s t := by
  induction es generalizing s segs last with
  | nil =>
    rw [exec_nil, Option.some.injEq] at hrun
    exact hrun ▸ .refl s
  | cons e es ih =>
    obtain ⟨s', he, hes⟩ := exec_cons_eq_some.mp hrun
    obtain ⟨segs', last', h'⟩ := recordInv_step h hok.1 he
    exact (grown_step h hok.1 he).trans (ih h' hes (hok.2 s' he))

end Grown

/-! ### The file that is watched -/

/-- The records of the file `n`, and those of the files before and after it.  A file that is being
written may lack the end of its last record. -/
structure Placed (rs₀ before : List Record) (t : Recorder Unit N) (n : N)
    (rs after : List Record) : Prop where
  all : before ++ rs ++ after = rs₀ ++ t.recorded
  valid : ∀ r ∈ rs, r.Valid
  file : t.fileAt n <+: rs.flatMap Record.encode
  whole : ¬ t.pc.InRecord → t.fileAt n = rs.flatMap Record.encode

/-- The process has not gone on to another file. -/
def Unrotated (s t : Recorder Unit N) : Prop :=
  t.closed = s.closed ∨ t.closed = s.closed ++ [s.name] ∧ ¬ t.pc.Live

section Placed

variable {s t : Recorder Unit N} {rs₀ last last' : List Record} {segs segs' : List (List Record)}

omit [DecidableEq N] in
theorem RecordInv.valid_of_mem_closed (h : RecordInv rs₀ t segs last) {n : N} (hn : n ∈ t.closed) :
    (∀ r ∈ records (t.disk n), r.Valid) ∧
      t.disk n = (records (t.disk n)).flatMap Record.encode := by
  have hmem : t.disk n ∈ segs.map (·.flatMap Record.encode) := by
    rw [← h.files]
    exact List.mem_map_of_mem hn
  obtain ⟨rs, hrs, heq⟩ := List.mem_map.mp hmem
  have hvalid : ∀ r ∈ rs, r.Valid := by
    intro r hr
    apply h.valid r
    rw [← h.all]
    exact List.mem_append_left _ (List.mem_flatten.mpr ⟨rs, hrs, hr⟩)
  have hdecode := records_flatMap_encode hvalid []
  rw [List.append_nil, records_nil, List.append_nil] at hdecode
  rw [← heq, hdecode]
  exact ⟨hvalid, rfl⟩

/-- **The file that was written at `s`, at a later time**: the same records are in it, and perhaps
more behind them. -/
theorem exists_placed (h : RecordInv rs₀ s segs last) (hlive : s.pc.Live)
    (h' : RecordInv rs₀ t segs' last') (hgrown : Grown s t) :
    ∃ rs after, Placed rs₀ (s.closed.flatMap fun n => records (s.disk n)) t s.name rs after ∧
      (Unrotated s t → after = []) := by
  have hkept : (s.closed.flatMap fun n => records (t.disk n)) =
      s.closed.flatMap fun n => records (s.disk n) := by
    rw [List.flatMap_def, List.flatMap_def]
    congr 1
    apply List.map_congr_left
    intro n hn
    rw [hgrown.kept n hn]
  have hclosed' := h'.records_closed
  have hall := h'.all
  rcases hgrown.closed with ⟨hclosed, hname, hlive'⟩ | ⟨more, hmore⟩
  · -- it is written at `t` too
    have hscript := h'.script (hlive' hlive)
    have hfresh : s.name ∉ t.closed := hclosed ▸ h.fresh hlive
    have hfile : t.fileAt s.name = t.fscript.data := if_neg hfresh
    refine ⟨last', [], ⟨?_, ?_, ?_, ?_⟩, fun _ => rfl⟩
    · rw [← hkept, ← hclosed, hclosed', List.append_nil, hall]
    · intro r hr
      apply h'.valid r
      rw [← hall]
      exact List.mem_append_right _ hr
    · rw [hfile, ← hscript]
      exact List.prefix_append _ _
    · intro hnot
      rwa [hfile, ← List.append_nil t.fscript.data, ← Pc.pending_eq_nil hnot]
  · -- it was closed before
    have hmem : s.name ∈ t.closed := by
      rw [← hmore]
      simp
    obtain ⟨hvalid, heq⟩ := h'.valid_of_mem_closed hmem
    have hfile : t.fileAt s.name = t.disk s.name := if_pos hmem
    refine ⟨records (t.disk s.name), (more.flatMap fun n => records (t.disk n)) ++ last',
      ⟨?_, hvalid, ?_, ?_⟩, ?_⟩
    · rw [← hall, ← hclosed', ← hmore, ← hkept]
      simp
    · rw [hfile, ← heq]
    · intro _
      rw [hfile, ← heq]
    · intro hun
      rw [Unrotated, ← hmore] at hun
      rcases hun with hun | ⟨hun, hdead⟩
      · have hlen := congrArg List.length hun
        simp only [List.length_append, List.length_singleton] at hlen
        omega
      · have hnil : more = [] := by simpa using hun
        rw [hnil, h'.ended hdead]
        rfl

end Placed

/-! ### The watcher -/

section Watch

variable {cfg : Config} {host : Host} {fileName : Timeval → N} {s t : Recorder Unit N}
  {rs₀ last : List Record} {segs : List (List Record)}

variable (cfg host fileName) in
/-- The `m`-th read of the stream sees the file `n` as it is after `reads m` events: the stream ends
where the file does, and holds the bytes of the file up to there. -/
def Sees (s : Recorder Unit N) (es : List Event) (n : N) (reads : ℕ → ℕ) (data : List UInt8)
    (growth : Growth) : Prop :=
  ∀ m s', exec (step cfg host fileName fwriteNone fcloseNone) s (es.take (reads m)) = some s' →
    s'.fileAt n <+: data ∧ growth.size m = (s'.fileAt n).length

/-- Two moments of a run. -/
theorem grown_take (h : RecordInv rs₀ s segs last) {es : List Event}
    (hok : Along (step cfg host fileName fwriteNone fcloseNone)
      (fun s e => RotatesBetween fileName s.toControl e) s es) {i j : ℕ} (hij : i ≤ j)
    {a b : Recorder Unit N}
    (ha : exec (step cfg host fileName fwriteNone fcloseNone) s (es.take i) = some a)
    (hb : exec (step cfg host fileName fwriteNone fcloseNone) s (es.take j) = some b) :
    Grown a b := by
  obtain ⟨mid, hmid⟩ := List.take_prefix_take_left hij (l := es)
  rw [← List.take_append_drop j es, ← hmid, List.append_assoc, along_append] at hok
  rw [← hmid, exec_append, ha, Option.bind_some] at hb
  obtain ⟨segs', last', h'⟩ := recordInv_exec h ha hok.1
  exact grown_exec h' hb (along_append.mp (hok.2 a ha)).1

/-- A run can be stopped anywhere, and the states before are those of a shorter run. -/
theorem exists_exec_take {es : List Event}
    (hrun : exec (step cfg host fileName fwriteNone fcloseNone) s es = some t) (k : ℕ) :
    ∃ a, exec (step cfg host fileName fwriteNone fcloseNone) s (es.take k) = some a := by
  rw [← List.take_append_drop k es, exec_append, Option.bind_eq_some_iff] at hrun
  obtain ⟨a, ha, -⟩ := hrun
  exact ⟨a, ha⟩

/-- The file, at one of these moments, is the beginning of what it is at the end. -/
theorem fileAt_between (h : RecordInv rs₀ s segs last) {es : List Event}
    (hrun : exec (step cfg host fileName fwriteNone fcloseNone) s es = some t)
    (hok : Along (step cfg host fileName fwriteNone fcloseNone)
      (fun s e => RotatesBetween fileName s.toControl e) s es) {k : ℕ} {a : Recorder Unit N}
    (ha : exec (step cfg host fileName fwriteNone fcloseNone) s (es.take k) = some a) :
    s.fileAt s.name <+: a.fileAt s.name ∧ a.fileAt s.name <+: t.fileAt s.name := by
  have hname : s.name ∈ s.closed ++ [s.name] :=
    List.mem_append_right _ (List.mem_singleton_self _)
  have hbefore : Grown s a := by
    refine grown_take h hok (Nat.zero_le k) ?_ ha
    rw [List.take_zero]
    rfl
  have hafter : Grown a t := by
    refine grown_take h hok (le_max_left k es.length) ha ?_
    rwa [List.take_of_length_le (le_max_right _ _)]
  exact ⟨hbefore.file _ hname, hafter.file _ (hbefore.mem hname)⟩

/-- What a stream shows of the file, it shows of every continuation of the file. -/
theorem Sees.take_eq (h : RecordInv rs₀ s segs last) {es : List Event}
    (hrun : exec (step cfg host fileName fwriteNone fcloseNone) s es = some t)
    (hok : Along (step cfg host fileName fwriteNone fcloseNone)
      (fun s e => RotatesBetween fileName s.toControl e) s es) {reads : ℕ → ℕ} {data : List UInt8}
    {growth : Growth} (hsees : Sees cfg host fileName s es s.name reads data growth)
    {data' : List UInt8} (hdata' : t.fileAt s.name <+: data') (m : ℕ) :
    data.take (growth.size m) = data'.take (growth.size m) := by
  obtain ⟨a, ha⟩ := exists_exec_take hrun (reads m)
  obtain ⟨hpre, hsize⟩ := hsees m a ha
  have hpre' := (fileAt_between h hrun hok ha).2.trans hdata'
  rw [hsize, ← List.prefix_iff_eq_take.mp hpre, ← List.prefix_iff_eq_take.mp hpre']

/-- There is such a stream, if the reads are in order. -/
theorem exists_sees (h : RecordInv rs₀ s segs last) {es : List Event}
    (hrun : exec (step cfg host fileName fwriteNone fcloseNone) s es = some t)
    (hok : Along (step cfg host fileName fwriteNone fcloseNone)
      (fun s e => RotatesBetween fileName s.toControl e) s es) {reads : ℕ → ℕ}
    (hreads : Monotone reads) :
    ∃ growth : Growth, Sees cfg host fileName s es s.name reads (t.fileAt s.name) growth := by
  choose state hstate using exists_exec_take hrun
  refine ⟨⟨fun m => ((state (reads m)).fileAt s.name).length, ?_⟩, ?_⟩
  · intro m m' hm
    have hgrown := grown_take h hok (hreads hm) (hstate _) (hstate _)
    have hfirst := grown_take h hok (Nat.zero_le (reads m)) (by rw [List.take_zero]; rfl) (hstate _)
    have hname : s.name ∈ (state (reads m)).closed ++ [(state (reads m)).name] :=
      hfirst.mem (List.mem_append_right _ (List.mem_singleton_self _))
    exact (hgrown.file _ hname).length_le
  · intro m s' hs'
    rw [hstate, Option.some.injEq] at hs'
    subst hs'
    exact ⟨(fileAt_between h hrun hok (hstate _)).2, rfl⟩

omit [DecidableEq N] in
/-- What was shown, and what was recorded of it. -/
theorem ShownInv.exists_rest {s : Control N} (h : ShownInv s) (rs₀ : List Record) :
    ∃ rest, rest.length ≤ bufsiz ∧
      s.shown rs₀ = (rs₀ ++ s.recorded).flatMap Record.payload ++ rest := by
  rw [Control.shown, List.flatMap_append]
  by_cases hlive : s.pc.Live
  · exact ⟨s.pc.unsaved, h.length_le, by rw [h.shown hlive, List.append_assoc]⟩
  · obtain ⟨rest, hrest, hle⟩ := h.ended hlive
    exact ⟨rest, hle, by rw [hrest, List.append_assoc]⟩

/-- What is complete in the file when the watcher comes, it skips. -/
theorem recovered_prefix (h : RecordInv rs₀ s segs last) (hlive : s.pc.Live) {rs : List Record}
    (hrs : ∀ r ∈ rs, r.Valid) {k : ℕ} {growth : Growth}
    (hsees : s.fileAt s.name <+: (rs.flatMap Record.encode).take (growth.size 0))
    (hk : (records ((rs.flatMap Record.encode).take (growth.size 0))).length ≤ k) :
    s.recovered <+: (s.closed.flatMap fun n => records (s.disk n)) ++ rs.take k := by
  rw [Recorder.recovered, if_pos hlive, List.prefix_append_right_inj]
  have hfile : s.fileAt s.name = s.fscript.data := if_neg (h.fresh hlive)
  rw [hfile] at hsees
  have hmono := records_mono hsees
  have hdecode := records_flatMap_encode hrs []
  rw [List.append_nil, records_nil, List.append_nil] at hdecode
  have hall := hmono.trans (records_mono (List.take_prefix _ _))
  rw [hdecode] at hall
  exact List.prefix_take_iff.mpr ⟨hall, hmono.length_le.trans hk⟩

/-- What was skipped, what was played, and what comes behind it. -/
theorem payloads_split {before rs after played more : List Record} {k : ℕ}
    (h : played ++ more = rs.drop k) :
    (before ++ rs ++ after).flatMap Record.payload =
      (before ++ rs.take k).flatMap Record.payload ++ played.flatMap Record.payload ++
        (more ++ after).flatMap Record.payload := by
  have hsplit : rs = rs.take k ++ (played ++ more) := by rw [h, List.take_append_drop]
  have happend : before ++ rs ++ after =
      before ++ rs.take k ++ played ++ (more ++ after) := by
    conv_lhs => rw [hsplit]
    simp only [List.append_assoc]
  rw [happend]
  simp only [List.flatMap_append, List.append_assoc]

/-- A watcher on its own: it skips the first `k` records, among them the complete ones of the file
at its first read, and writes records from there on, all of them once the file has grown to its
end. -/
theorem ttypeek_complete (host : Host) {rs : List Record} (hrs : ∀ r ∈ rs, r.Valid)
    {data : List UInt8} {growth : Growth}
    (hdata : ∀ m, data.take (growth.size m) = (rs.flatMap Record.encode).take (growth.size m))
    {n : ℕ} (hn : rs.length < n) {peek : ℕ → ℕ → List UInt8}
    (hpeek : ∀ tries m, peek tries m = (ttypeek host freadNone (fun _ => true) n tries m
      (InFile.growing data growth, ())).2.world.flatten) :
    ∃ k, (records ((rs.flatMap Record.encode).take (growth.size 0))).length ≤ k ∧
      (∀ tries m, ∃ played more, peek tries m = played.flatMap Record.payload ∧
        played ++ more = rs.drop k) ∧
      ∀ i, (rs.flatMap Record.encode).length ≤ growth.size i → ∀ m, rs.length ≤ m →
        peek (i + 1) m = (rs.drop k).flatMap Record.payload := by
  have hA : PlainAt (rs.flatMap Record.encode) growth
      (InFile.growing data growth, ()) rs :=
    ⟨hdata, rfl, fun _ => rfl, rfl, hrs, rfl⟩
  obtain ⟨k, st₁, st₂, hk, hA₁, -, -, hread, hwatch, hplays⟩ :=
    (follows_plain host _ growth).ttypeek hA (fun m => polls_true host freadNone _ m _) hn
  obtain ⟨m₀, -, hnext⟩ := nextRecord_of_miss hA₁ hread
  -- what is written is the payloads of the records that are played
  have hworld : ∀ tries m, peek tries m =
      (ttypeek host freadNone (fun _ => true) n tries m
        (InFile.growing data growth, ())).2.records.flatMap Record.payload := by
    intro tries m
    obtain ⟨-, -, -, -, hworld⟩ := hwatch tries m
    rw [hpeek, hworld]
    exact List.flatMap_def.symm
  refine ⟨k, length_records_le hrs hk hA₁ hnext, ?_, ?_⟩
  · intro tries m
    obtain ⟨-, -, -, ⟨more, hmore⟩, -⟩ := hwatch tries m
    exact ⟨_, more, hworld tries m, hmore⟩
  · intro i hsize m hm
    rw [hworld, hplays i (answers_plain host hsize) m hm]

end Watch

end TtyRec
