import TtyRec.Player
import TtyRec.Refinement
import TtyRec.Zstd.Raw
import TtyRec.Zstd.Read

/-!
# Recording and playing back

What a recorder leaves on disk, one session after another, and what the player
makes of it.  A plain recording is read back as it was recorded, on any host, with
any number of sessions appended to it; a compressed one is read back as the plain
one that would have been written in its place.

## Main definitions

* `Session`, `Session.run`, `runSessions` — sessions on a disk.
* `TimedChunk`, `sessionEvents` — the session that records given chunks.

## Main results

* `ttyplay_runSessions` — **the player reads back what was recorded.**
* `ttyplay_zstd_eq_plain` — **compressed and plain recordings play back
  identically.**
-/

namespace TtyRec

open Run StreamCodec

variable {S N : Type*}

/-! ### Sessions on a disk -/

/-- A run of the recorder, and how it is started; `append` is `-a`. -/
structure Session (N : Type*) where
  cfg : Config
  host : Host
  fileName : Timeval → N
  name : N
  append : Bool
  events : List Event

section Sessions

variable [DecidableEq N] (fwriteWrapper : FwriteWrapper S) (fcloseWrapper : FcloseWrapper S)
  (wrapper : S)

/-- `fopen(fname, opt_append ? "a" : "w")`. -/
def Session.openScript (ses : Session N) (disk : N → List UInt8) : N → List UInt8 :=
  if ses.append then disk else Function.update disk ses.name []

/-- What a session that comes to its end leaves on disk, with no write cut short. -/
def Session.run (ses : Session N) (disk : N → List UInt8) : Option (N → List UInt8) :=
  match exec (step ses.cfg ses.host ses.fileName fwriteWrapper fcloseWrapper)
      (Recorder.start (ses.openScript disk) ses.name (fun _ => none) wrapper) ses.events with
  | none => none
  | some t => if t.pc.Live then none else some t.disk

/-- One session after another. -/
def runSessions : (N → List UInt8) → List (Session N) → Option (N → List UInt8)
  | disk, [] => some disk
  | disk, ses :: sessions =>
    match ses.run fwriteWrapper fcloseWrapper wrapper disk with
    | none => none
    | some disk => runSessions disk sessions

end Sessions

/-! ### Recording given chunks -/

/-- A chunk that is read and recorded, and when. -/
structure TimedChunk (cfg : Config) where
  now : WallClock
  fd : Fd
  bytes : List UInt8
  bytes_ne_nil : bytes ≠ []
  length_le : bytes.length ≤ bufsiz
  /-- The chunk comes from the pty, or from a pipe that is not stealth. -/
  source : if cfg.useTty then fd = .stdout else cfg.stealth fd = false

/-- The record of a chunk. -/
def TimedChunk.record {cfg : Config} (c : TimedChunk cfg) : Record :=
  ⟨⟨c.now.tv, c.bytes.length⟩, c.bytes⟩

/-- One iteration of the loop. -/
def chunkEvents {cfg : Config} (c : TimedChunk cfg) : List Event :=
  [.read c.fd (.data c.bytes), .check c.now, .write (.sent c.bytes.length),
    .header fun _ => c.now.tv.tvSec, .payload fun _ => c.now.tv.tvSec, .account]

/-- The end of what can be read, and of the process. -/
def endEvents (cfg : Config) : List Event :=
  (if cfg.useTty then [.read .stdout .eof] else [.read .stdout .eof, .read .stderr .eof]) ++
    [.finish 0]

/-- The session that records these chunks. -/
def sessionEvents {cfg : Config} (chunks : List (TimedChunk cfg)) : List Event :=
  chunks.flatMap chunkEvents ++ endEvents cfg

theorem TimedChunk.valid {cfg : Config} (c : TimedChunk cfg) : c.record.Valid :=
  Record.valid_of_ok (c := ⟨c.fd, c.bytes, false⟩) ⟨c.bytes_ne_nil, c.length_le, c.now, rfl⟩

/-- The plain recorder at the top of its loop, unlocked, with nothing closed and this content of its
file.  Every iteration that records a chunk comes back to it. -/
structure LoopTop (name : N) (data : List UInt8) (s : Recorder Unit N) : Prop where
  pc : s.pc = .read
  locked : s.locked = false
  opened : s.stdoutOpened = true ∧ s.stderrOpened = true
  name_eq : s.name = name
  data_eq : s.fscript.data = data
  complete : s.fscript.Complete

section Chunks

variable [DecidableEq N] {cfg : Config} {host : Host} {fileName : Timeval → N} {name : N}
  {data : List UInt8} {s : Recorder Unit N}

/-- The read of a chunk that is going to be recorded. -/
private theorem step_read_chunk (c : TimedChunk cfg) (h : LoopTop name data s) :
    step cfg host fileName fwriteNone fcloseNone s (.read c.fd (.data c.bytes)) =
      some { s with pc := .check ⟨c.fd, c.bytes, false⟩, got := s.got ++ [(c.fd, c.bytes)] } := by
  have hbytes := And.intro c.bytes_ne_nil c.length_le
  have hsource := c.source
  simp only [step, stepControl, h.pc]
  by_cases htty : cfg.useTty = true
  · rw [if_pos htty] at hsource
    rw [if_pos htty, hsource, readTty, if_pos hbytes]
    rfl
  · rw [if_neg htty] at hsource
    have hopened : s.pipeOpened c.fd = true := by
      cases c.fd
      · exact h.opened.1
      · exact h.opened.2
    rw [if_neg htty, readPipe, if_neg (by simp [hopened]), if_pos hbytes, hsource]
    rfl

/-- One iteration records one chunk. -/
theorem exec_chunkEvents (c : TimedChunk cfg) (h : LoopTop name data s) :
    ∃ s', exec (step cfg host fileName fwriteNone fcloseNone) s (chunkEvents c) = some s' ∧
      LoopTop name (data ++ c.record.encode) s' := by
  have hlen : 0 < c.bytes.length ∧ c.bytes.length ≤ c.bytes.length :=
    ⟨List.length_pos_iff.mpr c.bytes_ne_nil, le_rfl⟩
  have hc : ∀ d n, OutFile.Complete ⟨d, n, s.fscript.short, s.fscript.error⟩ := fun _ _ => h.complete
  rw [chunkEvents, exec_cons, step_read_chunk c h]
  simp only [exec_cons, exec_nil, Option.bind_some, step, stepControl, checkLock, h.locked,
    Bool.false_eq_true, if_false, writeOutput, if_pos hlen, afterWrite, Option.map_some,
    writeHeader_fwriteNone host _ _ h.complete, Recorder.afterCall]
  refine ⟨_, rfl, rfl, rfl, h.opened, h.name_eq, ?_, h.complete⟩
  simp only [fwriteNone, fwrite_of_complete (hc _ _), h.data_eq, TimedChunk.record, Record.encode,
    List.append_assoc]

/-- All iterations. -/
private theorem exec_flatMap_chunkEvents (chunks : List (TimedChunk cfg)) :
    ∀ {data : List UInt8} {s : Recorder Unit N}, LoopTop name data s →
      ∃ s', exec (step cfg host fileName fwriteNone fcloseNone) s (chunks.flatMap chunkEvents) =
          some s' ∧
        LoopTop name (data ++ chunks.flatMap fun c => c.record.encode) s' := by
  induction chunks with
  | nil =>
    intro data s h
    exact ⟨s, rfl, by simpa using h⟩
  | cons c chunks ih =>
    intro data s h
    obtain ⟨s₁, hrun₁, h₁⟩ := exec_chunkEvents c h
    obtain ⟨s₂, hrun₂, h₂⟩ := ih h₁
    refine ⟨s₂, ?_, ?_⟩
    · rw [List.flatMap_cons, exec_append, hrun₁]
      exact hrun₂
    · rwa [List.flatMap_cons, ← List.append_assoc]

/-- The end of the session closes the file. -/
private theorem exec_endEvents (h : LoopTop name data s) :
    ∃ t, exec (step cfg host fileName fwriteNone fcloseNone) s (endEvents cfg) = some t ∧
      ¬ t.pc.Live ∧ t.disk name = data := by
  have hupdate : ∀ d : N → List UInt8, Function.update d s.name s.fscript.data name = data := by
    intro d
    rw [h.name_eq, Function.update_self, h.data_eq]
  by_cases htty : cfg.useTty = true
  · simp only [endEvents, htty, if_true, List.cons_append, List.nil_append, exec_cons, exec_nil,
      step, stepControl, h.pc, readTty, Option.map_some, Option.bind_some, unlockScreen, h.locked]
    exact ⟨_, rfl, id, hupdate _⟩
  · simp only [endEvents, htty, if_false, List.cons_append, List.nil_append, exec_cons, exec_nil,
      step, stepControl, h.pc, readPipe, closePipe, Control.pipeOpened, h.opened, Option.map_some,
      Option.bind_some, unlockScreen, h.locked, Bool.false_eq_true, Bool.true_eq_false, and_false,
      and_self, if_true]
    exact ⟨_, rfl, id, hupdate _⟩

/-- **A session appends its chunks to its file**, a record for each. -/
theorem run_sessionEvents (chunks : List (TimedChunk cfg)) (disk : N → List UInt8) :
    ∃ disk', Session.run fwriteNone fcloseNone ()
        ⟨cfg, host, fileName, name, true, sessionEvents chunks⟩ disk = some disk' ∧
      disk' name = disk name ++ chunks.flatMap fun c => c.record.encode := by
  have htop : LoopTop name (disk name) (Recorder.start disk name (fun _ => none) ()) :=
    ⟨rfl, rfl, ⟨rfl, rfl⟩, rfl, rfl, fun _ => rfl⟩
  obtain ⟨s, hrun, hs⟩ := exec_flatMap_chunkEvents chunks htop
  obtain ⟨t, hrun', hend, hdisk⟩ := exec_endEvents hs
  refine ⟨t.disk, ?_, hdisk⟩
  have hall : exec (step cfg host fileName fwriteNone fcloseNone)
      (Recorder.start disk name (fun _ => none) ()) (sessionEvents chunks) = some t := by
    rw [sessionEvents, exec_append, hrun]
    exact hrun'
  rw [Session.run]
  dsimp only
  rw [Session.openScript, if_pos rfl, hall]
  exact if_neg hend

end Chunks

/-- A session that appends given chunks. -/
structure AppendedSession where
  cfg : Config
  host : Host
  chunks : List (TimedChunk cfg)

def AppendedSession.session (fileName : Timeval → N) (name : N) (a : AppendedSession) : Session N :=
  ⟨a.cfg, a.host, fileName, name, true, sessionEvents a.chunks⟩

/-- What it records. -/
def AppendedSession.records (a : AppendedSession) : List Record := a.chunks.map TimedChunk.record

theorem AppendedSession.valid (sessions : List AppendedSession) :
    ∀ r ∈ sessions.flatMap AppendedSession.records, r.Valid := by
  intro r hr
  obtain ⟨a, -, hr⟩ := List.mem_flatMap.mp hr
  obtain ⟨c, -, rfl⟩ := List.mem_map.mp hr
  exact c.valid

/-- What sessions record is decoded to their records. -/
theorem AppendedSession.records_encode (sessions : List AppendedSession) :
    TtyRec.records ((sessions.flatMap AppendedSession.records).flatMap Record.encode) =
      sessions.flatMap AppendedSession.records := by
  simpa using records_flatMap_encode (AppendedSession.valid sessions) []

/-- The sessions append all their chunks to the file. -/
theorem runSessions_appended [DecidableEq N] (fileName : Timeval → N) (name : N)
    (sessions : List AppendedSession) : ∀ disk : N → List UInt8,
      ∃ disk', runSessions fwriteNone fcloseNone () disk
          (sessions.map (·.session fileName name)) = some disk' ∧
        disk' name =
          disk name ++ (sessions.flatMap AppendedSession.records).flatMap Record.encode := by
  induction sessions with
  | nil =>
    intro disk
    exact ⟨disk, rfl, (List.append_nil _).symm⟩
  | cons a sessions ih =>
    intro disk
    obtain ⟨disk₁, hrun₁, h₁⟩ :
        ∃ disk₁, (a.session fileName name).run fwriteNone fcloseNone () disk = some disk₁ ∧ _ :=
      run_sessionEvents a.chunks disk
    obtain ⟨disk₂, hrun₂, h₂⟩ := ih disk₁
    refine ⟨disk₂, ?_, ?_⟩
    · rw [List.map_cons, runSessions, hrun₁]
      exact hrun₂
    · rw [h₂, h₁, List.flatMap_cons, List.flatMap_append, AppendedSession.records,
        List.flatMap_map, List.append_assoc]

/-- **The player reads back what was recorded**: any number of sessions that append
to one file, and then all their chunks, in order, with their times, and the end of
the file. -/
theorem ttyplay_runSessions [DecidableEq N] (player : Host) (fileName : Timeval → N) (name : N)
    (sessions : List AppendedSession)
    (waitFunc : Timeval → Timeval → List (List UInt8) → List (List UInt8)) :
    ∃ disk, runSessions fwriteNone fcloseNone () (fun _ => [])
        (sessions.map (·.session fileName name)) = some disk ∧
      ∀ k, (ttyplayback player freadNone (fun _ => true) waitFunc
            ((sessions.flatMap AppendedSession.records).length + 1 + k)
            (InFile.ofBytes (disk name), ())).records =
          sessions.flatMap AppendedSession.records ∧
        (ttyplayback player freadNone (fun _ => true) waitFunc
            ((sessions.flatMap AppendedSession.records).length + 1 + k)
            (InFile.ofBytes (disk name), ())).stop = .eof := by
  obtain ⟨disk, hrun, hdisk⟩ := runSessions_appended fileName name sessions fun _ => []
  refine ⟨disk, hrun, ?_⟩
  intro k
  have hrec : records (disk name) = sessions.flatMap AppendedSession.records := by
    rw [hdisk, List.nil_append, AppendedSession.records_encode]
  rw [← hrec]
  exact ttyplayback_serves player serves_freadNone (InFile.at_ofBytes _) waitFunc (by omega)

/-! ### Compressed recordings -/

section Zstd

variable {C D : Type} {enc : Encoder C UInt8 UInt8} {dec : Decoder D UInt8 UInt8}
  {Frame : List UInt8 → List UInt8 → Prop} [DecidableEq N]

/-- A compressed session leaves frames of what the plain session leaves. -/
theorem run_zstd (law : enc.Lawful Frame) (zcfg : ZConfig) {fuel : ℕ} (hfuel : bufsiz ≤ fuel)
    (ses : Session N) {disk disk' diskz : N → List UInt8}
    (hdisk : ∀ n, Concat Frame (diskz n) (disk n))
    (hrun : ses.run fwriteNone fcloseNone () disk = some disk') :
    ∃ diskz', ses.run (fwriteWrapperZstd enc zcfg fuel) (fcloseWrapperZstd enc) .start diskz =
        some diskz' ∧ ∀ n, Concat Frame (diskz' n) (disk' n) := by
  -- `fopen` keeps what is there with -a, and empties the file without
  have hopen : ∀ n, Concat Frame (ses.openScript diskz n) (ses.openScript disk n) := by
    intro n
    unfold Session.openScript
    by_cases happend : ses.append = true
    · rw [if_pos happend, if_pos happend]
      exact hdisk n
    · rw [if_neg happend, if_neg happend]
      rcases eq_or_ne n ses.name with rfl | hn
      · rw [Function.update_self, Function.update_self]
        exact .nil
      · rw [Function.update_of_ne hn, Function.update_of_ne hn]
        exact hdisk n
  unfold Session.run at hrun
  cases hexec : exec (step ses.cfg ses.host ses.fileName fwriteNone fcloseNone)
      (Recorder.start (ses.openScript disk) ses.name (fun _ => none) ()) ses.events with
  | none => rw [hexec] at hrun; cases hrun
  | some s =>
    rw [hexec] at hrun
    dsimp only at hrun
    by_cases hlive : s.pc.Live
    · rw [if_pos hlive] at hrun
      cases hrun
    · rw [if_neg hlive, Option.some.injEq] at hrun
      subst hrun
      -- from here on the two recorders go side by side
      have hkeeps := keeps_fwriteWrapperZstd law zcfg fuel
      have hstart : Refines (ZRep enc) (Concat Frame) Set.univ
          (Recorder.start (ses.openScript disk) ses.name (fun _ => none) ())
          (Recorder.start (ses.openScript diskz) ses.name (fun _ => none) .start) :=
        refines_start hkeeps (fun n _ => hopen n) (hopen _) rfl
      obtain ⟨t, hexec', href⟩ := refines_lift hkeeps hfuel appends_concat hstart hexec
      have hctl := href.control
      refine ⟨t.disk, ?_, fun n => href.disk n (.inl trivial)⟩
      rw [Session.run, hexec']
      dsimp only
      rw [hctl]
      exact if_neg hlive

/-- And so do any number of sessions. -/
theorem runSessions_zstd (law : enc.Lawful Frame) (zcfg : ZConfig) {fuel : ℕ}
    (hfuel : bufsiz ≤ fuel) (sessions : List (Session N)) :
    ∀ {disk disk' diskz : N → List UInt8}, (∀ n, Concat Frame (diskz n) (disk n)) →
      runSessions fwriteNone fcloseNone () disk sessions = some disk' →
      ∃ diskz', runSessions (fwriteWrapperZstd enc zcfg fuel) (fcloseWrapperZstd enc) .start diskz
          sessions = some diskz' ∧ ∀ n, Concat Frame (diskz' n) (disk' n) := by
  induction sessions with
  | nil =>
    intro disk disk' diskz hdisk hrun
    rw [runSessions, Option.some.injEq] at hrun
    exact ⟨diskz, rfl, hrun ▸ hdisk⟩
  | cons ses sessions ih =>
    intro disk disk' diskz hdisk hrun
    rw [runSessions] at hrun
    cases hses : ses.run fwriteNone fcloseNone () disk with
    | none => rw [hses] at hrun; cases hrun
    | some disk₁ =>
      rw [hses] at hrun
      obtain ⟨diskz₁, hz₁, hdisk₁⟩ := run_zstd law zcfg hfuel ses hdisk hses
      obtain ⟨diskz', hz', hdisk'⟩ := ih hdisk₁ hrun
      refine ⟨diskz', ?_, hdisk'⟩
      rw [runSessions, hz₁]
      exact hz'

/-- **Compressed and plain recordings play back identically**: whatever sessions
leave on a disk that is empty at first, with whatever rotations and flushes, the
player reads the same records from a compressed file as from the plain file that the
plain wrappers leave in its place, and finds its end. -/
theorem ttyplay_zstd_eq_plain (elaw : enc.Lawful Frame) (dlaw : dec.Lawful Frame) (zcfg : ZConfig)
    (player : Host) (waitFunc : Timeval → Timeval → List (List UInt8) → List (List UInt8))
    (sessions : List (Session N)) {disk : N → List UInt8}
    (hrun : runSessions fwriteNone fcloseNone () (fun _ => []) sessions = some disk) :
    ∃ diskz, runSessions (fwriteWrapperZstd enc zcfg bufsiz) (fcloseWrapperZstd enc) .start
        (fun _ => []) sessions = some diskz ∧
      ∀ name n fuel, (records (disk name)).length < n →
        4 * (diskz name).length + 4 * (disk name).length + 1 < fuel →
        (ttyplayback player (freadWrapperZstd dec fuel) (fun _ => true) waitFunc n
            (InFile.ofBytes (diskz name), none)).records =
          (ttyplayback player freadNone (fun _ => true) waitFunc n
            (InFile.ofBytes (disk name), ())).records ∧
        (ttyplayback player (freadWrapperZstd dec fuel) (fun _ => true) waitFunc n
            (InFile.ofBytes (diskz name), none)).stop = .eof ∧
        (ttyplayback player freadNone (fun _ => true) waitFunc n
            (InFile.ofBytes (disk name), ())).stop = .eof := by
  obtain ⟨diskz, hrunz, hdisk⟩ := runSessions_zstd elaw zcfg le_rfl sessions (fun _ => .nil) hrun
  refine ⟨diskz, hrunz, ?_⟩
  intro name n fuel hn hfuel
  have hserves := serves_freadWrapperZstd dlaw (diskz name) fuel
  have hopened := zserves_ofBytes dlaw (hdisk name) hfuel
  obtain ⟨hz, hzstop⟩ := ttyplayback_serves player hserves hopened waitFunc hn
  have hplain := InFile.at_ofBytes (disk name)
  refine ⟨?_, hzstop, ?_⟩
  · rw [hz]
    exact (ttyplayback_serves player serves_freadNone hplain waitFunc hn).1.symm
  · exact (ttyplayback_serves player serves_freadNone hplain waitFunc hn).2

end Zstd

/-- A session that appends one chunk of one byte to a file, in a terminal. -/
def oneByte : AppendedSession :=
  ⟨.tty, .little, [⟨.ofSec 1000, .stdout, [65], by decide, by decide, rfl⟩]⟩

/-- Two of them, one after the other. -/
def twoSessions : List (Session ℤ) := [oneByte, oneByte].map (·.session Timeval.tvSec 0)

theorem ttyplay_zstd_eq_plain_twoSessions :
    ∃ diskz, runSessions (fwriteWrapperZstd rawEncoder .default bufsiz)
        (fcloseWrapperZstd rawEncoder) .start (fun _ => []) twoSessions = some diskz ∧
      (ttyplayback .big (freadWrapperZstd rawDecoder 1000) (fun _ => true) (fun _ _ out => out) 3
          (InFile.ofBytes (diskz 0), none)).records =
        [⟨⟨⟨1000, 0⟩, 1⟩, [65]⟩, ⟨⟨⟨1000, 0⟩, 1⟩, [65]⟩] := by
  obtain ⟨disk, hrun, hdisk⟩ :=
    runSessions_appended Timeval.tvSec (0 : ℤ) [oneByte, oneByte] fun _ => []
  have hrec : records (disk 0) = [oneByte, oneByte].flatMap AppendedSession.records := by
    rw [hdisk, List.nil_append, AppendedSession.records_encode]
  obtain ⟨diskz, hrunz, h⟩ := ttyplay_zstd_eq_plain rawEncoder_lawful rawDecoder_lawful .default
    .big (fun _ _ out => out) twoSessions hrun
  have hlen : (disk 0).length = 26 := by rw [hdisk]; rfl
  have hlenz : (runSessions (fwriteWrapperZstd rawEncoder .default bufsiz)
      (fcloseWrapperZstd rawEncoder) .start (fun _ => []) twoSessions).map
      (fun d => (d 0).length) = some 44 := by decide +kernel
  rw [hrunz, Option.map_some, Option.some.injEq] at hlenz
  have hn : (records (disk 0)).length < 3 := by rw [hrec]; decide
  refine ⟨diskz, hrunz, (h 0 3 1000 hn (by omega)).1.trans ?_⟩
  exact (ttyplayback_serves .big serves_freadNone (InFile.at_ofBytes (disk 0)) _ hn).1.trans hrec

end TtyRec
