import TtyRec.Wait

/-!
# Playing a file

Without `-p` the player reads one record after the other, waits, and writes the payload to
standard output, until `ttyread` returns 0.  The wait function has variables of its own and
does not touch standard output, so what is written depends on the file alone.

## Main definitions

* `writeBeside`, `waitBeside` — the two functions on the output and on the variables of the
  wait function.
* `waitsOf` — what the waits between time stamps do.
* `napping` — `ttywait` without a key, on the readings of the clock to come.

## Main results

* `ttyplay_world` — what playing has done to the output and to the wait function.
* `ttyplay_napping` — over `ttywait`, it has made the waits of the recording.
* `ttyplayback_prefix` — **the player plays exactly the longest sequence of valid records
  that a file begins with.**
-/

namespace TtyRec

variable {S V : Type*}

/-! ### Output and waits -/

/-- `ttywrite`, on the output; `V` is for the wait function. -/
def writeBeside (buf : List UInt8) (w : List (List UInt8) × V) : List (List UInt8) × V :=
  (ttywrite buf w.1, w.2)

/-- A wait function, beside the output. -/
def waitBeside (wait : Timeval → Timeval → V → V) (prev cur : Timeval)
    (w : List (List UInt8) × V) : List (List UInt8) × V :=
  (w.1, wait prev cur w.2)

/-- The waits between these time stamps; there is none before the first. -/
def waitsOf (wait : Timeval → Timeval → V → V) : Option Timeval → V → List Timeval → V
  | _, v, [] => v
  | none, v, cur :: tvs => waitsOf wait (some cur) v tvs
  | some prev, v, cur :: tvs => waitsOf wait (some cur) (wait prev cur v) tvs

/-- **What playing has done**: every payload is written, once and in order, and there was a
wait between every two records. -/
theorem ttyplay_world (readFunc : InFile × S → Outcome (Option Record × (InFile × S)))
    (wait : Timeval → Timeval → V → V) (n : ℕ) (prev : Option Timeval) (st : InFile × S)
    (out : List (List UInt8)) (v : V) :
    let play := ttyplay readFunc writeBeside (waitBeside wait) n prev st (out, v)
    play.world = (out ++ play.records.map Record.payload,
      waitsOf wait prev v (play.records.map fun r => r.hdr.tv)) := by
  induction n generalizing prev st out v with
  | zero => simp [ttyplay, waitsOf]
  | succ n ih =>
    simp only [ttyplay]
    cases h : readFunc st with
    | exit c => simp [waitsOf]
    | spin => simp [waitsOf]
    | ret r =>
      obtain ⟨r, st'⟩ := r
      cases r with
      | none => simp [waitsOf]
      | some r =>
        cases prev with
        | none => simp [writeBeside, ttywrite, waitsOf, ih]
        | some p => simp [writeBeside, waitBeside, ttywrite, waitsOf, ih]

/-- `ttywait` when no key is hit; the list holds the readings of the clock before and after
the calls of `select` to come. -/
def napping (prev cur : Timeval) (w : Waiter × List (Timeval × Timeval)) :
    Waiter × List (Timeval × Timeval) :=
  match w.2 with
  | [] => w
  | (start, stop) :: naps => (ttywait prev cur start (.timeout stop) w.1, naps)

theorem waitsOf_napping (prev : Timeval) (tvs : List Timeval) (s : Waiter)
    (naps : List (Timeval × Timeval)) (h : tvs.length ≤ naps.length) :
    (waitsOf napping (some prev) (s, naps) tvs).1 =
      waits prev s (List.zipWith (fun cur nap => ⟨cur, nap.1, nap.2⟩) tvs naps) := by
  induction tvs generalizing prev s naps with
  | nil => simp [waitsOf, waits]
  | cons cur tvs ih =>
    cases naps with
    | nil => simp at h
    | cons nap naps => simpa [waitsOf, napping, waits] using ih cur _ naps (by simpa using h)

/-- **Over `ttywait`, playing makes the waits of the recording**: one between each record and the
next. -/
theorem ttyplay_napping (readFunc : InFile × S → Outcome (Option Record × (InFile × S))) (n : ℕ)
    (st : InFile × S) (s : Waiter) (naps : List (Timeval × Timeval)) {r : Record}
    {rs : List Record} (hlen : rs.length ≤ naps.length)
    (hrs : (ttyplay readFunc writeBeside (waitBeside napping) n none st ([], s, naps)).records =
      r :: rs) :
    (ttyplay readFunc writeBeside (waitBeside napping) n none st ([], s, naps)).world.2.1 =
      waits r.hdr.tv s (List.zipWith (fun r nap => ⟨r.hdr.tv, nap.1, nap.2⟩) rs naps) := by
  rw [ttyplay_world readFunc napping n none st [] (s, naps), hrs]
  simp only [List.map_cons, waitsOf]
  rw [waitsOf_napping _ _ _ _ (by simpa using hlen), List.zipWith_map_left]

/-! ### The longest sequence of valid records -/

/-- The records that a file begins with: all of them are valid, what follows them does not
begin with another one, and no other sequence of valid records that the file begins with is
longer. -/
structure LongestPrefix (data : List UInt8) (rs : List Record) : Prop where
  valid : ∀ r ∈ rs, r.Valid
  is_prefix : rs.flatMap Record.encode <+: data
  ends : nextRecord (data.drop (rs.flatMap Record.encode).length) = none
  longest : ∀ rs' : List Record, (∀ r ∈ rs', r.Valid) → rs'.flatMap Record.encode <+: data →
    rs' <+: rs

theorem longestPrefix_records (data : List UInt8) : LongestPrefix data (records data) where
  valid := records_valid data
  is_prefix := ⟨leftover data, records_append_leftover data⟩
  ends := by
    have h : data.drop ((records data).flatMap Record.encode).length = leftover data := by
      conv_lhs => rw [← records_append_leftover data]
      rw [List.drop_left' (by rw [records_append_leftover])]
    rw [h, nextRecord_leftover]
  longest _ hrs h := prefix_records hrs h

/-- **The player plays exactly the valid prefix of a file.**  For every file there is one
sequence of records that is the longest prefix of valid ones; with more iterations than that
the player has stopped, whatever the wait function does, and what it has written are the
payloads of these records. -/
theorem ttyplayback_prefix (host : Host) (data : List UInt8) :
    ∃ rs, LongestPrefix data rs ∧
      ∀ (V : Type) (wait : Timeval → Timeval → V → V) (v : V) (n : ℕ), rs.length < n →
        let play := ttyplay (ttyread host freadNone fun _ => true) writeBeside (waitBeside wait) n
          none (InFile.ofBytes data, ()) ([], v)
        play.stop = .eof ∧ play.records = rs ∧
          play.world.1.flatten = rs.flatMap Record.payload := by
  refine ⟨records data, longestPrefix_records data, ?_⟩
  intro V wait v n hn play
  obtain ⟨hrec, hstop⟩ : play.records = records data ∧ play.stop = .eof :=
    ttyplay_serves host serves_freadNone (fun _ => rfl) (InFile.at_ofBytes data) hn none ([], v)
  refine ⟨hstop, hrec, ?_⟩
  have hworld : play.world = _ := ttyplay_world _ wait n none _ [] v
  rw [hworld, List.nil_append]
  change (play.records.map Record.payload).flatten = _
  rw [hrec, List.flatMap_def]

end TtyRec
