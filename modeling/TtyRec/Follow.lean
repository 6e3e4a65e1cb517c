import TtyRec.Player

/-!
# Following a recording that grows

With `-p` the player first skips what is there and then retries `ttyread` for ever.
All that these loops need of `ttyread` is that a call either returns the next record
or returns 0 and leaves the reader in front of the same record: then, whatever the
file does, the records that are skipped and the records that are played are the
records of the recording, each once and in order.  `Follows` says that of the calls
that start in a good state, so it can be used where it only holds under a condition.

For a plain recording there is no condition: a short read seeks back to the
beginning of the record.

## Main definitions

* `Polls` — successive calls of `ttyread`, each from a state in which it is good.
* `Follows` — what a call from such a state does.
* `PlainAt` — the reader of a growing plain recording is in front of these records.

## Main results

* `Follows.ttypeek` — the loops of `ttypeek`, for any reader that follows.
* `ttypeek_plain` — **following a growing plain recording delivers every record
  exactly once.**
-/

namespace TtyRec

variable {S W : Type*}

section Follows

variable {host : Host} {freadWrapper : FreadWrapper S} {malloc : ℕ → Bool}

/-- Clearing the error indicator before a call changes nothing. -/
theorem ttyread_clearerr (st : InFile × S) :
    ttyread host freadWrapper malloc (clearerr st.1, st.2) = ttyread host freadWrapper malloc st :=
  rfl

theorem ttypread_clearerr (tries : ℕ) (st : InFile × S) :
    ttypread host freadWrapper malloc tries (clearerr st.1, st.2) =
      ttypread host freadWrapper malloc tries st := by
  cases tries with
  | zero => rfl
  | succ tries => rw [ttypread, ttypread, ttyread_clearerr]

theorem ttypread_of_none {st st' : InFile × S}
    (h : ttyread host freadWrapper malloc st = .ret (none, st')) (tries : ℕ) :
    ttypread host freadWrapper malloc (tries + 1) st =
      ttypread host freadWrapper malloc tries st' := by
  rw [ttypread, h]
  exact ttypread_clearerr tries st'

theorem ttypread_of_some {st st' : InFile × S} {r : Record}
    (h : ttyread host freadWrapper malloc st = .ret (some r, st')) (tries : ℕ) :
    ttypread host freadWrapper malloc (tries + 1) st = .ret (some r, st') := by
  rw [ttypread, h]
  rfl

variable (host freadWrapper malloc) in
/-- `n` successive calls of `ttyread`, each made in a state of `ok`. -/
def Polls (ok : InFile × S → Prop) : ℕ → InFile × S → Prop
  | 0, _ => True
  | n + 1, st => ok st ∧ ∀ r st', ttyread host freadWrapper malloc st = .ret (r, st') →
      Polls ok n st'

variable (host freadWrapper malloc) in
/-- From a state of `ok` in front of the records `rest`, a call of `ttyread` returns
the first of them, or returns 0 and stays in front of them. -/
def Follows (ok : InFile × S → Prop) (A : InFile × S → List Record → Prop) : Prop :=
  ∀ st rest, A st rest → ok st →
    (∃ st', ttyread host freadWrapper malloc st = .ret (none, st') ∧ A st' rest ∧
      st.1.reads < st'.1.reads) ∨
    ∃ r rest' st', rest = r :: rest' ∧ ttyread host freadWrapper malloc st = .ret (some r, st') ∧
      A st' rest' ∧ st.1.reads ≤ st'.1.reads

variable {ok : InFile × S → Prop} {A : InFile × S → List Record → Prop}

/-- Skipping stops in front of a record, at a call that has returned 0.  The induction is on the
calls that are left, and each one that returns a record takes it from the recording. -/
theorem Follows.skip (hf : Follows host freadWrapper malloc ok A)
    (writeFunc : List UInt8 → W → W) (waitFunc : Timeval → Timeval → W → W) :
    ∀ (n : ℕ) (st : InFile × S) (rest : List Record) (prev : Option Timeval) (w : W),
      A st rest → (∀ m, Polls host freadWrapper malloc ok m st) → rest.length < n →
      ∃ k st₁ st₂, k ≤ rest.length ∧
        (ttyplay (ttyread host freadWrapper malloc) writeFunc waitFunc n prev st w).records =
          rest.take k ∧
        (ttyplay (ttyread host freadWrapper malloc) writeFunc waitFunc n prev st w).stop = .eof ∧
        (ttyplay (ttyread host freadWrapper malloc) writeFunc waitFunc n prev st w).state = st₂ ∧
        A st₁ (rest.drop k) ∧ ok st₁ ∧ st.1.reads ≤ st₁.1.reads ∧
        ttyread host freadWrapper malloc st₁ = .ret (none, st₂) ∧ A st₂ (rest.drop k) ∧
        ∀ m, Polls host freadWrapper malloc ok m st₂ := by
  intro n
  induction n with
  | zero =>
    intro st rest prev w _ _ hn
    omega
  | succ n ih =>
    intro st rest prev w hA hpolls hn
    rcases hf st rest hA (hpolls 1).1 with ⟨st', hread, hA', -⟩ | ⟨r, rest', st', rfl, hread, hA', hle⟩
    · refine ⟨0, st, st', Nat.zero_le _, ?_, ?_, ?_, hA, (hpolls 1).1, le_rfl, hread, hA', ?_⟩
      · rw [ttyplay_of_none hread]
        rfl
      · rw [ttyplay_of_none hread]
      · rw [ttyplay_of_none hread]
      · intro m
        exact (hpolls (m + 1)).2 none st' hread
    · obtain ⟨w', hrec, hstop, hstate⟩ := ttyplay_of_some writeFunc waitFunc hread n prev w
      obtain ⟨k, st₁, st₂, hk, hrec', hstop', hstate', hA₁, hok₁, hle₁, hread₁, hA₂, hpolls₂⟩ :=
        ih st' rest' (some r.hdr.tv) w' hA' (fun m => (hpolls (m + 1)).2 (some r) st' hread)
          (by simpa using hn)
      refine ⟨k + 1, st₁, st₂, by simpa using hk, ?_, hstop.trans hstop', hstate.trans hstate', hA₁,
        hok₁, hle.trans hle₁, hread₁, hA₂, hpolls₂⟩
      rw [hrec, hrec', List.take_succ_cons]

/-- Retrying returns the next record, or uses up its tries. -/
theorem Follows.ttypread (hf : Follows host freadWrapper malloc ok A) :
    ∀ (tries : ℕ) (st : InFile × S) (rest : List Record), A st rest →
      (∀ m, Polls host freadWrapper malloc ok m st) →
      ttypread host freadWrapper malloc tries st = .spin ∨
        ∃ r rest' st', rest = r :: rest' ∧
          TtyRec.ttypread host freadWrapper malloc tries st = .ret (some r, st') ∧ A st' rest' ∧
          (∀ m, Polls host freadWrapper malloc ok m st') ∧ st.1.reads ≤ st'.1.reads := by
  intro tries
  induction tries with
  | zero =>
    intro st rest _ _
    exact .inl rfl
  | succ tries ih =>
    intro st rest hA hpolls
    rcases hf st rest hA (hpolls 1).1 with ⟨st', hread, hA', hlt⟩ | ⟨r, rest', st', rfl, hread, hA', hle⟩
    · rw [ttypread_of_none hread]
      have hpolls' : ∀ m, Polls host freadWrapper malloc ok m st' := fun m =>
        (hpolls (m + 1)).2 none st' hread
      rcases ih st' rest hA' hpolls' with hspin | ⟨r, rest', st'', hrest, hread', hA'', hpolls'', hle⟩
      · exact .inl hspin
      · exact .inr ⟨r, rest', st'', hrest, hread', hA'', hpolls'', hlt.le.trans hle⟩
    · rw [ttypread_of_some hread]
      exact .inr ⟨r, rest', st', rfl, rfl, hA', fun m => (hpolls (m + 1)).2 (some r) st' hread, hle⟩

/-- From the `N`-th read on, no call returns 0 in front of a record. -/
def Answers (host : Host) (freadWrapper : FreadWrapper S) (malloc : ℕ → Bool)
    (ok : InFile × S → Prop) (A : InFile × S → List Record → Prop) (N : ℕ) : Prop :=
  ∀ st rest, A st rest → ok st → N ≤ st.1.reads → rest ≠ [] →
    ∀ st', ttyread host freadWrapper malloc st ≠ .ret (none, st')

/-- Then there is a number of tries that is enough. -/
theorem Follows.ttypread_ne_spin (hf : Follows host freadWrapper malloc ok A) {N : ℕ}
    (hN : Answers host freadWrapper malloc ok A N) :
    ∀ (tries : ℕ) (st : InFile × S) (rest : List Record), A st rest →
      (∀ m, Polls host freadWrapper malloc ok m st) → rest ≠ [] → N ≤ st.1.reads + tries →
      TtyRec.ttypread host freadWrapper malloc (tries + 1) st ≠ .spin := by
  intro tries
  induction tries with
  | zero =>
    intro st rest hA hpolls hne hle
    rcases hf st rest hA (hpolls 1).1 with ⟨st', hread, -, -⟩ | ⟨r, rest', st', rfl, hread, -, -⟩
    · exact absurd hread (hN st rest hA (hpolls 1).1 hle hne st')
    · rw [ttypread_of_some hread]
      exact fun h => nomatch h
  | succ tries ih =>
    intro st rest hA hpolls hne hle
    rcases hf st rest hA (hpolls 1).1 with ⟨st', hread, hA', hlt⟩ | ⟨r, rest', st', rfl, hread, -, -⟩
    · -- a call that returns 0 has read from the file at least once
      rw [ttypread_of_none hread]
      exact ih st' rest hA' (fun m => (hpolls (m + 1)).2 none st' hread) hne (by omega)
    · rw [ttypread_of_some hread]
      exact fun h => nomatch h

/-- Following plays the next records, each once and in order. -/
theorem Follows.play_prefix (hf : Follows host freadWrapper malloc ok A) (tries : ℕ)
    (writeFunc : List UInt8 → W → W) (waitFunc : Timeval → Timeval → W → W) :
    ∀ (m : ℕ) (st : InFile × S) (rest : List Record) (prev : Option Timeval) (w : W),
      A st rest → (∀ m, Polls host freadWrapper malloc ok m st) →
      (ttyplay (TtyRec.ttypread host freadWrapper malloc tries) writeFunc waitFunc m prev st
        w).records <+: rest := by
  intro m
  induction m with
  | zero =>
    intro st rest prev w _ _
    exact List.nil_prefix
  | succ m ih =>
    intro st rest prev w hA hpolls
    rcases hf.ttypread tries st rest hA hpolls with
      hspin | ⟨r, rest', st', rfl, hread, hA', hpolls', -⟩
    · rw [ttyplay_of_spin hspin]
      exact List.nil_prefix
    · obtain ⟨w', hrec, -, -⟩ := ttyplay_of_some writeFunc waitFunc hread m prev w
      rw [hrec]
      exact List.cons_prefix_cons.mpr ⟨rfl, ih st' rest' _ w' hA' hpolls'⟩

/-- And all of them, when the file answers in the end. -/
theorem Follows.play_all (hf : Follows host freadWrapper malloc ok A) {N : ℕ}
    (hN : Answers host freadWrapper malloc ok A N)
    (writeFunc : List UInt8 → W → W) (waitFunc : Timeval → Timeval → W → W) :
    ∀ (m : ℕ) (st : InFile × S) (rest : List Record) (prev : Option Timeval) (w : W),
      A st rest → (∀ m, Polls host freadWrapper malloc ok m st) → rest.length ≤ m →
      (ttyplay (TtyRec.ttypread host freadWrapper malloc (N + 1)) writeFunc waitFunc m prev st
        w).records = rest := by
  intro m
  induction m with
  | zero =>
    intro st rest prev w _ _ hm
    rw [List.length_eq_zero_iff.mp (Nat.le_zero.mp hm)]
    rfl
  | succ m ih =>
    intro st rest prev w hA hpolls hm
    rcases hf.ttypread (N + 1) st rest hA hpolls with
      hspin | ⟨r, rest', st', rfl, hread, hA', hpolls', -⟩
    · rw [ttyplay_of_spin hspin]
      by_contra hne
      exact hf.ttypread_ne_spin hN N st rest hA hpolls (Ne.symm hne) (by omega) hspin
    · obtain ⟨w', hrec, -, -⟩ := ttyplay_of_some writeFunc waitFunc hread m prev w
      rw [hrec, ih st' rest' _ w' hA' hpolls' (by simpa using hm)]

/-- **The loops of `ttypeek`, for any reader that follows.**  Some records are
skipped, up to a call that returns 0; then the payloads of the next ones are
written, and of all of them when the file answers in the end. -/
theorem Follows.ttypeek (hf : Follows host freadWrapper malloc ok A) {st : InFile × S}
    {rest : List Record} (hA : A st rest) (hpolls : ∀ m, Polls host freadWrapper malloc ok m st)
    {n : ℕ} (hn : rest.length < n) :
    ∃ k st₁ st₂, k ≤ rest.length ∧ A st₁ (rest.drop k) ∧ ok st₁ ∧ st.1.reads ≤ st₁.1.reads ∧
      ttyread host freadWrapper malloc st₁ = .ret (none, st₂) ∧
      (∀ tries m, (TtyRec.ttypeek host freadWrapper malloc n tries m st).1.records = rest.take k ∧
        (TtyRec.ttypeek host freadWrapper malloc n tries m st).1.stop = .eof ∧
        (TtyRec.ttypeek host freadWrapper malloc n tries m st).1.state = st₂ ∧
        (TtyRec.ttypeek host freadWrapper malloc n tries m st).2.records <+: rest.drop k ∧
        (TtyRec.ttypeek host freadWrapper malloc n tries m st).2.world =
          (TtyRec.ttypeek host freadWrapper malloc n tries m st).2.records.map Record.payload) ∧
      ∀ N, Answers host freadWrapper malloc ok A N → ∀ m, rest.length ≤ m →
        (TtyRec.ttypeek host freadWrapper malloc n (N + 1) m st).2.records = rest.drop k := by
  obtain ⟨k, st₁, st₂, hk, hrec, hstop, hstate, hA₁, hok₁, hle, hread, hA₂, hpolls₂⟩ :=
    hf.skip ttynowrite ttynowait n st rest none () hA hpolls hn
  refine ⟨k, st₁, st₂, hk, hA₁, hok₁, hle, hread, ?_, ?_⟩
  · intro tries m
    refine ⟨hrec, hstop, hstate, ?_, ?_⟩
    · simp only [TtyRec.ttypeek, ttyskipall, hstop, hstate]
      exact hf.play_prefix tries ttywrite ttynowait m st₂ _ none [] hA₂ hpolls₂
    · simp only [TtyRec.ttypeek, ttyskipall, hstop]
      have hwait : ∀ p c (out : List (List UInt8)), ttynowait p c out = out := fun _ _ _ => rfl
      exact ttyplay_ttywrite hwait m none _ []
  · intro N hN m hm
    simp only [TtyRec.ttypeek, ttyskipall, hstop, hstate]
    apply hf.play_all hN ttywrite ttynowait m st₂ _ none [] hA₂ hpolls₂
    rw [List.length_drop]
    omega

end Follows

/-! ### Plain recordings -/

/-- The stream is in front of the records `rest` of a plain recording that grows as scheduled: what
can be seen of the file is the beginning of `data`, whatever it holds behind that. -/
structure PlainAt (data : List UInt8) (growth : Growth) (st : InFile × Unit)
    (rest : List Record) : Prop where
  seen : ∀ m, st.1.data.take (growth.size m) = data.take (growth.size m)
  growth_eq : st.1.growth = growth
  fault : ∀ n, st.1.fault n = false
  seekable : st.1.seekable = true
  valid : ∀ r ∈ rest, r.Valid
  drop_eq : data.drop st.1.pos = rest.flatMap Record.encode

section Plain

variable {host : Host} {data : List UInt8} {growth : Growth} {st : InFile × Unit}
  {rest : List Record}

/-- After some reads, and back where the records `rest'` are. -/
theorem PlainAt.later (h : PlainAt data growth st rest) {fp' : InFile} (hl : st.1.Later fp')
    {rest' : List Record} (hvalid : ∀ r ∈ rest', r.Valid)
    (hdrop : data.drop fp'.pos = rest'.flatMap Record.encode) :
    PlainAt data growth (fp', ()) rest' :=
  ⟨fun m => by rw [hl.data, h.seen], hl.growth.trans h.growth_eq, fun n => by rw [hl.fault, h.fault],
    hl.seekable.trans h.seekable, hvalid, hdrop⟩

/-- What can be seen of the records when `m` reads were made. -/
theorem PlainAt.visible_eq (h : PlainAt data growth st rest) (m : ℕ) :
    (data.take (growth.size m)).drop st.1.pos =
      (rest.flatMap Record.encode).take (growth.size m - st.1.pos) := by
  rw [List.drop_take, h.drop_eq]

/-- What a read gives, and where it leaves the stream. -/
private theorem freadNone_plain (fp : InFile) (u : Unit)
    (hdata : ∀ m, fp.data.take (growth.size m) = data.take (growth.size m))
    (hgrowth : fp.growth = growth) (hfault : ∀ n, fp.fault n = false) (herr : fp.error = false)
    {zs : List UInt8} (hdrop : data.drop fp.pos = zs) (size nmemb : ℕ) {got : List UInt8}
    (hgot : got = (zs.take (growth.size fp.reads - fp.pos)).take (size * nmemb)) :
    ∃ fp', freadNone size nmemb (fp, u) = .ret ((got.length / size, got), (fp', ())) ∧
      fp.Later fp' ∧ fp'.error = false ∧ fp'.reads = fp.reads + 1 ∧
      fp'.pos = fp.pos + got.length := by
  have hunread : fp.unread = zs.take (growth.size fp.reads - fp.pos) := by
    rw [InFile.unread, hgrowth, hdata, List.drop_take, hdrop]
  refine ⟨(fread size nmemb fp).2, ?_, InFile.later_fread _ _ _, fread_error hfault herr _ _, rfl, ?_⟩
  · rw [freadNone, hgot]
    simp only [fread, hunread]
  · rw [hgot]
    simp only [fread, hunread]

variable (host) in
/-- **One call**: it returns the first record if it can see all of it, and otherwise
goes back in front of it. -/
theorem ttyread_plain (h : PlainAt data growth st rest) :
    (∃ m st', ttyread host freadNone (fun _ => true) st = .ret (none, st') ∧
      PlainAt data growth st' rest ∧ st.1.reads ≤ m ∧ m < st'.1.reads ∧
      nextRecord ((data.take (growth.size m)).drop st.1.pos) = none) ∨
    ∃ r rest' st', rest = r :: rest' ∧
      ttyread host freadNone (fun _ => true) st = .ret (some r, st') ∧
      PlainAt data growth st' rest' ∧ st.1.reads ≤ st'.1.reads := by
  -- the header
  obtain ⟨fp₁, hcall₁, hlater₁, herr₁, hreads₁, hpos₁⟩ :=
    freadNone_plain (clearerr st.1) st.2 h.seen h.growth_eq h.fault rfl h.drop_eq 4 3 rfl
  have hl₁ : st.1.Later fp₁ := st.1.later_clearerr.trans hlater₁
  simp only [clearerr_reads, clearerr_pos] at hcall₁ hreads₁ hpos₁
  rw [← h.visible_eq] at hcall₁ hpos₁
  -- where a short read seeks back to
  have hback : ∀ fp' : InFile, fp'.error = false →
      ttyreadErr (fgetpos st.1) (fp', ()) = (fsetpos st.1.pos fp', ()) := by
    intro fp' herr
    have hget : fgetpos st.1 = some st.1.pos := if_pos h.seekable
    simp only [ttyreadErr, herr, Bool.false_eq_true, if_false, hget]
  by_cases h12 : ((data.take (growth.size st.1.reads)).drop st.1.pos).length < 12
  · -- it is not complete
    have hn : (((data.take (growth.size st.1.reads)).drop st.1.pos).take (4 * 3)).length / 4 ≠ 3 := by
      rw [List.length_take]
      omega
    refine .inl ⟨st.1.reads, (fsetpos st.1.pos fp₁, ()), ?_, ?_, le_rfl, ?_, ?_⟩
    · rw [ttyread_of_header_short hcall₁ hn, hback fp₁ herr₁]
    · exact h.later (hl₁.fsetpos _) h.valid h.drop_eq
    · rw [fsetpos_reads, hreads₁]
      exact Nat.lt_succ_self _
    · rw [nextRecord, if_pos h12]
  · -- it is the header of the first record
    obtain ⟨r, rest', rfl⟩ : ∃ r rest', rest = r :: rest' := by
      cases rest with
      | nil =>
        rw [h.visible_eq] at h12
        simp at h12
      | cons r rest' => exact ⟨r, rest', rfl⟩
    have hr : r.Valid := h.valid r List.mem_cons_self
    have hrest' : ∀ r' ∈ rest', r'.Valid := fun r' hr' => h.valid r' (List.mem_cons_of_mem r hr')
    have hfull : data.drop st.1.pos = r.encode ++ rest'.flatMap Record.encode := h.drop_eq
    have hnext := nextRecord_encode hr (rest'.flatMap Record.encode)
    obtain ⟨hlen12, hhdr, -, -, -, hpayload, hrest⟩ := nextRecord_eq_some.mp hnext
    have hlen : r.hdr.len.toNat = r.payload.length := by rw [hr.len_eq, Int.toNat_natCast]
    have hpos := hr.len_pos
    have hgot₁ : ((data.take (growth.size st.1.reads)).drop st.1.pos).take (4 * 3) =
        (r.encode ++ rest'.flatMap Record.encode).take 12 := by
      rw [List.drop_take, hfull, List.length_take] at *
      rw [List.take_take, min_eq_left (by omega)]
    have hlen₁ : ((r.encode ++ rest'.flatMap Record.encode).take 12).length = 12 := by
      rw [List.length_take, min_eq_left hlen12]
    rw [hgot₁, hlen₁] at hcall₁ hpos₁
    -- the payload
    have hdrop₁ : data.drop fp₁.pos = (r.encode ++ rest'.flatMap Record.encode).drop 12 := by
      rw [hpos₁, ← List.drop_drop, hfull]
    obtain ⟨fp₂, hcall₂, hlater₂, herr₂, hreads₂, hpos₂⟩ :=
      freadNone_plain fp₁ () (fun m => by rw [hl₁.data, h.seen]) (hl₁.growth.trans h.growth_eq)
        (fun n => by rw [hl₁.fault, h.fault]) herr₁ hdrop₁ 1 r.hdr.len.toNat rfl
    have hl₂ := hl₁.trans hlater₂
    rw [Nat.div_one, one_mul] at hcall₂
    rw [one_mul] at hpos₂
    have hbody : (r.encode ++ rest'.flatMap Record.encode).drop 12 =
        r.payload ++ rest'.flatMap Record.encode := by
      rw [Record.encode, List.append_assoc, List.drop_left' (length_headerBytes _ _)]
    have hread := ttyread_of_header host (fun _ => true) hcall₁ hhdr.symm
      (by have := hr.len_le; omega) rfl hcall₂
    rw [hbody, hlen] at hread hpos₂
    by_cases hall : r.payload.length ≤ growth.size fp₁.reads - fp₁.pos
    · -- all of it can be seen
      have hgot₂ : ((r.payload ++ rest'.flatMap Record.encode).take
          (growth.size fp₁.reads - fp₁.pos)).take r.payload.length = r.payload := by
        rw [List.take_take, min_eq_left hall, List.take_left]
      rw [hgot₂, if_pos rfl] at hread
      rw [hgot₂] at hpos₂
      refine .inr ⟨r, rest', (fp₂, ()), rfl, hread, h.later hl₂ hrest' ?_, hl₂.reads⟩
      rw [hpos₂, ← List.drop_drop, hdrop₁, hbody, List.drop_left]
    · -- only a part of it can
      have hshort : (((r.payload ++ rest'.flatMap Record.encode).take
          (growth.size fp₁.reads - fp₁.pos)).take r.payload.length).length ≠ r.payload.length := by
        rw [List.length_take, List.length_take]
        omega
      rw [if_neg hshort, hback fp₂ herr₂] at hread
      refine .inl ⟨fp₁.reads, _, hread, h.later (hl₂.fsetpos _) h.valid h.drop_eq, hl₁.reads, ?_, ?_⟩
      · rw [fsetpos_reads, hreads₂]
        exact Nat.lt_succ_self _
      · rw [List.drop_take, hfull]
        apply nextRecord_of_prefix hr _ (List.take_prefix _ _)
        rw [List.length_take]
        omega

/-- A growing plain recording can be followed, whatever it does. -/
theorem follows_plain (host : Host) (data : List UInt8) (growth : Growth) :
    Follows host freadNone (fun _ => true) (fun _ => True) (PlainAt data growth) := by
  intro st rest h _
  rcases ttyread_plain host h with ⟨m, st', hread, h', hle, hlt, -⟩ | hhit
  · exact .inl ⟨st', hread, h', hle.trans_lt hlt⟩
  · exact .inr hhit

theorem polls_true (host : Host) (freadWrapper : FreadWrapper S) (malloc : ℕ → Bool) (n : ℕ) :
    ∀ st, Polls host freadWrapper malloc (fun _ => True) n st := by
  induction n with
  | zero => exact fun _ => trivial
  | succ n ih => exact fun _ => ⟨trivial, fun _ st' _ => ih st'⟩

/-- A call that returns 0 has not seen all of the first record. -/
theorem nextRecord_of_miss (h : PlainAt data growth st rest) {st' : InFile × Unit}
    (hread : ttyread host freadNone (fun _ => true) st = .ret (none, st')) :
    ∃ m, st.1.reads ≤ m ∧ nextRecord ((data.take (growth.size m)).drop st.1.pos) = none := by
  rcases ttyread_plain host h with ⟨m, _, -, -, hle, -, hnext⟩ | ⟨r, _, _, -, hread', -⟩
  · exact ⟨m, hle, hnext⟩
  · rw [hread] at hread'
    cases hread'

/-- When all of the file is there, every call answers. -/
theorem answers_plain (host : Host) {N : ℕ} (hN : data.length ≤ growth.size N) :
    Answers host freadNone (fun _ => true) (fun _ => True) (PlainAt data growth) N := by
  intro st rest h _ hle hne st' hread
  obtain ⟨m, hm, hnext⟩ := nextRecord_of_miss h hread
  rw [List.take_of_length_le (hN.trans (growth.mono (hle.trans hm))), h.drop_eq] at hnext
  cases rest with
  | nil => exact hne rfl
  | cons r rest' =>
    rw [List.flatMap_cons, nextRecord_encode (h.valid r List.mem_cons_self)] at hnext
    cases hnext

/-- Where skipping stops, no more records were complete at the beginning. -/
theorem length_records_le {rs : List Record} (hrs : ∀ r ∈ rs, r.Valid) {k : ℕ}
    (hk : k ≤ rs.length) (h : PlainAt (rs.flatMap Record.encode) growth st (rs.drop k))
    {m : ℕ} (hnext : nextRecord (((rs.flatMap Record.encode).take (growth.size m)).drop st.1.pos) =
      none) :
    (records ((rs.flatMap Record.encode).take (growth.size 0))).length ≤ k := by
  have htake : ∀ r ∈ rs.take k, r.Valid := fun r hr => hrs r (List.mem_of_mem_take hr)
  have hsplit : rs.flatMap Record.encode =
      (rs.take k).flatMap Record.encode ++ (rs.drop k).flatMap Record.encode := by
    rw [← List.flatMap_append, List.take_append_drop]
  generalize hL : (rs.take k).flatMap Record.encode = L at hsplit
  generalize hR : (rs.drop k).flatMap Record.encode = R at hsplit
  have hdrop := h.drop_eq
  rw [hR, hsplit] at hdrop
  rw [hsplit, List.drop_take, hdrop] at hnext
  -- the records before the position, and what can be seen of the others
  have hsee : (L ++ R).take (growth.size 0) <+: L ++ R.take (growth.size m - L.length) := by
    rw [← List.take_length_add_append]
    refine List.take_prefix_take_left ((growth.mono (Nat.zero_le m)).trans ?_)
    omega
  have hnone : records (R.take (growth.size m - L.length)) = [] := by
    rcases Nat.eq_zero_or_pos R.length with hzero | hpositive
    · rw [List.length_eq_zero_iff.mp hzero, List.take_nil, records_nil]
    · have hpos : st.1.pos = L.length := by
        have := congrArg List.length hdrop
        rw [List.length_drop, List.length_append] at this
        omega
      rw [← hpos]
      exact records_of_next_none hnext
  have hlen := (records_mono hsee).length_le
  rw [← hL, records_flatMap_encode htake, hL, hnone, List.append_nil, List.length_take,
    min_eq_left hk] at hlen
  rwa [hsplit]

/-- **Following a growing plain recording delivers every record exactly once**:
`ttypeek` skips some of the records, among them all that were complete when it
started, and then writes the payloads of the next ones, in order; and of all of them
when the recording is there in the end. -/
theorem ttypeek_plain (host : Host) {rs : List Record} (hrs : ∀ r ∈ rs, r.Valid) (growth : Growth)
    {n : ℕ} (hn : rs.length < n) :
    let st := (InFile.growing (rs.flatMap Record.encode) growth, ())
    let peek := fun tries m => ttypeek host freadNone (fun _ => true) n tries m st
    ∃ k, (records ((rs.flatMap Record.encode).take (growth.size 0))).length ≤ k ∧
      (∀ tries m, (peek tries m).1.records = rs.take k ∧ (peek tries m).1.stop = .eof ∧
        (peek tries m).2.records <+: rs.drop k ∧
        (peek tries m).2.world = (peek tries m).2.records.map Record.payload) ∧
      ∀ N, (rs.flatMap Record.encode).length ≤ growth.size N → ∀ m, rs.length ≤ m →
        (peek (N + 1) m).2.records = rs.drop k := by
  intro st peek
  have hA : PlainAt (rs.flatMap Record.encode) growth st rs :=
    ⟨fun _ => rfl, rfl, fun _ => rfl, rfl, hrs, rfl⟩
  obtain ⟨k, st₁, st₂, hk, hA₁, -, -, hread, hpeek, hall⟩ := (follows_plain host _ growth).ttypeek hA
    (fun m => polls_true host freadNone _ m st) hn
  obtain ⟨m, -, hnext⟩ := nextRecord_of_miss hA₁ hread
  refine ⟨k, length_records_le hrs hk hA₁ hnext, ?_, ?_⟩
  · intro tries m
    obtain ⟨hrec, hstop, -, hpre, hworld⟩ := hpeek tries m
    exact ⟨hrec, hstop, hpre, hworld⟩
  · intro N hN m hm
    exact hall N (answers_plain host hN) m hm

end Plain

/-- A recording of one byte, of which five bytes can be seen at first. -/
def oneByteRecord : Record := ⟨⟨⟨1000, 0⟩, 1⟩, [65]⟩

theorem oneByteRecord_valid : oneByteRecord.Valid := by
  refine ⟨⟨?_, ?_, ?_, ?_, ?_, ?_⟩, rfl, ?_, ?_⟩ <;> simp [oneByteRecord, maxRecordLen]

/-- The first `n` reads can see `first` bytes, and the next ones `next`. -/
def Growth.twice (n first next : ℕ) : Growth where
  size m := if m < n then min first next else next
  mono m₁ m₂ hm := by
    dsimp only
    split <;> split <;> omega

theorem ttypeek_plain_twice :
    ∃ k, (∀ tries m,
        (ttypeek .little freadNone (fun _ => true) 2 tries m
          (InFile.growing oneByteRecord.encode (.twice 1 5 13), ())).1.records =
          [oneByteRecord].take k) ∧
      (ttypeek .little freadNone (fun _ => true) 2 2 1
        (InFile.growing oneByteRecord.encode (.twice 1 5 13), ())).2.records =
        [oneByteRecord].drop k := by
  have hrs : ∀ r ∈ [oneByteRecord], r.Valid := by
    intro r hr
    rw [List.mem_singleton.mp hr]
    exact oneByteRecord_valid
  obtain ⟨k, -, hpeek, hall⟩ := ttypeek_plain .little hrs (.twice 1 5 13) (by decide : 1 < 2)
  exact ⟨k, fun tries m => (hpeek tries m).1, hall 1 (by decide) 1 le_rfl⟩

end TtyRec
