import TtyRec.Follow
import TtyRec.Zstd.Raw
import TtyRec.Zstd.Read

/-!
# Following a compressed recording

`ttyread` goes back after a short read by setting the position of the file.  The
static variables of `fread_wrapper_zstd` do not go back: what the decompressor has
consumed since is given to it a second time, and what it has put out is lost.  So a
compressed recording can be followed as long as a call of `ttyread` that comes to
the end of the file has neither read from the file nor handed out plaintext, and not
otherwise.

## Main definitions

* `CleanEof`, `CleanRead` — a call that comes to the end of the file, if it does,
  with nothing to take back.
* `ZAt` — the reader of a growing compressed recording is in front of these records.

## Main results

* `ttypeek_zstd` — **following a growing compressed recording is faithful, as long
  as there is nothing to take back.**
* `ttypeek_zstd_rewinds` — a recording that is seen in two parts ends the player.
-/

namespace TtyRec

open StreamCodec

variable {D : Type*}

section Clean

variable (dec : Decoder D UInt8 UInt8)

/-- When `fread` returns 0, nothing has been copied and the position is `saved`;
with no position, `fread` does not return 0. -/
def CleanEof (saved : Option ℕ) : ℕ → Label → ℕ → List UInt8 → InFile → ZReader D → Prop
  | 0, _, _, _, _, _ => True
  | n + 1, l, want, copied, fp, z =>
    match zstep dec l want copied fp z with
    | .error => True
    | .full _ _ _ => True
    | .eof copied fp _ => copied = [] ∧ some fp.pos = saved
    | .jump l want copied fp z => CleanEof saved n l want copied fp z

/-- Neither of the two calls of `fread_wrapper_zstd` that `ttyread` makes comes to the
end of the file with something to take back: the second one always has the header. -/
def CleanRead (fuel : ℕ) (st : InFile × Option (ZReader D)) : Prop :=
  CleanEof dec (some st.1.pos) fuel .gotdata (4 * 3) [] (clearerr st.1) (zstate dec st) ∧
    ∀ bs st₁, freadWrapperZstd dec fuel 4 3 (clearerr st.1, st.2) = .ret ((3, bs), st₁) →
      CleanEof dec none fuel .gotdata (decodeHeader .little bs).len.toNat [] st₁.1 (zstate dec st₁)

end Clean

variable {dec : Decoder D UInt8 UInt8} {Frame : List UInt8 → List UInt8 → Prop}

/-- A clean call that comes to the end of the file has moved nothing. -/
theorem CleanEof.eof {saved : Option ℕ} :
    ∀ {n : ℕ} {l : Label} {want : ℕ} {copied o : List UInt8} {fp fp' : InFile} {z z' : ZReader D},
      CleanEof dec saved n l want copied fp z →
      freadLoop dec n l want copied fp z = .ret ((false, o), (fp', z')) →
      o = [] ∧ some fp'.pos = saved := by
  intro n
  induction n with
  | zero =>
    intro l want copied o fp fp' z z' _ hloop
    cases hloop
  | succ n ih =>
    intro l want copied o fp fp' z z' hclean hloop
    rw [freadLoop] at hloop
    rw [CleanEof] at hclean
    cases hstep : zstep dec l want copied fp z with
    | error => rw [hstep] at hloop; cases hloop
    | full copied₁ fp₁ z₁ => rw [hstep] at hloop; cases hloop
    | eof copied₁ fp₁ z₁ =>
      rw [hstep] at hloop hclean
      cases hloop
      exact hclean
    | jump l₁ want₁ copied₁ fp₁ z₁ =>
      rw [hstep] at hloop hclean
      exact ih hclean hloop

/-- A call that hands out all that it is asked for does not come to the end. -/
theorem CleanEof.of_full {saved : Option ℕ} :
    ∀ {n : ℕ} {l : Label} {want : ℕ} {copied o : List UInt8} {fp fp' : InFile} {z z' : ZReader D},
      freadLoop dec n l want copied fp z = .ret ((true, o), (fp', z')) →
      CleanEof dec saved n l want copied fp z := by
  intro n
  induction n with
  | zero =>
    intro l want copied o fp fp' z z' _
    trivial
  | succ n ih =>
    intro l want copied o fp fp' z z' hloop
    rw [freadLoop] at hloop
    rw [CleanEof]
    cases hstep : zstep dec l want copied fp z with
    | error => trivial
    | full copied₁ fp₁ z₁ => trivial
    | eof copied₁ fp₁ z₁ => rw [hstep] at hloop; cases hloop
    | jump l₁ want₁ copied₁ fp₁ z₁ =>
      rw [hstep] at hloop
      exact ih hloop

/-- The reader is in front of the records `rest` of the recording `X` that grows as scheduled.  What
it has decompressed and not handed out yet belongs to them. -/
structure ZAt (dec : Decoder D UInt8 UInt8) (Frame : List UInt8 → List UInt8 → Prop)
    (X : List UInt8) (growth : Growth) (fuel : ℕ) (st : InFile × Option (ZReader D))
    (rest : List Record) : Prop where
  data_eq : st.1.data = X
  growth_eq : st.1.growth = growth
  fault : ∀ n, st.1.fault n = false
  seekable : st.1.seekable = true
  valid : ∀ r ∈ rest, r.Valid
  plain : ∃ q, ZInv dec Frame X st.1 (zstate dec st) q ∧
    (zstate dec st).out ++ q = rest.flatMap Record.encode ∧
    2 * (zstate dec st).cost st.1 q + 1 < fuel

theorem fsetpos_self {fp : InFile} {pos : ℕ} (h : fp.pos = pos) : fsetpos pos fp = fp := by
  subst h
  rfl

section Follow

variable {host : Host} {X : List UInt8} {growth : Growth} {fuel : ℕ}
  {st : InFile × Option (ZReader D)} {rest : List Record}

/-- After some reads, in front of the records `rest'`. -/
theorem ZAt.later (h : ZAt dec Frame X growth fuel st rest) {fp' : InFile} {z' : ZReader D}
    (hl : st.1.Later fp') {rest' : List Record} (hvalid : ∀ r ∈ rest', r.Valid) {q' : List UInt8}
    (hinv : ZInv dec Frame X fp' z' q') (hq : z'.out ++ q' = rest'.flatMap Record.encode)
    (hfuel : 2 * z'.cost fp' q' + 1 < fuel) : ZAt dec Frame X growth fuel (fp', some z') rest' :=
  ⟨hl.data.trans h.data_eq, hl.growth.trans h.growth_eq, fun n => by rw [hl.fault, h.fault],
    hl.seekable.trans h.seekable, hvalid, q', hinv, hq, hfuel⟩

/-- The decompressor has taken all that the file shows to its `m`-th read, and has
nothing left over. -/
def Exhausted (dec : Decoder D UInt8 UInt8) (st : InFile × Option (ZReader D)) (m : ℕ) : Prop :=
  st.1.UsedUp m ∧ (zstate dec st).input = [] ∧ (zstate dec st).out = []

variable (host) in
/-- What a call can do in front of the records `rest`, or of a beginning of them: the
header is not there, or the payload is not, or it returns the first record. -/
theorem ttyread_zstd_cases (law : dec.Lawful Frame) (hvalid : ∀ r ∈ rest, r.Valid) {q : List UInt8}
    (hinv : ZInv dec Frame X st.1 (zstate dec st) q)
    (hq : (zstate dec st).out ++ q <+: rest.flatMap Record.encode)
    (hfuel : 2 * (zstate dec st).cost st.1 q + 1 < fuel) :
    (∃ o fp₁ z₁ q₁, freadLoop dec fuel .gotdata (4 * 3) [] (clearerr st.1) (zstate dec st) =
          .ret ((false, o), (fp₁, z₁)) ∧
        Handed dec Frame X (4 * 3) (clearerr st.1) (zstate dec st) q false o fp₁ z₁ q₁ ∧
        ttyread host (freadWrapperZstd dec fuel) (fun _ => true) st =
          .ret (none, ttyreadErr (fgetpos st.1) (fp₁, some z₁))) ∨
    (∃ bs st₁ o fp₂ z₂ st', freadWrapperZstd dec fuel 4 3 (clearerr st.1, st.2) =
          .ret ((3, bs), st₁) ∧
        freadLoop dec fuel .gotdata (decodeHeader .little bs).len.toNat [] st₁.1 (zstate dec st₁) =
          .ret ((false, o), (fp₂, z₂)) ∧
        ttyread host (freadWrapperZstd dec fuel) (fun _ => true) st = .ret (none, st')) ∨
    ∃ r rest' fp' z' q', rest = r :: rest' ∧
      ttyread host (freadWrapperZstd dec fuel) (fun _ => true) st = .ret (some r, (fp', some z')) ∧
      ZInv dec Frame X fp' z' q' ∧ (zstate dec st).out ++ q = r.encode ++ (z'.out ++ q') ∧
      z'.cost fp' q' ≤ (zstate dec st).cost st.1 q ∧ st.1.Later fp' := by
  have hinv₀ : ZInv dec Frame X (clearerr st.1) (zstate dec (clearerr st.1, st.2)) q :=
    ⟨hinv.data_prefix, hinv.pos_le, hinv.toRead_le, hinv.expects, hinv.between⟩
  -- the header
  obtain ⟨all, o, fp₁, z₁, q₁, hloop, hd⟩ :=
    freadWrapperZstd_spec law (show 0 < 4 by decide) (show 0 < 3 by decide) (clearerr st.1, st.2)
      hinv₀ hfuel
  have hcall := freadWrapperZstd_of_loop hloop
  have hcost₁ : z₁.cost fp₁ q₁ ≤ (zstate dec st).cost st.1 q := hd.cost_le
  have hsplit : (zstate dec st).out ++ q = o ++ (z₁.out ++ q₁) := hd.split
  cases all with
  | false =>
    refine .inl ⟨o, fp₁, z₁, q₁, hloop, hd, ?_⟩
    rw [ttyread_of_header_short hcall (by decide)]
  | true =>
    have hlen : o.length = 12 := hd.full rfl
    rw [hsplit] at hq
    obtain ⟨r, rest', rfl⟩ : ∃ r rest', rest = r :: rest' := by
      cases rest with
      | nil =>
        have := hq.length_le
        simp only [List.flatMap_nil, List.length_nil, List.length_append, hlen] at this
        omega
      | cons r rest' => exact ⟨r, rest', rfl⟩
    have hr : r.Valid := hvalid r List.mem_cons_self
    rw [List.flatMap_cons, Record.encode, List.append_assoc] at hq
    obtain rfl : o = headerBytes .little r.hdr := by
      have hpre := List.prefix_of_prefix_length_le ((List.prefix_append _ _).trans hq)
        (List.prefix_append _ _) (by rw [length_headerBytes, hlen])
      exact hpre.eq_of_length (by rw [length_headerBytes, hlen])
    rw [List.prefix_append_right_inj] at hq
    have hhdr : decodeHeader .little (headerBytes .little r.hdr) = r.hdr :=
      decodeHeader_headerBytes _ _ hr.fits
    have hlen' : r.hdr.len.toNat = r.payload.length := by rw [hr.len_eq, Int.toNat_natCast]
    have hpos := hr.len_pos
    have hmax := hr.len_le
    -- the payload
    obtain ⟨all₂, o₂, fp₂, z₂, q₂, hloop₂, hd₂⟩ := freadWrapperZstd_spec law (show 0 < 1 by decide)
      (show 0 < r.hdr.len.toNat by omega) (fp₁, some z₁) hd.inv
      (show 2 * z₁.cost fp₁ q₁ + 1 < fuel by omega)
    have hcall₂ := freadWrapperZstd_of_loop hloop₂
    have hread := ttyread_of_header host (fun _ => true) hcall hhdr (by omega) rfl hcall₂
    cases all₂ with
    | false =>
      have hne : (if false = true then r.hdr.len.toNat else 0) ≠ r.hdr.len.toNat := by
        simp only [Bool.false_eq_true, if_false]
        omega
      rw [if_neg hne] at hread
      rw [one_mul, ← hhdr] at hloop₂
      exact .inr (.inl ⟨_, _, o₂, fp₂, z₂, _, hcall, hloop₂, hread⟩)
    | true =>
      have hlen₂ := hd₂.full rfl
      rw [one_mul, hlen'] at hlen₂
      have hsplit₂ : z₁.out ++ q₁ = o₂ ++ (z₂.out ++ q₂) := hd₂.split
      rw [hsplit₂] at hq
      obtain rfl : o₂ = r.payload := by
        have hpre := List.prefix_of_prefix_length_le ((List.prefix_append _ _).trans hq)
          (List.prefix_append _ _) hlen₂.le
        exact hpre.eq_of_length hlen₂
      rw [if_pos rfl, if_pos rfl] at hread
      have hcost₂ : z₂.cost fp₂ q₂ ≤ z₁.cost fp₁ q₁ := hd₂.cost_le
      refine .inr (.inr ⟨r, rest', fp₂, z₂, q₂, rfl, hread, hd₂.inv, ?_, hcost₂.trans hcost₁,
        (st.1.later_clearerr.trans hd.later).trans hd₂.later⟩)
      rw [hsplit, hsplit₂, Record.encode, List.append_assoc]

variable (host) in
/-- **One clean call**: it returns the first record, or it is in front of it with the
file used up. -/
theorem ttyread_zstd (law : dec.Lawful Frame) (h : ZAt dec Frame X growth fuel st rest)
    (hclean : CleanRead dec fuel st) :
    (∃ m st', ttyread host (freadWrapperZstd dec fuel) (fun _ => true) st = .ret (none, st') ∧
      ZAt dec Frame X growth fuel st' rest ∧ st.1.reads ≤ m ∧ m < st'.1.reads ∧
      Exhausted dec st' m) ∨
    ∃ r rest' st', rest = r :: rest' ∧
      ttyread host (freadWrapperZstd dec fuel) (fun _ => true) st = .ret (some r, st') ∧
      ZAt dec Frame X growth fuel st' rest' ∧ st.1.reads ≤ st'.1.reads := by
  obtain ⟨q, hinv, hq, hfuel⟩ := h.plain
  rcases ttyread_zstd_cases host law h.valid hinv (hq ▸ List.prefix_rfl) hfuel with
    ⟨o, fp₁, z₁, q₁, hloop, hd, hread⟩ | ⟨bs, st₁, o, fp₂, z₂, st', hcall, hloop₂, -⟩ |
    ⟨r, rest', fp', z', q', rfl, hread, hinv', hsplit, hcost, hlater⟩
  · -- nothing was moved, so there is nothing to take back
    obtain ⟨rfl, hpos⟩ := hclean.1.eof hloop
    rw [Option.some.injEq] at hpos
    obtain ⟨-, hout, hinput, m, hm, hm', hused⟩ := hd.eof rfl
    have hl₁ : st.1.Later fp₁ := st.1.later_clearerr.trans hd.later
    have herr : fp₁.error = false := hd.later.error h.fault rfl
    have hget : fgetpos st.1 = some st.1.pos := if_pos h.seekable
    simp only [ttyreadErr, herr, Bool.false_eq_true, if_false, hget, fsetpos_self hpos] at hread
    have hcost : z₁.cost fp₁ q₁ ≤ (zstate dec st).cost st.1 q := hd.cost_le
    exact .inl ⟨m, (fp₁, some z₁), hread, h.later hl₁ h.valid hd.inv (hd.split.symm.trans hq)
      (by omega), hm, hm', hused, hinput, hout⟩
  · -- the second call has the header to take back
    obtain ⟨-, hpos⟩ := (hclean.2 bs st₁ hcall).eof hloop₂
    cases hpos
  · have hrest' : ∀ r' ∈ rest', r'.Valid := fun r' hr' => h.valid r' (List.mem_cons_of_mem r hr')
    rw [hq, List.flatMap_cons] at hsplit
    exact .inr ⟨r, rest', (fp', some z'), rfl, hread, h.later hlater hrest' hinv'
      (List.append_cancel_left hsplit).symm (by omega), hlater.reads⟩

/-- A compressed recording can be followed, as long as the calls are clean. -/
theorem follows_zstd (law : dec.Lawful Frame) (host : Host) (X : List UInt8) (growth : Growth)
    (fuel : ℕ) :
    Follows host (freadWrapperZstd dec fuel) (fun _ => true) (CleanRead dec fuel)
      (ZAt dec Frame X growth fuel) := by
  intro st rest h hclean
  rcases ttyread_zstd host law h hclean with ⟨m, st', hread, h', hle, hlt, -⟩ | hhit
  · exact .inl ⟨st', hread, h', hle.trans_lt hlt⟩
  · exact .inr hhit

/-- A clean call that returns 0 has used up the file. -/
private theorem exhausted_of_miss (law : dec.Lawful Frame) (h : ZAt dec Frame X growth fuel st rest)
    (hclean : CleanRead dec fuel st) {st' : InFile × Option (ZReader D)}
    (hread : ttyread host (freadWrapperZstd dec fuel) (fun _ => true) st = .ret (none, st')) :
    ZAt dec Frame X growth fuel st' rest ∧ ∃ m, st.1.reads ≤ m ∧ Exhausted dec st' m := by
  rcases ttyread_zstd host law h hclean with
    ⟨m, _, hread', h', hle, -, hex⟩ | ⟨r, _, _, -, hread', -⟩
  · rw [hread] at hread'
    cases hread'
    exact ⟨h', m, hle, hex⟩
  · rw [hread] at hread'
    cases hread'

/-- Where the decompressor has taken all that can be seen, its position is the size of the
file at that read, and it will put out the records that follow. -/
theorem ZAt.exhausted (h : ZAt dec Frame X growth fuel st rest) {m : ℕ} (hex : Exhausted dec st m) :
    dec.Expects Frame (zstate dec st).dstream (X.drop st.1.pos) (rest.flatMap Record.encode) ∧
      X.take (growth.size m) <+: X.take st.1.pos := by
  obtain ⟨q, hinv, hq, -⟩ := h.plain
  obtain ⟨hused, hinput, hout⟩ := hex
  rw [hout, List.nil_append] at hq
  have hexp := hinv.expects
  rw [hinput, hq, List.nil_append] at hexp
  refine ⟨hexp, ?_⟩
  rw [InFile.UsedUp, h.data_eq, h.growth_eq, List.length_take] at hused
  rcases Nat.le_total (growth.size m) X.length with hle | hle
  · exact List.take_prefix_take_left (by omega)
  · have hpos : X.length ≤ st.1.pos := by omega
    rw [List.take_of_length_le hpos]
    exact List.take_prefix _ _

/-- When all of the file is there, every clean call answers. -/
private theorem answers_zstd (law : dec.Lawful Frame) (host : Host) {N : ℕ}
    (hN : X.length ≤ growth.size N) :
    Answers host (freadWrapperZstd dec fuel) (fun _ => true) (CleanRead dec fuel)
      (ZAt dec Frame X growth fuel) N := by
  intro st rest h hclean hle hne st' hread
  -- the decompressor has taken all of it, so it has put out all of the records
  obtain ⟨h', m, hm, hex⟩ := exhausted_of_miss law h hclean hread
  obtain ⟨hexp, htake⟩ := h'.exhausted hex
  rw [List.take_of_length_le (hN.trans (growth.mono (hle.trans hm)))] at htake
  have hpos : X.length ≤ st'.1.pos := by
    have := htake.length_le
    rw [List.length_take] at this
    omega
  rw [List.drop_of_length_le hpos] at hexp
  have hnil := expects_nil hexp
  cases rest with
  | nil => exact hne rfl
  | cons r rest' =>
    rw [List.flatMap_cons, Record.encode, headerBytes] at hnil
    cases hnil

/-- **Following a growing compressed recording is faithful, as long as there is nothing
to take back**: if every call of `ttyread` that comes to the end of the file does so
before it has read from the file and before it has handed out plaintext, then `ttypeek`
skips the records that were complete when it stopped skipping, and plays the next ones,
in order; and all of them when the recording is there in the end. -/
theorem ttypeek_zstd (law : dec.Lawful Frame) (host : Host) {rs : List Record}
    (hrs : ∀ r ∈ rs, r.Valid) {X : List UInt8} (hX : Concat Frame X (rs.flatMap Record.encode))
    (growth : Growth) {fuel n : ℕ}
    (hfuel : 4 * X.length + 4 * (rs.flatMap Record.encode).length + 1 < fuel)
    (hclean : ∀ m, Polls host (freadWrapperZstd dec fuel) (fun _ => true) (CleanRead dec fuel) m
      (InFile.growing X growth, none))
    (hn : rs.length < n) :
    let peek := fun tries m => ttypeek host (freadWrapperZstd dec fuel) (fun _ => true) n tries m
      (InFile.growing X growth, none)
    ∃ k st m₀, k ≤ rs.length ∧ Exhausted dec st m₀ ∧
      X.take (growth.size m₀) <+: X.take st.1.pos ∧
      dec.Expects Frame (zstate dec st).dstream (X.drop st.1.pos)
        ((rs.drop k).flatMap Record.encode) ∧
      (∀ tries m, (peek tries m).1.records = rs.take k ∧ (peek tries m).1.stop = .eof ∧
        (peek tries m).1.state = st ∧ (peek tries m).2.records <+: rs.drop k ∧
        (peek tries m).2.world = (peek tries m).2.records.map Record.payload) ∧
      ∀ N, X.length ≤ growth.size N → ∀ m, rs.length ≤ m →
        (peek (N + 1) m).2.records = rs.drop k := by
  intro peek
  -- nothing is read yet
  have hA : ZAt dec Frame X growth fuel (InFile.growing X growth, none) rs := by
    obtain ⟨-, -, q, hinv, hq, hle⟩ := zserves_ofBytes law hX hfuel
    exact ⟨rfl, rfl, fun _ => rfl, rfl, hrs, q, ⟨hinv.data_prefix, hinv.pos_le, hinv.toRead_le,
      hinv.expects, hinv.between⟩, hq.symm, hle⟩
  obtain ⟨k, st₁, st₂, hk, hA₁, hok₁, -, hread, hpeek, hall⟩ :=
    (follows_zstd law host X growth fuel).ttypeek hA hclean hn
  -- the call that ended the skipping has found nothing to take back
  obtain ⟨hA₂, m₀, -, hex⟩ := exhausted_of_miss law hA₁ hok₁ hread
  obtain ⟨hexp, htake⟩ := hA₂.exhausted hex
  refine ⟨k, st₂, m₀, hk, hex, htake, hexp, hpeek, ?_⟩
  intro N hN m hm
  exact hall N (answers_zstd law host hN) m hm

end Follow

/-! ### Calls that are clean -/

section CleanCalls

variable {host : Host} {fuel : ℕ} {st : InFile × Option (ZReader D)}

/-- The loop of a call that returns. -/
private theorem freadLoop_of_ret {size nmemb n : ℕ} {o : List UInt8}
    {st' : InFile × Option (ZReader D)}
    (h : freadWrapperZstd dec fuel size nmemb st = .ret ((n, o), st')) :
    ∃ all fp' z', freadLoop dec fuel .gotdata (size * nmemb) [] st.1 (zstate dec st) =
      .ret ((all, o), (fp', z')) ∧ n = if all then nmemb else 0 := by
  cases hloop : freadLoop dec fuel .gotdata (size * nmemb) [] st.1 (zstate dec st) with
  | exit c =>
    rw [zstate] at hloop
    rw [freadWrapperZstd, hloop] at h
    cases h
  | spin =>
    rw [zstate] at hloop
    rw [freadWrapperZstd, hloop] at h
    cases h
  | ret p =>
    obtain ⟨⟨all, o'⟩, fp', z'⟩ := p
    rw [freadWrapperZstd_of_loop hloop] at h
    cases h
    exact ⟨all, fp', z', rfl, rfl⟩

/-- The two calls of the wrapper in a call that returns a record. -/
private theorem freadWrapperZstd_of_some {S : Type*} {freadWrapper : FreadWrapper S}
    {malloc : ℕ → Bool} {st st' : InFile × S} {r : Record}
    (h : ttyread host freadWrapper malloc st = .ret (some r, st')) :
    ∃ bs st₁ buf, freadWrapper 4 3 (clearerr st.1, st.2) = .ret ((3, bs), st₁) ∧
      decodeHeader .little bs = r.hdr ∧ 0 < r.hdr.len ∧
      freadWrapper 1 r.hdr.len.toNat st₁ = .ret ((r.hdr.len.toNat, buf), st') := by
  cases h₁ : freadWrapper 4 3 (clearerr st.1, st.2) with
  | exit c => simp only [ttyread, readHeader, h₁, Outcome.exit_bind] at h; cases h
  | spin => simp only [ttyread, readHeader, h₁, Outcome.spin_bind] at h; cases h
  | ret p =>
    obtain ⟨⟨n, bs⟩, st₁⟩ := p
    by_cases hn : n = 3
    · subst hn
      simp only [ttyread, readHeader, h₁, Outcome.ret_bind, ne_eq, not_true_eq_false, if_false,
        Outcome.pure_eq, decodeHeader_host] at h
      -- a header that is turned down is no record
      by_cases hlen : (decodeHeader .little bs).len ≤ 0 ∨
          maxRecordLen < (decodeHeader .little bs).len
      · rw [if_pos hlen] at h
        cases h
      · rw [if_neg hlen] at h
        split at h
        · cases h
        · -- and the payload has to be there in full
          cases h₂ : freadWrapper 1 (decodeHeader .little bs).len.toNat st₁ with
          | exit c => rw [h₂] at h; cases h
          | spin => rw [h₂] at h; cases h
          | ret p =>
            obtain ⟨⟨n, buf⟩, st₂⟩ := p
            rw [h₂] at h
            simp only [Outcome.ret_bind] at h
            split at h
            next => cases h
            next hn =>
              cases h
              rw [not_not] at hn
              exact ⟨bs, st₁, buf, rfl, rfl, not_le.mp fun h => hlen (.inl h), by rw [h₂, hn]⟩
    · rw [ttyread_of_header_short h₁ hn] at h
      cases h

/-- A call that returns a record is clean: it does not come to the end of the file. -/
theorem cleanRead_of_some {r : Record} {st' : InFile × Option (ZReader D)}
    (h : ttyread host (freadWrapperZstd dec fuel) (fun _ => true) st = .ret (some r, st')) :
    CleanRead dec fuel st := by
  obtain ⟨bs, st₁, buf, h₁, hbs, hpos, h₂⟩ := freadWrapperZstd_of_some h
  refine ⟨?_, ?_⟩
  · obtain ⟨all, fp', z', hloop, hall⟩ := freadLoop_of_ret h₁
    cases all with
    | true => exact .of_full hloop
    | false => cases hall
  · intro bs' st₁' h₁'
    rw [h₁] at h₁'
    cases h₁'
    rw [hbs]
    obtain ⟨all, fp', z', hloop, hall⟩ := freadLoop_of_ret h₂
    rw [one_mul] at hloop
    cases all with
    | true => exact .of_full hloop
    | false => simp only [Bool.false_eq_true, if_false] at hall; omega

variable (dec fuel st) in
/-- A call that finds nothing, with nothing left over, is clean. -/
theorem cleanRead_of_unread (host : Host) (hun : st.1.unread = []) (hin : (zstate dec st).input = [])
    (hout : (zstate dec st).out = []) (hfuel : 1 < fuel) :
    CleanRead dec fuel st ∧ ∃ fp' z',
      ttyread host (freadWrapperZstd dec fuel) (fun _ => true) st = .ret (none, (fp', some z')) ∧
        st.1.Later fp' ∧ fp'.pos = st.1.pos ∧ z'.input = [] ∧ z'.out = [] := by
  obtain ⟨n, rfl⟩ : ∃ n, fuel = n + 2 := ⟨fuel - 2, by omega⟩
  -- the first jump finds no plaintext, the second one no input and no file
  have hstep₁ : zstep dec .gotdata (4 * 3) [] (clearerr st.1) (zstate dec st) =
      .jump .decompress (4 * 3) [] (clearerr st.1) (zstate dec st) := by
    simp [zstep, hout]
  obtain ⟨z', hz, hin', hout'⟩ : ∃ z' : ZReader D,
      (if (zstate dec st).toRead = 0 then
        { zstate dec st with dstream := dec.create, toRead := dec.initHint } else zstate dec st) = z' ∧
      z'.input = [] ∧ z'.out = [] := by
    refine ⟨_, rfl, ?_, ?_⟩ <;> split <;> assumption
  have hgot : (fread 1 z'.toRead (clearerr st.1)).1.1 = 0 := by
    simp [fread, hun]
  have hpos : (fread 1 z'.toRead (clearerr st.1)).2.pos = st.1.pos := by
    simp [fread, hun]
  have hstep₂ : zstep dec .decompress (4 * 3) [] (clearerr st.1) (zstate dec st) =
      .eof [] (fread 1 z'.toRead (clearerr st.1)).2 z' := by
    rw [zstep, if_neg (not_not.mpr hin)]
    simp only [hz, if_pos hgot]
  have hloop : freadLoop dec (n + 2) .gotdata (4 * 3) [] (clearerr st.1) (zstate dec st) =
      .ret ((false, []), ((fread 1 z'.toRead (clearerr st.1)).2, z')) := by
    rw [freadLoop, hstep₁]
    simp only
    rw [freadLoop, hstep₂]
  have hcall : freadWrapperZstd dec (n + 2) 4 3 (clearerr st.1, st.2) = _ :=
    freadWrapperZstd_of_loop hloop
  refine ⟨⟨?_, ?_⟩, ?_⟩
  · rw [CleanEof, hstep₁]
    simp only
    rw [CleanEof, hstep₂]
    exact ⟨rfl, congrArg some hpos⟩
  · intro bs st₁ h₁
    rw [hcall] at h₁
    cases h₁
  · rw [ttyread_of_header_short hcall (by decide)]
    have hlater := st.1.later_clearerr.trans ((clearerr st.1).later_fread 1 z'.toRead)
    unfold ttyreadErr
    split
    · exact ⟨_, z', rfl, hlater, hpos, hin', hout'⟩
    · split
      next p hp =>
        rw [fgetpos] at hp
        split at hp
        · cases hp
          exact ⟨_, z', rfl, hlater.fsetpos _, rfl, hin', hout'⟩
        · cases hp
      next => exact ⟨_, z', rfl, hlater, hpos, hin', hout'⟩

/-- When the whole file is read and nothing is left over, all further calls are clean. -/
theorem polls_of_end (host : Host) (hfuel : 1 < fuel) (n : ℕ) :
    ∀ st : InFile × Option (ZReader D), st.1.data.length ≤ st.1.pos →
      (zstate dec st).input = [] → (zstate dec st).out = [] →
      Polls host (freadWrapperZstd dec fuel) (fun _ => true) (CleanRead dec fuel) n st := by
  induction n with
  | zero =>
    intro st _ _ _
    trivial
  | succ n ih =>
    intro st hend hin hout
    have hun : st.1.unread = [] := by
      rw [InFile.unread, List.drop_eq_nil_iff, List.length_take]
      omega
    obtain ⟨hclean, fp', z', hread, hlater, hpos, hin', hout'⟩ :=
      cleanRead_of_unread dec fuel st host hun hin hout hfuel
    refine ⟨hclean, ?_⟩
    intro r st' hread'
    rw [hread] at hread'
    cases hread'
    refine ih (fp', some z') ?_ hin' hout'
    rw [hlater.data, hpos]
    exact hend

end CleanCalls

/-! ### A recording in two parts -/

/-- A compressed recording of one byte. -/
def oneByteFrame : List UInt8 := rawFrame oneByteRecord.encode

theorem concat_oneByteFrame :
    Concat rawTransducer.Frame oneByteFrame ([oneByteRecord].flatMap Record.encode) := by
  rw [List.flatMap_cons, List.flatMap_nil, List.append_nil]
  exact .single (frame_rawFrame (by decide))

/-- The recording is not there at first, and then all of it is: the calls are clean, and
the record is played. -/
theorem ttypeek_zstd_twice :
    ∃ k, (∀ tries m,
        (ttypeek .little (freadWrapperZstd rawDecoder 1000) (fun _ => true) 2 tries m
          (InFile.growing oneByteFrame (.twice 1 0 22), none)).1.records =
          [oneByteRecord].take k) ∧
      (ttypeek .little (freadWrapperZstd rawDecoder 1000) (fun _ => true) 2 2 1
        (InFile.growing oneByteFrame (.twice 1 0 22), none)).2.records =
        [oneByteRecord].drop k := by
  have hrs : ∀ r ∈ [oneByteRecord], r.Valid := by
    intro r hr
    rw [List.mem_singleton.mp hr]
    exact oneByteRecord_valid
  have hpolls : ∀ m, Polls .little (freadWrapperZstd rawDecoder 1000) (fun _ => true)
      (CleanRead rawDecoder 1000) m
      (InFile.growing oneByteFrame (.twice 1 0 22), none) := by
    -- the first call finds nothing, and the second one the record
    obtain ⟨hclean, fp₁, z₁, hread₁, -⟩ := cleanRead_of_unread rawDecoder 1000
      (InFile.growing oneByteFrame (.twice 1 0 22), none) .little rfl rfl rfl
      (by decide)
    have hcheck : (ttyread .little (freadWrapperZstd rawDecoder 1000) (fun _ => true)
          (InFile.growing oneByteFrame (.twice 1 0 22), none) >>= fun p =>
        ttyread .little (freadWrapperZstd rawDecoder 1000) (fun _ => true) p.2).check (fun p =>
          p.1.isSome && decide (p.2.1.data.length ≤ p.2.1.pos) &&
            decide ((zstate rawDecoder p.2).input = []) &&
            decide ((zstate rawDecoder p.2).out = [])) = true := by decide +kernel
    obtain ⟨⟨r, st₂⟩, hread₂, hend⟩ := Outcome.exists_of_check hcheck
    rw [hread₁, Outcome.ret_bind] at hread₂
    simp only [Bool.and_eq_true, decide_eq_true_eq, Option.isSome_iff_exists] at hend
    obtain ⟨⟨⟨⟨r, rfl⟩, hpos⟩, hin⟩, hout⟩ := hend
    intro m
    cases m with
    | zero => trivial
    | succ m =>
      refine ⟨hclean, ?_⟩
      intro r' st' h
      rw [hread₁] at h
      cases h
      cases m with
      | zero => trivial
      | succ m =>
        refine ⟨cleanRead_of_some hread₂, ?_⟩
        intro r' st' h
        rw [hread₂] at h
        cases h
        exact polls_of_end .little (by decide) m st₂ hpos hin hout
  obtain ⟨k, st, m₀, -, -, -, -, hpeek, hall⟩ := ttypeek_zstd rawDecoder_lawful .little hrs
    concat_oneByteFrame (.twice 1 0 22) (by decide : _ < 1000) hpolls
    (by decide : 1 < 2)
  exact ⟨k, fun tries m => (hpeek tries m).1, hall 1 (by decide) 1 le_rfl⟩

/-- **A recording that is seen in two parts ends the player.**  The first call has given
10 bytes to the decompressor when it comes to the end of the file; the next one gives
them to it again. -/
theorem ttypeek_zstd_rewinds :
    Concat rawTransducer.Frame oneByteFrame ([oneByteRecord].flatMap Record.encode) ∧
      oneByteRecord.Valid ∧ rawDecoder.Lawful rawTransducer.Frame ∧
      oneByteFrame.length ≤ (Growth.twice 4 10 22).size 4 ∧
      (let peek := ttypeek .little (freadWrapperZstd rawDecoder 1000) (fun _ => true) 2 4 4
          (InFile.growing oneByteFrame (.twice 4 10 22), none);
        peek.1.records = [] ∧ peek.1.stop = .eof ∧ peek.2.records = [] ∧ peek.2.stop = .exit 16) :=
  ⟨concat_oneByteFrame, oneByteRecord_valid, rawDecoder_lawful, by decide, by decide +kernel⟩

end TtyRec
