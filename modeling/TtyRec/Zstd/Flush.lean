import TtyRec.Lib.Run
import TtyRec.Zstd.Raw
import TtyRec.Zstd.Write

/-!
# The flush limit

A compressor holds back what it was given until there is enough of it, so what an almost idle
session has printed could stay in memory for ever.  `fwrite_wrapper_zstd` therefore flushes
the compressor in a call that puts nothing out, when nothing has been put out for longer than
`zstd_max_flush_seconds`.  It only knows when something was put out last, and a call that puts
something out on its own does not flush; but then only bytes of this very call are held back,
and none of them is older than `last_sync`.

## Main definitions

* `ZCall`, `zcall` — the calls of the writing wrappers, one reading of the clock in each.
* `accepted` — the bytes that were accepted since the file was opened, with their times.
* `SyncInv` — no byte that is held back is older than `last_sync`.

## Main results

* `compressLoop_fed` — what the loop feeds to the compressor, and what it writes.
* `flushed_in_time` — **after each call, every byte that was accepted longer ago than the
  limit is in the file.**
-/

namespace TtyRec

open Run StreamCodec

variable {C : Type*} {enc : Encoder C UInt8 UInt8}

/-- **The loop feeds its input to the compressor**, and writes what that puts out, when no write is
cut short.  The induction is on the fuel; `out` is what has come out before. -/
theorem compressLoop_fed :
    ∀ {n : ℕ} {c₀ c : C} {input rest out : List UInt8} {written : ℕ} {fp : OutFile}
      {r : (Bool × ℕ) × (C × OutFile)}, enc.Fed c₀ input c rest out → fp.Complete →
      compressLoop enc n c rest written fp = .ret r →
      ∃ c' fp' out', r = ((true, written + out'.length), (c', fp')) ∧
        enc.Fed c₀ input c' [] (out ++ out') ∧ fp'.data = fp.data ++ out' ∧ fp'.Complete := by
  intro n
  induction n with
  | zero =>
    intro c₀ c input rest out written fp r hfed hfp h
    cases rest with
    | nil =>
      cases h
      exact ⟨c, fp, [], by simp, by simpa using hfed, by simp, hfp⟩
    | cons b bs => cases h
  | succ n ih =>
    intro c₀ c input rest out written fp r hfed hfp h
    cases rest with
    | nil =>
      cases h
      exact ⟨c, fp, [], by simp, by simpa using hfed, by simp, hfp⟩
    | cons b bs =>
      rw [compressLoop] at h
      cases hst : enc.compress c (b :: bs) enc.outSize with
      | none =>
        rw [hst] at h
        cases h
      | some st =>
        rw [hst] at h
        simp only [fwrite_of_complete hfp st.out, ne_eq, not_true_eq_false, if_false] at h
        -- a complete write, and then the rest of the input
        have hfp₁ : OutFile.Complete
            { fp with data := fp.data ++ st.out, writes := fp.writes + 1 } := hfp
        obtain ⟨c', fp', out', hr, hfed', hdata, hfp'⟩ :=
          ih (hfed.compress (List.cons_ne_nil b bs) hst) hfp₁ h
        refine ⟨c', fp', st.out ++ out', ?_, ?_, ?_, hfp'⟩
        · rw [hr, List.length_append, Nat.add_assoc]
        · rw [← List.append_assoc]
          exact hfed'
        · rw [hdata, List.append_assoc]

/-! ### The calls -/

/-- A call of a writing wrapper, with its reading of the clock; a file that is closed is
followed by a new one. -/
inductive ZCall where
  | write (size : ℕ) (bytes : List UInt8) (now : ℤ)
  | close

/-- One call, if it returns. -/
def zcall (enc : Encoder C UInt8 UInt8) (cfg : ZConfig) (fuel : ℕ) (st : OutFile × ZWriter C) :
    ZCall → Option (OutFile × ZWriter C)
  | .write size bytes now =>
    match fwriteWrapperZstd enc cfg fuel size bytes (fun _ => now) st with
    | .ret (_, st') => some st'
    | _ => none
  | .close =>
    let st' := fcloseWrapperZstd enc st
    some ({ st'.1 with data := [] }, st'.2)

/-- The bytes of a call, with its time. -/
def timed (bytes : List UInt8) (now : ℤ) : List (UInt8 × ℤ) := bytes.map fun b => (b, now)

/-- The bytes that were accepted since the file was opened, with the times of the calls. -/
def accepted (calls : List ZCall) : List (UInt8 × ℤ) :=
  calls.foldl
    (fun acc call => match call with
      | .write _ bytes now => acc ++ timed bytes now
      | .close => [])
    []

@[simp] theorem accepted_nil : accepted [] = [] := rfl

@[simp] theorem accepted_write (calls : List ZCall) (size : ℕ) (bytes : List UInt8) (now : ℤ) :
    accepted (calls ++ [.write size bytes now]) =
      accepted calls ++ timed bytes now := by
  simp [accepted]

@[simp] theorem accepted_close (calls : List ZCall) : accepted (calls ++ [.close]) = [] := by
  simp [accepted]

/-- The times of the calls. -/
def ZCall.time? : ZCall → Option ℤ
  | .write _ _ now => some now
  | .close => none

/-- The clock does not go back from one call to the next. -/
def InOrder (calls : List ZCall) : Prop := (calls.filterMap ZCall.time?).Pairwise (· ≤ ·)

/-! ### The invariant -/

/-- The elements at the end of a list. -/
def lastN {α : Type*} (n : ℕ) (xs : List α) : List α := xs.drop (xs.length - n)

@[simp] theorem lastN_zero {α : Type*} (xs : List α) : lastN 0 xs = [] := by
  simp [lastN]

/-- Of two lists, only elements of the second and the last ones of the first. -/
theorem mem_lastN_append {α : Type*} {n k : ℕ} {xs ys : List α} {x : α}
    (h : x ∈ lastN n (xs ++ ys)) (hn : n ≤ k + ys.length) : x ∈ lastN k xs ∨ x ∈ ys := by
  rw [lastN, List.drop_append, List.mem_append] at h
  rcases h with h | h
  · left
    have hle : xs.length - k ≤ (xs ++ ys).length - n := by
      rw [List.length_append]
      omega
    rw [← Nat.sub_add_cancel hle, Nat.add_comm, ← List.drop_drop] at h
    exact List.mem_of_mem_drop h
  · exact .inr (List.mem_of_mem_drop h)

/-- What the wrapper knows of the compressor, after the calls that have accepted `acc`: the
file has all that was put out, and no byte that is held back is older than `last_sync`. -/
structure Synced (enc : Encoder C UInt8 UInt8) (held : C → ℕ) (acc : List (UInt8 × ℤ))
    (fp : OutFile) (c : C) (lastSync : ℤ) : Prop where
  between : enc.Between c
  file : ∃ base e, fp.data = base ++ e ∧ enc.At c (acc.map Prod.fst) e
  held_le : held c ≤ acc.length
  recent : ∀ b ∈ lastN (held c) acc, lastSync ≤ b.2

/-- The same for the static variables of the wrapper; there may be no compressor yet. -/
def SyncInv (enc : Encoder C UInt8 UInt8) (held : C → ℕ) (acc : List (UInt8 × ℤ))
    (st : OutFile × ZWriter C) : Prop :=
  st.1.Complete ∧
    match st.2.cstream with
    | none => acc = []
    | some c => Synced enc held acc st.1 c st.2.lastSync

section Step

variable {held : C → ℕ} {cfg : ZConfig} {fuel : ℕ} {acc : List (UInt8 × ℤ)}
  {fp fp' : OutFile} {c c₀ : C} {lastSync now : ℤ} {st st' : OutFile × ZWriter C}

@[simp] theorem length_timed (bytes : List UInt8) (now : ℤ) :
    (timed bytes now).length = bytes.length := by
  simp [timed]

@[simp] theorem map_fst_timed (bytes : List UInt8) (now : ℤ) :
    (timed bytes now).map Prod.fst = bytes := by
  simp [timed, Function.comp_def]

theorem time_of_mem_timed {bytes : List UInt8} {b : UInt8 × ℤ} (h : b ∈ timed bytes now) :
    b.2 = now := by
  obtain ⟨b', -, rfl⟩ := List.mem_map.mp h
  rfl

/-- An input is fed.  When something came out, only bytes of this input are held back, and
`last_sync` may be set; when not, it stays. -/
theorem Synced.fed (hb : enc.Buffers held) (h : Synced enc held acc fp c₀ lastSync)
    {bytes out : List UInt8} (hfed : enc.Fed c₀ bytes c [] out) (hdata : fp'.data = fp.data ++ out)
    {sync : ℤ} (hsync : sync ≤ now) (hkeep : out = [] → sync ≤ lastSync) :
    Synced enc held (acc ++ timed bytes now) fp' c sync := by
  obtain ⟨hbetween, ⟨base, e, hbase, hat⟩, hheld, hrecent⟩ := h
  obtain ⟨-, hle, hout⟩ := hb.fed hbetween hfed
  obtain ⟨taken, htaken, hat'⟩ := hfed.at hat
  obtain rfl : bytes = taken := by simpa using htaken
  refine ⟨.fed hbetween hfed, ⟨base, e ++ out, ?_, ?_⟩, ?_, ?_⟩
  · rw [hdata, hbase, List.append_assoc]
  · simpa using hat'
  · simp only [List.length_append, length_timed, List.length_nil] at hle ⊢
    omega
  · intro b hmem
    by_cases hnil : out = []
    · have hn : held c ≤ held c₀ + (timed bytes now).length := by simpa using hle
      rcases mem_lastN_append hmem hn with hold | hnew
      · exact (hkeep hnil).trans (hrecent b hold)
      · rwa [time_of_mem_timed hnew]
    · have hn : held c ≤ 0 + (timed bytes now).length := by simpa using hout hnil
      rcases mem_lastN_append hmem hn with hold | hnew
      · simp at hold
      · rwa [time_of_mem_timed hnew]

/-- The compressor is flushed, and holds nothing back. -/
theorem Synced.flush (hb : enc.Buffers held) (h : Synced enc held acc fp c lastSync)
    {f : FStep C UInt8} (hf : enc.flush c enc.outSize = some f)
    (hdata : fp'.data = fp.data ++ f.out) (sync : ℤ) : Synced enc held acc fp' f.state sync := by
  obtain ⟨hbetween, ⟨base, e, hbase, hat⟩, -, -⟩ := h
  have hzero : held f.state = 0 := hb.flush hbetween hf
  refine ⟨.flush hbetween hf, ⟨base, e ++ f.out, ?_, .flush hat hf⟩, by simp [hzero], ?_⟩
  · rw [hdata, hbase, List.append_assoc]
  · simp [hzero]

/-- A new compressor, or the one that there is. -/
theorem SyncInv.current (hb : enc.Buffers held) (h : SyncInv enc held acc st)
    (hnow : ∀ c, st.2.cstream = some c → st.2.lastSync ≤ now) {r : C × ℤ}
    (hcur : currentCStream enc cfg (fun _ => now) st.2 = .ret r) :
    Synced enc held acc st.1 r.1 r.2 ∧ r.2 ≤ now := by
  obtain ⟨-, h⟩ := h
  unfold currentCStream at hcur
  cases hc : st.2.cstream with
  | none =>
    rw [hc] at hcur h
    obtain rfl : acc = [] := h
    cases hcreate : enc.create cfg.level with
    | none =>
      rw [hcreate] at hcur
      cases hcur
    | some c =>
      rw [hcreate] at hcur
      cases hcur
      have hzero : held c = 0 := hb.create hcreate
      refine ⟨⟨.create hcreate, ⟨st.1.data, [], by simp, .create hcreate⟩, by simp [hzero], ?_⟩,
        le_rfl⟩
      simp [hzero]
  | some c =>
    rw [hc] at hcur h
    cases hcur
    exact ⟨h, hnow c hc⟩

/-- **One call**: no byte that is held back is older than `last_sync`, and `last_sync` is not
older than the limit. -/
theorem SyncInv.write (hb : enc.Buffers held) (h : SyncInv enc held acc st)
    (hnow : ∀ c, st.2.cstream = some c → st.2.lastSync ≤ now) {size : ℕ} {bytes : List UInt8}
    (hcall : zcall enc cfg fuel st (.write size bytes now) = some st') :
    SyncInv enc held (acc ++ timed bytes now) st' ∧
      ∃ c, st'.2.cstream = some c ∧ st'.2.lastSync ≤ now ∧ now - cfg.maxFlush ≤ st'.2.lastSync := by
  have hpos := cfg.maxFlush_pos
  simp only [zcall, fwriteWrapperZstd] at hcall
  cases hcur : currentCStream enc cfg (fun _ => now) st.2 with
  | exit status => simp [hcur] at hcall
  | spin => simp [hcur] at hcall
  | ret r =>
    obtain ⟨hsynced, hle⟩ := h.current hb hnow hcur
    obtain ⟨c₀, lastSync⟩ := r
    rw [hcur] at hcall
    simp only [Outcome.ret_bind] at hcall hsynced hle
    cases hloop : compressLoop enc fuel c₀ bytes 0 st.1 with
    | exit status => simp [hloop] at hcall
    | spin => simp [hloop] at hcall
    | ret q =>
      obtain ⟨c, fp, out, rfl, hfed, hdata, hfp⟩ := compressLoop_fed .start h.1 hloop
      rw [hloop] at hcall
      simp only [Outcome.ret_bind, Bool.true_eq_false, if_false, Outcome.pure_eq, Nat.zero_add,
        List.nil_append] at hcall hfed
      by_cases hout : 0 < out.length
      · -- something came out
        rw [if_pos hout] at hcall
        cases hcall
        refine ⟨⟨hfp, hsynced.fed hb hfed hdata le_rfl ?_⟩, c, rfl, le_rfl, by dsimp only; omega⟩
        intro hnil
        simp [hnil] at hout
      · rw [if_neg hout] at hcall
        by_cases hlimit : lastSync + cfg.maxFlush < now
        · -- it is time to flush
          rw [if_pos hlimit] at hcall
          cases hflush : enc.flush c enc.outSize with
          | none => simp [hflush] at hcall
          | some f =>
            rw [hflush] at hcall
            simp only [fwrite_of_complete hfp] at hcall
            cases hcall
            have hfed' : Synced enc held (acc ++ timed bytes now) fp c lastSync :=
              hsynced.fed hb hfed hdata hle fun _ => le_rfl
            exact ⟨⟨hfp, hfed'.flush hb hflush rfl now⟩, f.state, rfl, le_rfl,
              by dsimp only; omega⟩
        · rw [if_neg hlimit] at hcall
          cases hcall
          exact ⟨⟨hfp, hsynced.fed hb hfed hdata hle fun _ => le_rfl⟩, c, rfl, hle,
            by dsimp only; omega⟩

/-- A rotation ends the frame, and with it everything that was held back. -/
theorem SyncInv.close (h : SyncInv enc held acc st)
    (hcall : zcall enc cfg fuel st .close = some st') :
    SyncInv enc held [] st' ∧ st'.2.cstream = none := by
  simp only [zcall, Option.some.injEq] at hcall
  subst hcall
  unfold fcloseWrapperZstd
  cases hc : st.2.cstream with
  | none =>
    refine ⟨⟨h.1, ?_⟩, hc⟩
    simp [hc]
  | some c =>
    have hfp : OutFile.Complete { (fwrite (enc.finish c enc.outSize).1 st.1).2 with data := [] } := by
      simp only [fwrite_of_complete h.1]
      exact h.1
    exact ⟨⟨hfp, rfl⟩, rfl⟩

end Step

/-! ### Runs -/

section Runs

variable {held : C → ℕ} {cfg : ZConfig} {fuel : ℕ} {fp : OutFile}

theorem inOrder_concat {calls : List ZCall} {size : ℕ} {bytes : List UInt8} {now : ℤ}
    (h : InOrder (calls ++ [.write size bytes now])) :
    InOrder calls ∧ ∀ τ ∈ calls.filterMap ZCall.time?, τ ≤ now := by
  simpa [InOrder, ZCall.time?, List.pairwise_append] using h

theorem inOrder_of_concat_close {calls : List ZCall} (h : InOrder (calls ++ [.close])) :
    InOrder calls := by
  rw [InOrder, List.filterMap_append] at h
  exact (List.pairwise_append.mp h).1

/-- When the clock does not go back, `last_sync` is not in the future. -/
theorem lastSync_le {calls : List ZCall} {z : ZWriter C} {now : ℤ}
    (hsync : ∀ c, z.cstream = some c → ∃ τ ∈ calls.filterMap ZCall.time?, z.lastSync ≤ τ)
    (hle : ∀ τ ∈ calls.filterMap ZCall.time?, τ ≤ now) :
    ∀ c, z.cstream = some c → z.lastSync ≤ now := by
  intro c hc
  obtain ⟨τ, hτ, hτ'⟩ := hsync c hc
  exact hτ'.trans (hle τ hτ)

/-- The invariant holds after every run, and `last_sync` is the time of a call. -/
theorem syncInv_exec (hb : enc.Buffers held) (hfp : fp.Complete) :
    ∀ {calls : List ZCall} {st : OutFile × ZWriter C}, InOrder calls →
      exec (zcall enc cfg fuel) (fp, .start) calls = some st →
      SyncInv enc held (accepted calls) st ∧
        ∀ c, st.2.cstream = some c → ∃ τ ∈ calls.filterMap ZCall.time?, st.2.lastSync ≤ τ := by
  intro calls
  induction calls using List.reverseRecOn with
  | nil =>
    intro st _ hrun
    rw [exec_nil, Option.some.injEq] at hrun
    subst hrun
    exact ⟨⟨hfp, rfl⟩, fun c hc => absurd hc.symm (Option.some_ne_none c)⟩
  | append_singleton calls call ih =>
    intro st horder hrun
    obtain ⟨st', hrun', hcall⟩ := exec_concat_eq_some.mp hrun
    cases call with
    | write size bytes now =>
      obtain ⟨horder', hle⟩ := inOrder_concat horder
      obtain ⟨hinv, hsync⟩ := ih horder' hrun'
      obtain ⟨hinv', c, -, hlast, -⟩ := hinv.write hb (lastSync_le hsync hle) hcall
      rw [accepted_write]
      exact ⟨hinv', fun _ _ => ⟨now, by simp [ZCall.time?], hlast⟩⟩
    | close =>
      obtain ⟨hinv, -⟩ := ih (inOrder_of_concat_close horder) hrun'
      obtain ⟨hinv', hnone⟩ := hinv.close hcall
      rw [accepted_close]
      exact ⟨hinv', fun c hc => absurd (hc.symm.trans hnone) (Option.some_ne_none c)⟩

/-- The calls return. -/
theorem exec_zcall {Frame : List UInt8 → List UInt8 → Prop} (law : enc.Lawful Frame)
    (hfp : fp.Complete) {calls : List ZCall}
    (hfuel : ∀ size bytes now, ZCall.write size bytes now ∈ calls → bytes.length ≤ fuel) :
    ∃ st, exec (zcall enc cfg fuel) (fp, .start) calls = some st ∧ st.1.Complete ∧
      ∃ base p, ZRep enc st base p := by
  have hkeeps := keeps_fwriteWrapperZstd law cfg fuel
  induction calls using List.reverseRecOn with
  | nil => exact ⟨_, rfl, hfp, _, _, hkeeps.opened fp rfl⟩
  | append_singleton calls call ih =>
    obtain ⟨st, hrun, hc, base, p, hrep⟩ := ih fun size bytes now hmem =>
      hfuel size bytes now (List.mem_append_left _ hmem)
    cases call with
    | write size bytes now =>
      obtain ⟨n, st', hret, hrep', hc'⟩ := hkeeps.write size bytes (fun _ => now)
        (hfuel size bytes now (by simp)) hrep hc
      refine ⟨st', exec_concat_eq_some.mpr ⟨st, hrun, ?_⟩, hc', base, _, hrep'⟩
      simp [zcall, hret]
    | close =>
      obtain ⟨x, -, -, hidle, hc'⟩ := hkeeps.close hrep hc
      refine ⟨_, exec_concat_eq_some.mpr ⟨st, hrun, rfl⟩, hc', [], [], ?_⟩
      exact hkeeps.opened { (fcloseWrapperZstd enc st).1 with data := [] } hidle

/-- **No byte stays in memory past the flush limit.**  After a call at the time `now`, the file
holds all that the compressor has put out, and the bytes that it still holds back were all
accepted at `now - maxFlush` or later; so those that were accepted earlier are in the file.
The calls return, and when the file is closed nothing is held back any more. -/
theorem flushed_in_time (hb : enc.Buffers held) (hfp : fp.Complete) {calls : List ZCall} {size : ℕ}
    {bytes : List UInt8} {now : ℤ} (horder : InOrder (calls ++ [.write size bytes now])) :
    (∀ st, exec (zcall enc cfg fuel) (fp, .start) (calls ++ [.write size bytes now]) = some st →
      ∃ c base e, st.2.cstream = some c ∧ st.1.data = base ++ e ∧
        enc.At c ((accepted (calls ++ [.write size bytes now])).map Prod.fst) e ∧
        held c ≤ (accepted (calls ++ [.write size bytes now])).length ∧
        ∀ b ∈ lastN (held c) (accepted (calls ++ [.write size bytes now])),
          now - cfg.maxFlush ≤ b.2) ∧
      ∀ Frame, enc.Lawful Frame →
        (∀ size' bytes' now', ZCall.write size' bytes' now' ∈ calls ++ [.write size bytes now] →
          bytes'.length ≤ fuel) →
        ∃ st, exec (zcall enc cfg fuel) (fp, .start) (calls ++ [.write size bytes now]) = some st ∧
          ∀ c, st.2.cstream = some c → ∃ out, enc.finish c enc.outSize = (out, 0) ∧
            (fcloseWrapperZstd enc st).1.data = st.1.data ++ out := by
  constructor
  · intro st hrun
    obtain ⟨st', hrun', hcall⟩ := exec_concat_eq_some.mp hrun
    obtain ⟨horder', hle⟩ := inOrder_concat horder
    obtain ⟨hinv, hsync⟩ := syncInv_exec hb hfp horder' hrun'
    -- the last call has flushed, or what is held back is younger than the limit
    obtain ⟨⟨-, hinv'⟩, c, hc, -, hlimit⟩ := hinv.write hb (lastSync_le hsync hle) hcall
    rw [hc] at hinv'
    obtain ⟨-, ⟨base, e, hdata, hat⟩, hheld, hrecent⟩ := hinv'
    rw [accepted_write]
    exact ⟨c, base, e, hc, hdata, hat, hheld, fun b hb => hlimit.trans (hrecent b hb)⟩
  · -- that the calls return at all is the business of the compressor
    intro Frame law hfuel
    obtain ⟨st, hrun, hc, base, p, hrep⟩ := exec_zcall law hfp hfuel
    refine ⟨st, hrun, ?_⟩
    intro c hcs
    simp only [ZRep, hcs] at hrep
    obtain ⟨e, -, hat⟩ := hrep
    obtain ⟨out, hfin, -, -⟩ := law.finish hat
    refine ⟨out, hfin, ?_⟩
    simp [fcloseWrapperZstd, hcs, hfin, fwrite_of_complete hc]

end Runs

/-- The compressor of raw blocks holds back the block that it has begun. -/
theorem rawEncoder_buffers : rawEncoder.Buffers fun c => c.buf.length where
  create h := by
    cases h
    rfl
  compress := by
    intro c₀ input c rest out st _ _ _ hst
    simp only [rawEncoder] at hst
    split at hst
    · cases hst
      simp
    · cases hst
      simp [RawBuffer.empty]
  spontaneous := by
    intro c₀ input c rest out st _ _ _ hst hout
    simp only [rawEncoder] at hst
    split at hst
    · cases hst
      exact absurd rfl hout
    · cases hst
      simp [RawBuffer.empty]
  flush := by
    intro c st _ hst
    simp only [rawEncoder] at hst
    split at hst
    next hnil =>
      cases hst
      simp [hnil]
    · cases hst
      rfl

/-- An idle session: a byte, sixteen seconds, and one byte more. -/
def idleSession : List ZCall := [.write 1 [0x68] 0]

theorem flushed_in_time_idle :
    ∃ st, exec (zcall rawEncoder .default 1) (.ofBytes [], .start)
        (idleSession ++ [.write 1 [0x69] 16]) = some st ∧
      ∃ c base e, st.2.cstream = some c ∧ st.1.data = base ++ e ∧
        rawEncoder.At c [0x68, 0x69] e ∧ c.buf.length ≤ 2 ∧
        ∀ b ∈ lastN c.buf.length [((0x68 : UInt8), (0 : ℤ)), (0x69, 16)], 1 ≤ b.2 := by
  have horder : InOrder (idleSession ++ [.write 1 [0x69] 16]) := by
    simp [InOrder, idleSession, ZCall.time?]
  have hfuel : ∀ size bytes now, ZCall.write size bytes now ∈ idleSession ++ [.write 1 [0x69] 16] →
      bytes.length ≤ 1 := by
    intro size bytes now hmem
    simp only [idleSession, List.cons_append, List.nil_append, List.mem_cons, ZCall.write.injEq,
      List.not_mem_nil, or_false] at hmem
    rcases hmem with ⟨-, rfl, -⟩ | ⟨-, rfl, -⟩ <;> exact le_rfl
  have hreturns : ∃ st, exec (zcall rawEncoder .default 1) (.ofBytes [], .start)
      (idleSession ++ [.write 1 [0x69] 16]) = some st ∧ _ :=
    (flushed_in_time rawEncoder_buffers (OutFile.complete_ofBytes []) horder).2 _
      rawEncoder_lawful hfuel
  obtain ⟨st, hrun, -⟩ := hreturns
  have h := (flushed_in_time rawEncoder_buffers (OutFile.complete_ofBytes []) horder).1 st hrun
  have hacc : accepted (idleSession ++ [.write 1 [0x69] 16]) = [(0x68, 0), (0x69, 16)] := rfl
  have hlimit : 16 - ZConfig.default.maxFlush = 1 := rfl
  rw [hacc, hlimit] at h
  exact ⟨st, hrun, h⟩

end TtyRec
