import TtyRec.FileName
import TtyRec.Recorder

/-!
# Requests that are coalesced

SIGUSR1 often comes twice, once from the sender and once from the parent, so
`swing_output_file` takes a request that follows a rotation within 250 milliseconds for a
duplicate.  It compares two readings of the clock that can be set, and it takes seconds that
are 0 for "no rotation yet".

What a sequence of requests does depends on the readings of the clock alone.

## Main definitions

* `Due` — the request is not taken for a duplicate.
* `rotations`, `lastRotation` — the requests that rotate, and the last of them.
* `deliveries` — the readings of the requests of a run.
* `OnlyDuplicates`, `Coalesced` — what is expected of the requests.

## Main results

* `exec_rotations` — the recorder rotates at these requests.
* `coalescing_iff` — **both hold exactly if no request comes long before the last rotation
  by the clock, and none comes soon after a rotation in the first second of the epoch.**
-/

namespace TtyRec

open Run

/-- A request is not taken for a duplicate of the last rotation. -/
def Due (last now : Timeval) : Prop := last.tvSec = 0 ∨ 250 ≤ elapsedMs last now

instance (last now : Timeval) : Decidable (Due last now) := inferInstanceAs (Decidable (_ ∨ _))

/-- The readings of the clock at which there is a rotation, the last one having been at
`last`. -/
def rotations : Timeval → List Timeval → List Timeval
  | _, [] => []
  | last, now :: nows =>
    if Due last now then now :: rotations now nows else rotations last nows

/-- The reading at the last rotation, which is what `last_rotate` holds. -/
def lastRotation (last : Timeval) (nows : List Timeval) : Timeval :=
  (rotations last nows).getLastD last

section Lists

variable {last now : Timeval}

@[simp] theorem rotations_nil (last : Timeval) : rotations last [] = [] := rfl

@[simp] theorem lastRotation_nil (last : Timeval) : lastRotation last [] = last := rfl

theorem rotations_of_due (h : Due last now) (nows : List Timeval) :
    rotations last (now :: nows) = now :: rotations now nows := if_pos h

theorem rotations_of_not_due (h : ¬ Due last now) (nows : List Timeval) :
    rotations last (now :: nows) = rotations last nows := if_neg h

theorem lastRotation_of_due (h : Due last now) (nows : List Timeval) :
    lastRotation last (now :: nows) = lastRotation now nows := by
  rw [lastRotation, rotations_of_due h, lastRotation, List.getLastD_cons]

theorem lastRotation_of_not_due (h : ¬ Due last now) (nows : List Timeval) :
    lastRotation last (now :: nows) = lastRotation last nows := by
  rw [lastRotation, rotations_of_not_due h, lastRotation]

/-- Later requests go on from the last rotation, so runs may be cut anywhere. -/
theorem rotations_append (last : Timeval) (nows nows' : List Timeval) :
    rotations last (nows ++ nows') =
      rotations last nows ++ rotations (lastRotation last nows) nows' := by
  induction nows generalizing last with
  | nil => simp
  | cons now nows ih =>
    by_cases h : Due last now
    · rw [List.cons_append, rotations_of_due h, rotations_of_due h, lastRotation_of_due h, ih,
        List.cons_append]
    · rw [List.cons_append, rotations_of_not_due h, rotations_of_not_due h,
        lastRotation_of_not_due h, ih]

theorem lastRotation_append (last : Timeval) (nows nows' : List Timeval) :
    lastRotation last (nows ++ nows') = lastRotation (lastRotation last nows) nows' := by
  induction nows generalizing last with
  | nil => simp
  | cons now nows ih =>
    by_cases h : Due last now
    · rw [List.cons_append, lastRotation_of_due h, lastRotation_of_due h, ih]
    · rw [List.cons_append, lastRotation_of_not_due h, lastRotation_of_not_due h, ih]

/-- A rotation is at one of the requests. -/
theorem mem_of_mem_rotations {tv : Timeval} {nows : List Timeval} (h : tv ∈ rotations last nows) :
    tv ∈ nows := by
  induction nows generalizing last with
  | nil => simp at h
  | cons now nows ih =>
    by_cases hd : Due last now
    · rw [rotations_of_due hd] at h
      rcases List.mem_cons.mp h with rfl | h
      · exact List.mem_cons_self
      · exact List.mem_cons_of_mem _ (ih h)
    · rw [rotations_of_not_due hd] at h
      exact List.mem_cons_of_mem _ (ih h)

theorem lastRotation_mem (last : Timeval) (nows : List Timeval) :
    lastRotation last nows = last ∨ lastRotation last nows ∈ nows := by
  rw [lastRotation]
  cases h : (rotations last nows).getLast? with
  | none => simp [List.getLastD_eq_getLast?, h]
  | some tv =>
    right
    rw [List.getLastD_eq_getLast?, h]
    exact mem_of_mem_rotations (List.mem_of_getLast? h)

end Lists

/-! ### The requests of a run -/

/-- The readings of the clock at the requests, in the order of their deliveries. -/
def deliveries (es : List Event) : List Timeval :=
  es.filterMap fun
    | .usr1 now _ _ => some now
    | _ => none

/-- The event ends the process, and closes the last file. -/
def Event.finishes : Event → Bool
  | .finish _ => true
  | _ => false

section Machine

variable {S N : Type*} {cfg : Config} {host : Host} {fileName : Timeval → N}
  {fwriteWrapper : FwriteWrapper S} {fcloseWrapper : FcloseWrapper S}

theorem ControlSteps.deliveries {s t : Control N} {e : Event} (h : ControlSteps cfg s e t) :
    TtyRec.deliveries [e] = [] ∧ e.finishes = false := by
  cases h with
  | _ => exact ⟨rfl, rfl⟩

/-- The wrappers do not rotate, so a call of one changes neither the time nor the list of files. -/
theorem Recorder.afterCall_same {α : Type} (s : Recorder S N) (pc : Pc)
    (r : Outcome (α × (OutFile × S))) :
    (s.afterCall pc r).lastRotate = s.lastRotate ∧ (s.afterCall pc r).closed = s.closed := by
  cases r with
  | ret r => exact ⟨rfl, rfl⟩
  | exit status => exact ⟨rfl, rfl⟩
  | spin => exact ⟨rfl, rfl⟩

variable [DecidableEq N]

/-- What one step does to the time of the last rotation and to the files that are closed.  Both are
told by the deliveries of SIGUSR1 alone. -/
theorem step_rotations {s t : Recorder S N} {e : Event}
    (h : step cfg host fileName fwriteWrapper fcloseWrapper s e = some t) :
    t.lastRotate = lastRotation s.lastRotate (deliveries [e]) ∧
      t.closed.length = s.closed.length + (rotations s.lastRotate (deliveries [e])).length +
        [e].countP Event.finishes := by
  cases step_steps h with
  | control hc =>
    obtain ⟨hnone, hfin⟩ := hc.deliveries
    have hq := hc.quiet
    simp [hnone, hfin, hq.lastRotate, hq.closed]
  | @header c hdr =>
    obtain ⟨hlast, hclosed⟩ := Recorder.afterCall_same
      { s with recorded := s.recorded ++ [⟨hdr, c.bytes⟩] } (.payload c hdr) _
    exact ⟨hlast, congrArg List.length hclosed⟩
  | @payload c =>
    obtain ⟨hlast, hclosed⟩ := Recorder.afterCall_same s (.account c) _
    exact ⟨hlast, congrArg List.length hclosed⟩
  | @usr1 now named opens =>
    have hone : deliveries [.usr1 now named opens] = [now] := rfl
    rw [hone]
    unfold swingOutputFile
    -- a request is due, or coalesced with the last rotation
    by_cases hrot : s.Rotates now
    · have hdue : Due s.lastRotate now := hrot
      rw [if_pos hrot, rotations_of_due hdue, lastRotation_of_due hdue]
      cases opens with
      | true => simp [openScript, closeScript, Event.finishes]
      | false => simp [closeScript, Event.finishes]
    · have hdue : ¬ Due s.lastRotate now := hrot
      rw [if_neg hrot, rotations_of_not_due hdue, lastRotation_of_not_due hdue]
      simp [Event.finishes]
  | finish hpc =>
    have hlive : s.pc.Live := by simp [hpc, Pc.Live]
    have hq := quiet_unlockScreen hlive
    simp [closeScript, deliveries, Event.finishes, hq.lastRotate, hq.closed]

/-- **The recorder rotates at these requests**: it closes a file at each of them, and another
one in the end. -/
theorem exec_rotations {s t : Recorder S N} {es : List Event}
    (hrun : exec (step cfg host fileName fwriteWrapper fcloseWrapper) s es = some t) :
    t.lastRotate = lastRotation s.lastRotate (deliveries es) ∧
      t.closed.length = s.closed.length + (rotations s.lastRotate (deliveries es)).length +
        es.countP Event.finishes := by
  induction es generalizing s with
  | nil =>
    rw [exec_nil, Option.some.injEq] at hrun
    simp [hrun, deliveries]
  | cons e es ih =>
    obtain ⟨s', he, hes⟩ := exec_cons_eq_some.mp hrun
    obtain ⟨hlast, hclosed⟩ := ih hes
    obtain ⟨hlast', hclosed'⟩ := step_rotations he
    have hsplit : deliveries (e :: es) = deliveries [e] ++ deliveries es := by
      simp [deliveries, ← List.filterMap_append]
    have hcount : (e :: es).countP Event.finishes =
        [e].countP Event.finishes + es.countP Event.finishes := by
      rw [← List.countP_append]
      rfl
    rw [hsplit, lastRotation_append, rotations_append, ← hlast', hcount, List.length_append]
    exact ⟨hlast, by omega⟩

end Machine

/-! ### Duplicates -/

/-- A request is ignored only as a duplicate: the clock is within 250 milliseconds, in either
direction, of its reading at the last rotation. -/
def OnlyDuplicates (nows : List Timeval) : Prop :=
  ∀ before now after, nows = before ++ now :: after →
    rotations ⟨0, 0⟩ (before ++ [now]) = rotations ⟨0, 0⟩ before →
    ∃ last ∈ (rotations ⟨0, 0⟩ before).getLast?, |now.micros - last.micros| ≤ 250000

/-- The clock does not go back. -/
def Nondecreasing (nows : List Timeval) : Prop :=
  nows.Pairwise fun now now' => now.micros ≤ now'.micros

/-- With a clock that does not go back, requests within 249 milliseconds of the first of them
cause at most one rotation. -/
def Coalesced (nows : List Timeval) : Prop :=
  Nondecreasing nows →
    ∀ before first rest after, nows = before ++ (first :: rest) ++ after →
      (∀ now ∈ rest, now.micros ≤ first.micros + 249000) →
      (rotations ⟨0, 0⟩ (before ++ (first :: rest))).length ≤
        (rotations ⟨0, 0⟩ before).length + 1

/-- No request comes more than 250 milliseconds before the last rotation, by the clock. -/
def NeverFarBack (nows : List Timeval) : Prop :=
  ∀ before now after, nows = before ++ now :: after →
    ∀ last ∈ (rotations ⟨0, 0⟩ before).getLast?, last.tvSec ≠ 0 →
      last.micros ≤ now.micros + 250000

/-- With a clock that does not go back, no request in the first second of the epoch is followed
by another one within 249 milliseconds. -/
def LaterThanEpoch (nows : List Timeval) : Prop :=
  Nondecreasing nows → ∀ before now now' after, nows = before ++ now :: now' :: after →
    now.tvSec = 0 → now.micros + 249000 < now'.micros

/-! ### The comparison -/

section Comparison

variable {last now : Timeval}

/-- The quotient that is rounded towards 0. -/
theorem tdiv_thousand (d : ℤ) :
    (0 ≤ d ∧ 1000 * d.tdiv 1000 ≤ d ∧ d < 1000 * d.tdiv 1000 + 1000) ∨
      (d < 0 ∧ d ≤ 1000 * d.tdiv 1000 ∧ 1000 * d.tdiv 1000 < d + 1000) := by
  rcases Int.lt_or_le d 0 with hneg | hpos
  · right
    have h : d.tdiv 1000 = -((-d) / 1000) := by
      rw [← Int.tdiv_eq_ediv_of_nonneg (by omega), Int.neg_tdiv, neg_neg]
    omega
  · left
    rw [Int.tdiv_eq_ediv_of_nonneg hpos]
    omega

/-- A request that is ignored is not later than 250 milliseconds after the last rotation. -/
theorem lt_of_not_due (h : ¬ Due last now) : now.micros < last.micros + 250000 := by
  obtain ⟨-, hms⟩ := not_or.mp h
  unfold elapsedMs at hms
  unfold Timeval.micros
  rcases tdiv_thousand (now.tvUsec - last.tvUsec) with ⟨-, hle, hlt⟩ | ⟨-, hle, hlt⟩
  · omega
  · omega

/-- A request up to 249 milliseconds after the last rotation is ignored. -/
theorem not_due_of_le (hlast : last.tvSec ≠ 0) (h : now.micros ≤ last.micros + 249000) :
    ¬ Due last now := by
  refine not_or.mpr ⟨hlast, ?_⟩
  unfold elapsedMs
  unfold Timeval.micros at h
  rcases tdiv_thousand (now.tvUsec - last.tvUsec) with ⟨-, hle, hlt⟩ | ⟨-, hle, hlt⟩
  · omega
  · omega

end Comparison

/-! ### The two expectations -/

/-- A request that is ignored. -/
theorem rotations_concat_eq_iff {last now : Timeval} {before : List Timeval} :
    rotations last (before ++ [now]) = rotations last before ↔
      ¬ Due (lastRotation last before) now := by
  rw [rotations_append]
  by_cases h : Due (lastRotation last before) now
  · simp [rotations_of_due h, h]
  · simp [rotations_of_not_due h, h]

/-- There was a rotation before, if its seconds are not 0. -/
theorem getLast?_rotations {before : List Timeval} {last : Timeval}
    (h : lastRotation ⟨0, 0⟩ before = last) (hsec : last.tvSec ≠ 0) :
    last ∈ (rotations ⟨0, 0⟩ before).getLast? := by
  rw [lastRotation, List.getLastD_eq_getLast?] at h
  cases hlast : (rotations ⟨0, 0⟩ before).getLast? with
  | none =>
    rw [hlast, Option.getD_none] at h
    exact absurd (by rw [← h]) hsec
  | some tv =>
    rw [hlast, Option.getD_some] at h
    rw [h]
    rfl

theorem lastRotation_of_getLast? {before : List Timeval} {last : Timeval}
    (h : last ∈ (rotations ⟨0, 0⟩ before).getLast?) : lastRotation ⟨0, 0⟩ before = last := by
  rw [lastRotation, List.getLastD_eq_getLast?, Option.mem_def.mp h, Option.getD_some]

/-- Only duplicates are ignored as long as the clock is never set far back. -/
theorem onlyDuplicates_iff (nows : List Timeval) : OnlyDuplicates nows ↔ NeverFarBack nows := by
  constructor
  · intro h before now after hsplit last hlast hsec
    by_contra hfar
    have hdue : ¬ Due last now := not_due_of_le hsec (by omega)
    rw [← lastRotation_of_getLast? hlast, ← rotations_concat_eq_iff] at hdue
    obtain ⟨last', hlast', habs⟩ := h before now after hsplit hdue
    obtain rfl : last' = last := Option.some.inj (hlast'.symm.trans hlast)
    have := (abs_le.mp habs).1
    omega
  · intro h before now after hsplit hignored
    have hdue := rotations_concat_eq_iff.mp hignored
    have hlast := getLast?_rotations rfl (not_or.mp hdue).1
    refine ⟨_, hlast, abs_le.mpr ⟨?_, ?_⟩⟩
    · have := h before now after hsplit _ hlast (not_or.mp hdue).1
      omega
    · have := lt_of_not_due hdue
      omega

/-- No rotation follows within 249 milliseconds. -/
theorem rotations_eq_nil {last : Timeval} (hlast : last.tvSec ≠ 0) {nows : List Timeval}
    (h : ∀ now ∈ nows, now.micros ≤ last.micros + 249000) : rotations last nows = [] := by
  induction nows with
  | nil => rfl
  | cons now nows ih =>
    rw [List.forall_mem_cons] at h
    rw [rotations_of_not_due (not_due_of_le hlast h.1), ih h.2]

/-- The requests that all come soon after the first of them rotate once at most. -/
theorem length_rotations_le (limit : ℤ) :
    ∀ (nows : List Timeval) (last : Timeval), (∀ now ∈ nows, now.micros ≤ limit) →
      (∀ now ∈ nows, limit ≤ now.micros + 249000) →
      (∀ before now now' after, nows = before ++ now :: now' :: after → now.tvSec = 0 →
        now.micros + 249000 < now'.micros) →
      (rotations last nows).length ≤ 1 := by
  intro nows
  induction nows with
  | nil => simp
  | cons now nows ih =>
    intro last hle hge hepoch
    rw [List.forall_mem_cons] at hle hge
    by_cases hdue : Due last now
    · rw [rotations_of_due hdue]
      have hnil : rotations now nows = [] := by
        by_cases hsec : now.tvSec = 0
        · cases nows with
          | nil => rfl
          | cons now' nows =>
            -- the next request would come too soon
            have hfar := hepoch [] now now' nows rfl hsec
            have := hle.2 now' List.mem_cons_self
            have := hge.1
            omega
        · refine rotations_eq_nil hsec ?_
          intro now' hnow'
          have := hle.2 now' hnow'
          have := hge.1
          omega
      simp [hnil]
    · rw [rotations_of_not_due hdue]
      refine ih last hle.2 hge.2 ?_
      intro before now₁ now₂ after hsplit
      exact hepoch (now :: before) now₁ now₂ after (by rw [hsplit, List.cons_append])

/-- In the first second every request is due. -/
theorem due_of_epoch {before : List Timeval} (h : ∀ now ∈ before, now.tvSec = 0) (now : Timeval) :
    Due (lastRotation ⟨0, 0⟩ before) now := by
  left
  rcases lastRotation_mem ⟨0, 0⟩ before with hzero | hmem
  · rw [hzero]
  · exact h _ hmem

/-- Near requests are coalesced unless a rotation in the first second is forgotten. -/
theorem coalesced_iff {nows : List Timeval} (hclock : ∀ now ∈ nows, now.Normal) :
    Coalesced nows ↔ LaterThanEpoch nows := by
  constructor
  · intro h hmono before now now' after hsplit hsec
    by_contra hnear
    -- no request before these two is later than the first second, so both rotate
    have hzero : ∀ tv ∈ before, tv.tvSec = 0 := by
      intro tv htv
      have hle : tv.micros ≤ now.micros := by
        rw [Nondecreasing, hsplit, List.pairwise_append] at hmono
        exact hmono.2.2 tv htv now List.mem_cons_self
      have htv' := hclock tv (by rw [hsplit]; exact List.mem_append_left _ htv)
      have hnow := hclock now (by rw [hsplit]; simp)
      obtain ⟨h0, hu0, hu1⟩ := htv'
      obtain ⟨-, hv0, hv1⟩ := hnow
      unfold Timeval.micros at hle
      omega
    have htwo : rotations ⟨0, 0⟩ (before ++ [now, now']) =
        rotations ⟨0, 0⟩ before ++ [now, now'] := by
      rw [rotations_append, rotations_of_due (due_of_epoch hzero now),
        rotations_of_due (show Due now now' from .inl hsec), rotations_nil]
    have hone := h hmono before now [now'] after (by rw [hsplit]; simp) (by simpa using hnear)
    rw [htwo, List.length_append] at hone
    simp at hone
  · intro h hmono before first rest after hsplit hwindow
    have hmono' := hmono
    rw [Nondecreasing, hsplit, List.pairwise_append, List.pairwise_append] at hmono'
    have hpair := List.pairwise_cons.mp hmono'.1.2.1
    have hone : (rotations (lastRotation ⟨0, 0⟩ before) (first :: rest)).length ≤ 1 := by
      apply length_rotations_le (first.micros + 249000)
      · rw [List.forall_mem_cons]
        exact ⟨by omega, hwindow⟩
      · rw [List.forall_mem_cons]
        refine ⟨le_rfl, ?_⟩
        intro now hnow
        have := hpair.1 now hnow
        omega
      · intro before' now now' after' hsplit'
        exact h hmono (before ++ before') now now' (after' ++ after)
          (by rw [hsplit, hsplit']; simp)
    rw [rotations_append, List.length_append]
    omega

section Main

variable {S N : Type*} [DecidableEq N] {cfg : Config} {host : Host} {fileName : Timeval → N}
  {fwriteWrapper : FwriteWrapper S} {fcloseWrapper : FcloseWrapper S}

/-- **Requests are ignored as duplicates only, and near ones are coalesced, exactly if the
clock is never set far back and no request comes soon after one in the first second of the
epoch.**  The files that a run closes are closed at these rotations. -/
theorem coalescing_iff (disk : N → List UInt8) (name : N) (short : ℕ → Option ℕ) (wrapper : S)
    {es : List Event} {t : Recorder S N}
    (hrun : exec (step cfg host fileName fwriteWrapper fcloseWrapper)
      (Recorder.start disk name short wrapper) es = some t)
    (hclock : ∀ now ∈ deliveries es, now.Normal) :
    t.closed.length =
        (rotations ⟨0, 0⟩ (deliveries es)).length + es.countP Event.finishes ∧
      (OnlyDuplicates (deliveries es) ∧ Coalesced (deliveries es) ↔
        NeverFarBack (deliveries es) ∧ LaterThanEpoch (deliveries es)) := by
  constructor
  · have hclosed := (exec_rotations hrun).2
    simpa [Recorder.start] using hclosed
  · rw [onlyDuplicates_iff, coalesced_iff hclock]

end Main

/-- A request, and a second one after a tenth of a second. -/
def twice : List Event := [.usr1 ⟨1000, 0⟩ ⟨1000, 0⟩ true, .usr1 ⟨1000, 100000⟩ ⟨1000, 100000⟩ true]

/-- A request, and a second one after the clock was set back. -/
def setBack : List Event := [.usr1 ⟨2000, 0⟩ ⟨2000, 0⟩ true, .usr1 ⟨1000, 0⟩ ⟨1000, 0⟩ true]

theorem coalescing_iff_twice :
    ∃ t, exec (step .tty .little (fun tv => tv.tvSec) fwriteNone fcloseNone)
        (Recorder.start (fun _ => []) 0 (fun _ => none) ()) twice = some t ∧
      t.closed.length = 1 ∧ OnlyDuplicates (deliveries twice) ∧ Coalesced (deliveries twice) := by
  obtain ⟨t, hrun⟩ := Option.isSome_iff_exists.mp (show (exec
    (step .tty .little (fun tv => tv.tvSec) fwriteNone fcloseNone)
    (Recorder.start (fun _ => []) 0 (fun _ => none) ()) twice).isSome = true by decide)
  have hclock : ∀ now ∈ deliveries twice, now.Normal := by
    simp [deliveries, twice, Timeval.Normal]
  obtain ⟨hclosed, hiff⟩ := coalescing_iff (fun _ => []) 0 (fun _ => none) () hrun hclock
  refine ⟨t, hrun, hclosed.trans (by decide), hiff.mpr ⟨?_, ?_⟩⟩
  · intro before now after hsplit last hlast _
    -- the clock shows 1000 seconds, and the last rotation was then
    have hnow : now ∈ deliveries twice := by rw [hsplit]; simp
    have hmem : last ∈ deliveries twice := by
      have := mem_of_mem_rotations (List.mem_of_getLast? hlast)
      rw [hsplit]
      exact List.mem_append_left _ this
    simp [deliveries, twice] at hnow hmem
    rcases hnow with rfl | rfl <;> rcases hmem with rfl | rfl <;> decide
  · intro _ before now now' after hsplit hzero
    have hnow : now ∈ deliveries twice := by rw [hsplit]; simp
    simp [deliveries, twice] at hnow
    rcases hnow with rfl | rfl <;> simp at hzero

/-- **A request is lost when the clock was set back**: a quarter of an hour away from the last
rotation, the file is not rotated. -/
theorem set_back_ignored :
    (∃ t, exec (step .tty .little (fun tv => tv.tvSec) fwriteNone fcloseNone)
        (Recorder.start (fun _ => []) 0 (fun _ => none) ()) setBack = some t ∧
      t.closed.length = 1) ∧ ¬ OnlyDuplicates (deliveries setBack) := by
  refine ⟨⟨_, rfl, rfl⟩, ?_⟩
  intro h
  obtain ⟨last, hlast, habs⟩ := h [⟨2000, 0⟩] ⟨1000, 0⟩ [] rfl (by decide)
  obtain rfl : last = ⟨2000, 0⟩ := Option.some.inj (hlast.symm.trans (by decide))
  exact absurd habs (by decide)

end TtyRec
