import TtyRec.Lib.Matcher
import TtyRec.Relay

/-!
# The cheat-codes

`handle_cheatcodes` counts the keys of the two codes in two static variables.  It is called
for the reads of a single byte only, and it begins anew at a key that is wrong.  So it can
miss a code, when the wrong key that ends an attempt was the first one of the code; and it
can take keys for a code that are not consecutive, when a read of several bytes comes in
between.

## Main definitions

* `killPattern` — the eight keys of the code that kills the session.
* `newActs` — what the parent does in a step.
* `keystrokes` — the keys one after the other.
* `Undivided` — a read of several bytes does not come in the middle of a code.
* `Justified` — a code that is recognised was the last that was forwarded.

## Main results

* `kill_recognised_iff` — **the code is recognised wherever it is entered exactly if each
  time it begins where an attempt ends.**
* `codes_justified` — **without reads of several bytes in the middle of a code, only the
  codes are recognised.**
-/

namespace TtyRec

open Run Matcher

/-- `^K ^I ^L ^L ^K ^I ^L ^L`, the code that kills the session. -/
def killPattern : List UInt8 := [0x0b, 0x09, 0x0c, 0x0c, 0x0b, 0x09, 0x0c, 0x0c]

@[simp] theorem length_killPattern : killPattern.length = 8 := rfl

/-- What the parent has done from one state to a later one. -/
def newActs (s t : Parent) : List Act := t.acts.drop s.acts.length

theorem newActs_of_append {s t : Parent} {acts : List Act} (h : t.acts = s.acts ++ acts) :
    newActs s t = acts := by
  simp [newActs, h]

/-! ### The counters -/

/-- `lockseq` after a key: it counts the `^L` in a row, and begins again at the eighth. -/
def lockseqAfter (lockseq : ℕ) (c : UInt8) : ℕ :=
  if c = 0x0c then if 8 ≤ lockseq + 1 then 0 else lockseq + 1 else 0

theorem killKey_eq (killseq : ℕ) (c : UInt8) :
    killKey killseq c = decide (killPattern[killseq]? = some c) := by
  match killseq with
  | 0 | 1 | 2 | 3 | 4 | 5 | 6 | 7 => simp [killKey, killPattern, eq_comm]
  | k + 8 => simp [killKey, killPattern]

section Counters

variable {o : ParentOptions} (ho : o.cheatcodes = true) (c : UInt8) (now : ℤ) (s : Parent)

/-- What the first half of `handle_cheatcodes` does. -/
theorem handleLockseq_spec :
    (handleLockseq c now s).lockseq = lockseqAfter s.lockseq c ∧
      (handleLockseq c now s).killseq = s.killseq ∧
      (handleLockseq c now s).acts =
        s.acts ++ if c = 0x0c ∧ 8 ≤ s.lockseq + 1 then [.signal .urg] else [] := by
  unfold handleLockseq lockseqAfter
  by_cases hc : c = 0x0c
  · by_cases h8 : 8 ≤ s.lockseq + 1
    · simp [hc, h8, doLock, Parent.act]
    · simp [hc, h8]
  · simp [hc]

/-- And the second half, which is the automaton of the library for `killPattern`. -/
theorem handleKillseq_spec :
    (handleKillseq c s).killseq = advance killPattern s.killseq c ∧
      (handleKillseq c s).lockseq = s.lockseq ∧
      (handleKillseq c s).acts =
        s.acts ++ if advance killPattern s.killseq c = 8 then [.signal .term] else [] := by
  have hle : advance killPattern s.killseq c ≤ 8 := advance_le c
  have hnext : (if killKey s.killseq c then s.killseq + 1 else 0) =
      advance killPattern s.killseq c := by
    simp [killKey_eq, advance]
  unfold handleKillseq
  simp only [hnext]
  by_cases h8 : advance killPattern s.killseq c = 8
  · simp [h8, Parent.act]
  · rw [if_neg (by omega)]
    simp [h8]

/-- **What a key does**: both counters look at every key, and each may act. -/
theorem handleCheatcodes_spec (ho : o.cheatcodes = true) :
    (handleCheatcodes o c now s).killseq = advance killPattern s.killseq c ∧
      (handleCheatcodes o c now s).lockseq = lockseqAfter s.lockseq c ∧
      (handleCheatcodes o c now s).acts = s.acts ++
        ((if c = 0x0c ∧ 8 ≤ s.lockseq + 1 then [.signal .urg] else []) ++
          if advance killPattern s.killseq c = 8 then [.signal .term] else []) := by
  obtain ⟨hlock, hkill, hacts⟩ := handleLockseq_spec c now s
  obtain ⟨hkill', hlock', hacts'⟩ := handleKillseq_spec c (handleLockseq c now s)
  rw [hkill] at hkill' hacts'
  simp only [handleCheatcodes, ho, if_true]
  exact ⟨hkill', hlock'.trans hlock, by rw [hacts', hacts, List.append_assoc]⟩

end Counters

/-! ### Whether the code is recognised -/

section Recognised

variable {o : ParentOptions}

/-- The keys one after the other, each with a reading of the clock. -/
def keystrokes (o : ParentOptions) (s : Parent) (keys : List (UInt8 × ℤ)) : Parent :=
  keys.foldl (fun s k => handleCheatcodes o k.1 k.2 s) s

theorem keystrokes_concat (s : Parent) (keys : List (UInt8 × ℤ)) (k : UInt8 × ℤ) :
    keystrokes o s (keys ++ [k]) = handleCheatcodes o k.1 k.2 (keystrokes o s keys) := by
  simp [keystrokes]

/-- The counter says how much of the code was entered last. -/
theorem killseq_keystrokes (ho : o.cheatcodes = true) {s : Parent} (hs : s.killseq = 0)
    (keys : List (UInt8 × ℤ)) :
    (keystrokes o s keys).killseq = progress killPattern (keys.map Prod.fst) := by
  induction keys using List.reverseRecOn with
  | nil => simpa [keystrokes] using hs
  | append_singleton keys k ih =>
    rw [keystrokes_concat, (handleCheatcodes_spec k.1 k.2 _ ho).1, ih]
    simp

/-- A key sends SIGTERM exactly when the counter is full. -/
theorem term_mem_iff (ho : o.cheatcodes = true) {s : Parent} (hs : s.killseq = 0)
    (keys : List (UInt8 × ℤ)) (k : UInt8 × ℤ) :
    Act.signal .term ∈ newActs (keystrokes o s keys) (keystrokes o s (keys ++ [k])) ↔
      progress killPattern ((keys ++ [k]).map Prod.fst) = killPattern.length := by
  obtain ⟨-, -, hacts⟩ := handleCheatcodes_spec k.1 k.2 (keystrokes o s keys) ho
  rw [keystrokes_concat, newActs_of_append hacts, killseq_keystrokes ho hs]
  simp only [List.map_append, List.map_cons, List.map_nil, progress_concat, length_killPattern]
  by_cases h8 : advance killPattern (progress killPattern (keys.map Prod.fst)) k.1 = 8
  · simp [h8]
  · simp [h8]

/-- **The code is recognised wherever it is entered exactly if each time it begins where an
attempt ends**: a key sends SIGTERM exactly when the last eight keys are the code, provided
that the keys before the code are attempts at it, each of them given up at a wrong key. -/
theorem kill_recognised_iff (ho : o.cheatcodes = true) {s : Parent} (hs : s.killseq = 0)
    (keys : List (UInt8 × ℤ)) :
    (∀ p k rest, keys = p ++ k :: rest →
        (Act.signal .term ∈ newActs (keystrokes o s p) (keystrokes o s (p ++ [k])) ↔
          killPattern <:+ (p ++ [k]).map Prod.fst)) ↔
      ∀ q rest, keys.map Prod.fst = q ++ (killPattern ++ rest) → Attempts killPattern q := by
  constructor
  · intro h q rest hkeys
    -- the last key of the code
    obtain ⟨before, rest', rfl, hbefore, hrest'⟩ := List.map_eq_append_iff.mp hkeys
    obtain ⟨code, after, rfl, hcode, -⟩ := List.map_eq_append_iff.mp hrest'
    rcases List.eq_nil_or_concat code with rfl | ⟨code', k, rfl⟩
    · simp [killPattern] at hcode
    · have hmap : ((before ++ code') ++ [k]).map Prod.fst = q ++ killPattern := by
        rw [List.append_assoc, List.map_append, hbefore, ← hcode, List.concat_eq_append]
      have hsent := (h (before ++ code') k after (by simp)).mpr (by
        rw [hmap]
        exact List.suffix_append _ _)
      rw [term_mem_iff ho hs, hmap] at hsent
      exact progress_append_eq_length.mp hsent
  · intro h p k rest hkeys
    rw [term_mem_iff ho hs]
    constructor
    · intro hfull
      have hsuffix : killPattern.take (progress killPattern ((p ++ [k]).map Prod.fst)) <:+
          (p ++ [k]).map Prod.fst := progress_suffix _
      rwa [hfull, List.take_length] at hsuffix
    · rintro ⟨q, hq⟩
      rw [← hq, progress_append_eq_length]
      refine h q (rest.map Prod.fst) ?_
      rw [hkeys, ← List.append_assoc, hq]
      simp

/-- The options of a session in a terminal, with the cheat-codes enabled. -/
def ParentOptions.cheating : ParentOptions := { ParentOptions.tty with cheatcodes := true }

/-- Keys that are hit when the clock begins. -/
def hit (keys : List UInt8) : List (UInt8 × ℤ) := keys.map fun c => (c, 0)

/-- Entered at once, the code is recognised. -/
theorem kill_recognised_iff_code :
    ParentOptions.cheating.cheatcodes = true ∧
      ∀ p k rest, hit killPattern = p ++ k :: rest →
        (Act.signal .term ∈ newActs (keystrokes .cheating (.start 0) p)
            (keystrokes .cheating (.start 0) (p ++ [k])) ↔
          killPattern <:+ (p ++ [k]).map Prod.fst) := by
  refine ⟨rfl, (kill_recognised_iff rfl rfl (hit killPattern)).mpr ?_⟩
  intro q rest h
  have hlen := congrArg List.length h
  simp only [hit, List.length_map, List.length_append, length_killPattern] at hlen
  rw [List.length_eq_zero_iff.mp (show q.length = 0 by omega)]
  exact .nil

/-- When `^K` is hit once too often before it, the code is missed. -/
theorem kill_missed :
    Act.signal .term ∉ newActs
        (keystrokes .cheating (.start 0) (hit (0x0b :: killPattern.take 7)))
        (keystrokes .cheating (.start 0) (hit (0x0b :: killPattern.take 7) ++ [(0x0c, 0)])) ∧
      killPattern <:+ (hit (0x0b :: killPattern.take 7) ++ [(0x0c, 0)]).map Prod.fst := by
  decide

end Recognised

/-! ### Whether only the codes are recognised -/

section Justified

variable {o : ParentOptions}

/-- No code is half entered when more than one byte is read at once. -/
def Undivided (s : Parent) : ParentEvent → Prop
  | .input (_ :: _ :: _) _ _ _ =>
    s.lockedSince = 0 → s.lockseq = 0 ∧ (s.killseq = 0 ∨ s.killseq = 8)
  | _ => True

instance (s : Parent) : DecidablePred (Undivided s)
  | .input (_ :: _ :: _) _ _ _ => inferInstanceAs (Decidable (_ → _))
  | .input [] _ _ _ | .input [_] _ _ _ | .eof | .tick _ _ | .urg _ | .usr2 _ => .isTrue trivial

/-- When a code is recognised, the bytes that were forwarded last are this code. -/
def Justified (s : Parent) (e : ParentEvent) (t : Parent) : Prop :=
  match e with
  | .input _ _ _ _ =>
    (.signal .urg ∈ newActs s t → List.replicate 8 0x0c <:+ inputOf t.acts) ∧
      (.signal .term ∈ newActs s t → killPattern <:+ inputOf t.acts)
  | _ => True

/-- The counters speak of the bytes that were forwarded last: what they count stands at the end of
the input that the command was sent.  A killing code that is complete is left out, as the counter
may then stay. -/
structure Entered (s : Parent) : Prop where
  lock_lt : s.lockseq < 8
  lock : List.replicate s.lockseq 0x0c <:+ inputOf s.acts
  kill_le : s.killseq ≤ 8
  kill : s.killseq < 8 → killPattern.take s.killseq <:+ inputOf s.acts

theorem entered_start (now : ℤ) : Entered (Parent.start now) :=
  ⟨by simp [Parent.start], by simp [Parent.start], by simp [Parent.start], by simp [Parent.start]⟩

/-- What leaves the counters and the input alone keeps this. -/
theorem Entered.of_same {s t : Parent} (h : Entered s) (hlock : t.lockseq = s.lockseq)
    (hkill : t.killseq = s.killseq) (hinput : inputOf t.acts = inputOf s.acts) : Entered t := by
  obtain ⟨hlt, hl, hle, hk⟩ := h
  exact ⟨by omega, by rwa [hlock, hinput], by omega, by rwa [hkill, hinput]⟩

/-- A key that is forwarded, and looked at. -/
theorem Entered.key (ho : o.cheatcodes = true) {s : Parent} (h : Entered s) (c : UInt8) (now : ℤ)
    {u : Parent} (hlock : u.lockseq = s.lockseq) (hkill : u.killseq = s.killseq)
    (hacts : u.acts = s.acts ++ [.input [c]]) :
    Entered (handleCheatcodes o c now u) ∧
      (.signal .urg ∈ newActs s (handleCheatcodes o c now u) →
        List.replicate 8 0x0c <:+ inputOf (handleCheatcodes o c now u).acts) ∧
      (.signal .term ∈ newActs s (handleCheatcodes o c now u) →
        killPattern <:+ inputOf (handleCheatcodes o c now u).acts) := by
  obtain ⟨hkill', hlock', hacts'⟩ := handleCheatcodes_spec c now u ho
  rw [hkill, hlock] at hacts'
  rw [hkill] at hkill'
  rw [hlock] at hlock'
  have hinput : inputOf (handleCheatcodes o c now u).acts = inputOf s.acts ++ [c] := by
    rw [inputOf_handleCheatcodes, hacts, inputOf_append]
    rfl
  have hnew : newActs s (handleCheatcodes o c now u) = [.input [c]] ++
      ((if c = 0x0c ∧ 8 ≤ s.lockseq + 1 then [.signal .urg] else []) ++
        if advance killPattern s.killseq c = 8 then [.signal .term] else []) := by
    apply newActs_of_append
    rw [hacts', hacts, List.append_assoc]
  -- eight `^L`, or one more
  have height : c = 0x0c → List.replicate (s.lockseq + 1) 0x0c <:+ inputOf s.acts ++ [c] := by
    rintro rfl
    rw [List.replicate_succ']
    exact List.suffix_append_self_iff.mpr h.lock
  -- one more key of the other code
  have hcode : killPattern.take (advance killPattern s.killseq c) <:+ inputOf s.acts ++ [c] := by
    by_cases hc : killPattern[s.killseq]? = some c
    · have hlt : s.killseq < 8 := (List.getElem?_eq_some_iff.mp hc).1
      rw [advance_of_eq hc, ← take_concat hc]
      exact List.suffix_append_self_iff.mpr (h.kill hlt)
    · simp [advance_of_ne hc]
  have hlt := h.lock_lt
  refine ⟨⟨?_, ?_, ?_, ?_⟩, ?_, ?_⟩
  · rw [hlock', lockseqAfter]
    split
    · split
      · omega
      · omega
    · omega
  · rw [hlock', hinput, lockseqAfter]
    split
    next hc =>
      split
      · simp
      · exact height hc
    · simp
  · rw [hkill']
    exact advance_le c
  · intro _
    rw [hkill', hinput]
    exact hcode
  · intro hmem
    obtain ⟨hc, h8⟩ : c = 0x0c ∧ 8 ≤ s.lockseq + 1 := by
      by_contra hno
      rw [hnew, if_neg hno] at hmem
      split at hmem <;> simp at hmem
    rw [hinput, show 8 = s.lockseq + 1 by omega]
    exact height hc
  · intro hmem
    have h8 : advance killPattern s.killseq c = 8 := by
      by_contra hno
      rw [hnew, if_neg hno] at hmem
      split at hmem <;> simp at hmem
    rw [h8] at hcode
    rw [hinput]
    exact hcode

/-- A write that is not empty. -/
theorem sent_pos {s t : Parent} {bytes : List UInt8} {n : ℕ} {now lockNow : ℤ}
    (h : parentStep o s (.input bytes (.sent n) now lockNow) = some t)
    (hunlocked : s.lockedSince = 0) : 0 < n := by
  unfold parentStep forward at h
  dsimp only at h
  split at h
  · rw [if_neg (not_not.mpr hunlocked)] at h
    split at h
    next hn => exact hn.1
    next => cases h
  · cases h

/-- The watcher and the handlers leave the counters alone. -/
theorem counters_timeoutWatcher (o : ParentOptions) (now lockNow : ℤ) (s : Parent) :
    (timeoutWatcher o now lockNow s).lockseq = s.lockseq ∧
      (timeoutWatcher o now lockNow s).killseq = s.killseq := by
  have hwarn : (warnLock o now s).lockseq = s.lockseq ∧ (warnLock o now s).killseq = s.killseq := by
    unfold warnLock
    split <;> exact ⟨rfl, rfl⟩
  have hlock : (watchLock o now lockNow s).lockseq = s.lockseq ∧
      (watchLock o now lockNow s).killseq = s.killseq := by
    unfold watchLock
    dsimp only
    split
    · split <;> exact hwarn
    · exact ⟨rfl, rfl⟩
  have hkill : ∀ idle limit u, (watchKillAt o idle limit u).lockseq = u.lockseq ∧
      (watchKillAt o idle limit u).killseq = u.killseq := by
    intro idle limit u
    unfold watchKillAt
    split
    · exact ⟨rfl, rfl⟩
    · split <;> exact ⟨rfl, rfl⟩
  obtain ⟨hl, hk⟩ := hlock
  unfold timeoutWatcher watchKill
  split
  · split
    · exact ⟨(hkill _ _ _).1.trans hl, (hkill _ _ _).2.trans hk⟩
    · exact ⟨(hkill _ _ _).1.trans hl, (hkill _ _ _).2.trans hk⟩
  · exact ⟨hl, hk⟩

theorem counters_lockSession (now : ℤ) (s : Parent) :
    (lockSession now s).lockseq = s.lockseq ∧ (lockSession now s).killseq = s.killseq := by
  unfold lockSession
  split <;> exact ⟨rfl, rfl⟩

theorem counters_unlockSession (now : ℤ) (s : Parent) :
    (unlockSession now s).lockseq = s.lockseq ∧ (unlockSession now s).killseq = s.killseq := by
  unfold unlockSession
  dsimp only
  split <;> exact ⟨rfl, rfl⟩

/-- **One step**: what is entered stays entered, and a code that is recognised was forwarded.  The
counters move only with a byte that is read alone. -/
theorem entered_step (ho : o.cheatcodes = true) {s t : Parent} {e : ParentEvent} (hs : Entered s)
    (hok : Undivided s e) (hstep : parentStep o s e = some t) : Entered t ∧ Justified s e t := by
  cases parentStep_steps hstep with
  | dropped => exact ⟨hs.of_same rfl rfl rfl, by simp [newActs], by simp [newActs]⟩
  | @sent bytes n now lockNow _ _ _ hunlocked =>
    have hn := sent_pos hstep hunlocked
    match bytes with
    | [] =>
      refine ⟨hs.of_same rfl rfl ?_, ?_, ?_⟩
      · simp [afterInput, inputOf]
      · simp [afterInput, newActs]
      · simp [afterInput, newActs]
    | [c] =>
      -- a single byte is a key
      refine hs.key ho c lockNow rfl rfl ?_
      rw [Parent.act_acts, List.take_of_length_le hn]
    | c :: c' :: cs =>
      -- more bytes at once do not count as keys, and must not divide a code
      obtain ⟨hlock, hkill⟩ := hok hunlocked
      refine ⟨⟨?_, ?_, ?_, ?_⟩, ?_, ?_⟩
      · simp [afterInput, Parent.act, hlock]
      · simp [afterInput, Parent.act, hlock]
      · simpa [afterInput, Parent.act] using hs.kill_le
      · rcases hkill with h0 | h8
        · simp [afterInput, Parent.act, h0]
        · simp [afterInput, Parent.act, h8]
      · simp [afterInput, newActs]
      · simp [afterInput, newActs]
  | failed => exact ⟨hs.of_same rfl rfl rfl, by simp [newActs], by simp [newActs]⟩
  | eof => exact ⟨hs.of_same rfl rfl rfl, trivial⟩
  | @tick now lockNow =>
    obtain ⟨hlock, hkill⟩ := counters_timeoutWatcher o now lockNow
      { s with clock := lockNow, lastTick := now }
    exact ⟨hs.of_same hlock hkill (inputOf_timeoutWatcher _ _ _ _), trivial⟩
  | @urg now =>
    obtain ⟨hlock, hkill⟩ := counters_lockSession now { s with clock := now }
    exact ⟨hs.of_same hlock hkill (inputOf_lockSession _ _), trivial⟩
  | @usr2 now =>
    obtain ⟨hlock, hkill⟩ := counters_unlockSession now { s with clock := now }
    exact ⟨hs.of_same hlock hkill (inputOf_unlockSession _ _), trivial⟩

/-- **Only the codes are recognised**: in every run in which no code is half entered when
more than one byte is read at once, whatever the chunks are, and whenever the session is
locked and unlocked, a key locks the session only if the last eight bytes that were forwarded
are all `^L`, and kills it only if they are the other code. -/
theorem codes_justified (ho : o.cheatcodes = true) (now : ℤ) {es : List ParentEvent}
    (hok : Along (parentStep o) Undivided (.start now) es) :
    Along (parentStep o) (fun s e => ∀ t, parentStep o s e = some t → Justified s e t)
      (.start now) es :=
  hok.of_invariant (fun hs hu hstep => entered_step ho hs hu hstep) (entered_start now)

/-- A byte that is read alone, and forwarded. -/
def readKey (c : UInt8) : ParentEvent := .input [c] (.sent 1) 0 0

/-- The sequence of an arrow key, read at once. -/
def arrowUp : ParentEvent := .input [0x1b, 0x5b, 0x41] (.sent 3) 0 0

/-- The session is locked with the code and unlocked again, and then the arrow is hit. -/
theorem codes_justified_arrow :
    ParentOptions.cheating.cheatcodes = true ∧
      Along (parentStep .cheating)
        (fun s e => ∀ t, parentStep .cheating s e = some t → Justified s e t) (.start 0)
        (List.replicate 8 (readKey 0x0c) ++ [.usr2 0, arrowUp]) :=
  ⟨rfl, codes_justified rfl 0 (by decide)⟩

/-- The arrow is hit before the last of the eight keys, and the session is locked. -/
theorem arrow_in_code :
    ∃ s t, exec (parentStep .cheating) (.start 0) (List.replicate 7 (readKey 0x0c) ++ [arrowUp]) =
        some s ∧
      parentStep .cheating s (readKey 0x0c) = some t ∧ .signal .urg ∈ newActs s t ∧
      ¬ List.replicate 8 0x0c <:+ inputOf t.acts :=
  ⟨_, _, rfl, rfl, by decide, by decide⟩

end Justified

end TtyRec
