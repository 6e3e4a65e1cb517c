import Mathlib.Data.List.DropRight
import TtyRec.Options
import TtyRec.Reopening

/-!
# The command line

`main` goes over the options that `getopt_long` returns, one after the other, and every option
changes one or two variables, or ends the process.  Behind the loop it refuses some combinations,
and makes of the rest the command to execute, the name of the recording, and the way to write it.

## Main definitions

* `Opt`, `Args` — the options, and the variables that they set.
* `readOpt`, `readOpts` — the loop.
* `Invocation`, `ttyrecMain` — what `main` has decided when it opens the recording.
* `Invocation.Sound` — what all of them have in common.
* `Invocation.opts`, `Invocation.params` — a command line for it.

## Main results

* `sound_of_ttyrecMain` — what `main` accepts is sound.
* `exists_ttyrecMain_iff` — **and every sound invocation has a command line**.
-/

namespace TtyRec

/-! ### The options -/

/-- What `getopt_long` returns, with its argument. -/
inductive Opt where
  /-- `--zstd`. -/
  | zstdLong
  | stealthStdout
  | stealthStderr
  /-- `-t`, `-k`, and the long options that are numbers of seconds. -/
  | time (opt : TimeOption) (optarg : List Char)
  /-- `-Z`. -/
  | zstd
  /-- `-l`. -/
  | level (optarg : List Char)
  /-- `-v`. -/
  | verbose
  /-- `-a`. -/
  | append
  /-- `-C`. -/
  | noCheatcodes
  /-- `-c`. -/
  | cheatcodes
  /-- `-u`. -/
  | ignored
  /-- `-e`. -/
  | shellCmd (optarg : List UInt8)
  /-- `-d`. -/
  | dir (optarg : List UInt8)
  /-- `-f`. -/
  | output (optarg : List UInt8)
  /-- `-z`. -/
  | uuid (optarg : List UInt8)
  /-- `-F`. -/
  | nameFormat (optarg : List UInt8)
  /-- `-p`. -/
  | noOpenpty
  /-- `-s`. -/
  | msg (optarg : List UInt8)
  /-- `-n`. -/
  | countBytes
  /-- `-T`. -/
  | term (optarg : List Char)
  /-- `-V`. -/
  | version
  /-- `-h`, and every unknown option. -/
  | help
  deriving DecidableEq, Repr

/-- `opt_want_tty`, the argument of `-T`. -/
inductive WantTty where
  | never
  | auto
  | always
  deriving DecidableEq, Repr

/-- The variables that the options set. -/
structure Args where
  /-- The wrappers are those of zstd. -/
  compress : Bool
  /-- `compress_level`. -/
  compressLevel : ℤ
  optZstd : ℕ
  times : TimeOptions
  stealthStdout : Bool
  stealthStderr : Bool
  debug : ℕ
  append : ℕ
  cheatcodes : Bool
  /-- The argument of `-e`. -/
  legacy : Option (List UInt8)
  dname : Option (List UInt8)
  fname : Option (List UInt8)
  uuid : Option (List UInt8)
  namefmt : Option (List UInt8)
  openptyDisable : ℕ
  customMessage : Option (List UInt8)
  countBytes : ℕ
  wantTty : WantTty

/-- The variables before the loop, with their initial values. -/
def Args.default : Args where
  compress := false
  compressLevel := -1
  optZstd := 0
  times := .default
  stealthStdout := false
  stealthStderr := false
  debug := 0
  append := 0
  cheatcodes := false
  legacy := none
  dname := none
  fname := none
  uuid := none
  namefmt := none
  openptyDisable := 0
  customMessage := none
  countBytes := 0
  wantTty := .auto

/-- What was there when the program was compiled. -/
structure Build where
  haveZstd : Bool
  haveOpenpty : Bool
  deriving DecidableEq, Repr

/-- How `main` ends before it opens the recording. -/
inductive Refusal where
  /-- It calls `fail`. -/
  | fail (message : String)
  /-- It calls `exit`, most often after `help`. -/
  | exit (status : ℕ) (message : String)
  deriving DecidableEq, Repr

/-- The option `-l`: a number from 1 to 19, or the program refuses it. -/
def readLevel (optarg : List Char) (a : Args) : Except Refusal Args :=
  if (strtol optarg).erange = true ∨ (strtol optarg).value < 1 ∨ 19 < (strtol optarg).value then
    .error (.exit 1 (s!"Invalid value passed to -l ({String.ofList optarg}), " ++
      "expected an integer between 1 and 19\r\n"))
  else .ok { a with compressLevel := (strtol optarg).value }

/-- The option `-T`; what is behind the word is ignored. -/
def readTerm (optarg : List Char) (a : Args) : Except Refusal Args :=
  if "never".toList.isPrefixOf optarg then .ok { a with wantTty := .never }
  else if "auto".toList.isPrefixOf optarg then .ok { a with wantTty := .auto }
  else if "always".toList.isPrefixOf optarg then .ok { a with wantTty := .always }
  else
    .error (.exit 1 (s!"Invalid value passed to -T ({String.ofList optarg}), " ++
      "expected either 'never', 'auto' or 'always'\r\n"))

/-- One option: the case of the `switch` for it. -/
def readOpt (b : Build) (o : Opt) (a : Args) : Except Refusal Args :=
  match o with
  | .zstdLong =>
    if b.haveZstd = true then .ok { a with compress := true, optZstd := a.optZstd + 1 }
    else .error (.fail "zstd support has not been enabled at compile time.\r\n")
  | .stealthStdout => .ok { a with stealthStdout := true }
  | .stealthStderr => .ok { a with stealthStderr := true }
  | .time opt optarg =>
    -- without zstd the value is not even looked at
    if opt = .maxFlush ∧ b.haveZstd = false then .ok a
    else
      match readOption opt optarg a.times with
      | .error message => .error (.exit 1 message)
      | .ok times => .ok { a with times := times }
  | .zstd =>
    -- a message of `set_compress_mode`, and nothing else
    if b.haveZstd = true then .ok { a with compress := true, optZstd := a.optZstd + 1 } else .ok a
  | .level optarg => readLevel optarg a
  | .verbose => .ok { a with debug := a.debug + 1 }
  | .append => .ok { a with append := a.append + 1 }
  | .noCheatcodes => .ok { a with cheatcodes := false }
  | .cheatcodes => .ok { a with cheatcodes := true }
  | .ignored => .ok a
  | .shellCmd optarg =>
    if a.legacy.isSome = true then .error (.exit 1 "Option -e specified more than once.\r\n")
    else .ok { a with legacy := some optarg }
  | .dir optarg => .ok { a with dname := some optarg }
  | .output optarg => .ok { a with fname := some optarg }
  | .uuid optarg => .ok { a with uuid := some optarg }
  | .nameFormat optarg => .ok { a with namefmt := some optarg }
  | .noOpenpty =>
    if b.haveOpenpty = true then .ok { a with openptyDisable := a.openptyDisable + 1 } else .ok a
  | .msg optarg => .ok { a with customMessage := some optarg }
  | .countBytes => .ok { a with countBytes := a.countBytes + 1 }
  | .term optarg => readTerm optarg a
  | .version => .error (.exit 0 "")
  | .help => .error (.exit 1 "")

/-- The loop over `getopt_long`, which stops at the first refusal. -/
def readOpts (b : Build) : List Opt → Args → Except Refusal Args
  | [], a => .ok a
  | o :: os, a =>
    match readOpt b o a with
    | .error r => .error r
    | .ok a' => readOpts b os a'

/-! ### Behind the loop -/

/-- What `main` asks the system. -/
structure Env where
  /-- `$SHELL`, or `/bin/sh`. -/
  shell : List UInt8
  pid : ℕ
  stdinIsatty : Bool
  /-- The clock when the first name is made. -/
  now : Timeval
  zone : TimeZone
  strftime : List UInt8 → ℤ → List UInt8
  dirname : List UInt8 → List UInt8

/-- What `execvp` is called with. -/
structure Command where
  file : List UInt8
  params : List (List UInt8)
  deriving DecidableEq, Repr

/-- What is behind the last `/`, or everything. -/
def shellName (shell : List UInt8) : List UInt8 := shell.rtakeWhile fun c => c ≠ 0x2f

/-- `command` and `params`: the shell with the argument of `-e`, what was given after the options,
or the shell alone. -/
def Env.command (env : Env) (legacy : Option (List UInt8)) (argv : List (List UInt8)) : Command :=
  match legacy, argv with
  | some cmd, _ => ⟨env.shell, [shellName env.shell, [0x2d, 0x63], cmd]⟩
  | none, [] => ⟨env.shell, [shellName env.shell, [0x2d, 0x69]]⟩
  | none, file :: args => ⟨file, file :: args⟩

/-- `ttyrecord`. -/
def legacyName : List UInt8 := [0x74, 0x74, 0x79, 0x72, 0x65, 0x63, 0x6f, 0x72, 0x64]

/-- `fname` behind the loop; a classic command line has it as its last argument. -/
def Args.outputName (a : Args) (argv : List (List UInt8)) : Option (List UInt8) :=
  if a.legacy.isSome = true then some (argv.head?.getD legacyName) else a.fname

/-- What `main` has decided when it opens the recording. -/
structure Invocation where
  command : Command
  /-- The wrappers are those of zstd, and names end in `.zst`. -/
  compress : Bool
  zstd : Bool
  compressLevel : ℤ
  times : TimeOptions
  config : Config
  cheatcodes : Bool
  first : First
  naming : Naming
  append : Bool
  openpty : Bool
  customMessage : Option (List UInt8)
  countBytes : Bool
  debug : Bool

/-- How the recordings are named. -/
def Invocation.nameConfig (inv : Invocation) (env : Env) : NameConfig where
  naming := inv.naming
  zstd := inv.zstd
  zone := env.zone
  strftime := env.strftime

/-- `use_tty`: what was asked for, or whether standard input is a terminal. -/
def WantTty.useTty (w : WantTty) (isatty : Bool) : Bool :=
  match w with
  | .never => false
  | .auto => isatty
  | .always => true

/-- The decimal digits of the pid. -/
def pidName (pid : ℕ) : List UInt8 := (Nat.toDigits 10 pid).map fun c => UInt8.ofNat c.toNat

/-- The options that name the files, behind the loop. -/
def Args.naming (env : Env) (a : Args) (fname : Option (List UInt8)) : Naming :=
  match a.namefmt with
  | some namefmt => .format namefmt
  | none =>
    -- the name of the file has its suffix when `dirname` is called
    let suffix := if 0 < a.optZstd then [0x2e, 0x7a, 0x73, 0x74] else []
    let dname := match a.dname, fname with
      | some dname, _ => dname
      | none, some fname => env.dirname (fname ++ suffix)
      | none, none => [0x2e]
    .generated dname (a.uuid.getD (pidName env.pid))

/-- The variables, put together to what the rest of the program works with. -/
def Args.invocation (b : Build) (env : Env) (a : Args) (argv : List (List UInt8)) : Invocation where
  command := env.command a.legacy argv
  compress := a.compress
  zstd := decide (0 < a.optZstd)
  compressLevel := a.compressLevel
  times := a.times
  config := ⟨a.wantTty.useTty env.stdinIsatty, a.stealthStdout, a.stealthStderr⟩
  cheatcodes := a.cheatcodes
  first := match a.outputName argv with
    | some fname => .given fname
    | none => .generated env.now
  naming := a.naming env (a.outputName argv)
  append := decide (0 < a.append)
  openpty := b.haveOpenpty && decide (a.openptyDisable = 0)
  customMessage := a.customMessage
  countBytes := decide (0 < a.countBytes)
  debug := decide (0 < a.debug)

/-- `set_ttyrec_file_name` gives the first file a name, if it needs one. -/
def Invocation.Named (inv : Invocation) (env : Env) : Prop :=
  match inv.first with
  | .given _ => True
  | .generated tv => (setTtyrecFileName (inv.nameConfig env) tv).isSome = true

instance (inv : Invocation) (env : Env) : Decidable (inv.Named env) :=
  match h : inv.first with
  | .given _ => .isTrue (by simp [Invocation.Named, h])
  | .generated tv => decidable_of_iff
    ((setTtyrecFileName (inv.nameConfig env) tv).isSome = true) (by simp [Invocation.Named, h])

/-- `main`, as far as `fopen`: `argv` is what is behind the options. -/
def ttyrecMain (b : Build) (env : Env) (opts : List Opt) (argv : List (List UInt8)) :
    Except Refusal Invocation :=
  match readOpts b opts .default with
  | .error r => .error r
  | .ok a =>
    if a.namefmt.isSome = true ∧ (a.dname.isSome = true ∨ a.uuid.isSome = true) then
      .error (.fail "Option -F (--name-format) can't be used with -d (--dir) or -z (--uuid)\n")
    else
      match checkOptions a.times with
      | .error message => .error (.exit 1 message)
      | .ok _ =>
        if (a.invocation b env argv).Named env then .ok (a.invocation b env argv)
        else .error (.fail "strftime()")

/-! ### What is accepted -/

/-- What holds of the variables in the loop, after any number of options: the mode and its option
agree, and each number is in its range.  The checks between two options come behind the loop. -/
structure Args.InLoop (b : Build) (a : Args) : Prop where
  mode : decide (0 < a.optZstd) = a.compress
  haveZstd : a.compress = true → b.haveZstd = true
  level : a.compressLevel = -1 ∨ 1 ≤ a.compressLevel ∧ a.compressLevel ≤ 19
  times : a.times.InLoop
  maxFlush : b.haveZstd = false → a.times.maxFlush = 15

theorem inLoop_args_default (b : Build) : Args.default.InLoop b where
  mode := rfl
  haveZstd h := absurd h Bool.false_ne_true
  level := .inl rfl
  times := inLoop_default
  maxFlush _ := rfl

section Loop

variable {b : Build} {a a' : Args}

/-- An option that neither chooses the wrappers nor is a number. -/
theorem Args.InLoop.of_same (h : a.InLoop b) (hcompress : a'.compress = a.compress)
    (hzstd : a'.optZstd = a.optZstd) (hlevel : a'.compressLevel = a.compressLevel)
    (htimes : a'.times = a.times) : a'.InLoop b where
  mode := by rw [hcompress, hzstd, h.mode]
  haveZstd := by rw [hcompress]; exact h.haveZstd
  level := by rw [hlevel]; exact h.level
  times := by rw [htimes]; exact h.times
  maxFlush := by rw [htimes]; exact h.maxFlush

/-- The option `-Z`, when there is zstd. -/
theorem Args.InLoop.zstd (h : a.InLoop b) (hb : b.haveZstd = true) :
    { a with compress := true, optZstd := a.optZstd + 1 }.InLoop b where
  mode := by simp
  haveZstd _ := hb
  level := h.level
  times := h.times
  maxFlush := h.maxFlush

theorem Args.InLoop.readLevel (h : a.InLoop b) {optarg : List Char}
    (hread : readLevel optarg a = .ok a') : a'.InLoop b := by
  unfold TtyRec.readLevel at hread
  split at hread
  · cases hread
  next hvalue =>
    cases hread
    have hrange : 1 ≤ (strtol optarg).value ∧ (strtol optarg).value ≤ 19 := by omega
    exact ⟨h.mode, h.haveZstd, .inr hrange, h.times, h.maxFlush⟩

theorem Args.InLoop.readTerm (h : a.InLoop b) {optarg : List Char}
    (hread : readTerm optarg a = .ok a') : a'.InLoop b := by
  unfold TtyRec.readTerm at hread
  split_ifs at hread <;> cases hread <;> exact h.of_same rfl rfl rfl rfl

/-- **One option** keeps it.  The cases are those of the `switch`. -/
theorem Args.InLoop.readOpt (h : a.InLoop b) {o : Opt} (hread : readOpt b o a = .ok a') :
    a'.InLoop b := by
  cases o with
  | zstdLong =>
    rw [TtyRec.readOpt] at hread
    split at hread
    next hb =>
      cases hread
      exact h.zstd hb
    next => cases hread
  | zstd =>
    rw [TtyRec.readOpt] at hread
    split at hread
    next hb =>
      cases hread
      exact h.zstd hb
    next =>
      cases hread
      exact h
  | time opt optarg =>
    rw [TtyRec.readOpt] at hread
    split at hread
    · cases hread
      exact h
    next hflush =>
      cases hopt : readOption opt optarg a.times with
      | error message =>
        rw [hopt] at hread
        cases hread
      | ok times =>
        rw [hopt] at hread
        cases hread
        obtain ⟨-, hpos, rfl⟩ := readOption_ok_iff.mp hopt
        refine ⟨h.mode, h.haveZstd, h.level, h.times.set opt hpos (clampLong_le _), ?_⟩
        -- without zstd no option that is read here is `--max-flush-time`
        intro hb
        have hne : TimeOption.maxFlush ≠ opt := fun heq => hflush ⟨heq.symm, hb⟩
        change TimeOption.maxFlush.get (opt.set _ a.times) = 15
        rw [TimeOption.get_set, if_neg hne]
        exact h.maxFlush hb
  | level optarg => exact h.readLevel hread
  | term optarg => exact h.readTerm hread
  | shellCmd optarg =>
    rw [TtyRec.readOpt] at hread
    split at hread
    · cases hread
    · cases hread
      exact h.of_same rfl rfl rfl rfl
  | noOpenpty =>
    rw [TtyRec.readOpt] at hread
    split at hread
    · cases hread
      exact h.of_same rfl rfl rfl rfl
    · cases hread
      exact h
  | ignored =>
    cases hread
    exact h
  | version | help => cases hread
  | _ =>
    cases hread
    exact h.of_same rfl rfl rfl rfl

/-- **The loop** keeps it, option by option. -/
theorem Args.InLoop.readOpts (h : a.InLoop b) {os : List Opt} (hread : readOpts b os a = .ok a') :
    a'.InLoop b := by
  induction os generalizing a with
  | nil =>
    cases hread
    exact h
  | cons o os ih =>
    rw [TtyRec.readOpts] at hread
    cases hopt : TtyRec.readOpt b o a with
    | error r =>
      rw [hopt] at hread
      cases hread
    | ok a₁ =>
      rw [hopt] at hread
      exact ih (h.readOpt hopt) hread

end Loop

/-- What all invocations have in common that `main` accepts.  The fields are what the loop keeps,
what the checks behind it leave, and where the command and the first name may come from. -/
structure Invocation.Sound (b : Build) (env : Env) (inv : Invocation) : Prop where
  mode : inv.zstd = inv.compress
  haveZstd : inv.compress = true → b.haveZstd = true
  level : inv.compressLevel = -1 ∨ 1 ≤ inv.compressLevel ∧ inv.compressLevel ≤ 19
  times : inv.times.Accepted
  maxFlush : b.haveZstd = false → inv.times.maxFlush = 15
  openpty : inv.openpty = true → b.haveOpenpty = true
  /-- A command line with `-e` has a name for the recording. -/
  command : (∃ argv, inv.command = env.command none argv) ∨
    ∃ cmd fname, inv.command = env.command (some cmd) [] ∧ inv.first = .given fname
  first : (∃ fname, inv.first = .given fname) ∨ inv.first = .generated env.now
  named : inv.Named env

/-- **What `main` accepts is sound.** The loop keeps `Args.InLoop`, and the checks behind it give
the rest. -/
theorem sound_of_ttyrecMain {b : Build} {env : Env} {opts : List Opt} {argv : List (List UInt8)}
    {inv : Invocation} (h : ttyrecMain b env opts argv = .ok inv) : inv.Sound b env := by
  unfold ttyrecMain at h
  cases hread : readOpts b opts .default with
  | error r =>
    rw [hread] at h
    cases h
  | ok a =>
    rw [hread] at h
    dsimp only at h
    have hloop := (inLoop_args_default b).readOpts hread
    split at h
    · cases h
    cases hcheck : checkOptions a.times with
    | error message =>
      rw [hcheck] at h
      cases h
    | ok times =>
      rw [hcheck] at h
      dsimp only at h
      obtain ⟨-, haccepted⟩ := (checkOptions_ok_iff hloop.times).mp hcheck
      split at h
      next hnamed =>
        cases h
        refine ⟨hloop.mode, hloop.haveZstd, hloop.level, haccepted, hloop.maxFlush, ?_, ?_, ?_,
          hnamed⟩
        · simp only [Args.invocation, Bool.and_eq_true]
          exact And.left
        · cases hlegacy : a.legacy with
          | none => exact .inl ⟨argv, by simp only [Args.invocation, hlegacy]⟩
          | some cmd =>
            -- what is behind the options is the name, and no command
            refine .inr ⟨cmd, argv.head?.getD legacyName, ?_, ?_⟩
            · simp only [Args.invocation, hlegacy, Env.command]
            · simp only [Args.invocation, Args.outputName, hlegacy, Option.isSome_some, if_true]
        · simp only [Args.invocation]
          split
          · exact .inl ⟨_, rfl⟩
          · exact .inr rfl
      next => cases h

/-! ### A command line for an invocation -/

/-- The options `os` turn the variables `a` into `a'`. -/
def Reads (b : Build) (os : List Opt) (a a' : Args) : Prop :=
  ∀ rest, readOpts b (os ++ rest) a = readOpts b rest a'

/-- An option that is given or not. -/
def flag (c : Bool) (o : Opt) : List Opt := if c = true then [o] else []

section Reads

variable {b : Build} {a a' a'' : Args}

theorem Reads.append {os os' : List Opt} (h : Reads b os a a') (h' : Reads b os' a' a'') :
    Reads b (os ++ os') a a'' := by
  intro rest
  rw [List.append_assoc, h, h']

theorem Reads.nil : Reads b [] a a := fun _ => rfl

theorem Reads.single {o : Opt} (h : readOpt b o a = .ok a') : Reads b [o] a a' := by
  intro rest
  rw [List.singleton_append, readOpts, h]

theorem Reads.flag {c : Bool} {o : Opt} (hset : c = true → readOpt b o a = .ok a')
    (hunset : c = false → a' = a) : Reads b (flag c o) a a' := by
  cases c with
  | true => exact .single (hset rfl)
  | false =>
    rw [hunset rfl]
    exact .nil

/-- An option with an argument, that is given or not. -/
theorem Reads.optional {α : Type} {x : Option α} {o : α → Opt}
    (hset : ∀ y, x = some y → readOpt b (o y) a = .ok a') (hunset : x = none → a' = a) :
    Reads b (x.toList.map o) a a' := by
  cases x with
  | none =>
    rw [hunset rfl]
    exact .nil
  | some y => exact .single (hset y rfl)

/-- The options that are numbers of seconds. -/
theorem reads_time {args : List (TimeOption × List Char)} {t : TimeOptions}
    (hflush : ∀ x ∈ args, x.1 = .maxFlush → b.haveZstd = true)
    (hread : readOptions args a.times = .ok t) :
    Reads b (args.map fun x => .time x.1 x.2) a { a with times := t } := by
  induction args generalizing a with
  | nil =>
    cases hread
    exact .nil
  | cons x args ih =>
    rw [readOptions] at hread
    cases hopt : readOption x.1 x.2 a.times with
    | error message =>
      rw [hopt] at hread
      cases hread
    | ok t' =>
      rw [hopt] at hread
      have hx : readOpt b (.time x.1 x.2) a = .ok { a with times := t' } := by
        rw [readOpt, if_neg, hopt]
        rintro ⟨hopt', hb⟩
        rw [hflush x List.mem_cons_self hopt'] at hb
        cases hb
      rw [List.map_cons, ← List.singleton_append]
      exact (Reads.single hx).append (ih (fun y hy => hflush y (List.mem_cons_of_mem x hy)) hread)

end Reads

/-- The time options of an invocation. -/
def TimeOptions.args (b : Build) (t : TimeOptions) : List (TimeOption × List Char) :=
  TimeOption.lock.given t ++ (TimeOption.kill.given t ++ (TimeOption.warnBeforeLock.given t ++
    (TimeOption.warnBeforeKill.given t ++
      ((if b.haveZstd = true then TimeOption.maxFlush.given t else []) ++ []))))

theorem readOptions_args {b : Build} {t : TimeOptions} (h : t.InLoop)
    (hflush : b.haveZstd = false → t.maxFlush = 15) :
    readOptions (t.args b) .default = .ok t := by
  have hpos : 0 < TimeOption.maxFlush.get t := h.maxFlush_pos
  unfold TimeOptions.args
  rw [readOptions_given h (.inr rfl), readOptions_given h (.inr rfl),
    readOptions_given h (.inr rfl), readOptions_given h (.inr rfl)]
  split
  · rw [readOptions_given h (.inl hpos)]
    rfl
  next hb =>
    -- the value is the one from before the loop
    have h15 := hflush (Bool.not_eq_true _ ▸ hb)
    change Except.ok { t with maxFlush := 15 } = Except.ok t
    rw [← h15]

theorem TimeOption.eq_of_mem_given {opt : TimeOption} {t : TimeOptions}
    {x : TimeOption × List Char} (hx : x ∈ opt.given t) : x.1 = opt := by
  unfold TimeOption.given at hx
  split at hx
  · rw [List.mem_singleton.mp hx]
  · exact absurd hx List.not_mem_nil

/-- Without zstd, `--max-flush-time` is not needed. -/
theorem TimeOptions.haveZstd_of_mem_args {b : Build} {t : TimeOptions}
    {x : TimeOption × List Char} (hx : x ∈ t.args b) (hopt : x.1 = .maxFlush) :
    b.haveZstd = true := by
  have hne : ∀ {opt : TimeOption}, x ∈ opt.given t → opt = .maxFlush := fun h =>
    (TimeOption.eq_of_mem_given h).symm.trans hopt
  simp only [TimeOptions.args, List.mem_append, List.append_nil] at hx
  rcases hx with hx | hx | hx | hx | hx
  · exact TimeOption.noConfusion (hne hx)
  · exact TimeOption.noConfusion (hne hx)
  · exact TimeOption.noConfusion (hne hx)
  · exact TimeOption.noConfusion (hne hx)
  · by_contra hb
    rw [if_neg hb] at hx
    exact List.not_mem_nil hx

/-- The argument of `-f`. -/
def First.fname? : First → Option (List UInt8)
  | .given fname => some fname
  | .generated _ => none

/-- `-d` and `-z`, or `-F`. -/
def Naming.opts : Naming → List Opt
  | .generated dname uuid => [.dir dname, .uuid uuid]
  | .format namefmt => [.nameFormat namefmt]

/-- The variables that these options set. -/
def Naming.set (n : Naming) (a : Args) : Args :=
  match n with
  | .generated dname uuid => { a with dname := some dname, uuid := some uuid }
  | .format namefmt => { a with namefmt := some namefmt }

/-- How the recording is written. -/
def Invocation.writingOpts (b : Build) (inv : Invocation) : List Opt :=
  flag inv.compress .zstd ++
    (flag (decide (inv.compressLevel ≠ -1)) (.level (Nat.toDigits 10 inv.compressLevel.toNat)) ++
      ((inv.times.args b).map (fun x => Opt.time x.1 x.2) ++ flag inv.append .append))

/-- How the session is run. -/
def Invocation.sessionOpts (b : Build) (inv : Invocation) : List Opt :=
  flag inv.config.stealthStdout .stealthStdout ++
    (flag inv.config.stealthStderr .stealthStderr ++ (flag inv.debug .verbose ++
      (flag inv.cheatcodes .cheatcodes ++ (flag inv.countBytes .countBytes ++
        (flag (b.haveOpenpty && !inv.openpty) .noOpenpty ++
          (inv.customMessage.toList.map .msg ++
            [.term (if inv.config.useTty = true then "always".toList else "never".toList)]))))))

/-- The options of an invocation, with the argument of `-e`. -/
def Invocation.opts (b : Build) (inv : Invocation) (legacy : Option (List UInt8)) : List Opt :=
  inv.writingOpts b ++ (inv.sessionOpts b ++ (legacy.toList.map .shellCmd ++
    (inv.first.fname?.toList.map .output ++ inv.naming.opts)))

/-- The variables behind the loop. -/
def Invocation.args (b : Build) (inv : Invocation) (legacy : Option (List UInt8)) : Args :=
  inv.naming.set {
    compress := inv.compress
    compressLevel := inv.compressLevel
    optZstd := inv.compress.toNat
    times := inv.times
    stealthStdout := inv.config.stealthStdout
    stealthStderr := inv.config.stealthStderr
    debug := inv.debug.toNat
    append := inv.append.toNat
    cheatcodes := inv.cheatcodes
    legacy := legacy
    dname := none
    fname := inv.first.fname?
    uuid := none
    namefmt := none
    openptyDisable := (b.haveOpenpty && !inv.openpty).toNat
    customMessage := inv.customMessage
    countBytes := inv.countBytes.toNat
    wantTty := if inv.config.useTty = true then .always else .never }

section CommandLine

variable {b : Build} {env : Env} {inv : Invocation} {a : Args}

/-- The level is read back. -/
theorem readLevel_toDigits {level : ℤ} (h : 1 ≤ level ∧ level ≤ 19) (a : Args) :
    readLevel (Nat.toDigits 10 level.toNat) a = .ok { a with compressLevel := level } := by
  have hnat : (level.toNat : ℤ) = level := Int.toNat_of_nonneg (by omega)
  have hmax : (level.toNat : ℤ) ≤ longMax := by
    have : (19 : ℤ) ≤ longMax := by decide
    omega
  rw [readLevel, strtol_toDigits hmax, if_neg]
  · rw [hnat]
  · simp only [Bool.false_eq_true, false_or]
    omega

/-- How the recording is written: compression and its level, the times, and `-a`.  Each option
changes only its own fields, so they may be read one after the other. -/
theorem reads_writingOpts (h : inv.Sound b env) :
    Reads b (inv.writingOpts b) .default { Args.default with
      compress := inv.compress
      optZstd := inv.compress.toNat
      compressLevel := inv.compressLevel
      times := inv.times
      append := inv.append.toNat } := by
  have hcompress : Reads b (flag inv.compress .zstd) .default { Args.default with
      compress := inv.compress
      optZstd := inv.compress.toNat } := by
    apply Reads.flag
    · intro hset
      rw [readOpt, if_pos (h.haveZstd hset), hset]
      rfl
    · intro hunset
      rw [hunset]
      rfl
  have hlevel : ∀ a : Args, a.compressLevel = -1 → Reads b
      (flag (decide (inv.compressLevel ≠ -1)) (.level (Nat.toDigits 10 inv.compressLevel.toNat))) a
      { a with compressLevel := inv.compressLevel } := by
    intro a ha
    apply Reads.flag
    · intro hset
      exact readLevel_toDigits (h.level.resolve_left (of_decide_eq_true hset)) a
    · intro hunset
      rw [not_not.mp (of_decide_eq_false hunset), ← ha]
  have happend : ∀ a : Args, a.append = 0 → Reads b (flag inv.append .append) a
      { a with append := inv.append.toNat } := by
    intro a ha
    apply Reads.flag
    · intro hset
      rw [readOpt, ha, hset]
      rfl
    · intro hunset
      rw [hunset, Bool.toNat_false, ← ha]
  exact hcompress.append ((hlevel _ rfl).append ((reads_time
    (fun x hx hopt => TimeOptions.haveZstd_of_mem_args hx hopt)
    (readOptions_args h.times.toInLoop h.maxFlush)).append (happend _ rfl)))

/-- How the session is run. -/
theorem reads_sessionOpts (inv : Invocation) (hout : a.stealthStdout = false)
    (herr : a.stealthStderr = false) (hdebug : a.debug = 0) (hcheat : a.cheatcodes = false)
    (hcount : a.countBytes = 0) (hpty : a.openptyDisable = 0) (hmessage : a.customMessage = none) :
    Reads b (inv.sessionOpts b) a { a with
      stealthStdout := inv.config.stealthStdout
      stealthStderr := inv.config.stealthStderr
      debug := inv.debug.toNat
      cheatcodes := inv.cheatcodes
      countBytes := inv.countBytes.toNat
      openptyDisable := (b.haveOpenpty && !inv.openpty).toNat
      customMessage := inv.customMessage
      wantTty := if inv.config.useTty = true then .always else .never } := by
  have hout' : ∀ a : Args, a.stealthStdout = false →
      Reads b (flag inv.config.stealthStdout .stealthStdout) a
        { a with stealthStdout := inv.config.stealthStdout } :=
    fun a ha => .flag (fun hset => by rw [hset]; rfl) (fun hunset => by rw [hunset, ← ha])
  have herr' : ∀ a : Args, a.stealthStderr = false →
      Reads b (flag inv.config.stealthStderr .stealthStderr) a
        { a with stealthStderr := inv.config.stealthStderr } :=
    fun a ha => .flag (fun hset => by rw [hset]; rfl) (fun hunset => by rw [hunset, ← ha])
  have hdebug' : ∀ a : Args, a.debug = 0 → Reads b (flag inv.debug .verbose) a
      { a with debug := inv.debug.toNat } :=
    fun a ha => .flag (fun hset => by rw [readOpt, hset, ha]; rfl)
      (fun hunset => by rw [hunset, Bool.toNat_false, ← ha])
  have hcheat' : ∀ a : Args, a.cheatcodes = false → Reads b (flag inv.cheatcodes .cheatcodes) a
      { a with cheatcodes := inv.cheatcodes } :=
    fun a ha => .flag (fun hset => by rw [hset]; rfl) (fun hunset => by rw [hunset, ← ha])
  have hcount' : ∀ a : Args, a.countBytes = 0 → Reads b (flag inv.countBytes .countBytes) a
      { a with countBytes := inv.countBytes.toNat } :=
    fun a ha => .flag (fun hset => by rw [readOpt, hset, ha]; rfl)
      (fun hunset => by rw [hunset, Bool.toNat_false, ← ha])
  have hpty' : ∀ a : Args, a.openptyDisable = 0 →
      Reads b (flag (b.haveOpenpty && !inv.openpty) .noOpenpty) a
        { a with openptyDisable := (b.haveOpenpty && !inv.openpty).toNat } := by
    intro a ha
    refine .flag (fun hset => ?_) (fun hunset => by rw [hunset, Bool.toNat_false, ← ha])
    rw [readOpt, if_pos (Bool.and_eq_true _ _ ▸ hset).1, hset, ha]
    rfl
  have hmessage' : ∀ a : Args, a.customMessage = none →
      Reads b (inv.customMessage.toList.map .msg) a { a with customMessage := inv.customMessage } :=
    fun a ha => .optional (fun y hset => by rw [hset]; rfl) (fun hunset => by rw [hunset, ← ha])
  have hterm : ∀ a : Args, Reads b
      [.term (if inv.config.useTty = true then "always".toList else "never".toList)] a
      { a with wantTty := if inv.config.useTty = true then .always else .never } := by
    intro a
    apply Reads.single
    rw [readOpt]
    split
    · rfl
    · rfl
  -- each of them leaves the variables of the others alone
  refine (hout' a hout).append ((herr' _ ?_).append ((hdebug' _ ?_).append ((hcheat' _ ?_).append
    ((hcount' _ ?_).append ((hpty' _ ?_).append ((hmessage' _ ?_).append (hterm _)))))))
  · exact herr
  · exact hdebug
  · exact hcheat
  · exact hcount
  · exact hpty
  · exact hmessage

/-- The options that name the files. -/
theorem reads_namingOpts (n : Naming) (a : Args) : Reads b n.opts a (n.set a) := by
  cases n with
  | generated dname uuid =>
    have hdir : Reads b [.dir dname] a { a with dname := some dname } := .single rfl
    exact hdir.append (.single rfl)
  | format namefmt => exact .single rfl

/-- **The options are read back**: those of the writing, of the session, and of the names, one group
after the other. -/
theorem readOpts_opts (h : inv.Sound b env) (legacy : Option (List UInt8)) :
    readOpts b (inv.opts b legacy) .default = .ok (inv.args b legacy) := by
  have hlegacy : ∀ a : Args, a.legacy = none →
      Reads b (legacy.toList.map .shellCmd) a { a with legacy := legacy } := by
    intro a ha
    refine .optional (fun y hset => ?_) (fun hunset => by rw [hunset, ← ha])
    rw [readOpt, ha, hset]
    rfl
  have houtput : ∀ a : Args, a.fname = none →
      Reads b (inv.first.fname?.toList.map .output) a { a with fname := inv.first.fname? } :=
    fun a ha => .optional (fun y hset => by rw [hset]; rfl) (fun hunset => by rw [hunset, ← ha])
  have hall := (reads_writingOpts h).append ((reads_sessionOpts inv rfl rfl rfl rfl rfl rfl rfl).append
    ((hlegacy _ rfl).append ((houtput _ rfl).append (reads_namingOpts inv.naming _)))) []
  rw [List.append_nil] at hall
  exact hall

/-- The options that name the files are the only ones that `Naming.set` changes. -/
theorem naming_set (n : Naming) (a : Args) : n.set a = { a with
    dname := (n.set a).dname
    uuid := (n.set a).uuid
    namefmt := (n.set a).namefmt } := by
  cases n <;> rfl

/-- Behind the loop they give the naming again. -/
theorem naming_args (b : Build) (env : Env) (inv : Invocation) (legacy fname : Option (List UInt8)) :
    (inv.args b legacy).naming env fname = inv.naming := by
  unfold Invocation.args Args.naming
  cases inv.naming <;> rfl

/-- **The variables make the invocation again**, field by field; without `-f` and `-F` the first
name may come from the command. -/
theorem invocation_args (h : inv.Sound b env) {legacy : Option (List UInt8)}
    {argv : List (List UInt8)} (hcommand : inv.command = env.command legacy argv)
    (hlegacy : legacy.isSome = true → inv.first = .given (argv.head?.getD legacyName)) :
    (inv.args b legacy).invocation b env argv = inv := by
  -- an option that counts is given once or not at all
  have hpositive : ∀ c : Bool, decide (0 < c.toNat) = c := by decide
  have hmode := h.mode
  have hopenpty := h.openpty
  have hfirst : (match (inv.args b legacy).outputName argv with
      | some fname => First.given fname
      | none => .generated env.now) = inv.first := by
    have hname : (inv.args b legacy).outputName argv = inv.first.fname? := by
      rw [Invocation.args, naming_set, Args.outputName]
      dsimp only
      split
      next hsome =>
        rw [hlegacy hsome]
        rfl
      next => rfl
    rw [hname]
    rcases h.first with ⟨fname, hgiven⟩ | hgenerated
    · rw [hgiven]
      rfl
    · rw [hgenerated]
      rfl
  -- `always` and `never` do not ask whether there is a terminal
  have htty : (if inv.config.useTty = true then WantTty.always else .never).useTty
      env.stdinIsatty = inv.config.useTty := by
    cases inv.config.useTty <;> rfl
  -- without `openpty` there is nothing that `-p` could forbid
  have hpty : (b.haveOpenpty && decide ((b.haveOpenpty && !inv.openpty).toNat = 0)) =
      inv.openpty := by
    revert hopenpty
    cases b.haveOpenpty <;> cases inv.openpty <;> decide
  unfold Args.invocation
  rw [hfirst, naming_args, Invocation.args, naming_set]
  dsimp only
  rw [← hcommand, htty, hpty, hpositive, hpositive, hpositive, hpositive]
  obtain ⟨⟩ := inv
  cases hmode
  rfl

end CommandLine

/-- **`main` accepts exactly the sound invocations.** For a sound one the command line is written
down and read back. -/
theorem exists_ttyrecMain_iff (b : Build) (env : Env) (inv : Invocation) :
    (∃ opts argv, ttyrecMain b env opts argv = .ok inv) ↔ inv.Sound b env := by
  constructor
  · rintro ⟨opts, argv, h⟩
    exact sound_of_ttyrecMain h
  · intro h
    obtain ⟨legacy, argv, hcommand, hlegacy⟩ : ∃ legacy argv, inv.command = env.command legacy argv ∧
        (legacy.isSome = true → inv.first = .given (argv.head?.getD legacyName)) := by
      rcases h.command with ⟨argv, hcommand⟩ | ⟨cmd, fname, hcommand, hfirst⟩
      · exact ⟨none, argv, hcommand, fun hsome => absurd hsome Bool.false_ne_true⟩
      · -- a classic command line has the name behind its options
        exact ⟨some cmd, [fname], hcommand, fun _ => hfirst⟩
    refine ⟨inv.opts b legacy, argv, ?_⟩
    have hsame := invocation_args h hcommand hlegacy
    have hnames : ¬ ((inv.args b legacy).namefmt.isSome = true ∧
        ((inv.args b legacy).dname.isSome = true ∨ (inv.args b legacy).uuid.isSome = true)) := by
      unfold Invocation.args
      cases inv.naming <;> simp [Naming.set]
    have htimes : (inv.args b legacy).times = inv.times := by
      rw [Invocation.args, naming_set]
    unfold ttyrecMain
    rw [readOpts_opts h]
    dsimp only
    rw [if_neg hnames, htimes, (checkOptions_ok_iff h.times.toInLoop).mpr ⟨rfl, h.times⟩]
    dsimp only
    rw [hsame, if_pos h.named]

end TtyRec
