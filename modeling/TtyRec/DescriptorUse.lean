import TtyRec.Inheritance

/-!
# How the child uses its descriptors

The parent and the child keep descriptors in variables, and use them until they end.  Every call of
`close` takes away the descriptor that it means to take away, and a rotation leaves the others
alone, with one exception.  When `dooutput` cannot write, it closes both pipes that have had no end
of file, also when there is a pty and no pipes: then `stdout_pipe` and `stderr_pipe` are zeros, and
0 may be the descriptor of the recording.

## Main definitions

* `Tidy` — the calls that are left close what they mean to close.
* `Child.Right`, `Session.Right` — the variables stand for what they are meant to stand for.
* `Session.ClosesScript` — the call that takes the recording away.

## Main results

* `ChildSteps.inv` — every other step of the child keeps its descriptors.
* `descriptors_iff` — **when the child uses the right descriptors.**
-/

namespace TtyRec.Fds

open Descriptors Run

/-! ### The descriptors of the child -/

/-- What the code means a variable to stand for, after so many rotations. -/
def Var.file (n : ℕ) : Var → File
  | .fscript => .script n
  | .master => .master
  | .slave => .slave
  | .out0 => .outRead
  | .out1 => .outWrite
  | .err0 => .errRead
  | .err1 => .errWrite

/-- The descriptor that a call closes, given the variables of the process. -/
def Op.target (p : Image) : Op → ℕ
  | .openTo _ _ => 0
  | .close v => p.vars v
  | .closeFd fd => fd
  | .dup2 _ _ => 0

/-- The file that the source means to close with a call. -/
def Op.expects (n : ℕ) : Op → File
  | .openTo _ f => f
  | .close v => v.file n
  | .closeFd fd => .inherited fd
  | .dup2 _ _ => .inherited 0

/-- The calls that are left close what they mean to close, once.  So a number that is used again
after a `close` is never closed by a call that came too late. -/
structure Tidy (n : ℕ) (p : Image) (rest : List Op) : Prop where
  closes : ∀ op ∈ rest, op.Closes
  nodup : rest.Nodup
  target : ∀ op ∈ rest, get p.table (op.target p) = some (op.expects n)

/-- The variables, and the files, that `dooutput` uses in its loop. -/
def Child.Uses (d : Device) (c : Child) (v : Var) : Prop :=
  match v with
  | .fscript => True
  | .master => d ≠ .pipes
  | .out0 => d = .pipes ∧ c.relaying = true ∧ c.outOpened = true
  | .err0 => d = .pipes ∧ c.relaying = true ∧ c.errOpened = true
  | _ => False

/-- The variables that the child uses stand for what they are meant to stand for. -/
def Child.Right (d : Device) (c : Child) : Prop :=
  ∀ v, c.Uses d v → get c.proc.image.table (c.proc.image.vars v) = some (v.file c.rotations)

/-- The descriptors of the parent and the child are right: what a process is going to read, write or
record with stands for what its variable says. -/
structure Session.Right (d : Device) (s : Session) : Prop where
  parent : d ≠ .pipes → ∀ p ∈ s.parent, get p.image.table (p.image.vars .master) = some .master
  child : ∀ c ∈ s.child, c.Right d

/-- A call of `close` for a pipe that there is not, when the recording has that descriptor. -/
def Session.ClosesScript (d : Device) (s : Session) (e : Event) : Prop :=
  e = .child ∧ d ≠ .pipes ∧ ∃ c ∈ s.child, c.proc.image.vars .fscript = 0 ∧
    ∃ op ∈ c.proc.rest.head?, op = .close .out0 ∨ op = .close .err0

section Tidy

variable {n : ℕ} {p : Image} {op : Op} {rest : List Op}

/-- A call that closes something closes its target. -/
theorem Op.Closes.get (h : op.Closes) (p : Image) (fd : ℕ) :
    Descriptors.get (p.run op).table fd =
      if fd = op.target p then none else Descriptors.get p.table fd := by
  cases op with
  | openTo v f => cases h
  | close v => exact get_close _ _ _
  | closeFd fd' => exact get_close _ _ _
  | dup2 v fd => cases h

theorem Op.Closes.target (h : op.Closes) (p : Image) (op' : Op) :
    op'.target (p.run op) = op'.target p := by
  cases op with
  | openTo v f => cases h
  | close v => cases op' <;> rfl
  | closeFd fd' => cases op' <;> rfl
  | dup2 v fd => cases h

/-- What different calls mean to close differs. -/
theorem Op.Closes.eq_of_expects {op' : Op} (h : op.Closes) (h' : op'.Closes)
    (heq : op.expects n = op'.expects n) : op = op' := by
  cases op with
  | openTo v f => cases h
  | dup2 v fd => cases h
  | close v =>
    cases op' with
    | openTo v f => cases h'
    | dup2 v fd => cases h'
    | closeFd fd => cases v <;> cases heq
    | close v' =>
      cases v <;> cases v' <;> first | rfl | cases heq
  | closeFd fd =>
    cases op' with
    | openTo v f => cases h'
    | dup2 v fd => cases h'
    | close v => cases v <;> cases heq
    | closeFd fd' =>
      cases heq
      rfl

/-- A call leaves alone what it does not mean to close. -/
theorem Tidy.get (h : Tidy n p (op :: rest)) {fd : ℕ} {f : File}
    (hfd : Descriptors.get p.table fd = some f) (hf : op.expects n ≠ f) :
    Descriptors.get (p.run op).table fd = some f := by
  rw [(h.closes op List.mem_cons_self).get]
  split_ifs with heq
  · subst heq
    rw [h.target op List.mem_cons_self] at hfd
    exact absurd (Option.some.inj hfd) hf
  · exact hfd

theorem Tidy.next (h : Tidy n p (op :: rest)) : Tidy n (p.run op) rest := by
  have hop := h.closes op List.mem_cons_self
  obtain ⟨hnot, hnodup⟩ := List.nodup_cons.mp h.nodup
  refine ⟨fun op' hop' => h.closes op' (List.mem_cons_of_mem _ hop'), hnodup, ?_⟩
  intro op' hop'
  rw [hop.target]
  refine h.get (h.target op' (List.mem_cons_of_mem _ hop')) fun heq => hnot ?_
  rw [hop.eq_of_expects (h.closes op' (List.mem_cons_of_mem _ hop')) heq]
  exact hop'

end Tidy

section Prepared

variable {d : Device} {t : Table File}

/-- `main` opens a variable. -/
def Device.Opens (d : Device) (v : Var) : Prop := .openTo v (v.file 0) ∈ mainOps d

/-- What `main` leaves in its variables. -/
theorem get_prepared (ht : Given t) {v : Var} (hv : d.Opens v) :
    get (prepared d t).table ((prepared d t).vars v) = some (v.file 0) := by
  obtain ⟨hnodup, -⟩ := ht.numbers ((mainOps d).filterMap fun op =>
    match op with
    | .openTo _ f => some f
    | _ => none)
  cases d <;> cases v <;> simp [Device.Opens, mainOps, Var.file] at hv
  all_goals
    simp only [mainOps, List.filterMap_cons, List.filterMap_nil, Descriptors.numbers,
      List.nodup_cons, List.mem_cons, List.not_mem_nil, not_or] at hnodup
    simp [prepared, Image.runAll, mainOps, Image.run, get_allocate, Var.file, hnodup]

/-- The standard input of ttyrec is still there. -/
theorem get_prepared_stdin (ht : Given t) : get (prepared d t).table 0 = some (.inherited 0) := by
  have hne (fs : List File) : 0 ∉ numbers t fs := fun h => by simpa using ht.le_of_mem h
  have h0 := ht.stdio 0 (by omega)
  cases d
  · have hmem := hne [.script 0, .master, .slave]
    simp only [Descriptors.numbers, List.mem_cons, List.not_mem_nil, not_or] at hmem
    simp [prepared, Image.runAll, mainOps, Image.run, get_allocate, h0, hmem]
  · have hmem := hne [.script 0, .master]
    simp only [Descriptors.numbers, List.mem_cons, List.not_mem_nil, not_or] at hmem
    simp [prepared, Image.runAll, mainOps, Image.run, get_allocate, h0, hmem]
  · have hmem := hne [.script 0, .outRead, .outWrite, .errRead, .errWrite]
    simp only [Descriptors.numbers, List.mem_cons, List.not_mem_nil, not_or] at hmem
    simp [prepared, Image.runAll, mainOps, Image.run, get_allocate, h0, hmem]

/-- With a pty, the variables of the pipes are what they were when the program began. -/
theorem prepared_vars_pipes (hd : d ≠ .pipes) (t : Table File) :
    (prepared d t).vars .out0 = 0 ∧ (prepared d t).vars .err0 = 0 := by
  cases d <;> simp_all [prepared, Image.runAll, mainOps, Image.run]

/-- A call closes something that the device has opened, or the standard input. -/
def Device.Has (d : Device) : Op → Prop
  | .openTo _ _ => False
  | .close v => d.Opens v
  | .closeFd fd => fd = 0
  | .dup2 _ _ => False

instance (d : Device) (v : Var) : Decidable (d.Opens v) := inferInstanceAs (Decidable (_ ∈ _))

instance (d : Device) : ∀ op, Decidable (d.Has op)
  | .openTo _ _ => inferInstanceAs (Decidable False)
  | .close v => inferInstanceAs (Decidable (d.Opens v))
  | .closeFd fd => inferInstanceAs (Decidable (fd = 0))
  | .dup2 _ _ => inferInstanceAs (Decidable False)

theorem Device.Has.tidy {ops : List Op} (h : ∀ op ∈ ops, d.Has op) (hnodup : ops.Nodup)
    (ht : Given t) : Tidy 0 (prepared d t) ops where
  closes := by
    intro op hop
    have hhas := h op hop
    cases op <;> first | exact trivial | exact hhas
  nodup := hnodup
  target := by
    intro op hop
    have hhas := h op hop
    cases op with
    | openTo v f => cases hhas
    | close v => exact get_prepared ht hhas
    | closeFd fd =>
      cases hhas
      exact get_prepared_stdin ht
    | dup2 v fd => cases hhas

/-- The parent closes what it has, nothing twice and everything by its own number. -/
theorem tidy_doinput (ht : Given t) : Tidy 0 (prepared d t) (doinputOps d) :=
  Device.Has.tidy (by cases d <;> decide) (by cases d <;> decide) ht

/-- So does the child, in each of the three ways to connect the command. -/
theorem tidy_dooutput (ht : Given t) : Tidy 0 (prepared d t) (dooutputOps d) :=
  Device.Has.tidy (by cases d <;> decide) (by cases d <;> decide) ht

end Prepared

/-- A call for one of the pipes that the child reads. -/
def Op.EndsPipe (op : Op) : Prop := op = .close .out0 ∨ op = .close .err0

/-- What the child has still to call, and with which descriptors: before the loop the calls of
`dooutput`, and behind it the ends of the pipes. -/
structure Child.Inv (d : Device) (c : Child) : Prop where
  ops : ∀ op ∈ c.proc.rest,
    (c.relaying = true ∧ op ∈ dooutputOps d) ∨ (c.relaying = false ∧ op.EndsPipe)
  tidy : c.relaying = true ∨ d = .pipes → Tidy c.rotations c.proc.image c.proc.rest
  /-- With a pty, `stdout_pipe` and `stderr_pipe` are all zeros. -/
  zero : d ≠ .pipes → c.proc.image.vars .out0 = 0 ∧ c.proc.image.vars .err0 = 0 ∧
    c.proc.image.vars .master ≠ 0

section ChildInv

variable {d : Device} {c c' : Child} {e : Event}

/-- Setting up closes nothing that is used. -/
theorem expects_ne_of_mem_dooutputOps {op : Op} (h : op ∈ dooutputOps d) {v : Var}
    (hv : c.Uses d v) (n : ℕ) : op.expects n ≠ v.file n := by
  cases d <;> simp only [dooutputOps, List.mem_cons, List.not_mem_nil, or_false] at h
  all_goals
    rcases h with rfl | rfl | rfl <;> cases v <;> simp_all [Child.Uses, Op.expects, Var.file]

/-- After the loop, the pipes are not used any more. -/
theorem expects_ne_of_endsPipe {op : Op} (h : op.EndsPipe) (hrelaying : c.relaying = false)
    {v : Var} (hv : c.Uses d v) (n : ℕ) : op.expects n ≠ v.file n := by
  rcases h with rfl | rfl <;> cases v <;> simp_all [Child.Uses, Op.expects, Var.file]

/-- A rotation leaves everything but the recording alone. -/
theorem get_rotate {n m : ℕ} {p : Image}
    (hscript : get p.table (p.vars .fscript) = some (.script n)) {fd : ℕ} {f : File}
    (hfd : get p.table fd = some f) (hf : f ≠ .script n) :
    get (p.runAll (rotateOps m)).table fd = some f := by
  have hne : fd ≠ p.vars .fscript := by
    rintro rfl
    rw [hscript] at hfd
    exact hf (Option.some.inj hfd).symm
  have hclosed : get (close p.table (p.vars .fscript)) fd = some f := by
    rw [get_close, if_neg hne, hfd]
  simp only [rotateOps, Image.runAll, List.foldl_cons, List.foldl_nil, Image.run, get_allocate]
  rw [if_neg (lowest_ne hclosed).symm, hclosed]

theorem vars_rotate {m : ℕ} {p : Image} {v : Var} (hv : v ≠ .fscript) :
    (p.runAll (rotateOps m)).vars v = p.vars v := by
  simp [rotateOps, Image.runAll, Image.run, hv]

theorem get_rotate_fscript (m : ℕ) (p : Image) :
    get (p.runAll (rotateOps m)).table ((p.runAll (rotateOps m)).vars .fscript) =
      some (.script m) := by
  simp [rotateOps, Image.runAll, Image.run]

/-- The recordings are numbered, and nothing else is. -/
theorem Var.file_eq {v : Var} (hv : v ≠ .fscript) (n m : ℕ) : v.file n = v.file m := by
  cases v <;> first | rfl | exact absurd rfl hv

theorem Var.file_ne_script {v : Var} (hv : v ≠ .fscript) (n m : ℕ) : v.file n ≠ .script m := by
  cases v <;> first | exact absurd rfl hv | simp [Var.file]

/-- `swing_output_file` closes the recording and opens the next one.  What other variables hold is
not touched, as no other variable refers to the recording. -/
theorem Child.rotate_inv (hc : c.Inv d) (hright : c.Right d) :
    c.rotate.Inv d ∧ c.rotate.Right d := by
  have hscript := hright .fscript trivial
  refine ⟨⟨hc.ops, ?_, ?_⟩, ?_⟩
  · intro h
    obtain ⟨hcloses, hnodup, htarget⟩ := hc.tidy h
    refine ⟨hcloses, hnodup, fun op hop => ?_⟩
    have hget := htarget op hop
    -- the close of the recording itself is not among what is left to be done
    have hne : op ≠ .close .fscript := by
      rintro rfl
      rcases hc.ops _ hop with ⟨-, hmem⟩ | ⟨-, hends⟩
      · cases d <;> simp [dooutputOps] at hmem
      · rcases hends with h | h <;> cases h
    have hop' := hcloses op hop
    cases op with
    | openTo v f => cases hop'
    | close v =>
      have hv : v ≠ .fscript := fun h => hne (by rw [h])
      show get (c.proc.image.runAll _).table ((c.proc.image.runAll _).vars v) = some (v.file _)
      rw [vars_rotate hv, v.file_eq hv _ c.rotations]
      exact get_rotate hscript hget (v.file_ne_script hv _ _)
    | closeFd fd => exact get_rotate hscript hget (by simp [Op.expects])
    | dup2 v fd => cases hop'
  · intro hd
    have hzero := hc.zero hd
    simp only [Child.rotate, vars_rotate (v := .out0) (by simp), vars_rotate (v := .err0) (by simp),
      vars_rotate (v := .master) (by simp)]
    exact hzero
  · intro v hv
    by_cases hvs : v = .fscript
    · subst hvs
      exact get_rotate_fscript _ _
    · show get (c.proc.image.runAll _).table ((c.proc.image.runAll _).vars v) = some (v.file _)
      rw [vars_rotate hvs, v.file_eq hvs _ c.rotations]
      exact get_rotate hscript (hright v hv) (v.file_ne_script hvs _ _)

end ChildInv

section ChildInv

variable {d : Device} {c c' : Child} {e : Event}

/-- The next call, when it does not close the recording. -/
theorem Child.call_inv {op : Op} {rest : List Op} (hc : c.Inv d) (hright : c.Right d)
    (hrest : c.proc.rest = op :: rest)
    (hok : d ≠ .pipes → op.EndsPipe → c.proc.image.vars .fscript ≠ 0) :
    Child.Inv d { c with proc := ⟨c.proc.image.run op, rest⟩ } ∧
      Child.Right d { c with proc := ⟨c.proc.image.run op, rest⟩ } := by
  have hmem : op ∈ c.proc.rest := hrest ▸ List.mem_cons_self
  have hops : ∀ op' ∈ rest,
      (c.relaying = true ∧ op' ∈ dooutputOps d) ∨ (c.relaying = false ∧ op'.EndsPipe) :=
    fun op' hop' => hc.ops op' (hrest ▸ List.mem_cons_of_mem _ hop')
  have hcloses : op.Closes := by
    rcases hc.ops op hmem with ⟨hrelaying, -⟩ | ⟨-, rfl | rfl⟩
    · exact (hc.tidy (.inl hrelaying)).closes op hmem
    · trivial
    · trivial
  have hvars : (c.proc.image.run op).vars = c.proc.image.vars := (hcloses.places _ .master).2
  refine ⟨⟨hops, ?_, ?_⟩, ?_⟩
  · intro h
    have htidy := hc.tidy h
    rw [hrest] at htidy
    exact htidy.next
  · rw [hvars]
    exact hc.zero
  · intro v hv
    show get (c.proc.image.run op).table ((c.proc.image.run op).vars v) = _
    rw [hvars]
    have hget := hright v hv
    by_cases htidy : c.relaying = true ∨ d = .pipes
    · have htidy' := hc.tidy htidy
      rw [hrest] at htidy'
      refine htidy'.get hget ?_
      rcases hc.ops op hmem with ⟨-, hop⟩ | ⟨hrelaying, hop⟩
      · exact expects_ne_of_mem_dooutputOps hop hv _
      · exact expects_ne_of_endsPipe hop hrelaying hv _
    · -- a pty, and a descriptor that is 0
      rw [not_or] at htidy
      obtain ⟨hout, herr, hmaster⟩ := hc.zero htidy.2
      have hends : op.EndsPipe := by
        rcases hc.ops op hmem with ⟨hrelaying, -⟩ | ⟨-, hends⟩
        · exact absurd hrelaying htidy.1
        · exact hends
      have htarget : op.target c.proc.image = 0 := by
        rcases hends with rfl | rfl
        · exact hout
        · exact herr
      rw [hcloses.get, htarget, if_neg, hget]
      cases v with
      | fscript => exact hok htidy.2 hends
      | master => exact hmaster
      | out0 => exact absurd hv.1 htidy.2
      | err0 => exact absurd hv.1 htidy.2
      | slave => exact hv.elim
      | out1 => exact hv.elim
      | err1 => exact hv.elim

/-- An end of file on one of the pipes.  The child closes its end, and from then on it uses what is
left. -/
theorem Child.pipeEnds_inv {err : Bool} (hc : c.Inv d) (hright : c.Right d) (hreads : c.Reads)
    (hd : d = .pipes) (hopened : c.opened err = true) :
    (c.pipeEnds err).Inv d ∧ (c.pipeEnds err).Right d := by
  refine ⟨⟨by simp [Child.pipeEnds], fun _ => ⟨by simp [Child.pipeEnds], by simp [Child.pipeEnds],
    by simp [Child.pipeEnds]⟩, fun hne => absurd hd hne⟩, ?_⟩
  subst hd
  have hclosed : get c.proc.image.table (c.proc.image.vars (if err then .err0 else .out0)) =
      some ((if err then Var.err0 else Var.out0).file c.rotations) := by
    cases err with
    | true => exact hright .err0 ⟨rfl, hreads.2, hopened⟩
    | false => exact hright .out0 ⟨rfl, hreads.2, hopened⟩
  -- nothing else that is in use refers to the end that is closed
  have hkeep {v : Var} (hv : c.Uses .pipes v) (hne : v ≠ if err then .err0 else .out0) :
      get (c.pipeEnds err).proc.image.table ((c.pipeEnds err).proc.image.vars v) =
        some (v.file c.rotations) := by
    have hget := hright v hv
    show get (close _ _) (c.proc.image.vars v) = _
    rw [get_close, if_neg, hget]
    intro heq
    rw [heq, hclosed] at hget
    cases err <;> cases v <;> first | exact hne rfl | cases hget
  intro v hv
  cases v with
  | fscript => exact hkeep trivial (by cases err <;> simp)
  | master => exact hkeep hv (by cases err <;> simp)
  | out0 =>
    cases err with
    | true => exact hkeep ⟨rfl, hreads.2, by simpa [Child.pipeEnds] using hv.2.2⟩ (by simp)
    | false => simp [Child.Uses, Child.pipeEnds] at hv
  | err0 =>
    cases err with
    | true => simp [Child.Uses, Child.pipeEnds] at hv
    | false => exact hkeep ⟨rfl, hreads.2, by simpa [Child.pipeEnds] using hv.2.2⟩ (by simp)
  | slave => exact hv.elim
  | out1 => exact hv.elim
  | err1 => exact hv.elim

/-- The end of the loop. -/
theorem Child.leave_inv {ops : List Op} (hc : c.Inv d) (hright : c.Right d)
    (hops : ∀ op ∈ ops, op.EndsPipe) (htidy : d = .pipes → Tidy c.rotations c.proc.image ops) :
    Child.Inv d { c with proc := ⟨c.proc.image, ops⟩, relaying := false } ∧
      Child.Right d { c with proc := ⟨c.proc.image, ops⟩, relaying := false } := by
  refine ⟨⟨fun op hop => .inr ⟨rfl, hops op hop⟩, ?_, hc.zero⟩, ?_⟩
  · rintro (h | h)
    · cases h
    · exact htidy h
  · intro v hv
    refine hright v ?_
    cases v with
    | out0 => simp [Child.Uses] at hv
    | err0 => simp [Child.Uses] at hv
    | _ => exact hv

/-- What `dooutput` closes when it cannot write, with pipes. -/
theorem Child.tidy_writeError (hright : c.Right .pipes) (hreads : c.Reads) :
    Tidy c.rotations c.proc.image (writeErrorOps c.outOpened c.errOpened) := by
  have hout (h : c.outOpened = true) := hright .out0 ⟨rfl, hreads.2, h⟩
  have herr (h : c.errOpened = true) := hright .err0 ⟨rfl, hreads.2, h⟩
  cases ho : c.outOpened <;> cases he : c.errOpened
  all_goals
    refine ⟨by simp [writeErrorOps, Op.Closes], by simp [writeErrorOps], ?_⟩
    simp_all [writeErrorOps, Op.target, Op.expects]

theorem endsPipe_of_mem {outOpened errOpened : Bool} {op : Op}
    (h : op ∈ writeErrorOps outOpened errOpened) : op.EndsPipe := by
  cases outOpened <;> cases errOpened <;> simp_all [writeErrorOps, Op.EndsPipe]

/-- **A step of the child** keeps the invariant, unless it closes the ends of pipes that were never
opened while the recording is descriptor 0. -/
theorem ChildSteps.inv (h : ChildSteps d c e c') (hc : c.Inv d) (hright : c.Right d)
    (hok : e = .child → d ≠ .pipes → c.proc.image.vars .fscript = 0 →
      ∀ op ∈ c.proc.rest.head?, ¬ op.EndsPipe) : c'.Inv d ∧ c'.Right d := by
  cases h with
  | child hrest =>
    refine Child.call_inv hc hright hrest fun hd hends hzero => ?_
    exact hok rfl hd hzero _ (by rw [hrest]; rfl) hends
  | rotate => exact Child.rotate_inv hc hright
  | pipeEnds hreads hd hopened => exact Child.pipeEnds_inv hc hright hreads hd hopened
  | ptyEnds hreads hd =>
    have hrest : ∀ op ∈ c.proc.rest, op.EndsPipe := by simp [hreads.1]
    exact Child.leave_inv hc hright hrest fun heq => absurd heq hd
  | writeError hreads =>
    refine Child.leave_inv hc hright (fun op hop => endsPipe_of_mem hop) ?_
    rintro rfl
    exact Child.tidy_writeError hright hreads

end ChildInv

/-! ### The session -/

/-- What the parent and the child have still to call, along with what the subchild and the command
may have. -/
structure Session.Kept (d : Device) (t : Table File) (s : Session) : Prop where
  confined : s.Confined d t
  parent : ∀ p ∈ s.parent, Tidy 0 p.image p.rest ∧ ∀ op ∈ p.rest, op ∈ doinputOps d
  child : ∀ c ∈ s.child, c.Inv d

section Session

variable {d : Device} {t : Table File} {s s' : Session} {e : Event}

/-- With a pty, the master is in a variable of its own. -/
theorem prepared_vars_master (hd : d ≠ .pipes) (ht : Given t) : (prepared d t).vars .master ≠ 0 := by
  have hmaster : d.Opens .master := by cases d <;> first | decide | exact absurd rfl hd
  have hget := get_prepared ht hmaster
  intro heq
  rw [heq, get_prepared_stdin ht] at hget
  cases hget

theorem right_prepared (ht : Given t) {c : Child} (himage : c.proc.image = prepared d t)
    (hrotations : c.rotations = 0) : c.Right d := by
  intro v hv
  rw [himage, hrotations]
  refine get_prepared ht ?_
  cases v with
  | fscript => cases d <;> decide
  | master => cases d <;> first | decide | exact absurd rfl hv
  | out0 =>
    obtain ⟨rfl, -⟩ := hv
    decide
  | err0 =>
    obtain ⟨rfl, -⟩ := hv
    decide
  | slave => exact hv.elim
  | out1 => exact hv.elim
  | err1 => exact hv.elim

theorem Session.Kept.start (ht : Given t) : (Session.start d t).Kept d t where
  confined := .start d t
  parent := by
    rintro p ⟨⟩
    exact ⟨tidy_doinput ht, fun op hop => hop⟩
  child := by
    rintro c ⟨⟩
    refine ⟨by simp [Child.start], fun _ => ⟨by simp [Child.start], by simp [Child.start],
      by simp [Child.start]⟩, fun hd => ?_⟩
    obtain ⟨hout, herr⟩ := prepared_vars_pipes hd t
    exact ⟨hout, herr, prepared_vars_master hd ht⟩

theorem Session.Right.start (ht : Given t) : (Session.start d t).Right d where
  parent := by
    rintro hd p ⟨⟩
    exact get_prepared ht (by cases d <;> first | decide | exact absurd rfl hd)
  child := by
    rintro c ⟨⟩
    exact right_prepared ht rfl rfl

/-- The parent closes nothing that it uses. -/
theorem expects_ne_master (hd : d ≠ .pipes) {op : Op} (h : op ∈ doinputOps d) (n : ℕ) :
    op.expects n ≠ .master := by
  cases d <;> simp [doinputOps] at h hd
  · rcases h with rfl | rfl <;> simp [Op.expects, Var.file]
  · subst h
    simp [Op.expects, Var.file]

theorem Session.Kept.step (ht : Given t) (hs : s.Kept d t) (hright : s.Right d)
    (hok : ¬ s.ClosesScript d e) (h : sessionStep d s e = some s') :
    s'.Kept d t ∧ s'.Right d := by
  have hconf := hs.confined.step ht h
  cases sessionStep_steps h with
  -- a `close` of the parent, which is of a variable that holds what it should
  | @parent p op rest hp hrest =>
    obtain ⟨htidy, hops⟩ := hs.parent _ hp
    rw [hrest] at htidy hops
    refine ⟨⟨hconf, ?_, hs.child⟩, ?_, hright.child⟩
    · rintro q ⟨⟩
      exact ⟨htidy.next, fun op hop => hops op (List.mem_cons_of_mem _ hop)⟩
    · rintro hd q ⟨⟩
      have hcloses := htidy.closes op List.mem_cons_self
      rw [(hcloses.places p.image .master).2]
      exact htidy.get (hright.parent hd p hp) (expects_ne_master hd (hops op List.mem_cons_self) _)
  | parentEnds => exact ⟨⟨hconf, by simp, hs.child⟩, by simp, hright.child⟩
  | @fork c hc hforked =>
    have hstart := hs.confined.child _ hc hforked
    refine ⟨⟨hconf, hs.parent, ?_⟩, hright.parent, ?_⟩
    · rintro c' ⟨⟩
      refine ⟨fun op hop => .inl ⟨rfl, hop⟩, fun _ => ?_, (hs.child _ hc).zero⟩
      rw [hstart]
      exact tidy_dooutput ht
    · rintro c' ⟨⟩
      rw [hstart]
      exact right_prepared ht rfl rfl
  -- the child does one of its own calls, and this is where the side condition is used
  | @child c c' e hc hstep =>
    obtain ⟨hinv, hright'⟩ := hstep.inv (hs.child _ hc) (hright.child _ hc) <| by
      rintro rfl hd hzero op hop hends
      exact hok ⟨rfl, hd, c, hc, hzero, op, hop, hends⟩
    refine ⟨⟨hconf, hs.parent, ?_⟩, hright.parent, ?_⟩
    · rintro c ⟨⟩
      exact hinv
    · rintro c ⟨⟩
      exact hright'
  | childEnds => exact ⟨⟨hconf, hs.parent, by simp⟩, hright.parent, by simp⟩
  | subchild => exact ⟨⟨hconf, hs.parent, hs.child⟩, hright.parent, hright.child⟩
  | exec => exact ⟨⟨hconf, hs.parent, hs.child⟩, hright.parent, hright.child⟩
  | subchildEnds => exact ⟨⟨hconf, hs.parent, hs.child⟩, hright.parent, hright.child⟩
  | command => exact ⟨⟨hconf, hs.parent, hs.child⟩, hright.parent, hright.child⟩
  | commandForks => exact ⟨⟨hconf, hs.parent, hs.child⟩, hright.parent, hright.child⟩
  | commandEnds => exact ⟨⟨hconf, hs.parent, hs.child⟩, hright.parent, hright.child⟩

/-- Closing descriptor 0 when it is the recording's. -/
theorem Session.not_right_of_closesScript (hs : s.Kept d t) (hbad : s.ClosesScript d e)
    (h : sessionStep d s e = some s') : ¬ s'.Right d := by
  obtain ⟨rfl, hd, c, hc, hzero, op, hop, hends⟩ := hbad
  intro hright'
  cases sessionStep_steps h with
  | child hc' hstep =>
    cases hc.symm.trans hc'
    cases hstep with
    | @child op' rest hrest =>
      have hop' : op' = op := by
        rw [hrest] at hop
        exact Option.some.inj hop
      subst hop'
      obtain ⟨hout, herr, -⟩ := (hs.child _ hc).zero hd
      have hcloses : op'.Closes := by rcases hends with rfl | rfl <;> trivial
      have htarget : op'.target c.proc.image = 0 := by
        rcases hends with rfl | rfl
        · exact hout
        · exact herr
      -- the recording's descriptor is free
      have hget := hright'.child _ rfl .fscript trivial
      simp only [(hcloses.places _ .master).2, hcloses.get, htarget, hzero, if_true] at hget
      cases hget

/-- **When the child uses the right descriptors.**  In every run, the recording, the pty and the
pipes are where the parent and the child look for them at every moment, exactly if `dooutput`, when
it cannot write to the terminal, never closes the pipes that there are not while the recording has
the descriptor 0. -/
theorem descriptors_iff (ht : Given t) {es : List Event}
    (hrun : exec (sessionStep d) (Session.start d t) es = some s) :
    Throughout (sessionStep d) (fun _ s => s.Right d) (Session.start d t) es ↔
      Along (sessionStep d) (fun s e => ¬ s.ClosesScript d e) (Session.start d t) es := by
  apply throughout_iff_along (I := fun s => s.Kept d t) _ _ hrun (.start ht) (.start ht)
  · intro s e s' hs hright hok h
    exact hs.step ht hright hok h
  · intro s e s' hs hright hbad h
    exact Session.not_right_of_closesScript hs (not_not.mp hbad) h

end Session

/-- A rotation, and then the terminal is gone: the recording is closed in the place of a pipe. -/
theorem descriptors_iff_getpt :
    ¬ Throughout (sessionStep .getpt) (fun _ s => s.Right .getpt)
      (Session.start .getpt stdioTable) [.fork, .child, .rotate, .writeError, .child] := by
  rw [descriptors_iff given_stdioTable rfl]
  rintro ⟨-, h⟩
  obtain ⟨-, h⟩ := h _ rfl
  obtain ⟨-, h⟩ := h _ rfl
  obtain ⟨-, h⟩ := h _ rfl
  obtain ⟨h, -⟩ := h _ rfl
  exact h ⟨rfl, by decide, _, rfl, by decide, _, rfl, .inl rfl⟩

end TtyRec.Fds
