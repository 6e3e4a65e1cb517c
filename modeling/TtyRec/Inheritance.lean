import TtyRec.Descriptors

/-!
# What the command inherits

The command gets what the subchild has when it calls `execvp`, and passes it on to the processes
that it starts.  Two things depend on that: what the command can reach, and when the child reads an
end of file.

## Main definitions

* `Accessible`, `Within` — what a process of the command may have.
* `Writes`, `Letting` — what the command writes to, and a process that closes its copy of it.

## Main results

* `command_reach` — **the recording and the pty's master stay out of the command's reach.**
* `writers_iff` — **the end of file comes when the command is gone.**
-/

namespace TtyRec.Fds

open Descriptors Run

/-! ### The reach of the command -/

/-- What the processes of the command can get hold of. -/
inductive Accessible : Device → File → Prop where
  | openpty : Accessible .openpty .slave
  | getpt : Accessible .getpt .slave
  | outWrite : Accessible .pipes .outWrite
  | errWrite : Accessible .pipes .errWrite
  | outRead : Accessible .pipes .outRead
  | errRead : Accessible .pipes .errRead
  | stdin : Accessible .pipes (.inherited 0)
  | inherited {d : Device} {fd : ℕ} (h : 3 ≤ fd) : Accessible d (.inherited fd)
  | other {d : Device} {n : ℕ} : Accessible d (.other n)

/-- Every descriptor of the table is for something that the command may have. -/
def Within (d : Device) (t : Table File) : Prop := ∀ fd f, get t fd = some f → Accessible d f

/-- The command begins with what it may have, for each of the three ways to connect it.  A
descriptor from 3 on was inherited by ttyrec itself. -/
theorem within_execTable (d : Device) {t : Table File} (ht : Given t) :
    Within d ((prepared d t).runAll (doshellOps d)).table := by
  intro fd f h
  rw [get_execTable d ht] at h
  -- nothing that `doshell` does touches the higher ones
  have hinherited : 3 ≤ fd → get t fd = some f → Accessible d f := by
    intro hle hget
    rw [ht.inherited fd f hget]
    exact .inherited hle
  cases d with
  | openpty =>
    simp only [execGet] at h
    split_ifs at h with hlt
    · cases h
      exact .openpty
    · exact hinherited (by omega) h
  | getpt =>
    simp only [execGet] at h
    split_ifs at h with hlt
    · cases h
      exact .getpt
    · exact hinherited (by omega) h
  | pipes =>
    simp only [execGet] at h
    split_ifs at h with h1 h2 hout herr
    · cases h
      exact .outWrite
    · cases h
      exact .errWrite
    · cases h
      exact .outRead
    · cases h
      exact .errRead
    · -- in pipe mode the command keeps the standard input of ttyrec
      rcases Nat.eq_zero_or_pos fd with rfl | hpos
      · rw [ht.inherited 0 f h]
        exact .stdin
      · exact hinherited (by omega) h

/-- And no call of it gets anything else. -/
theorem Within.call {d : Device} {t : Table File} (h : Within d t) (c : Call) :
    Within d (c.run t) := by
  intro fd f hf
  cases c with
  | openFile n =>
    rw [Call.run, get_allocate] at hf
    split_ifs at hf
    · cases hf
      exact .other
    · exact h fd f hf
  | close fd' =>
    rw [Call.run, get_close] at hf
    split_ifs at hf
    exact h fd f hf
  | dup2 old new =>
    rw [Call.run, get_dup2] at hf
    split_ifs at hf
    · rcases Option.or_eq_some_iff.mp hf with hold | ⟨-, hnew⟩
      · exact h old f hold
      · exact h fd f hnew
    · exact h fd f hf

/-- What the subchild and the command have: the table that `doshell` leads to, whatever the other
processes have done to theirs since. -/
structure Session.Confined (d : Device) (t : Table File) (s : Session) : Prop where
  /-- Before the second `fork`, the child does nothing. -/
  child : ∀ c ∈ s.child, c.forked = false → c = .start d t
  /-- What `doshell` has still to do leads to the table that the command gets. -/
  subchild : ∀ p ∈ s.subchild, p.image.runAll p.rest = (prepared d t).runAll (doshellOps d)
  commands : ∀ t' ∈ s.commands, Within d t'

/-- The child does nothing before the second `fork`. -/
theorem ChildSteps.forked {d : Device} {t : Table File} {c c' : Child} {e : Event}
    (h : ChildSteps d c e c') (hc : c.forked = false → c = .start d t) :
    c.forked = true ∧ c'.forked = true := by
  have hforked : c.forked = true := by
    by_contra hne
    have hstart := hc (by simpa using hne)
    cases h with
    | child hop => simp [hstart, Child.start] at hop
    | rotate hforked => exact hne hforked
    | pipeEnds hreads => simp [hstart, Child.start, Child.Reads] at hreads
    | ptyEnds hreads => simp [hstart, Child.start, Child.Reads] at hreads
    | writeError hreads => simp [hstart, Child.start, Child.Reads] at hreads
  refine ⟨hforked, ?_⟩
  cases h <;> exact hforked

theorem Session.Confined.start (d : Device) (t : Table File) :
    (Session.start d t).Confined d t where
  child := by
    rintro c ⟨⟩ -
    rfl
  subchild := by simp [Session.start]
  commands := by simp [Session.start]

/-- **The command stays within its reach.** The tables of the three processes follow their programs,
and what the command does with its own adds nothing to what it was given. -/
theorem Session.Confined.step {d : Device} {t : Table File} (ht : Given t) {s s' : Session}
    {e : Event} (hs : s.Confined d t) (h : sessionStep d s e = some s') : s'.Confined d t := by
  cases sessionStep_steps h with
  | parent => exact ⟨hs.child, hs.subchild, hs.commands⟩
  | parentEnds => exact ⟨hs.child, hs.subchild, hs.commands⟩
  -- the subchild begins with the table of the child
  | fork hc hforked =>
    refine ⟨?_, ?_, hs.commands⟩
    · rintro c ⟨⟩ hf
      simp [Child.begin] at hf
    · rintro p ⟨⟩
      rw [hs.child _ hc hforked]
      rfl
  | child hc hstep =>
    refine ⟨?_, hs.subchild, hs.commands⟩
    rintro c ⟨⟩ hf
    have hforked := (hstep.forked (hs.child _ hc)).2
    simp [hf] at hforked
  | childEnds => exact ⟨by simp, hs.subchild, hs.commands⟩
  | subchild hp hrest =>
    refine ⟨hs.child, ?_, hs.commands⟩
    rintro p ⟨⟩
    rw [← hs.subchild _ hp, hrest]
    rfl
  -- what is left open at `execvp` is what the command has
  | @exec p hp hrest =>
    refine ⟨hs.child, by simp, ?_⟩
    intro t' ht'
    rcases List.mem_cons.mp ht' with rfl | ht'
    · have htable := hs.subchild _ hp
      rw [hrest] at htable
      have hwithin := within_execTable d ht
      rw [← htable] at hwithin
      exact hwithin
    · exact hs.commands t' ht'
  | subchildEnds => exact ⟨hs.child, by simp, hs.commands⟩
  | command hmem =>
    refine ⟨hs.child, hs.subchild, ?_⟩
    intro t' ht'
    rcases List.mem_or_eq_of_mem_set ht' with ht' | rfl
    · exact hs.commands t' ht'
    · exact (hs.commands _ hmem).call _
  | commandForks hmem =>
    refine ⟨hs.child, hs.subchild, ?_⟩
    intro t' ht'
    rcases List.mem_cons.mp ht' with rfl | ht'
    · exact hs.commands _ hmem
    · exact hs.commands t' ht'
  | commandEnds =>
    exact ⟨hs.child, hs.subchild, fun t' ht' => hs.commands t' (List.mem_of_mem_eraseIdx ht')⟩

theorem confined {d : Device} {t : Table File} (ht : Given t) {es : List Event} {s : Session}
    (hrun : exec (sessionStep d) (Session.start d t) es = some s) : s.Confined d t :=
  exec_invariant (fun _ _ _ hs h => hs.step ht h) hrun (.start d t)

/-- **What the command can reach.**  In every run, it begins with exactly the descriptors that it
is meant to have, with pipes also with the ends for reading, and neither it nor a process that it
starts ever has one of the recording or of the pty's master. -/
theorem command_reach {d : Device} {t : Table File} (ht : Given t) {es : List Event} {s : Session}
    (hrun : exec (sessionStep d) (Session.start d t) es = some s) :
    (∀ s', sessionStep d s .exec = some s' → ∃ t', s'.commands = t' :: s.commands ∧
      ∀ fd, get t' fd = execGet d t fd) ∧
    ∀ t' ∈ s.commands, ∀ fd f, get t' fd = some f → f ≠ .master ∧ (∀ n, f ≠ .script n) ∧
      (d ≠ .pipes → ∀ fd < 3, f ≠ .inherited fd) := by
  have hs := confined ht hrun
  constructor
  · intro s' h
    cases sessionStep_steps h with
    | exec hp hrest =>
      refine ⟨_, rfl, fun fd => ?_⟩
      rw [← get_execTable d ht, ← hs.subchild _ hp, hrest]
      rfl
    | child _ hstep => cases hstep
  · intro t' ht' fd f hf
    have hacc := hs.commands t' ht' fd f hf
    refine ⟨?_, ?_, ?_⟩
    · rintro rfl
      cases hacc
    · rintro n rfl
      cases hacc
    · rintro hd n hn rfl
      cases hacc with
      | stdin => exact hd rfl
      | inherited hle => omega

theorem command_reach_getpt :
    ∃ s, exec (sessionStep .getpt) (Session.start .getpt stdioTable)
        (.fork :: List.replicate 7 .subchild) = some s ∧
      ∃ s', sessionStep .getpt s .exec = some s' ∧ ∃ t', s'.commands = t' :: s.commands ∧
        ∀ fd, get t' fd = execGet .getpt stdioTable fd := by
  have hrun : exec (sessionStep .getpt) (Session.start .getpt stdioTable)
    (.fork :: List.replicate 7 .subchild) = some _ := rfl
  exact ⟨_, hrun, _, rfl, (command_reach given_stdioTable hrun).1 _ rfl⟩

/-! ### The end of file -/

/-- What the command writes to, and the variable that holds it. -/
inductive Writes : Device → Var → File → Prop where
  | out : Writes .pipes .out1 .outWrite
  | err : Writes .pipes .err1 .errWrite
  | openpty : Writes .openpty .slave .slave
  | getpt : Writes .getpt .slave .slave

/-- A call that closes something. -/
def Op.Closes : Op → Prop
  | .openTo _ _ => False
  | .close _ => True
  | .closeFd _ => True
  | .dup2 _ _ => False

/-- A process that lets go of a file: it has the file in one place at most, and closes it there,
if it has not done so. -/
structure Letting (v : Var) (f : File) (p : Image) (rest : List Op) : Prop where
  closes : ∀ op ∈ rest, op.Closes
  only : places p.table f ⊆ {p.vars v}
  closed : .close v ∉ rest → places p.table f = ∅

/-- A call that closes something takes files away. -/
theorem Op.Closes.places {op : Op} (h : op.Closes) (p : Image) (f : File) :
    places (p.run op).table f ⊆ places p.table f ∧ (p.run op).vars = p.vars := by
  cases op with
  | openTo v f' => cases h
  | close v => exact ⟨by simp [Image.run, places_close], rfl⟩
  | closeFd fd => exact ⟨by simp [Image.run, places_close], rfl⟩
  | dup2 v fd => cases h

theorem Letting.next {v : Var} {f : File} {p : Image} {op : Op} {rest : List Op}
    (h : Letting v f p (op :: rest)) : Letting v f (p.run op) rest := by
  have hcloses := h.closes op List.mem_cons_self
  obtain ⟨hsub, hvars⟩ := hcloses.places p f
  refine ⟨fun op' hop' => h.closes op' (List.mem_cons_of_mem _ hop'), ?_, ?_⟩
  · rw [hvars]
    exact hsub.trans h.only
  · intro hmem
    by_cases hop : op = .close v
    · subst hop
      rw [Image.run, places_close, Set.sdiff_eq_empty]
      exact h.only
    · refine Set.subset_empty_iff.mp ?_
      rw [← h.closed fun hmem' => ?_]
      · exact hsub
      · rcases List.mem_cons.mp hmem' with heq | hmem'
        · exact hop heq.symm
        · exact hmem hmem'

/-- A process that has let go of a file, and closes other things. -/
theorem Letting.of_empty {v : Var} {f : File} {p : Image} {rest : List Op}
    (hcloses : ∀ op ∈ rest, op.Closes) (h : places p.table f = ∅) : Letting v f p rest :=
  ⟨hcloses, by simp [h], fun _ => h⟩

/-- A rotation opens a recording, and nothing else. -/
theorem Letting.rotate {v : Var} {f : File} {p : Image} {rest : List Op} (h : Letting v f p rest)
    (n : ℕ) (hv : v ≠ .fscript) (hf : .script n ≠ f) :
    Letting v f (p.runAll (rotateOps n)) rest := by
  have hplaces : places (p.runAll (rotateOps n)).table f = places p.table f \ {p.vars .fscript} := by
    simp only [Image.runAll, rotateOps, List.foldl_cons, List.foldl_nil, Image.run]
    rw [places_allocate_of_ne _ hf, places_close]
  have hvars : (p.runAll (rotateOps n)).vars v = p.vars v := by
    simp [Image.runAll, rotateOps, Image.run, hv]
  refine ⟨h.closes, ?_, ?_⟩
  · rw [hplaces, hvars]
    exact Set.sdiff_subset.trans h.only
  · intro hmem
    rw [hplaces, h.closed hmem, Set.empty_sdiff]

section Writes

variable {d : Device} {v : Var} {f : File}

theorem Writes.ne_fscript (h : Writes d v f) : v ≠ .fscript := by cases h <;> simp

theorem Writes.ne_script (h : Writes d v f) (n : ℕ) : File.script n ≠ f := by cases h <;> simp

/-- `main` leaves what the command writes to in one place. -/
theorem Writes.only (h : Writes d v f) {t : Table File} (ht : Given t) :
    places (prepared d t).table f ⊆ {(prepared d t).vars v} ∧
      (d = .getpt → places (prepared d t).table f = ∅) := by
  have hempty : places t f = ∅ := by
    ext fd
    simp only [mem_places, Set.mem_empty_iff_false, iff_false]
    intro hget
    cases h <;> cases ht.inherited fd _ hget
  cases h
  all_goals simp [prepared, mainOps, Image.runAll, Image.run, places_allocate_self,
    places_allocate_of_ne, hempty]

/-- `doinput` closes it. -/
theorem Writes.letting_doinput (h : Writes d v f) {t : Table File} (ht : Given t) :
    Letting v f (prepared d t) (doinputOps d) := by
  obtain ⟨honly, hempty⟩ := h.only ht
  refine ⟨by cases h <;> simp [doinputOps, Op.Closes], honly, fun hmem => ?_⟩
  cases h with
  | getpt => exact hempty rfl
  | _ => simp [doinputOps] at hmem

/-- So does `dooutput`. -/
theorem Writes.letting_dooutput (h : Writes d v f) {t : Table File} (ht : Given t) :
    Letting v f (prepared d t) (dooutputOps d) := by
  obtain ⟨honly, hempty⟩ := h.only ht
  refine ⟨by cases h <;> simp [dooutputOps, Op.Closes], honly, fun hmem => ?_⟩
  cases h with
  | getpt => exact hempty rfl
  | _ => simp [dooutputOps] at hmem

end Writes

/-- The parent and the child let go of what the command writes to, each on its own table.  The end
of the command is an end of file for them only then. -/
structure Session.Lets (v : Var) (f : File) (s : Session) : Prop where
  parent : ∀ p ∈ s.parent, Letting v f p.image p.rest
  child : ∀ c ∈ s.child, c.forked = true → Letting v f c.proc.image c.proc.rest

theorem ChildSteps.letting {d : Device} {v : Var} {f : File} (hw : Writes d v f) {c c' : Child}
    {e : Event} (h : ChildSteps d c e c') (hc : Letting v f c.proc.image c.proc.rest) :
    Letting v f c'.proc.image c'.proc.rest := by
  have hreads (hr : c.Reads) : places c.proc.image.table f = ∅ := by
    refine hc.closed ?_
    simp [hr.1]
  cases h with
  | child hrest =>
    rw [hrest] at hc
    exact hc.next
  | rotate => exact hc.rotate _ hw.ne_fscript (hw.ne_script _)
  | @pipeEnds err hr =>
    refine .of_empty (by simp [Child.pipeEnds]) (Set.subset_empty_iff.mp ?_)
    rw [← hreads hr]
    have hcloses : (Op.close (if err then Var.err0 else Var.out0)).Closes := trivial
    exact (hcloses.places _ f).1
  | ptyEnds => exact hc
  | writeError hr =>
    refine .of_empty (fun op hop => ?_) (hreads hr)
    rcases List.mem_append.mp hop with hop | hop
    · split_ifs at hop
      · simp [List.mem_singleton.mp hop, Op.Closes]
      · cases hop
    · split_ifs at hop
      · simp [List.mem_singleton.mp hop, Op.Closes]
      · cases hop

theorem Session.Lets.start {d : Device} {v : Var} {f : File} (hw : Writes d v f)
    {t : Table File} (ht : Given t) : (Session.start d t).Lets v f where
  parent := by
    rintro p ⟨⟩
    exact hw.letting_doinput ht
  child := by
    rintro c ⟨⟩ hforked
    cases hforked

theorem Session.Lets.step {d : Device} {v : Var} {f : File} (hw : Writes d v f) {t : Table File}
    (ht : Given t) {s s' : Session} {e : Event} (hs : s.Lets v f) (hconf : s.Confined d t)
    (h : sessionStep d s e = some s') : s'.Lets v f := by
  cases sessionStep_steps h with
  | parent hp hrest =>
    refine ⟨?_, hs.child⟩
    rintro q ⟨⟩
    have hlets := hs.parent _ hp
    rw [hrest] at hlets
    exact hlets.next
  | parentEnds => exact ⟨by simp, hs.child⟩
  | fork hc hforked =>
    refine ⟨hs.parent, ?_⟩
    rintro c ⟨⟩ -
    rw [hconf.child _ hc hforked]
    exact hw.letting_dooutput ht
  | child hc hstep =>
    refine ⟨hs.parent, ?_⟩
    rintro c ⟨⟩ -
    have hforked := (hstep.forked (hconf.child _ hc)).1
    exact hstep.letting hw (hs.child _ hc hforked)
  | childEnds => exact ⟨hs.parent, by simp⟩
  | subchild => exact ⟨hs.parent, hs.child⟩
  | exec => exact ⟨hs.parent, hs.child⟩
  | subchildEnds => exact ⟨hs.parent, hs.child⟩
  | command => exact ⟨hs.parent, hs.child⟩
  | commandForks => exact ⟨hs.parent, hs.child⟩
  | commandEnds => exact ⟨hs.parent, hs.child⟩

/-- Some process has a file open. -/
def Session.Open (s : Session) (f : File) : Prop :=
  (∃ p ∈ s.parent, Holds p.image.table f) ∨ (∃ c ∈ s.child, Holds c.proc.image.table f) ∨
    (∃ p ∈ s.subchild, Holds p.image.table f) ∨ ∃ t ∈ s.commands, Holds t f

/-- The parent and the child are past the calls that close a variable, or have ended. -/
def Session.Past (v : Var) (s : Session) : Prop :=
  (∀ p ∈ s.parent, .close v ∉ p.rest) ∧
    ∀ c ∈ s.child, c.forked = true ∧ .close v ∉ c.proc.rest

/-- **The end of file comes when the command is gone.**  In every run, whatever the order in which
the three processes go on, once the parent and the child are past their calls of `close`, somebody
has what the command writes to open exactly if the command, a process that it has started, or the
subchild before `execvp` does. -/
theorem writers_iff {d : Device} {v : Var} {f : File} (hw : Writes d v f) {t : Table File}
    (ht : Given t) {es : List Event} {s : Session}
    (hrun : exec (sessionStep d) (Session.start d t) es = some s) (hpast : s.Past v) :
    s.Open f ↔ (∃ p ∈ s.subchild, Holds p.image.table f) ∨ ∃ t ∈ s.commands, Holds t f := by
  have hinv : s.Confined d t ∧ s.Lets v f :=
    exec_invariant (I := fun s => s.Confined d t ∧ s.Lets v f)
      (fun _ _ _ hs h => ⟨hs.1.step ht h, hs.2.step hw ht hs.1 h⟩) hrun
      ⟨.start d t, .start hw ht⟩
  constructor
  · rintro (⟨p, hp, hopen⟩ | ⟨c, hc, hopen⟩ | h)
    · rw [Holds, (hinv.2.parent p hp).closed (hpast.1 p hp)] at hopen
      exact absurd hopen Set.not_nonempty_empty
    · obtain ⟨hforked, hmem⟩ := hpast.2 c hc
      rw [Holds, (hinv.2.child c hc hforked).closed hmem] at hopen
      exact absurd hopen Set.not_nonempty_empty
    · exact h
  · intro h
    exact .inr (.inr h)

/-- The pipes have no writer left when the subchild has ended before `execvp`. -/
theorem writers_iff_pipes :
    ∃ s, exec (sessionStep .pipes) (Session.start .pipes stdioTable)
        (List.replicate 6 .parent ++ .fork :: List.replicate 3 .child ++ [.subchildEnds]) = some s ∧
      ¬ s.Open .outWrite := by
  have hrun : exec (sessionStep .pipes) (Session.start .pipes stdioTable)
    (List.replicate 6 .parent ++ .fork :: List.replicate 3 .child ++ [.subchildEnds]) = some _ := rfl
  refine ⟨_, hrun, fun hopen => ?_⟩
  rw [writers_iff Writes.out given_stdioTable hrun ⟨?_, ?_⟩] at hopen
  · simp [Session.start] at hopen
  · rintro p ⟨⟩
    decide
  · rintro c ⟨⟩
    exact ⟨rfl, by decide⟩

end TtyRec.Fds
