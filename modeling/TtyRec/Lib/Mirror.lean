import Mathlib.Data.Multiset.AddSub
import Mathlib.Data.Set.Insert
import Mathlib.Logic.Function.Basic
import Mathlib.Logic.Relation

/-!
# Parties that mirror a value

Every party holds a value, and has a peer.  A party that assigns its value sends it to its
peer afterwards, and a party that receives a value which is not its own assigns it, and so
sends it back.  The messages that wait at a party are a set: a second copy merges with the
first, and they are received in any order.  A party may be in the middle of any number of
tasks, and any of them may go on next.

Two peers hold the same value, or the value of one of them is on its way to the other one.
So they agree as soon as no message waits and no task is in progress.

## Main definitions

* `State`, `Step` — the parties, and what can happen; `Inner` — what they do by themselves.
* `Underway` — the value of a party is on its way to its peer.

## Main results

* `Linked.step`, `Linked.reachable` — peers agree, or the value of one of them is underway.
* `value_eq_of_quiet` — they agree when nothing is underway.
-/

namespace Mirror

variable {ι α : Type*}

/-- What a party is in the middle of. -/
inductive Task (α : Type*) where
  /-- It has received a value, and compares it with its own. -/
  | check (v : α)
  | assign (v : α)
  | send (v : α)

structure State (ι α : Type*) where
  value : ι → α
  /-- The messages that wait. -/
  pending : ι → Set α
  tasks : ι → Multiset (Task α)

variable [DecidableEq ι]

/-- What can happen.  The tasks of a party are in no order, so that the one which goes on is
the first. -/
inductive Step (peer : ι → ι) : State ι α → State ι α → Prop
  /-- Somebody sends a value to a party. -/
  | post (s : State ι α) (b : ι) (v : α) :
    Step peer s { s with pending := Function.update s.pending b (insert v (s.pending b)) }
  | receive (s : State ι α) (b : ι) (v : α) (hv : v ∈ s.pending b) :
    Step peer s { s with
      pending := Function.update s.pending b (s.pending b \ {v})
      tasks := Function.update s.tasks b (.check v ::ₘ s.tasks b) }
  | drop (s : State ι α) (b : ι) (r : Multiset (Task α))
      (hr : s.tasks b = .check (s.value b) ::ₘ r) :
    Step peer s { s with tasks := Function.update s.tasks b r }
  | accept (s : State ι α) (b : ι) (v : α) (r : Multiset (Task α))
      (hr : s.tasks b = .check v ::ₘ r) (hne : v ≠ s.value b) :
    Step peer s { s with tasks := Function.update s.tasks b (.assign v ::ₘ r) }
  /-- A party assigns a value of its own accord. -/
  | start (s : State ι α) (b : ι) (v : α) :
    Step peer s { s with tasks := Function.update s.tasks b (.assign v ::ₘ s.tasks b) }
  | assign (s : State ι α) (b : ι) (v : α) (r : Multiset (Task α))
      (hr : s.tasks b = .assign v ::ₘ r) :
    Step peer s { s with
      value := Function.update s.value b v
      tasks := Function.update s.tasks b (.send v ::ₘ r) }
  | send (s : State ι α) (b : ι) (v : α) (r : Multiset (Task α))
      (hr : s.tasks b = .send v ::ₘ r) :
    Step peer s { s with
      pending := Function.update s.pending (peer b) (insert v (s.pending (peer b)))
      tasks := Function.update s.tasks b r }

/-- What the parties do by themselves: nobody sends a value from outside, and none of them
assigns one of its own accord. -/
inductive Inner (peer : ι → ι) : State ι α → State ι α → Prop
  | receive (s : State ι α) (b : ι) (v : α) (hv : v ∈ s.pending b) :
    Inner peer s { s with
      pending := Function.update s.pending b (s.pending b \ {v})
      tasks := Function.update s.tasks b (.check v ::ₘ s.tasks b) }
  | drop (s : State ι α) (b : ι) (r : Multiset (Task α))
      (hr : s.tasks b = .check (s.value b) ::ₘ r) :
    Inner peer s { s with tasks := Function.update s.tasks b r }
  | accept (s : State ι α) (b : ι) (v : α) (r : Multiset (Task α))
      (hr : s.tasks b = .check v ::ₘ r) (hne : v ≠ s.value b) :
    Inner peer s { s with tasks := Function.update s.tasks b (.assign v ::ₘ r) }
  | assign (s : State ι α) (b : ι) (v : α) (r : Multiset (Task α))
      (hr : s.tasks b = .assign v ::ₘ r) :
    Inner peer s { s with
      value := Function.update s.value b v
      tasks := Function.update s.tasks b (.send v ::ₘ r) }
  | send (s : State ι α) (b : ι) (v : α) (r : Multiset (Task α))
      (hr : s.tasks b = .send v ::ₘ r) :
    Inner peer s { s with
      pending := Function.update s.pending (peer b) (insert v (s.pending (peer b)))
      tasks := Function.update s.tasks b r }

theorem Inner.step {peer : ι → ι} {s t : State ι α} (h : Inner peer s t) : Step peer s t := by
  cases h with
  | receive b v hv => exact .receive s b v hv
  | drop b r hr => exact .drop s b r hr
  | accept b v r hr hne => exact .accept s b v r hr hne
  | assign b v r hr => exact .assign s b v r hr
  | send b v r hr => exact .send s b v r hr

/-- The value of a party is on its way to its peer: it is about to be sent, it waits, or the
peer is about to look at it or to assign it. -/
def Underway (peer : ι → ι) (s : State ι α) (a : ι) : Prop :=
  .send (s.value a) ∈ s.tasks a ∨ s.value a ∈ s.pending (peer a) ∨
    .check (s.value a) ∈ s.tasks (peer a) ∨ .assign (s.value a) ∈ s.tasks (peer a)

/-- Peers agree, or the value of one of them is on its way to the other one. -/
def Linked (peer : ι → ι) (s : State ι α) : Prop :=
  ∀ a, s.value a = s.value (peer a) ∨ Underway peer s a ∨ Underway peer s (peer a)

variable {peer : ι → ι} {s t : State ι α}

/-! ### Tasks and messages after a step -/

section Update

variable {β : Type*}

theorem mem_update_of_le {f : ι → Multiset β} {b c : ι} {r : Multiset β} {x : β} (hr : f b ≤ r)
    (hx : x ∈ f c) : x ∈ Function.update f b r c := by
  by_cases hc : c = b
  · subst hc
    rw [Function.update_self]
    exact Multiset.mem_of_le hr hx
  · rw [Function.update_of_ne hc]
    exact hx

/-- The task `y` goes on, and the others stay. -/
theorem mem_update_of_ne {f : ι → Multiset β} {b c : ι} {r r' : Multiset β} {x y : β}
    (hr : f b = y ::ₘ r) (hr' : r ≤ r') (hxy : c = b → x ≠ y) (hx : x ∈ f c) :
    x ∈ Function.update f b r' c := by
  by_cases hc : c = b
  · subst hc
    rw [hr, Multiset.mem_cons] at hx
    rw [Function.update_self]
    exact Multiset.mem_of_le hr' (hx.resolve_left (hxy rfl))
  · rw [Function.update_of_ne hc]
    exact hx

theorem mem_update_cons (f : ι → Multiset β) {b c : ι} (r : Multiset β) {x y : β} (hc : c = b)
    (hxy : x = y) : x ∈ Function.update f b (y ::ₘ r) c := by
  rw [hc, hxy, Function.update_self]
  exact Multiset.mem_cons_self y r

theorem mem_update_insert {f : ι → Set β} {b c : ι} {x y : β} (hx : x ∈ f c) :
    x ∈ Function.update f b (insert y (f b)) c := by
  by_cases hc : c = b
  · subst hc
    rw [Function.update_self]
    exact Set.mem_insert_of_mem y hx
  · rw [Function.update_of_ne hc]
    exact hx

theorem mem_update_insert_self (f : ι → Set β) {b c : ι} {x y : β} (hc : c = b) (hxy : x = y) :
    x ∈ Function.update f b (insert y (f b)) c := by
  rw [hc, hxy, Function.update_self]
  exact Set.mem_insert y _

theorem mem_update_diff {f : ι → Set β} {b c : ι} {x y : β} (hxy : c = b → x ≠ y) (hx : x ∈ f c) :
    x ∈ Function.update f b (f b \ {y}) c := by
  by_cases hc : c = b
  · subst hc
    rw [Function.update_self]
    exact ⟨hx, hxy rfl⟩
  · rw [Function.update_of_ne hc]
    exact hx

end Update

/-! ### The invariant -/

variable {peer : ι → ι} {s t : State ι α}

/-- A party that changes its value is about to send it. -/
theorem Step.value_eq_or_underway (hstep : Step peer s t) (a : ι) :
    t.value a = s.value a ∨ Underway peer t a := by
  cases hstep with
  | assign b v r hr =>
    by_cases hab : a = b
    · subst hab
      exact .inr (.inl (mem_update_cons s.tasks r rfl
        (congrArg Task.send (Function.update_self a v s.value))))
    · exact .inl (Function.update_of_ne hab v s.value)
  | _ => exact .inl rfl

/-- A value that is underway stays underway, unless its peer has it, or changes its own. -/
theorem Underway.step (hstep : Step peer s t) {a : ι} (hvalue : t.value a = s.value a)
    (h : Underway peer s a) :
    s.value a = s.value (peer a) ∨ Underway peer t a ∨ Underway peer t (peer a) := by
  unfold Underway at h
  rw [← hvalue] at h
  cases hstep with
  | post b v =>
    rcases h with h | h | h | h
    · exact .inr (.inl (.inl h))
    · exact .inr (.inl (.inr (.inl (mem_update_insert h))))
    · exact .inr (.inl (.inr (.inr (.inl h))))
    · exact .inr (.inl (.inr (.inr (.inr h))))
  | receive b v hv =>
    have hle := Multiset.le_cons_self (s.tasks b) (.check v)
    rcases h with h | h | h | h
    · exact .inr (.inl (.inl (mem_update_of_le hle h)))
    · refine .inr (.inl (.inr ?_))
      by_cases hb : peer a = b ∧ s.value a = v
      · exact .inr (.inl (mem_update_cons s.tasks _ hb.1 (congrArg Task.check hb.2)))
      · exact .inl (mem_update_diff (fun hc heq => hb ⟨hc, heq⟩) h)
    · exact .inr (.inl (.inr (.inr (.inl (mem_update_of_le hle h)))))
    · exact .inr (.inl (.inr (.inr (.inr (mem_update_of_le hle h)))))
  | drop b r hr =>
    rcases h with h | h | h | h
    · exact .inr (.inl (.inl (mem_update_of_ne hr le_rfl (fun _ => nofun) h)))
    · exact .inr (.inl (.inr (.inl h)))
    · by_cases hb : peer a = b ∧ s.value a = s.value b
      · exact .inl (hb.2.trans (congrArg s.value hb.1.symm))
      · refine .inr (.inl (.inr (.inr (.inl (mem_update_of_ne hr le_rfl ?_ h)))))
        intro hc heq
        exact hb ⟨hc, Task.check.inj heq⟩
    · exact .inr (.inl (.inr (.inr (.inr
        (mem_update_of_ne hr le_rfl (fun _ => nofun) h)))))
  | accept b v r hr hne =>
    have hle := Multiset.le_cons_self r (.assign v)
    rcases h with h | h | h | h
    · exact .inr (.inl (.inl (mem_update_of_ne hr hle (fun _ => nofun) h)))
    · exact .inr (.inl (.inr (.inl h)))
    · refine .inr (.inl (.inr (.inr ?_)))
      by_cases hb : peer a = b ∧ s.value a = v
      · exact .inr (mem_update_cons s.tasks r hb.1 (congrArg Task.assign hb.2))
      · exact .inl (mem_update_of_ne hr hle (fun hc heq => hb ⟨hc, Task.check.inj heq⟩) h)
    · exact .inr (.inl (.inr (.inr (.inr
        (mem_update_of_ne hr hle (fun _ => nofun) h)))))
  | start b v =>
    have hle := Multiset.le_cons_self (s.tasks b) (.assign v)
    rcases h with h | h | h | h
    · exact .inr (.inl (.inl (mem_update_of_le hle h)))
    · exact .inr (.inl (.inr (.inl h)))
    · exact .inr (.inl (.inr (.inr (.inl (mem_update_of_le hle h)))))
    · exact .inr (.inl (.inr (.inr (.inr (mem_update_of_le hle h)))))
  | assign b v r hr =>
    have hle := Multiset.le_cons_self r (.send v)
    rcases h with h | h | h | h
    · exact .inr (.inl (.inl (mem_update_of_ne hr hle (fun _ => nofun) h)))
    · exact .inr (.inl (.inr (.inl h)))
    · exact .inr (.inl (.inr (.inr (.inl
        (mem_update_of_ne hr hle (fun _ => nofun) h)))))
    · by_cases hb : peer a = b
      · -- the peer now has a value of its own to send
        subst hb
        exact .inr (.inr (.inl (mem_update_cons s.tasks r rfl
          (congrArg Task.send (Function.update_self (peer a) v s.value)))))
      · exact .inr (.inl (.inr (.inr (.inr (mem_update_of_ne hr hle (fun hc => absurd hc hb) h)))))
  | send b v r hr =>
    rcases h with h | h | h | h
    · refine .inr (.inl ?_)
      by_cases hb : a = b ∧ s.value a = v
      · exact .inr (.inl (mem_update_insert_self s.pending (congrArg peer hb.1) hb.2))
      · exact .inl (mem_update_of_ne hr le_rfl (fun hc heq => hb ⟨hc, Task.send.inj heq⟩) h)
    · exact .inr (.inl (.inr (.inl (mem_update_insert h))))
    · exact .inr (.inl (.inr (.inr (.inl
        (mem_update_of_ne hr le_rfl (fun _ => nofun) h)))))
    · exact .inr (.inl (.inr (.inr (.inr
        (mem_update_of_ne hr le_rfl (fun _ => nofun) h)))))

/-- **One step**, whichever party takes it, keeps the parties linked. -/
theorem Linked.step (hpeer : Function.Involutive peer) (hlinked : Linked peer s)
    (hstep : Step peer s t) : Linked peer t := by
  intro a
  rcases hstep.value_eq_or_underway a with ha | ha
  · rcases hstep.value_eq_or_underway (peer a) with hb | hb
    · rw [ha, hb]
      rcases hlinked a with h | h | h
      · exact .inl h
      · exact h.step hstep ha
      · rcases h.step hstep hb with h | h | h
        · rw [hpeer a] at h
          exact .inl h.symm
        · exact .inr (.inr h)
        · rw [hpeer a] at h
          exact .inr (.inl h)
    · exact .inr (.inr hb)
  · exact .inr (.inl ha)

/-- **Every run** keeps the parties linked, from any state in which they are. -/
theorem Linked.reachable (hpeer : Function.Involutive peer) (hlinked : Linked peer s)
    (hrun : Relation.ReflTransGen (Step peer) s t) : Linked peer t := by
  induction hrun with
  | refl => exact hlinked
  | tail _ hstep ih => exact ih.step hpeer hstep

omit [DecidableEq ι] in
/-- **Peers agree when nothing is underway**: no message waits, and no party is in the middle of a
task. -/
theorem value_eq_of_quiet (hlinked : Linked peer s) (hquiet : ∀ a, s.pending a = ∅ ∧ s.tasks a = 0)
    (a : ι) : s.value a = s.value (peer a) := by
  have hnone : ∀ b, ¬ Underway peer s b := by
    intro b h
    unfold Underway at h
    simp only [(hquiet _).1, (hquiet _).2, Multiset.notMem_zero, Set.mem_empty_iff_false,
      or_self] at h
  rcases hlinked a with h | h | h
  · exact h
  · exact absurd h (hnone a)
  · exact absurd h (hnone (peer a))

end Mirror
