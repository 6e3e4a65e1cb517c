import TtyRec.Lib.Mirror
import Mathlib.Algebra.BigOperators.Group.Finset.Piecewise
import Mathlib.Algebra.Order.BigOperators.Group.Finset
import Mathlib.Data.Fintype.Basic
import Mathlib.Tactic.SplitIfs

/-!
# Parties that come to rest

Parties that mirror a value answer each other, so two values that cross may be answered
forever.  One value alone is not: when all the messages and tasks are about the value `v`,
the parties come to rest.  Every message and task has a price, which pays for all that can
follow from it, and the prices depend only on which of the two peers have `v` already.  A
party that has it drops the message; a party that does not will assign `v` and answer, and
its peer may have to do the same once more.

## Main definitions

* `Only v s` — all messages and tasks are about `v`.
* `cost peer v s` — what all of them can lead to.

## Main results

* `Only.inner` — **the parties by themselves keep to `v`, and the cost decreases.**
-/

namespace Mirror

variable {ι α : Type*}

/-- The value that a task is about. -/
def Task.value : Task α → α
  | .check v => v
  | .assign v => v
  | .send v => v

/-- All messages and tasks are about the value `v`. -/
def Only (v : α) (s : State ι α) : Prop :=
  ∀ a, (∀ u ∈ s.pending a, u = v) ∧ ∀ k ∈ s.tasks a, k.value = v

/-! ### Prices -/

section Prices

open Classical in
/-- The price of a message about to be sent, when the parties have the values `x`. -/
noncomputable def sendCost (peer : ι → ι) (v : α) (x : ι → α) (a : ι) : ℕ :=
  if x (peer a) = v then 3 else if x a = v then 7 else 11

open Classical in
noncomputable def assignCost (peer : ι → ι) (v : α) (x : ι → α) (a : ι) : ℕ :=
  if x (peer a) = v then 4 else 8

open Classical in
noncomputable def checkCost (peer : ι → ι) (v : α) (x : ι → α) (a : ι) : ℕ :=
  if x a = v then 1 else assignCost peer v x a + 1

noncomputable def taskCost (peer : ι → ι) (v : α) (x : ι → α) (a : ι) : Task α → ℕ
  | .check _ => checkCost peer v x a
  | .assign _ => assignCost peer v x a
  | .send _ => sendCost peer v x a

open Classical in
/-- The price of what waits at a party. -/
noncomputable def pendingCost (peer : ι → ι) (v : α) (x : ι → α) (p : Set α) (a : ι) : ℕ :=
  if v ∈ p then checkCost peer v x a + 1 else 0

noncomputable def tasksCost (peer : ι → ι) (v : α) (x : ι → α) (ts : Multiset (Task α)) (a : ι) : ℕ :=
  (ts.map (taskCost peer v x a)).sum

/-- The price of everything: of what waits and of what is in progress, at all parties. -/
noncomputable def cost [Fintype ι] (peer : ι → ι) (v : α) (s : State ι α) : ℕ :=
  ∑ a, (tasksCost peer v s.value (s.tasks a) a + pendingCost peer v s.value (s.pending a) a)

variable (peer : ι → ι) (v : α) {x x' : ι → α}

@[simp] theorem tasksCost_cons (x : ι → α) (k : Task α) (ts : Multiset (Task α)) (a : ι) :
    tasksCost peer v x (k ::ₘ ts) a = taskCost peer v x a k + tasksCost peer v x ts a := by
  rw [tasksCost, Multiset.map_cons, Multiset.sum_cons, tasksCost]

theorem checkCost_pos (x : ι → α) (a : ι) : 0 < checkCost peer v x a := by
  unfold checkCost
  split
  · exact Nat.one_pos
  · exact Nat.succ_pos _

/-- A message that is sent waits at the peer. -/
theorem checkCost_lt_sendCost {peer : ι → ι} (hpeer : Function.Involutive peer) (v : α)
    (x : ι → α) (a : ι) :
    checkCost peer v x (peer a) + 1 < sendCost peer v x a := by
  unfold checkCost assignCost sendCost
  rw [hpeer a]
  split_ifs <;> omega

/-- A message that is not dropped makes the party assign the value. -/
theorem assignCost_lt_checkCost {a : ι} (ha : x a ≠ v) :
    assignCost peer v x a < checkCost peer v x a := by
  unfold checkCost
  rw [if_neg ha]
  exact Nat.lt_succ_self _

/-- A party that assigns the value sends it. -/
theorem sendCost_lt_assignCost [DecidableEq ι] (x : ι → α) (a : ι) :
    sendCost peer v (Function.update x a v) a < assignCost peer v x a := by
  unfold sendCost assignCost
  rw [Function.update_self]
  by_cases hp : peer a = a
  · rw [hp, Function.update_self, if_pos rfl]
    split_ifs <;> omega
  · rw [Function.update_of_ne hp]
    by_cases hv : x (peer a) = v
    · rw [if_pos hv, if_pos hv]
      omega
    · rw [if_neg hv, if_neg hv, if_pos rfl]
      omega

/-- The more parties have the value, the less can follow. -/
theorem taskCost_mono (hx : ∀ c, x c = v → x' c = v) (a : ι) (k : Task α) :
    taskCost peer v x' a k ≤ taskCost peer v x a k := by
  have h := hx a
  have hp := hx (peer a)
  cases k with
  | check _ =>
    simp only [taskCost, checkCost, assignCost]
    split_ifs <;> first | omega | tauto
  | assign _ =>
    simp only [taskCost, assignCost]
    split_ifs <;> first | omega | tauto
  | send _ =>
    simp only [taskCost, sendCost]
    split_ifs <;> first | omega | tauto

theorem tasksCost_mono (hx : ∀ c, x c = v → x' c = v) (ts : Multiset (Task α)) (a : ι) :
    tasksCost peer v x' ts a ≤ tasksCost peer v x ts a :=
  Multiset.sum_map_le_sum_map _ _ fun k _ => taskCost_mono peer v hx a k

theorem pendingCost_mono (hx : ∀ c, x c = v → x' c = v) (p : Set α) (a : ι) :
    pendingCost peer v x' p a ≤ pendingCost peer v x p a := by
  unfold pendingCost
  split
  · exact Nat.succ_le_succ (taskCost_mono peer v hx a (.check v))
  · exact le_rfl

end Prices

/-! ### The parties by themselves -/

variable [DecidableEq ι] {peer : ι → ι} {v : α} {s t : State ι α}

/-- What changes at one party only. -/
theorem cost_lt_of_update [Fintype ι] {b : ι}
    (hb : tasksCost peer v t.value (t.tasks b) b + pendingCost peer v t.value (t.pending b) b <
      tasksCost peer v s.value (s.tasks b) b + pendingCost peer v s.value (s.pending b) b)
    (hx : ∀ c, s.value c = v → t.value c = v)
    (htasks : ∀ a, a ≠ b → t.tasks a = s.tasks a) (hpending : ∀ a, a ≠ b → t.pending a = s.pending a) :
    cost peer v t < cost peer v s := by
  refine Finset.sum_lt_sum ?_ ⟨b, Finset.mem_univ b, hb⟩
  intro a _
  by_cases hab : a = b
  · subst hab
    exact hb.le
  · rw [htasks a hab, hpending a hab]
    exact Nat.add_le_add (tasksCost_mono peer v hx _ a) (pendingCost_mono peer v hx _ a)

/-- A message more costs at most itself and what its check may lead to. -/
theorem cost_insert_le [Fintype ι] (peer : ι → ι) (v : α) (s : State ι α) (c : ι) :
    cost peer v { s with pending := Function.update s.pending c (insert v (s.pending c)) } ≤
      cost peer v s + (checkCost peer v s.value c + 1) := by
  have hle : ∀ a, tasksCost peer v s.value (s.tasks a) a +
      pendingCost peer v s.value (Function.update s.pending c (insert v (s.pending c)) a) a ≤
      tasksCost peer v s.value (s.tasks a) a + pendingCost peer v s.value (s.pending a) a +
        if a = c then checkCost peer v s.value c + 1 else 0 := by
    intro a
    by_cases hac : a = c
    · subst hac
      rw [Function.update_self, if_pos rfl, pendingCost, if_pos (Set.mem_insert v _)]
      omega
    · rw [Function.update_of_ne hac, if_neg hac]
      omega
  calc
    _ ≤ ∑ a, (tasksCost peer v s.value (s.tasks a) a + pendingCost peer v s.value (s.pending a) a +
        if a = c then checkCost peer v s.value c + 1 else 0) := Finset.sum_le_sum fun a _ => hle a
    _ = _ := by rw [Finset.sum_add_distrib, Finset.sum_ite_eq' Finset.univ c,
      if_pos (Finset.mem_univ c), cost]

/-- A task less is cheaper by what it was worth. -/
theorem cost_remove [Fintype ι] (peer : ι → ι) (v : α) {b : ι} {k : Task α}
    {r : Multiset (Task α)} (hr : s.tasks b = k ::ₘ r) :
    cost peer v { s with tasks := Function.update s.tasks b r } + taskCost peer v s.value b k =
      cost peer v s := by
  have heq : ∀ a, tasksCost peer v s.value (s.tasks a) a + pendingCost peer v s.value (s.pending a) a =
      (tasksCost peer v s.value (Function.update s.tasks b r a) a +
        pendingCost peer v s.value (s.pending a) a) +
        if a = b then taskCost peer v s.value b k else 0 := by
    intro a
    by_cases hab : a = b
    · subst hab
      rw [Function.update_self, if_pos rfl, hr, tasksCost_cons]
      omega
    · rw [Function.update_of_ne hab, if_neg hab, Nat.add_zero]
  symm
  calc
    cost peer v s = ∑ a, ((tasksCost peer v s.value (Function.update s.tasks b r a) a +
        pendingCost peer v s.value (s.pending a) a) +
        if a = b then taskCost peer v s.value b k else 0) := Finset.sum_congr rfl fun a _ => heq a
    _ = _ := by rw [Finset.sum_add_distrib, Finset.sum_ite_eq' Finset.univ b,
      if_pos (Finset.mem_univ b), cost]

/-- What holds of the messages or tasks of every party holds of them when those of one party
change. -/
theorem forall_update {β : Type*} {f : ι → β} {b : ι} {y : β} {P : β → Prop} (hy : P y)
    (hf : ∀ a, P (f a)) : ∀ a, P (Function.update f b y a) :=
  (Function.forall_update_iff f fun _ => P).mpr ⟨hy, fun a _ => hf a⟩

/-- Tasks and messages about `v` lead to others about `v` only. -/
theorem Only.of_inner (h : Only v s) (hstep : Inner peer s t) : Only v t := by
  have hpending : ∀ a, ∀ u ∈ s.pending a, u = v := fun a => (h a).1
  have htasks : ∀ a, ∀ k ∈ s.tasks a, k.value = v := fun a => (h a).2
  have hpending' : ∀ {b : ι} {p : Set α}, (∀ u ∈ p, u = v) →
      ∀ a, ∀ u ∈ Function.update s.pending b p a, u = v :=
    fun hp => forall_update (P := fun p => ∀ u ∈ p, u = v) hp hpending
  have htasks' : ∀ {b : ι} {r : Multiset (Task α)}, (∀ k ∈ r, k.value = v) →
      ∀ a, ∀ k ∈ Function.update s.tasks b r a, k.value = v :=
    fun hr => forall_update (P := fun r : Multiset (Task α) => ∀ k ∈ r, k.value = v) hr htasks
  -- the task that goes on, and the others of its party
  have hcons : ∀ {b : ι} {k : Task α} {r : Multiset (Task α)}, s.tasks b = k ::ₘ r →
      k.value = v ∧ ∀ k' ∈ r, k'.value = v := by
    intro b k r hr
    have hb := htasks b
    rw [hr] at hb
    exact ⟨hb k (Multiset.mem_cons_self k r), fun k' hk' => hb k' (Multiset.mem_cons_of_mem hk')⟩
  have hnext : ∀ {r : Multiset (Task α)} (k : Task α), k.value = v → (∀ k' ∈ r, k'.value = v) →
      ∀ k' ∈ k ::ₘ r, k'.value = v := by
    intro r k hk hr k' hk'
    rcases Multiset.mem_cons.mp hk' with rfl | hk'
    · exact hk
    · exact hr k' hk'
  cases hstep with
  | receive b u hu =>
    have hdiff : ∀ w ∈ s.pending b \ {u}, w = v := fun w hw => hpending b w hw.1
    have hcheck := hnext (.check u) (hpending b u hu) (htasks b)
    exact fun a => ⟨hpending' hdiff a, htasks' hcheck a⟩
  | drop b r hr => exact fun a => ⟨hpending a, htasks' (hcons hr).2 a⟩
  | accept b u r hr _ =>
    have hassign := hnext (.assign u) (hcons hr).1 (hcons hr).2
    exact fun a => ⟨hpending a, htasks' hassign a⟩
  | assign b u r hr =>
    have hsend := hnext (.send u) (hcons hr).1 (hcons hr).2
    exact fun a => ⟨hpending a, htasks' hsend a⟩
  | send b u r hr =>
    have hinsert : ∀ w ∈ insert u (s.pending (peer b)), w = v := by
      intro w hw
      rcases hw with rfl | hw
      · exact (hcons hr).1
      · exact hpending (peer b) w hw
    exact fun a => ⟨hpending' hinsert a, htasks' (hcons hr).2 a⟩

/-- **What the parties do by themselves makes the cost smaller**, as long as everything is about one
value.  A value that is pending costs more than its check, a check more than the assignment, an
assignment more than the message, and a message more than the check it leads to at the peer. -/
theorem Only.inner [Fintype ι] (hpeer : Function.Involutive peer) (h : Only v s)
    (hstep : Inner peer s t) : Only v t ∧ cost peer v t < cost peer v s := by
  refine ⟨h.of_inner hstep, ?_⟩
  have hvalue : ∀ {b : ι} {k : Task α} {r : Multiset (Task α)}, s.tasks b = k ::ₘ r →
      k.value = v := fun {b k r} hr => (h b).2 k (by rw [hr]; exact Multiset.mem_cons_self k r)
  cases hstep with
  -- one pending value becomes one task
  | receive b u hu =>
    have huv : u = v := (h b).1 u hu
    subst huv
    refine cost_lt_of_update (b := b) ?_ (fun _ hc => hc) (fun a ha => Function.update_of_ne ha _ _)
      (fun a ha => Function.update_of_ne ha _ _)
    simp only [Function.update_self, tasksCost_cons, taskCost, pendingCost, if_pos hu,
      Set.mem_sdiff, Set.mem_singleton_iff, not_true_eq_false, and_false, if_false]
    omega
  | drop b r hr =>
    have hcost := cost_remove peer v hr
    have hpos := checkCost_pos peer v s.value b
    simp only [taskCost] at hcost
    omega
  | accept b u r hr hne =>
    have huv : u = v := hvalue hr
    subst huv
    refine cost_lt_of_update (b := b) ?_ (fun _ hc => hc) (fun a ha => Function.update_of_ne ha _ _)
      (fun _ _ => rfl)
    have hlt := assignCost_lt_checkCost peer u hne.symm
    simp only [Function.update_self, hr, tasksCost_cons, taskCost]
    omega
  | assign b u r hr =>
    have huv : u = v := hvalue hr
    subst huv
    -- whoever has the value keeps it, so nothing becomes dearer elsewhere
    have hx : ∀ c, s.value c = u → Function.update s.value b u c = u := by
      intro c hc
      by_cases hcb : c = b
      · rw [hcb, Function.update_self]
      · rw [Function.update_of_ne hcb, hc]
    refine cost_lt_of_update (b := b) ?_ hx (fun a ha => Function.update_of_ne ha _ _)
      (fun _ _ => rfl)
    have hlt := sendCost_lt_assignCost peer u s.value b
    have hr' := tasksCost_mono peer u hx r b
    have hp := pendingCost_mono peer u hx (s.pending b) b
    simp only [Function.update_self, hr, tasksCost_cons, taskCost]
    omega
  | send b u r hr =>
    have huv : u = v := hvalue hr
    subst huv
    have hremove := cost_remove peer u hr
    have hinsert := cost_insert_le peer u { s with tasks := Function.update s.tasks b r } (peer b)
    have hlt := checkCost_lt_sendCost hpeer u s.value b
    simp only [taskCost] at hremove hinsert
    omega

end Mirror
