import Mathlib.Tactic

/-!
# Runs of an event-driven machine

A machine is a partial step function `step : σ → ε → Option σ`; `none` says the
event cannot happen in that state.  A run is a list of events, and what a
verification asks of it is almost always one of two things: an invariant that
every step preserves, or an invariant that every step preserves *as long as the
step meets a side condition*, which may look at the state before the step.

## Main definitions

* `exec step s es` — the state the run `es` leads to.
* `Along step ok s es` — every event of the run meets `ok` in the state in which
  it happens.
* `collect step f s es` — what the events of the run yield.
* `last step P s es` — the last step of the run that meets `P`, with the state before it.

## Main results

* `exec_append` — runs compose.
* `exec_invariant` — the induction rule of unconditional invariants.
* `exec_invariant_along` — the rule for invariants under a side condition.
* `exec_invariant_past` — the rule for invariants about the events so far.
* `along_iff` — the rule for exact conditions on every step.
* `throughout_iff`, `throughout_iff_along` — the rules for what a bad event, or a bad step, breaks.
* `length_le_of_measure` — the rule for machines that come to rest.
* `exec_invariant_collect` — the rule for invariants about what a run has yielded.
* `relay_iff` — the rule for machines that pass on what they take in.
* `exists_of_last`, `along_of_last` — a run in two parts, at the last step that meets `P`.
* `exec_simulation_along`, `exec_simulation_lift`, `exec_simulation_many` — the runs of a
  machine that simulates another one.
-/

namespace Run

variable {σ ε : Type*} (step : σ → ε → Option σ)

/-- The state a run leads to, if every event of it can happen. -/
def exec : σ → List ε → Option σ
  | s, [] => some s
  | s, e :: es => (step s e).bind fun s' => exec s' es

/-- Every event of the run meets `ok` in the state in which it happens. -/
def Along (ok : σ → ε → Prop) : σ → List ε → Prop
  | _, [] => True
  | s, e :: es => ok s e ∧ ∀ s', step s e = some s' → Along ok s' es

@[simp] theorem exec_nil (s : σ) : exec step s [] = some s := rfl

@[simp] theorem exec_cons (s : σ) (e : ε) (es : List ε) :
    exec step s (e :: es) = (step s e).bind fun s' => exec step s' es := rfl

/-- A run of `es ++ es'` is a run of `es` continued by a run of `es'`. -/
theorem exec_append (s : σ) (es es' : List ε) :
    exec step s (es ++ es') = (exec step s es).bind fun s' => exec step s' es' := by
  induction es generalizing s with
  | nil => rfl
  | cons e es ih =>
    rw [List.cons_append, exec_cons, exec_cons]
    cases step s e with
    | none => rfl
    | some s' => exact ih s'

/-- What the events of a run yield, each in the state in which it happens. -/
def collect {β : Type*} (f : σ → ε → List β) : σ → List ε → List β
  | _, [] => []
  | s, e :: es => f s e ++ (step s e).elim [] fun s' => collect f s' es

/-- A condition on the steps of a run can be checked along the run. -/
instance decidableAlong (ok : σ → ε → Prop) [∀ s e, Decidable (ok s e)] :
    ∀ s es, Decidable (Along step ok s es)
  | _, [] => isTrue trivial
  | s, e :: es =>
    match h : step s e with
    | none => decidable_of_iff (ok s e) (by simp [Along, h])
    | some s' =>
      have := decidableAlong ok s' es
      decidable_of_iff (ok s e ∧ Along step ok s' es) (by simp [Along, h])

variable {step}

theorem exec_cons_eq_some {s t : σ} {e : ε} {es : List ε} :
    exec step s (e :: es) = some t ↔ ∃ s', step s e = some s' ∧ exec step s' es = some t := by
  rw [exec_cons, Option.bind_eq_some_iff]

theorem exec_concat_eq_some {s t : σ} {e : ε} {es : List ε} :
    exec step s (es ++ [e]) = some t ↔ ∃ s', exec step s es = some s' ∧ step s' e = some t := by
  rw [exec_append, Option.bind_eq_some_iff]
  simp only [exec_cons, exec_nil, Option.bind_fun_some]

/-- A condition that always holds holds along every run. -/
theorem along_of_forall {ok : σ → ε → Prop} (h : ∀ s e, ok s e) (s : σ) (es : List ε) :
    Along step ok s es := by
  induction es generalizing s with
  | nil => trivial
  | cons e es ih => exact ⟨h s e, fun s' _ => ih s'⟩

/-- A condition on the events alone. -/
theorem along_of_forall_mem {ok : ε → Prop} {es : List ε} (h : ∀ e ∈ es, ok e) (s : σ) :
    Along step (fun _ e => ok e) s es := by
  induction es generalizing s with
  | nil => trivial
  | cons e es ih =>
    exact ⟨h e List.mem_cons_self, fun s' _ => ih (fun e' he' => h e' (List.mem_cons_of_mem e he')) s'⟩

/-- A condition on the steps of a run, in two parts. -/
theorem along_append {ok : σ → ε → Prop} {s : σ} {es es' : List ε} :
    Along step ok s (es ++ es') ↔
      Along step ok s es ∧ ∀ s', exec step s es = some s' → Along step ok s' es' := by
  induction es generalizing s with
  | nil => simp [Along]
  | cons e es ih =>
    rw [List.cons_append]
    constructor
    · rintro ⟨h, hrest⟩
      refine ⟨⟨h, fun s' hs' => (ih.mp (hrest s' hs')).1⟩, ?_⟩
      intro t ht
      obtain ⟨s', hs', hes⟩ := exec_cons_eq_some.mp ht
      exact (ih.mp (hrest s' hs')).2 t hes
    · rintro ⟨⟨h, hrest⟩, hnext⟩
      refine ⟨h, fun s' hs' => ih.mpr ⟨hrest s' hs', fun t ht => ?_⟩⟩
      exact hnext t (exec_cons_eq_some.mpr ⟨s', hs', ht⟩)

theorem Along.mono {ok ok' : σ → ε → Prop} (h : ∀ s e, ok s e → ok' s e) {s : σ} {es : List ε}
    (halong : Along step ok s es) : Along step ok' s es := by
  induction es generalizing s with
  | nil => trivial
  | cons e es ih => exact ⟨h s e halong.1, fun s' hs => ih (halong.2 s' hs)⟩

theorem Along.and {ok ok' : σ → ε → Prop} {s : σ} {es : List ε} (h : Along step ok s es)
    (h' : Along step ok' s es) : Along step (fun s e => ok s e ∧ ok' s e) s es := by
  induction es generalizing s with
  | nil => trivial
  | cons e es ih => exact ⟨⟨h.1, h'.1⟩, fun s' hs => ih (h.2 s' hs) (h'.2 s' hs)⟩

/-- **The rule of conclusions.**  What the steps meeting `ok` from states of an invariant
have as a consequence, every step of a run has whose steps all meet `ok`. -/
theorem Along.of_invariant {I : σ → Prop} {ok : σ → ε → Prop} {Q : σ → ε → σ → Prop}
    {s : σ} {es : List ε} (h : Along step ok s es)
    (hstep : ∀ {s e t}, I s → ok s e → step s e = some t → I t ∧ Q s e t) (hs : I s) :
    Along step (fun s e => ∀ t, step s e = some t → Q s e t) s es := by
  induction es generalizing s with
  | nil => trivial
  | cons e es ih =>
    refine ⟨fun t ht => (hstep hs h.1 ht).2, ?_⟩
    intro t ht
    exact ih (h.2 t ht) (hstep hs h.1 ht).1

/-- **The rule of exact conditions.**  Where two conditions on a step are the same in the states
of an invariant, and steps that meet them keep it, they are the same for whole runs. -/
theorem along_iff {I : σ → Prop} {ok ok' : σ → ε → Prop} (hiff : ∀ s e, I s → (ok s e ↔ ok' s e))
    (hstep : ∀ s e t, I s → ok s e → step s e = some t → I t) {s : σ} {es : List ε} (hs : I s) :
    Along step ok s es ↔ Along step ok' s es := by
  induction es generalizing s with
  | nil => exact Iff.rfl
  | cons e es ih =>
    constructor
    · rintro ⟨h, hrest⟩
      exact ⟨(hiff s e hs).mp h, fun t ht => (ih (hstep s e t hs h ht)).mp (hrest t ht)⟩
    · rintro ⟨h, hrest⟩
      have hok := (hiff s e hs).mpr h
      exact ⟨hok, fun t ht => (ih (hstep s e t hs hok ht)).mpr (hrest t ht)⟩

/-- A run yields nothing when none of its events does. -/
theorem collect_eq_nil_iff {β : Type*} {f : σ → ε → List β} {s t : σ} {es : List ε}
    (hrun : exec step s es = some t) :
    collect step f s es = [] ↔ Along step (fun s e => f s e = []) s es := by
  induction es generalizing s with
  | nil => simp [collect, Along]
  | cons e es ih =>
    obtain ⟨s', he, hes⟩ := exec_cons_eq_some.mp hrun
    simp only [collect, he, Option.elim_some, List.append_eq_nil_iff, Along, Option.some.injEq,
      forall_eq', ih hes]

/-- **The rule of invariants under a side condition.**  What every step meeting
`ok` preserves, every run whose steps all meet `ok` preserves. -/
theorem exec_invariant_along {I : σ → Prop} {ok : σ → ε → Prop}
    (hstep : ∀ s e s', I s → ok s e → step s e = some s' → I s')
    {s t : σ} {es : List ε} (hok : Along step ok s es) (hrun : exec step s es = some t)
    (hs : I s) : I t := by
  induction es generalizing s with
  | nil =>
    rw [exec_nil, Option.some.injEq] at hrun
    exact hrun ▸ hs
  | cons e es ih =>
    obtain ⟨s', he, hes⟩ := exec_cons_eq_some.mp hrun
    exact ih (hok.2 s' he) hes (hstep s e s' hs hok.1 he)

/-- **The rule of invariants.**  What every step preserves, every run preserves. -/
theorem exec_invariant {I : σ → Prop} (hstep : ∀ s e s', I s → step s e = some s' → I s')
    {s t : σ} {es : List ε} (hrun : exec step s es = some t) (hs : I s) : I t := by
  induction es generalizing s with
  | nil =>
    rw [exec_nil, Option.some.injEq] at hrun
    exact hrun ▸ hs
  | cons e es ih =>
    obtain ⟨s', he, hes⟩ := exec_cons_eq_some.mp hrun
    exact ih hes (hstep s e s' hs he)

/-- **The rule of pasts.**  An invariant of the state and of the events that have led to it. -/
theorem exec_invariant_past {I : List ε → σ → Prop}
    (hstep : ∀ es s e t, I es s → step s e = some t → I (es ++ [e]) t) {s t : σ} {es : List ε}
    (hrun : exec step s es = some t) (hs : I [] s) : I es t := by
  induction es using List.reverseRecOn generalizing t with
  | nil =>
    rw [exec_nil, Option.some.injEq] at hrun
    exact hrun ▸ hs
  | append_singleton es e ih =>
    obtain ⟨s', hes, he⟩ := exec_concat_eq_some.mp hrun
    exact hstep es s' e t (ih hes) he

/-- What holds of every part of a run, from its beginning, and of the state it leads to. -/
def Throughout (step : σ → ε → Option σ) (P : List ε → σ → Prop) (s : σ) (es : List ε) : Prop :=
  ∀ es₁ es₂ t, es = es₁ ++ es₂ → exec step s es₁ = some t → P es₁ t

/-- **The rule of bad events.**  What holds as long as there is no bad event, and fails right
after one, holds throughout exactly the runs without bad events. -/
theorem throughout_iff {P : List ε → σ → Prop} {bad : ε → Prop} {s : σ}
    (hgood : ∀ es t, (∀ e ∈ es, ¬ bad e) → exec step s es = some t → P es t)
    (hbad : ∀ es e t, bad e → exec step s (es ++ [e]) = some t → ¬ P (es ++ [e]) t) {es : List ε}
    {t : σ} (hrun : exec step s es = some t) :
    Throughout step P s es ↔ ∀ e ∈ es, ¬ bad e := by
  constructor
  · intro h e he hb
    obtain ⟨es₁, es₂, rfl⟩ := List.append_of_mem he
    have hsplit : es₁ ++ e :: es₂ = (es₁ ++ [e]) ++ es₂ := List.append_cons es₁ e es₂
    rw [hsplit, exec_append, Option.bind_eq_some_iff] at hrun
    obtain ⟨t₁, hrun₁, -⟩ := hrun
    exact hbad es₁ e t₁ hb hrun₁ (h _ _ _ hsplit hrun₁)
  · rintro h es₁ es₂ t₁ rfl hrun₁
    exact hgood es₁ t₁ (fun e he => h e (List.mem_append_left _ he)) hrun₁

/-- A run with one more event at its beginning. -/
theorem throughout_cons {P : σ → Prop} {s s' : σ} {e : ε} {es : List ε} (he : step s e = some s') :
    Throughout step (fun _ t => P t) s (e :: es) ↔
      P s ∧ Throughout step (fun _ t => P t) s' es := by
  constructor
  · intro h
    refine ⟨h [] (e :: es) s rfl rfl, ?_⟩
    rintro es₁ es₂ t rfl hrun
    exact h (e :: es₁) es₂ t rfl (exec_cons_eq_some.mpr ⟨s', he, hrun⟩)
  · rintro ⟨hs, h⟩ es₁ es₂ t heq hrun
    cases es₁ with
    | nil =>
      rw [exec_nil, Option.some.injEq] at hrun
      exact hrun ▸ hs
    | cons e' es₁ =>
      rw [List.cons_append, List.cons.injEq] at heq
      obtain ⟨rfl, rfl⟩ := heq
      obtain ⟨s₁, hs₁, hrun⟩ := exec_cons_eq_some.mp hrun
      rw [he, Option.some.injEq] at hs₁
      exact h es₁ es₂ t rfl (hs₁ ▸ hrun)

/-- **The rule of breaking steps.**  What steps that meet a condition keep, and every other step
breaks, holds throughout exactly the runs whose steps all meet the condition. -/
theorem throughout_iff_along {I P : σ → Prop} {ok : σ → ε → Prop}
    (hkeep : ∀ {s e t}, I s → P s → ok s e → step s e = some t → I t ∧ P t)
    (hbreak : ∀ {s e t}, I s → P s → ¬ ok s e → step s e = some t → ¬ P t) {s t : σ}
    {es : List ε} (hrun : exec step s es = some t) (hI : I s) (hP : P s) :
    Throughout step (fun _ s => P s) s es ↔ Along step ok s es := by
  induction es generalizing s with
  | nil =>
    refine iff_of_true ?_ trivial
    intro es₁ es₂ t₁ heq hrun₁
    obtain ⟨rfl, rfl⟩ := List.append_eq_nil_iff.mp heq.symm
    rw [exec_nil, Option.some.injEq] at hrun₁
    exact hrun₁ ▸ hP
  | cons e es ih =>
    obtain ⟨s', he, hrun⟩ := exec_cons_eq_some.mp hrun
    rw [throughout_cons he]
    constructor
    · rintro ⟨-, h⟩
      have hP' : P s' := h [] es s' rfl rfl
      have hok : ok s e := by
        by_contra hno
        exact hbreak hI hP hno he hP'
      refine ⟨hok, ?_⟩
      intro s₁ hs₁
      rw [he, Option.some.injEq] at hs₁
      exact hs₁ ▸ (ih hrun (hkeep hI hP hok he).1 hP').mp h
    · rintro ⟨hok, h⟩
      obtain ⟨hI', hP'⟩ := hkeep hI hP hok he
      exact ⟨hP, (ih hrun hI' hP').mpr (h s' he)⟩

/-- **The rule of measures.**  When every step meeting `ok` makes a measure smaller, no run of
such steps is longer than the measure is large. -/
theorem length_le_of_measure {I : σ → Prop} {ok : ε → Prop} {m : σ → ℕ}
    (hstep : ∀ s e s', I s → ok e → step s e = some s' → I s' ∧ m s' < m s) {s t : σ} {es : List ε}
    (hok : ∀ e ∈ es, ok e) (hrun : exec step s es = some t) (hs : I s) : es.length ≤ m s := by
  induction es generalizing s with
  | nil => exact Nat.zero_le _
  | cons e es ih =>
    obtain ⟨s', he, hes⟩ := exec_cons_eq_some.mp hrun
    obtain ⟨hs', hlt⟩ := hstep s e s' hs (hok e List.mem_cons_self) he
    have hle := ih (fun e he => hok e (List.mem_cons_of_mem _ he)) hes hs'
    rw [List.length_cons]
    omega

/-- The same when `ok` looks at the state. -/
theorem length_le_of_measure_along {ok : σ → ε → Prop} {m : σ → ℕ}
    (hstep : ∀ s e s', ok s e → step s e = some s' → m s' < m s) {s t : σ} {es : List ε}
    (hok : Along step ok s es) (hrun : exec step s es = some t) : es.length ≤ m s := by
  induction es generalizing s with
  | nil => exact Nat.zero_le _
  | cons e es ih =>
    obtain ⟨s', he, hes⟩ := exec_cons_eq_some.mp hrun
    have hlt := hstep s e s' hok.1 he
    have hle := ih (hok.2 s' he) hes
    rw [List.length_cons]
    omega

/-- A run that leads back to where it began can be repeated. -/
theorem exec_replicate {s : σ} {es : List ε} (h : exec step s es = some s) (n : ℕ) :
    exec step s (List.replicate n es).flatten = some s := by
  induction n with
  | zero => rfl
  | succ n ih => rw [List.replicate_succ, List.flatten_cons, exec_append, h, Option.bind_some, ih]

/-- **The rule of histories.**  An invariant of the state and of what the run has
yielded so far. -/
theorem exec_invariant_collect {β : Type*} {f : σ → ε → List β} {I : σ → List β → Prop}
    {ok : σ → ε → Prop}
    (hstep : ∀ s acc e s', I s acc → ok s e → step s e = some s' → I s' (acc ++ f s e))
    {s t : σ} {es : List ε} {acc : List β} (hok : Along step ok s es)
    (hrun : exec step s es = some t) (hs : I s acc) : I t (acc ++ collect step f s es) := by
  induction es generalizing s acc with
  | nil =>
    rw [exec_nil, Option.some.injEq] at hrun
    rw [collect, List.append_nil]
    exact hrun ▸ hs
  | cons e es ih =>
    obtain ⟨s', he, hes⟩ := exec_cons_eq_some.mp hrun
    rw [collect, he, Option.elim_some, ← List.append_assoc]
    exact ih (hok.2 s' he) hes (hstep s acc e s' hs hok.1 he)

/-- **The rule of relays.**  What a machine puts out, loses and holds back in a step is what
it held back and what it takes in.  Then a run puts out what it has taken in exactly if no
step loses anything. -/
theorem relay_iff {β : Type*} {out flight : σ → List β} {taken lost : σ → ε → List β}
    {ok : σ → ε → Prop}
    (hstep : ∀ s e s', ok s e → step s e = some s' →
      ∃ o, out s' = out s ++ o ∧ o ++ lost s e ++ flight s' = flight s ++ taken s e)
    {s t : σ} {es : List ε} (hok : Along step ok s es) (hrun : exec step s es = some t) :
    out t ++ flight t = out s ++ flight s ++ collect step taken s es ↔
      Along step (fun s e => lost s e = []) s es := by
  -- what is lost is missing at the end
  have hcount : (out t ++ flight t).length + (collect step lost s es).length =
      (out s ++ flight s ++ collect step taken s es).length := by
    induction es generalizing s with
    | nil =>
      rw [exec_nil, Option.some.injEq] at hrun
      simp [collect, hrun]
    | cons e es ih =>
      obtain ⟨s', he, hes⟩ := exec_cons_eq_some.mp hrun
      obtain ⟨o, hout, hflow⟩ := hstep s e s' hok.1 he
      have hih := ih (hok.2 s' he) hes
      have hlen := congrArg List.length hflow
      simp only [collect, he, Option.elim_some, List.length_append, hout] at hih hlen ⊢
      omega
  rw [← collect_eq_nil_iff hrun]
  constructor
  · intro heq
    rw [heq] at hcount
    exact List.length_eq_zero_iff.mp (by omega)
  · intro hnil
    rw [collect_eq_nil_iff hrun] at hnil
    clear hcount
    induction es generalizing s with
    | nil =>
      rw [exec_nil, Option.some.injEq] at hrun
      simp [collect, hrun]
    | cons e es ih =>
      obtain ⟨s', he, hes⟩ := exec_cons_eq_some.mp hrun
      obtain ⟨o, hout, hflow⟩ := hstep s e s' hok.1 he
      rw [hnil.1, List.append_nil] at hflow
      rw [ih (hok.2 s' he) hes (hnil.2 s' he), hout, collect, he, Option.elim_some,
        List.append_assoc (out s), hflow]
      simp only [List.append_assoc]

/-- The last step of the run that meets `P`, and the state in which it is taken. -/
def last (step : σ → ε → Option σ) (P : σ → ε → Prop) [∀ s e, Decidable (P s e)] :
    σ → List ε → Option (σ × ε)
  | _, [] => none
  | s, e :: es =>
    ((step s e).bind fun s' => last step P s' es).or (if P s e then some (s, e) else none)

section Last

variable {P : σ → ε → Prop} [∀ s e, Decidable (P s e)]

theorem last_cons {s s' : σ} {e : ε} {es : List ε} (h : step s e = some s') :
    last step P s (e :: es) = (last step P s' es).or (if P s e then some (s, e) else none) := by
  rw [last, h, Option.bind_some]

/-- No step of the run meets `P`. -/
theorem along_of_last {s t : σ} {es : List ε} (hrun : exec step s es = some t)
    (h : last step P s es = none) : Along step (fun s e => ¬ P s e) s es := by
  induction es generalizing s with
  | nil => trivial
  | cons e es ih =>
    obtain ⟨s', he, hes⟩ := exec_cons_eq_some.mp hrun
    rw [last_cons he, Option.or_eq_none_iff] at h
    refine ⟨fun hP => ?_, fun s₁ hs₁ => ?_⟩
    · rw [if_pos hP] at h
      cases h.2
    · rw [he, Option.some.injEq] at hs₁
      exact hs₁ ▸ ih hes h.1

/-- The run before the last step that meets `P`, this step, and the run after it. -/
theorem exists_of_last {s t a : σ} {e : ε} {es : List ε} (hrun : exec step s es = some t)
    (h : last step P s es = some (a, e)) :
    ∃ es₁ es₂ b, exec step s es₁ = some a ∧ P a e ∧ step a e = some b ∧
      exec step b es₂ = some t ∧ Along step (fun s e => ¬ P s e) b es₂ ∧ es = es₁ ++ e :: es₂ := by
  induction es generalizing s with
  | nil => cases h
  | cons e' es ih =>
    obtain ⟨s', he, hes⟩ := exec_cons_eq_some.mp hrun
    rw [last_cons he, Option.or_eq_some_iff] at h
    rcases h with h | ⟨hnone, h⟩
    · obtain ⟨es₁, es₂, b, hes₁, hP, hb, hes₂, halong, rfl⟩ := ih hes h
      exact ⟨e' :: es₁, es₂, b, exec_cons_eq_some.mpr ⟨s', he, hes₁⟩, hP, hb, hes₂, halong, rfl⟩
    · -- it is the first step of this run
      split at h
      next hP =>
        rw [Option.some.injEq, Prod.mk.injEq] at h
        obtain ⟨rfl, rfl⟩ := h
        exact ⟨[], es, s', rfl, hP, he, hes, along_of_last hes hnone, rfl⟩
      next => cases h

end Last

/-- **The rule of simulations.**  When `step₁` can follow every step of `step₂`, it
can follow every run, and with it every condition on the steps of the run. -/
theorem exec_simulation_along {τ : Type*} {step₁ : σ → ε → Option σ} {step₂ : τ → ε → Option τ}
    {R : σ → τ → Prop} {ok₁ : σ → ε → Prop} {ok₂ : τ → ε → Prop}
    (hstep : ∀ s t e t', R s t → step₂ t e = some t' → ∃ s', step₁ s e = some s' ∧ R s' t')
    (hok : ∀ s t e, R s t → ok₂ t e → ok₁ s e) {s : σ} {t t' : τ} {es : List ε} (hR : R s t)
    (hrun : exec step₂ t es = some t') (halong : Along step₂ ok₂ t es) :
    ∃ s', exec step₁ s es = some s' ∧ R s' t' ∧ Along step₁ ok₁ s es := by
  induction es generalizing s t with
  | nil =>
    rw [exec_nil, Option.some.injEq] at hrun
    exact ⟨s, rfl, hrun ▸ hR, trivial⟩
  | cons e es ih =>
    obtain ⟨t₁, he, hes⟩ := exec_cons_eq_some.mp hrun
    obtain ⟨s₁, he₁, hR₁⟩ := hstep s t e t₁ hR he
    obtain ⟨s', hrun', hR', halong'⟩ := ih hR₁ hes (halong.2 t₁ he)
    refine ⟨s', exec_cons_eq_some.mpr ⟨s₁, he₁, hrun'⟩, hR', hok s t e hR halong.1, ?_⟩
    intro s₂ hs₂
    rw [he₁, Option.some.injEq] at hs₂
    exact hs₂ ▸ halong'

/-- The other way around: where `step₂` can take every step that `step₁` can take,
and `step₁` follows, every run of `step₁` is followed by a run of `step₂`. -/
theorem exec_simulation_lift {τ : Type*} {step₁ : σ → ε → Option σ} {step₂ : τ → ε → Option τ}
    {R : σ → τ → Prop}
    (hstep : ∀ s t e t', R s t → step₂ t e = some t' → ∃ s', step₁ s e = some s' ∧ R s' t')
    (hcan : ∀ s t e s', R s t → step₁ s e = some s' → ∃ t', step₂ t e = some t') {s s' : σ} {t : τ}
    {es : List ε} (hR : R s t) (hrun : exec step₁ s es = some s') :
    ∃ t', exec step₂ t es = some t' ∧ R s' t' := by
  induction es generalizing s t with
  | nil =>
    rw [exec_nil, Option.some.injEq] at hrun
    exact ⟨t, rfl, hrun ▸ hR⟩
  | cons e es ih =>
    obtain ⟨s₁, he, hes⟩ := exec_cons_eq_some.mp hrun
    obtain ⟨t₁, ht₁⟩ := hcan s t e s₁ hR he
    obtain ⟨s₂, he₂, hR₂⟩ := hstep s t e t₁ hR ht₁
    rw [he, Option.some.injEq] at he₂
    obtain ⟨t', hrun', hR'⟩ := ih (he₂ ▸ hR₂) hes
    exact ⟨t', exec_cons_eq_some.mpr ⟨t₁, ht₁, hrun'⟩, hR'⟩

/-- The events of the two machines need not be the same: where every step of `step₁` that meets
`ok` is a run of `step₂`, perhaps an empty one, every run of such steps is one. -/
theorem exec_simulation_many {τ δ : Type*} {step₁ : σ → ε → Option σ} {step₂ : τ → δ → Option τ}
    {R : σ → τ → Prop} {ok : σ → ε → Prop}
    (hstep : ∀ s t e s', R s t → ok s e → step₁ s e = some s' →
      ∃ ds t', exec step₂ t ds = some t' ∧ R s' t')
    {s s' : σ} {t : τ} {es : List ε} (hR : R s t) (hok : Along step₁ ok s es)
    (hrun : exec step₁ s es = some s') : ∃ ds t', exec step₂ t ds = some t' ∧ R s' t' := by
  induction es generalizing s t with
  | nil =>
    rw [exec_nil, Option.some.injEq] at hrun
    exact ⟨[], t, rfl, hrun ▸ hR⟩
  | cons e es ih =>
    obtain ⟨s₁, he, hes⟩ := exec_cons_eq_some.mp hrun
    obtain ⟨ds, t₁, hds, hR₁⟩ := hstep s t e s₁ hR hok.1 he
    obtain ⟨ds', t', hds', hR'⟩ := ih hR₁ (hok.2 s₁ he) hes
    refine ⟨ds ++ ds', t', ?_, hR'⟩
    rw [exec_append, hds, Option.bind_some, hds']

end Run
