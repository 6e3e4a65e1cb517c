import TtyRec.Lib.Run

/-!
# Machines that share a store

Two machines take their steps in any order, and both write to one store.  As long as each of them
writes to places of its own, neither notices the other: what it does, and what it leaves at its
places, is what it would do and leave alone.

## Main definitions

* `Storing` — a machine with a store that it writes to and does not read.
* `beside` — two of them on one store.

## Main results

* `exec_beside` — **each of the machines runs as it does alone**.
-/

namespace Sharing

open Run

variable {σ τ ε ε' N D : Type*} {step : σ → ε → Option σ} {step' : τ → ε' → Option τ}

/-- A machine with a store.  What a step writes, and where, does not depend on the store. -/
structure Storing (step : σ → ε → Option σ) (N D : Type*) where
  store : σ → N → D
  /-- The machine with another store. -/
  mount : (N → D) → σ → σ
  /-- Where a step writes. -/
  writes : σ → ε → Set N
  store_mount : ∀ d s, store (mount d s) = d
  mount_mount : ∀ d d' s, mount d (mount d' s) = mount d s
  mount_store : ∀ s, mount (store s) s = s
  step_mount : ∀ {s s' e}, step s e = some s' → ∀ d, ∃ d', step (mount d s) e = some (mount d' s') ∧
    (∀ n ∈ writes s e, d' n = store s' n) ∧ ∀ n ∉ writes s e, d' n = d n

/-- Two machines on one store. -/
def beside (P : Storing step N D) (Q : Storing step' N D) : σ × τ → ε ⊕ ε' → Option (σ × τ)
  | (s, t), .inl e => (step s e).map fun s' => (s', Q.mount (P.store s') t)
  | (s, t), .inr e => (step' t e).map fun t' => (P.mount (Q.store t') s, t')

/-- The machines write to places of their own. -/
def Apart (P : Storing step N D) (Q : Storing step' N D) (A B : Set N) (x : σ × τ) :
    ε ⊕ ε' → Prop
  | .inl e => P.writes x.1 e ⊆ A
  | .inr e => Q.writes x.2 e ⊆ B

variable {P : Storing step N D} {Q : Storing step' N D} {A B : Set N}

/-- A step leaves the places alone where it does not write. -/
theorem Storing.store_of_notMem {s s' : σ} {e : ε} (h : step s e = some s') {n : N}
    (hn : n ∉ P.writes s e) : P.store s' n = P.store s n := by
  obtain ⟨d, hstep, -, hkeeps⟩ := P.step_mount h (P.store s)
  rw [P.mount_store, h, Option.some.injEq] at hstep
  have hd : P.store s' = d := by
    rw [hstep]
    exact P.store_mount d s'
  rw [hd]
  exact hkeeps n hn

/-- `s` is `s₀`, but for what the store holds at places that are not in `A`. -/
structure SameAt (P : Storing step N D) (A : Set N) (s s₀ : σ) : Prop where
  mounted : s = P.mount (P.store s) s₀
  store : ∀ n ∈ A, P.store s n = P.store s₀ n

theorem SameAt.refl (P : Storing step N D) (A : Set N) (s : σ) : SameAt P A s s :=
  ⟨(P.mount_store s).symm, fun _ _ => rfl⟩

/-- A step of the machine. -/
theorem SameAt.next {s s₀ s' : σ} {e : ε} (h : SameAt P A s s₀) (hstep : step s e = some s') :
    ∃ s₁, step s₀ e = some s₁ ∧ SameAt P A s' s₁ := by
  obtain ⟨d, hstep₀, hwrites, hkeeps⟩ := P.step_mount hstep (P.store s₀)
  have hmount : P.mount (P.store s₀) s = s₀ := by
    rw [h.mounted, P.mount_mount, P.mount_store]
  rw [hmount] at hstep₀
  refine ⟨P.mount d s', hstep₀, ?_, ?_⟩
  · rw [P.mount_mount, P.mount_store]
  · intro n hn
    rw [P.store_mount]
    by_cases hw : n ∈ P.writes s e
    · exact (hwrites n hw).symm
    · rw [hkeeps n hw, Storing.store_of_notMem hstep hw, h.store n hn]

/-- The other machine writes elsewhere. -/
theorem SameAt.remount {s s₀ : σ} {d : N → D} (h : SameAt P A s s₀)
    (hd : ∀ n ∈ A, d n = P.store s n) : SameAt P A (P.mount d s) s₀ := by
  refine ⟨?_, ?_⟩
  · rw [P.store_mount, h.mounted, P.mount_mount]
  · intro n hn
    rw [P.store_mount, hd n hn, h.store n hn]

/-- **The first machine runs as it does alone.** What the other one does to the store is not where
it looks. -/
theorem exec_beside_left (hdisj : ∀ n ∈ A, n ∉ B) {es : List (ε ⊕ ε')} {s s₀ s' : σ} {t t' : τ}
    (h : SameAt P A s s₀) (hstore : P.store s = Q.store t)
    (hrun : exec (beside P Q) (s, t) es = some (s', t'))
    (hapart : Along (beside P Q) (Apart P Q A B) (s, t) es) :
    ∃ s₁, exec step s₀ (es.filterMap Sum.getLeft?) = some s₁ ∧ SameAt P A s' s₁ := by
  induction es generalizing s s₀ t with
  | nil =>
    cases hrun
    exact ⟨s₀, rfl, h⟩
  | cons e es ih =>
    obtain ⟨⟨s₂, t₂⟩, he, hes⟩ := exec_cons_eq_some.mp hrun
    have hrest := hapart.2 _ he
    cases e with
    | inl e =>
      obtain ⟨s₂', hstep, heq⟩ := Option.map_eq_some_iff.mp he
      cases heq
      -- alone, the first machine takes the same step
      obtain ⟨s₃, hstep₀, h₃⟩ := h.next hstep
      obtain ⟨s₁, hexec, hsame⟩ := ih h₃ (Q.store_mount _ t).symm hes hrest
      refine ⟨s₁, ?_, hsame⟩
      exact exec_cons_eq_some.mpr ⟨s₃, hstep₀, hexec⟩
    | inr e =>
      obtain ⟨t₂', hstep, heq⟩ := Option.map_eq_some_iff.mp he
      cases heq
      -- alone, it takes none, and the places in `A` are as before
      have hd : ∀ n ∈ A, Q.store t₂ n = P.store s n := by
        intro n hn
        have hw : n ∉ Q.writes t e := fun hw => hdisj n hn (hapart.1 hw)
        rw [Storing.store_of_notMem hstep hw, hstore]
      obtain ⟨s₁, hexec, hsame⟩ := ih (h.remount hd) (P.store_mount _ s) hes hrest
      exact ⟨s₁, hexec, hsame⟩

/-- The two machines the other way round. -/
theorem beside_swap (x : σ × τ) (e : ε ⊕ ε') :
    beside Q P x.swap e.swap = (beside P Q x e).map Prod.swap := by
  cases e with
  | inl e =>
    simp only [beside, Prod.swap, Sum.swap_inl, Option.map_map]
    rfl
  | inr e =>
    simp only [beside, Prod.swap, Sum.swap_inr, Option.map_map]
    rfl

theorem exec_beside_swap {es : List (ε ⊕ ε')} {x y : σ × τ}
    (hrun : exec (beside P Q) x es = some y) :
    exec (beside Q P) x.swap (es.map Sum.swap) = some y.swap := by
  induction es generalizing x with
  | nil =>
    cases hrun
    rfl
  | cons e es ih =>
    obtain ⟨z, he, hes⟩ := exec_cons_eq_some.mp hrun
    refine exec_cons_eq_some.mpr ⟨z.swap, ?_, ih hes⟩
    rw [beside_swap, he, Option.map_some]

theorem along_beside_swap {es : List (ε ⊕ ε')} {x : σ × τ}
    (h : Along (beside P Q) (Apart P Q A B) x es) :
    Along (beside Q P) (Apart Q P B A) x.swap (es.map Sum.swap) := by
  induction es generalizing x with
  | nil => trivial
  | cons e es ih =>
    refine ⟨?_, ?_⟩
    · have he := h.1
      cases e with
      | inl e => exact he
      | inr e => exact he
    · intro y hy
      rw [beside_swap, Option.map_eq_some_iff] at hy
      obtain ⟨z, hz, rfl⟩ := hy
      exact ih (h.2 z hz)

/-- The store is the same for both. -/
theorem store_beside {x y : σ × τ} {e : ε ⊕ ε'} (h : beside P Q x e = some y) :
    P.store y.1 = Q.store y.2 := by
  cases e with
  | inl e =>
    obtain ⟨s, -, rfl⟩ := Option.map_eq_some_iff.mp h
    exact (Q.store_mount _ _).symm
  | inr e =>
    obtain ⟨t, -, rfl⟩ := Option.map_eq_some_iff.mp h
    exact P.store_mount _ _

/-- **Both machines run as they do alone**, and each leaves its own part of the store as it would
there. -/
theorem exec_beside (hdisj : ∀ n ∈ A, n ∉ B) {es : List (ε ⊕ ε')} {s s' : σ} {t t' : τ}
    (hstore : P.store s = Q.store t) (hrun : exec (beside P Q) (s, t) es = some (s', t'))
    (hapart : Along (beside P Q) (Apart P Q A B) (s, t) es) :
    P.store s' = Q.store t' ∧
      (∃ s₁, exec step s (es.filterMap Sum.getLeft?) = some s₁ ∧ SameAt P A s' s₁) ∧
      ∃ t₁, exec step' t (es.filterMap Sum.getRight?) = some t₁ ∧ SameAt Q B t' t₁ := by
  refine ⟨?_, exec_beside_left hdisj (.refl P A s) hstore hrun hapart, ?_⟩
  · have hsame : ∀ (x : σ × τ) e y, P.store x.1 = Q.store x.2 → beside P Q x e = some y →
        P.store y.1 = Q.store y.2 := fun _ _ _ _ h => store_beside h
    exact exec_invariant hsame hrun hstore
  · have hlefts : (es.map Sum.swap).filterMap Sum.getLeft? = es.filterMap Sum.getRight? := by
      rw [List.filterMap_map]
      congr 1
      funext e
      exact Sum.getLeft?_swap e
    rw [← hlefts]
    exact exec_beside_left (fun n hB hA => hdisj n hA hB) (.refl Q B t) hstore.symm (exec_beside_swap hrun)
      (along_beside_swap hapart)

end Sharing
