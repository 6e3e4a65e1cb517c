import Mathlib.Tactic

/-!
# Histories

A history is the list of what has happened, the oldest first.  A property of a run is often
about each event and what came before it.

## Main definitions

* `Each` — every event of the history meets a condition on what came before it.
* `Since` — something has happened, and nothing has reset it.

## Main results

* `each_concat` — what one more event adds.
-/

namespace History

variable {α : Type*}

/-- Every event meets a condition on what came before it. -/
def Each (P : List α → α → Prop) (H : List α) : Prop :=
  ∀ H₁ x H₂, H = H₁ ++ x :: H₂ → P H₁ x

theorem each_nil (P : List α → α → Prop) : Each P [] := by
  intro H₁ x H₂ h
  have hmem : x ∈ ([] : List α) := h ▸ List.mem_append_right _ List.mem_cons_self
  exact absurd hmem List.not_mem_nil

/-- One more event. -/
theorem each_concat {P : List α → α → Prop} {H : List α} {x : α} :
    Each P (H ++ [x]) ↔ Each P H ∧ P H x := by
  constructor
  · intro h
    refine ⟨?_, h H x [] rfl⟩
    intro H₁ y H₂ hH
    exact h H₁ y (H₂ ++ [x]) (by rw [hH, List.append_assoc, List.cons_append])
  · rintro ⟨h, hx⟩ H₁ y H₂ heq
    rcases List.eq_nil_or_concat H₂ with rfl | ⟨H₂, z, rfl⟩
    · obtain ⟨rfl, hy⟩ := List.append_inj' heq rfl
      rw [← List.singleton_inj.mp hy]
      exact hx
    · rw [List.concat_eq_append, ← List.cons_append, ← List.append_assoc] at heq
      exact h H₁ y H₂ (List.append_inj' heq rfl).1

/-- Events that meet the condition whatever came before. -/
theorem Each.append {P : List α → α → Prop} {H l : List α} (h : Each P H)
    (hl : ∀ H' x, x ∈ l → P H' x) : Each P (H ++ l) := by
  induction l using List.reverseRecOn with
  | nil =>
    rw [List.append_nil]
    exact h
  | append_singleton l x ih =>
    rw [← List.append_assoc, each_concat]
    refine ⟨ih fun H' y hy => hl H' y (List.mem_append_left _ hy), ?_⟩
    exact hl _ x (List.mem_append_right _ (List.mem_singleton_self x))

/-- `a` has happened, and nothing has reset it since then. -/
def Since (reset : α → Prop) (a : α) (H : List α) : Prop :=
  ∃ H₁ H₂, H = H₁ ++ a :: H₂ ∧ ∀ x ∈ H₂, ¬ reset x

theorem not_since_nil (reset : α → Prop) (a : α) : ¬ Since reset a [] := by
  rintro ⟨H₁, H₂, h, -⟩
  exact List.cons_ne_nil _ _ (List.append_eq_nil_iff.mp h.symm).2

theorem since_concat (reset : α → Prop) (a : α) (H : List α) : Since reset a (H ++ [a]) :=
  ⟨H, [], rfl, fun _ hx => absurd hx List.not_mem_nil⟩

theorem Since.append {reset : α → Prop} {a : α} {H l : List α} (h : Since reset a H)
    (hl : ∀ x ∈ l, ¬ reset x) : Since reset a (H ++ l) := by
  obtain ⟨H₁, H₂, rfl, hH⟩ := h
  refine ⟨H₁, H₂ ++ l, by rw [List.append_assoc, List.cons_append], ?_⟩
  intro x hx
  rcases List.mem_append.mp hx with hx | hx
  · exact hH x hx
  · exact hl x hx

/-- One more event: it is `a` itself, or it does not reset it. -/
theorem since_concat_iff {reset : α → Prop} {a x : α} {H : List α} :
    Since reset a (H ++ [x]) ↔ x = a ∨ ¬ reset x ∧ Since reset a H := by
  constructor
  · rintro ⟨H₁, H₂, heq, hH⟩
    rcases List.eq_nil_or_concat H₂ with rfl | ⟨H₂, y, rfl⟩
    · exact .inl (List.singleton_inj.mp (List.append_inj' heq rfl).2)
    · rw [List.concat_eq_append] at heq hH
      rw [← List.cons_append, ← List.append_assoc] at heq
      obtain ⟨rfl, hy⟩ := List.append_inj' heq rfl
      rw [List.singleton_inj.mp hy]
      exact .inr ⟨hH y (List.mem_append_right _ (List.mem_singleton_self y)), H₁, H₂, rfl,
        fun z hz => hH z (List.mem_append_left _ hz)⟩
  · rintro (rfl | ⟨hx, h⟩)
    · exact since_concat reset x H
    · exact h.append (by simpa using hx)

end History
