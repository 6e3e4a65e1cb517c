import Mathlib.Data.Option.Basic
import Mathlib.Logic.Function.Basic

/-!
# Handlers on threads

A signal interrupts one of the threads of a process, and its handler runs there until it returns,
unless another signal interrupts the handler.  So every thread has a stack of handlers, the
innermost first, and only this one goes on.  The handlers of two threads go on in any order.

## Main definitions

* `Active` — a handler is on the stack of a thread.
* `enter`, `resume` — a signal is delivered to a thread; the innermost handler of a thread goes on.

## Main results

* `active_enter`, `active_resume` — what is on the stacks then.
-/

namespace Handlers

variable {τ φ : Type*}

/-- The handler `f` runs on one of the threads, perhaps below another one. -/
def Active (s : τ → List φ) (f : φ) : Prop := ∃ th, f ∈ s th

theorem active_of_head {s : τ → List φ} {th : τ} {f : φ} (h : (s th).head? = some f) : Active s f :=
  ⟨th, List.mem_of_mem_head? h⟩

variable [DecidableEq τ]

/-- The handler `f` begins on the thread `th`. -/
def enter (s : τ → List φ) (th : τ) (f : φ) : τ → List φ := Function.update s th (f :: s th)

/-- The innermost handler of the thread `th` has done something, and is at `f` now, or has
returned. -/
def resume (s : τ → List φ) (th : τ) (f : Option φ) : τ → List φ :=
  Function.update s th (f.toList ++ (s th).tail)

variable {s : τ → List φ} {th : τ} {f g : φ}

theorem active_enter : Active (enter s th f) g ↔ g = f ∨ Active s g := by
  constructor
  · rintro ⟨th', hg⟩
    by_cases hth : th' = th
    · rw [enter, hth, Function.update_self, List.mem_cons] at hg
      exact hg.imp_right fun hg => ⟨th, hg⟩
    · rw [enter, Function.update_of_ne hth] at hg
      exact .inr ⟨th', hg⟩
  · rintro (rfl | ⟨th', hg⟩)
    · exact ⟨th, by rw [enter, Function.update_self]; exact List.mem_cons_self⟩
    · by_cases hth : th' = th
      · subst hth
        exact ⟨th', by rw [enter, Function.update_self]; exact List.mem_cons_of_mem _ hg⟩
      · exact ⟨th', by rwa [enter, Function.update_of_ne hth]⟩

/-- The handler is where it has come to, and the others are where they were. -/
theorem active_resume {f' : Option φ} :
    Active (resume s th f') g ↔
      f' = some g ∨ g ∈ (s th).tail ∨ ∃ th', th' ≠ th ∧ g ∈ s th' := by
  constructor
  · rintro ⟨th', hg⟩
    by_cases hth : th' = th
    · rw [resume, hth, Function.update_self, List.mem_append, Option.mem_toList] at hg
      exact hg.imp_right .inl
    · rw [resume, Function.update_of_ne hth] at hg
      exact .inr (.inr ⟨th', hth, hg⟩)
  · rintro (hg | hg | ⟨th', hth, hg⟩)
    · refine ⟨th, ?_⟩
      rw [resume, Function.update_self, List.mem_append, Option.mem_toList]
      exact .inl hg
    · refine ⟨th, ?_⟩
      rw [resume, Function.update_self, List.mem_append]
      exact .inr hg
    · exact ⟨th', by rwa [resume, Function.update_of_ne hth]⟩

/-- Nothing new but the handler itself. -/
theorem Active.of_resume {f' : Option φ} (h : Active (resume s th f') g) :
    f' = some g ∨ Active s g := by
  rcases active_resume.mp h with hf | hg | ⟨th', -, hg⟩
  · exact .inl hf
  · exact .inr ⟨th, List.mem_of_mem_tail hg⟩
  · exact .inr ⟨th', hg⟩

/-- Every other handler stays, on the same thread and on the others. -/
theorem Active.resume {f' : Option φ} (h : Active s g) (hne : (s th).head? ≠ some g) :
    Active (resume s th f') g := by
  obtain ⟨th', hg⟩ := h
  by_cases hth : th' = th
  · subst hth
    cases hs : s th' with
    | nil =>
      rw [hs] at hg
      cases hg
    | cons f rest =>
      rw [hs] at hg hne
      rcases List.mem_cons.mp hg with rfl | hg
      · exact absurd rfl hne
      · exact active_resume.mpr (.inr (.inl (by rwa [hs])))
  · exact active_resume.mpr (.inr (.inr ⟨th', hth, hg⟩))

end Handlers
