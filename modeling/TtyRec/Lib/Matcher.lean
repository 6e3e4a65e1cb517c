import Mathlib.Tactic

/-!
# Counting matchers

A recogniser that only counts how many elements of a pattern it has seen in a row, and
begins anew at a wrong element, is not a string matcher: the wrong element itself may be
the first one of an occurrence, and so may an element of the part that is given up.  What it
has read falls into attempts, each of them given up at a wrong element, and the attempt that
is going on; an occurrence is seen exactly when it begins where an attempt ends.

## Main definitions

* `advance pat k a`, `progress pat xs` — the count after one more element, and after `xs`.
* `Attempts pat xs` — `xs` is a sequence of attempts that were given up.

## Main results

* `progress_eq_iff` — what the count says about what was read.
* `progress_suffix` — as many elements of the pattern were read last.
-/

namespace Matcher

variable {α : Type*} [DecidableEq α] (pat : List α)

/-- The count after one more element. -/
def advance (k : ℕ) (a : α) : ℕ := if pat[k]? = some a then k + 1 else 0

/-- The count after these elements. -/
def progress (xs : List α) : ℕ := xs.foldl (advance pat) 0

/-- Beginnings of the pattern, each with a wrong element behind it; behind the whole pattern
every element is wrong. -/
inductive Attempts : List α → Prop
  | nil : Attempts []
  | wrong {xs : List α} {a : α} {k : ℕ} (h : Attempts xs) (hk : k ≤ pat.length)
      (ha : pat[k]? ≠ some a) : Attempts (xs ++ (pat.take k ++ [a]))

variable {pat}

@[simp] theorem progress_nil : progress pat [] = 0 := rfl

@[simp] theorem progress_concat (xs : List α) (a : α) :
    progress pat (xs ++ [a]) = advance pat (progress pat xs) a := by
  simp [progress]

theorem advance_of_eq {k : ℕ} {a : α} (h : pat[k]? = some a) : advance pat k a = k + 1 := if_pos h

theorem advance_of_ne {k : ℕ} {a : α} (h : pat[k]? ≠ some a) : advance pat k a = 0 := if_neg h

theorem advance_le {k : ℕ} (a : α) : advance pat k a ≤ pat.length := by
  unfold advance
  split
  next h => exact (List.getElem?_eq_some_iff.mp h).1
  next => exact Nat.zero_le _

theorem progress_le (xs : List α) : progress pat xs ≤ pat.length := by
  induction xs using List.reverseRecOn with
  | nil => simp
  | append_singleton xs a _ => simpa using advance_le a

omit [DecidableEq α] in
/-- One more element of the pattern. -/
theorem take_concat {k : ℕ} {a : α} (h : pat[k]? = some a) : pat.take k ++ [a] = pat.take (k + 1) := by
  rw [List.take_add_one, h]
  rfl

/-- From a count of 0 on, the pattern is counted. -/
theorem progress_append_take {xs : List α} (h : progress pat xs = 0) {k : ℕ} (hk : k ≤ pat.length) :
    progress pat (xs ++ pat.take k) = k := by
  induction k with
  | zero => simpa using h
  | succ k ih =>
    have hget : pat[k]? = some pat[k] := List.getElem?_eq_getElem hk
    rw [← take_concat hget, ← List.append_assoc, progress_concat, ih (Nat.le_of_lt hk),
      advance_of_eq hget]

/-- After attempts that were given up the count is 0. -/
theorem Attempts.progress {xs : List α} (h : Attempts pat xs) : progress pat xs = 0 := by
  induction h with
  | nil => rfl
  | wrong _ hk ha ih =>
    rw [← List.append_assoc, progress_concat, progress_append_take ih hk, advance_of_ne ha]

/-- What was read: attempts that were given up, and the one that is going on. -/
theorem exists_attempts (xs : List α) :
    ∃ ys, Attempts pat ys ∧ xs = ys ++ pat.take (progress pat xs) := by
  induction xs using List.reverseRecOn with
  | nil => exact ⟨[], .nil, by simp⟩
  | append_singleton xs a ih =>
    obtain ⟨ys, hys, hxs⟩ := ih
    rw [progress_concat]
    by_cases ha : pat[progress pat xs]? = some a
    · refine ⟨ys, hys, ?_⟩
      rw [advance_of_eq ha, ← take_concat ha, ← List.append_assoc, ← hxs]
    · refine ⟨_, hys.wrong (progress_le xs) ha, ?_⟩
      rw [advance_of_ne ha, ← List.append_assoc, ← hxs]
      simp

/-- **What the count says about what was read**: that it ends in so many elements of the pattern,
behind attempts that came to nothing. -/
theorem progress_eq_iff {xs : List α} {k : ℕ} (hk : k ≤ pat.length) :
    progress pat xs = k ↔ ∃ ys, Attempts pat ys ∧ xs = ys ++ pat.take k := by
  constructor
  · rintro rfl
    exact exists_attempts xs
  · rintro ⟨ys, hys, rfl⟩
    exact progress_append_take hys.progress hk

/-- **As many elements of the pattern were read last** as the count says. -/
theorem progress_suffix (xs : List α) : pat.take (progress pat xs) <:+ xs := by
  have hsplit : ∃ ys, Attempts pat ys ∧ xs = ys ++ pat.take (progress pat xs) := exists_attempts xs
  obtain ⟨ys, -, hxs⟩ := hsplit
  exact ⟨ys, hxs.symm⟩

theorem attempts_iff {xs : List α} : Attempts pat xs ↔ progress pat xs = 0 := by
  simp [progress_eq_iff]

instance (xs : List α) : Decidable (Attempts pat xs) := decidable_of_iff' _ attempts_iff

/-- An occurrence is seen exactly when it begins where an attempt ends. -/
theorem progress_append_eq_length {xs : List α} :
    progress pat (xs ++ pat) = pat.length ↔ Attempts pat xs := by
  rw [progress_eq_iff le_rfl]
  simp

end Matcher
