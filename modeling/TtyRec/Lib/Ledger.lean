import TtyRec.Lib.History

/-!
# Handles that are opened, used and closed

The history of a program that opens, uses and closes files says of each pointer to one whether
it is open, closed or NULL.  A proper history uses and closes only what is open.  A program
that holds one file at a time is proper as long as it uses and closes that one.

## Main definitions

* `Use`, `FileState`, `fileState` — what is done with files, and what they are then.
* `Proper` — nothing but open files is used or closed.
* `Holds` — one file at most is open, and all others have been closed once.

## Main results

* `Holds.opens`, `Holds.writes`, `Holds.closes` — the operations on the file that is open.
-/

namespace Ledger

open History

/-- What is done with files; `none` is NULL. -/
inductive Use (α : Type*) where
  | opens (a : α)
  | writes (fp : Option α)
  | closes (fp : Option α)
  deriving DecidableEq, Repr

inductive FileState where
  | opened
  | closed
  | null
  deriving DecidableEq, Repr

theorem closes_not_mem {α : Type*} (fp : Option α) (a : α) : .closes fp ∉ [Use.opens a] := by
  simp

variable {α : Type*} [DecidableEq α]

/-- What a pointer points to. -/
def fileState (H : List (Use α)) : Option α → FileState
  | none => .null
  | some a => if .opens a ∈ H ∧ .closes (some a) ∉ H then .opened else .closed

/-- Nothing but open files is used or closed. -/
def Proper (H : List (Use α)) : Prop :=
  Each (fun H u => match u with
    | .opens _ => True
    | .writes fp | .closes fp => fileState H fp = .opened) H

theorem fileState_opened_iff {H : List (Use α)} {a : α} :
    fileState H (some a) = .opened ↔ .opens a ∈ H ∧ .closes (some a) ∉ H := by
  rw [fileState]
  split
  next h => exact iff_of_true rfl h
  next h => exact iff_of_false FileState.noConfusion h

/-- What has been closed was opened before. -/
theorem Proper.opens_of_closes {H : List (Use α)} (h : Proper H) {a : α}
    (hc : .closes (some a) ∈ H) : .opens a ∈ H := by
  obtain ⟨H₁, H₂, rfl⟩ := List.append_of_mem hc
  exact List.mem_append_left _ (fileState_opened_iff.mp (h H₁ _ H₂ rfl)).1

/-- `cur` is the only file that is open, and each of the others has been closed once. -/
structure Holds (H : List (Use α)) (cur : Option α) : Prop where
  proper : Proper H
  opened : ∀ a, fileState H (some a) = .opened ↔ cur = some a
  once : ∀ a, .opens a ∈ H → H.count (.closes (some a)) = if cur = some a then 0 else 1

variable {H : List (Use α)} {a : α}

/-- The first file. -/
theorem holds_opens (a : α) : Holds [.opens a] (some a) := by
  refine ⟨each_concat (H := []).mpr ⟨each_nil _, trivial⟩, ?_, ?_⟩
  · intro b
    rw [fileState_opened_iff, Option.some.injEq]
    constructor
    · rintro ⟨hb, -⟩
      exact (Use.opens.inj (List.mem_singleton.mp hb)).symm
    · rintro rfl
      exact ⟨List.mem_singleton_self _, closes_not_mem _ _⟩
  · intro b hb
    obtain rfl := Use.opens.inj (List.mem_singleton.mp hb)
    rw [if_pos rfl]
    exact List.count_eq_zero.mpr (closes_not_mem _ _)

/-- Another file is opened, when none is open. -/
theorem Holds.opens (h : Holds H none) (hfresh : .opens a ∉ H) :
    Holds (H ++ [.opens a]) (some a) := by
  have hclosed : .closes (some a) ∉ H := fun hc => hfresh (h.proper.opens_of_closes hc)
  refine ⟨each_concat.mpr ⟨h.proper, trivial⟩, ?_, ?_⟩
  · intro b
    rw [fileState_opened_iff, List.mem_append, List.mem_append, Option.some.injEq]
    constructor
    · rintro ⟨hb | hb, hc⟩
      · have hopen := (h.opened b).mp (fileState_opened_iff.mpr ⟨hb, fun hc' => hc (.inl hc')⟩)
        exact absurd hopen (Option.some_ne_none b).symm
      · exact (Use.opens.inj (List.mem_singleton.mp hb)).symm
    · rintro rfl
      refine ⟨.inr (List.mem_singleton_self _), ?_⟩
      rintro (hc | hc)
      · exact hclosed hc
      · exact closes_not_mem _ _ hc
  · intro b hb
    have hcount : [Use.opens a].count (.closes (some b)) = 0 :=
      List.count_eq_zero.mpr (closes_not_mem _ _)
    rw [List.count_append, hcount, Nat.add_zero]
    by_cases hab : a = b
    · subst hab
      rw [if_pos rfl, List.count_eq_zero.mpr hclosed]
    · rw [if_neg (fun heq => hab (Option.some.inj heq))]
      rcases List.mem_append.mp hb with hb | hb
      · have honce := h.once b hb
        rwa [if_neg (Option.some_ne_none b).symm] at honce
      · exact absurd (Use.opens.inj (List.mem_singleton.mp hb)).symm hab

/-- The file that is open is used. -/
theorem Holds.writes (h : Holds H (some a)) : Holds (H ++ [.writes (some a)]) (some a) := by
  refine ⟨each_concat.mpr ⟨h.proper, (h.opened a).mpr rfl⟩, ?_, ?_⟩
  · intro b
    rw [← h.opened b, fileState_opened_iff, fileState_opened_iff, List.mem_append, List.mem_append]
    simp
  · intro b hb
    rw [List.mem_append] at hb
    rw [List.count_append, h.once b (hb.resolve_right (by simp))]
    simp

/-- It is closed. -/
theorem Holds.closes (h : Holds H (some a)) : Holds (H ++ [.closes (some a)]) none := by
  refine ⟨each_concat.mpr ⟨h.proper, (h.opened a).mpr rfl⟩, ?_, ?_⟩
  · intro b
    refine iff_of_false ?_ (Option.some_ne_none b).symm
    rw [fileState_opened_iff, List.mem_append, List.mem_append]
    rintro ⟨hb | hb, hc⟩
    · have hopen := (h.opened b).mp (fileState_opened_iff.mpr ⟨hb, fun hc' => hc (.inl hc')⟩)
      obtain rfl := Option.some.inj hopen
      exact hc (.inr (List.mem_singleton_self _))
    · simp at hb
  · intro b hb
    rw [List.mem_append] at hb
    have honce := h.once b (hb.resolve_right (by simp))
    rw [if_neg (Option.some_ne_none b).symm, List.count_append, honce]
    by_cases hab : a = b
    · subst hab
      simp
    · rw [if_neg (fun heq => hab (Option.some.inj heq))]
      simp [hab]

end Ledger
