import Mathlib.Tactic

/-!
# Tables of file descriptors

Every process has a table that says what its descriptors stand for.  A new descriptor is the
lowest one that is free, `close` frees one, and `dup2` makes one stand for what another one
stands for.

A process that wants to give a file away, or to keep it from a program that it runs, has to know
where the file is in its table.  `places t o` is that set, and there is one equation about it for
each operation.

## Main definitions

* `Table`, `get` — a table, and what a descriptor stands for.
* `lowest`, `allocate`, `close`, `dup2` — the system calls.
* `places`, `Holds` — where a file is in a table, and that it is there.

## Main results

* `get_lowest`, `lowest_ne` — a new descriptor is free, and none that is in use is taken.
* `places_close`, `places_allocate_self`, `places_allocate_of_ne` — where a file is after a system
  call.
-/

namespace Descriptors

variable {O : Type*}

/-- What the descriptors of a process stand for, beginning with 0. -/
abbrev Table (O : Type*) := List (Option O)

/-- What a descriptor stands for. -/
def get (t : Table O) (fd : ℕ) : Option O := t[fd]?.join

/-- Make a descriptor stand for something, or for nothing. -/
def put (t : Table O) (fd : ℕ) (o : Option O) : Table O :=
  if fd < t.length then t.set fd o else t ++ List.replicate (fd - t.length) none ++ [o]

/-- The lowest descriptor that is free. -/
def lowest (t : Table O) : ℕ := t.findIdx Option.isNone

/-- `open`, and every other call that makes one new descriptor. -/
def allocate (t : Table O) (o : O) : Table O := put t (lowest t) (some o)

/-- `close`, which fails on a descriptor that is free. -/
def close (t : Table O) (fd : ℕ) : Table O := t.set fd none

/-- `dup2`, which fails on a descriptor that is free. -/
def dup2 (t : Table O) (old new : ℕ) : Table O :=
  match get t old with
  | none => t
  | some o => put t new (some o)

/-! ### What a descriptor stands for -/

theorem get_eq_getD (t : Table O) (fd : ℕ) : get t fd = (t[fd]?).getD none := by
  unfold get
  cases t[fd]? <;> rfl

theorem get_put (t : Table O) (fd fd' : ℕ) (o : Option O) :
    get (put t fd o) fd' = if fd' = fd then o else get t fd' := by
  simp only [get_eq_getD, put]
  split_ifs with hlt heq heq
  · subst heq
    simp [hlt]
  · rw [List.getElem?_set_ne (Ne.symm heq)]
  · subst heq
    rw [List.getElem?_append_right (by simp; omega)]
    simp
    simp [Nat.add_sub_cancel' (Nat.le_of_not_lt hlt)]
  · rcases Nat.lt_or_ge fd' t.length with h | h
    · rw [List.append_assoc, List.getElem?_append_left h]
    · rw [List.getElem?_eq_none h, List.append_assoc, List.getElem?_append_right h,
        List.getElem?_append]
      split_ifs with hin
      · simp at hin
        simp [hin]
      · rw [List.getElem?_eq_none (by simp at hin ⊢; omega)]

theorem get_close (t : Table O) (fd fd' : ℕ) :
    get (close t fd) fd' = if fd' = fd then none else get t fd' := by
  simp only [get_eq_getD, close]
  split_ifs with heq
  · subst heq
    rcases Nat.lt_or_ge fd' t.length with h | h
    · simp [h]
    · rw [List.getElem?_eq_none (by simpa using h)]
      rfl
  · rw [List.getElem?_set_ne (Ne.symm heq)]

/-- The descriptor that a new file gets was free. -/
@[simp] theorem get_lowest (t : Table O) : get t (lowest t) = none := by
  rw [get_eq_getD, lowest]
  rcases Nat.lt_or_ge (t.findIdx Option.isNone) t.length with h | h
  · have hnone := List.findIdx_getElem (p := Option.isNone) (w := h)
    rw [List.getElem?_eq_getElem h, Option.getD_some]
    exact Option.isNone_iff_eq_none.mp hnone
  · rw [List.getElem?_eq_none h]
    rfl

/-- A descriptor that is in use is not the new one. -/
theorem lowest_ne {t : Table O} {fd : ℕ} {o : O} (h : get t fd = some o) : lowest t ≠ fd := by
  rintro rfl
  rw [get_lowest] at h
  cases h

theorem get_allocate (t : Table O) (o : O) (fd : ℕ) :
    get (allocate t o) fd = if fd = lowest t then some o else get t fd :=
  get_put t _ fd _

@[simp] theorem get_allocate_lowest (t : Table O) (o : O) :
    get (allocate t o) (lowest t) = some o := by
  rw [get_allocate, if_pos rfl]

theorem get_dup2 (t : Table O) (old new fd : ℕ) :
    get (dup2 t old new) fd = if fd = new then (get t old).or (get t fd) else get t fd := by
  rw [dup2]
  cases hold : get t old with
  | none => simp
  | some o => rw [get_put, Option.some_or]

/-! ### Several files, one after the other -/

/-- The descriptors of files that are opened one after the other. -/
def numbers (t : Table O) : List O → List ℕ
  | [] => []
  | o :: os => lowest t :: numbers (allocate t o) os

theorem get_of_mem_numbers {t : Table O} {os : List O} {fd : ℕ} (h : fd ∈ numbers t os) :
    get t fd = none := by
  induction os generalizing t with
  | nil => cases h
  | cons o os ih =>
    rcases List.mem_cons.mp h with rfl | h
    · exact get_lowest t
    · have hnone := ih h
      rw [get_allocate] at hnone
      split_ifs at hnone
      exact hnone

/-- They differ from each other. -/
theorem nodup_numbers (t : Table O) (os : List O) : (numbers t os).Nodup := by
  induction os generalizing t with
  | nil => exact List.nodup_nil
  | cons o os ih =>
    refine List.nodup_cons.mpr ⟨?_, ih _⟩
    intro hmem
    have hnone := get_of_mem_numbers hmem
    rw [get_allocate_lowest] at hnone
    cases hnone

/-! ### Where a file is -/

/-- The descriptors that stand for a file. -/
def places (t : Table O) (o : O) : Set ℕ := {fd | get t fd = some o}

@[simp] theorem mem_places {t : Table O} {o : O} {fd : ℕ} :
    fd ∈ places t o ↔ get t fd = some o := Iff.rfl

/-- A file that is open in a process. -/
def Holds (t : Table O) (o : O) : Prop := (places t o).Nonempty

theorem places_close (t : Table O) (fd : ℕ) (o : O) : places (close t fd) o = places t o \ {fd} := by
  ext fd'
  simp only [mem_places, get_close, Set.mem_sdiff, Set.mem_singleton_iff]
  by_cases h : fd' = fd <;> simp [h]

theorem places_allocate_self (t : Table O) (o : O) :
    places (allocate t o) o = insert (lowest t) (places t o) := by
  ext fd
  simp only [mem_places, get_allocate, Set.mem_insert_iff]
  by_cases h : fd = lowest t <;> simp [h]

theorem places_allocate_of_ne (t : Table O) {o o' : O} (h : o' ≠ o) :
    places (allocate t o') o = places t o := by
  ext fd
  simp only [mem_places, get_allocate]
  by_cases hfd : fd = lowest t
  · simp [hfd, h]
  · simp [hfd]

end Descriptors
