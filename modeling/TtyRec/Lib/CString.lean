import TtyRec.Lib.Replace

/-!
# Strings in a buffer

A buffer is a piece of memory of a fixed size, and a string in it ends at the first zero.  The
functions here look for that zero, and write where they are told to; an access beyond the buffer
is `none`.

## Main definitions

* `put`, `stringAt` — a write at an offset, and the string at an offset.
* `snprintf`, `strstr`, `strcat` — the functions of the C library.
* `substitute` — the loop that replaces a word in place by one of the same length.

## Main results

* `snprintf_eq`, `strcat_eq` — what is in the buffer after a call that stays inside.
* `substitute_eq`, `substitute_holds` — **the loop in place stays inside the buffer, ends, and is
  `replaceAll`.**
-/

namespace CString

open Replace

variable {α : Type*} [Zero α] [DecidableEq α]

/-! ### The functions -/

omit [Zero α] [DecidableEq α] in
/-- `memcpy(buf + i, bytes, n)`, `n` being the length of `bytes`. -/
def put (i : ℕ) (bytes buf : List α) : Option (List α) :=
  if i + bytes.length ≤ buf.length then
    some (buf.take i ++ (bytes ++ buf.drop (i + bytes.length)))
  else none

/-- The string that begins at `i`. -/
def stringAt (i : ℕ) (buf : List α) : Option (List α) :=
  if 0 ∈ buf.drop i then some ((buf.drop i).takeWhile fun x => decide (x ≠ 0)) else none

/-- `snprintf(buf, size, "%s", s)`. -/
def snprintf (size : ℕ) (s buf : List α) : Option (List α) := put 0 (s.take (size - 1) ++ [0]) buf

/-- `strstr(buf + i, p)`, as an offset into the buffer. -/
def strstr (i : ℕ) (p buf : List α) : Option (Option ℕ) :=
  (stringAt i buf).map fun s => (firstPlace p s).map (i + ·)

/-- `strcat(buf, s)`. -/
def strcat (s buf : List α) : Option (List α) :=
  (stringAt 0 buf).bind fun t => put t.length (s ++ [0]) buf

/-- `while (ptr != NULL) { memcpy(ptr, u, n); ptr = strstr(ptr + n, p); }`, with at most `fuel`
iterations. -/
def substitute (p u : List α) : ℕ → List α → Option ℕ → Option (List α)
  | _, buf, none => some buf
  | 0, _, some _ => none
  | fuel + 1, buf, some ptr =>
    (put ptr u buf).bind fun buf =>
      (strstr (ptr + u.length) p buf).bind fun next => substitute p u fuel buf next

/-! ### What is in the buffer -/

omit [Zero α] [DecidableEq α] in
theorem put_eq {a old bytes r : List α} (h : old.length = bytes.length) :
    put a.length bytes (a ++ (old ++ r)) = some (a ++ (bytes ++ r)) := by
  have hfits : a.length + bytes.length ≤ (a ++ (old ++ r)).length := by
    simp [h]
  rw [put, if_pos hfits, List.take_left, ← h, List.drop_length_add_append, List.drop_left]

omit [Zero α] [DecidableEq α] in
theorem length_put {i : ℕ} {bytes buf buf' : List α} (h : put i bytes buf = some buf') :
    buf'.length = buf.length := by
  rw [put, Option.ite_none_right_eq_some, Option.some.injEq] at h
  obtain ⟨hfits, rfl⟩ := h
  simp only [List.length_append, List.length_take, List.length_drop]
  omega

theorem stringAt_eq {a s r : List α} (hs : 0 ∉ s) :
    stringAt a.length (a ++ (s ++ 0 :: r)) = some s := by
  have hword : ∀ x ∈ s, decide (x ≠ 0) = true := fun x hx =>
    decide_eq_true fun h => hs (h ▸ hx)
  rw [stringAt, List.drop_left, if_pos (by simp), List.takeWhile_append_of_pos hword,
    List.takeWhile_cons_of_neg (by simp), List.append_nil]

/-- The buffer holds the string. -/
def Holds (buf s : List α) : Prop := 0 ∉ s ∧ ∃ r, buf = s ++ 0 :: r

theorem Holds.stringAt {buf s : List α} (h : Holds buf s) : stringAt 0 buf = some s := by
  obtain ⟨hs, r, rfl⟩ := h
  exact stringAt_eq (a := []) hs

omit [DecidableEq α] in
/-- The string has room, with the zero behind it. -/
theorem Holds.length_lt {buf s : List α} (h : Holds buf s) : s.length < buf.length := by
  obtain ⟨-, r, rfl⟩ := h
  simp

omit [Zero α] [DecidableEq α] in
theorem put_zero_eq {bytes buf : List α} (h : bytes.length ≤ buf.length) :
    put 0 bytes buf = some (bytes ++ buf.drop bytes.length) := by
  rw [put, Nat.zero_add, if_pos h, List.take_zero, List.nil_append]

omit [DecidableEq α] in
theorem snprintf_eq {s buf : List α} {size : ℕ} (hs : 0 ∉ s) (h0 : 0 < size)
    (hsize : size ≤ buf.length) :
    ∃ buf', snprintf size s buf = some buf' ∧ buf'.length = buf.length ∧
      Holds buf' (s.take (size - 1)) := by
  have hlen : (s.take (size - 1) ++ [0]).length ≤ buf.length := by
    simp only [List.length_append, List.length_take, List.length_singleton]
    omega
  have hput := put_zero_eq hlen
  exact ⟨_, hput, length_put hput, fun h => hs (List.mem_of_mem_take h), _,
    List.append_assoc _ _ _⟩

/-- The string has room, and its own zero. -/
theorem strcat_eq {s t buf : List α} (h : Holds buf s) (ht : 0 ∉ t)
    (hroom : s.length + t.length < buf.length) :
    ∃ buf', strcat t buf = some buf' ∧ buf'.length = buf.length ∧ Holds buf' (s ++ t) := by
  have hstring := h.stringAt
  obtain ⟨hs, r, rfl⟩ := h
  have hlen : (t ++ [0]).length ≤ (0 :: r).length := by
    simp only [List.length_append, List.length_cons, List.length_nil] at hroom ⊢
    omega
  have hput : put s.length (t ++ [0]) (s ++ 0 :: r) =
      some (s ++ (t ++ [0] ++ (0 :: r).drop (t ++ [0]).length)) := by
    have hold : ((0 :: r).take (t ++ [0]).length).length = (t ++ [0]).length :=
      List.length_take_of_le hlen
    rw [← put_eq hold, List.take_append_drop]
  have hcat : strcat t (s ++ 0 :: r) =
      some (s ++ (t ++ [0] ++ (0 :: r).drop (t ++ [0]).length)) := by
    rw [strcat, hstring, Option.bind_some, hput]
  refine ⟨_, hcat, length_put hput, ?_, (0 :: r).drop (t ++ [0]).length, ?_⟩
  · rw [List.mem_append, not_or]
    exact ⟨hs, ht⟩
  · simp only [List.append_assoc, List.singleton_append]

/-- **The loop in place** stays inside the buffer, ends, and replaces every occurrence.  The
induction is on the fuel, with what was passed in `a`. -/
theorem substitute_eq {p u r : List α} (hp : p ≠ []) (hu : u.length = p.length) :
    ∀ {fuel : ℕ} {a s : List α}, s.length ≤ fuel → 0 ∉ s →
      substitute p u fuel (a ++ (s ++ 0 :: r)) ((firstPlace p s).map (a.length + ·)) =
        some (a ++ (replaceAll p u 0 s ++ 0 :: r)) := by
  intro fuel
  induction fuel with
  | zero =>
    intro a s hfuel hs
    obtain rfl : s = [] := List.length_eq_zero_iff.mp (Nat.le_zero.mp hfuel)
    have hnone : firstPlace p [] = none :=
      firstPlace_eq_none_iff.mpr fun h => hp (List.infix_nil.mp h)
    rw [hnone, Option.map_none, substitute, replaceAll]
  | succ fuel ih =>
    intro a s hfuel hs
    cases hplace : firstPlace p s with
    | none =>
      rw [Option.map_none, substitute,
        replaceAll_of_absent (firstPlace_eq_none_iff.mp hplace)]
    | some k =>
      obtain ⟨x, y, rfl, rfl, hfirst⟩ := exists_firstBehind hplace
      have hpos : 0 < p.length := List.length_pos_iff.mpr hp
      have hy : 0 ∉ y := fun h => hs (by simp [h])
      have hrest : y.length ≤ fuel := by
        simp only [List.length_append] at hfuel
        omega
      -- the occurrence is overwritten, and the search goes on behind it
      have hput : put (a.length + x.length) u (a ++ (x ++ (p ++ y) ++ 0 :: r)) =
          some (a ++ x ++ (u ++ (y ++ 0 :: r))) := by
        rw [← List.length_append, ← put_eq hu.symm]
        simp only [List.append_assoc]
      have hnext : strstr (a.length + x.length + u.length) p (a ++ x ++ (u ++ (y ++ 0 :: r))) =
          some ((firstPlace p y).map ((a ++ x ++ u).length + ·)) := by
        have hbuf : a ++ x ++ (u ++ (y ++ 0 :: r)) = a ++ x ++ u ++ (y ++ 0 :: r) := by
          simp only [List.append_assoc]
        rw [strstr, ← List.length_append, ← List.length_append, hbuf, stringAt_eq hy,
          Option.map_some]
      rw [Option.map_some, substitute, hput, Option.bind_some, hnext, Option.bind_some,
        replaceAll_append hp hfirst]
      have hloop := ih (a := a ++ x ++ u) hrest hy
      simp only [List.append_assoc] at hloop ⊢
      exact hloop

/-- The search and the loop, on a string that is in the buffer. -/
theorem substitute_holds {p u buf s : List α} {fuel : ℕ} (hp : p ≠ []) (hu : u.length = p.length)
    (h0 : 0 ∉ u) (h : Holds buf s) (hfuel : s.length ≤ fuel) :
    ∃ ptr buf', strstr 0 p buf = some ptr ∧ substitute p u fuel buf ptr = some buf' ∧
      buf'.length = buf.length ∧ Holds buf' (replaceAll p u 0 s) := by
  have hstring := h.stringAt
  obtain ⟨hs, r, rfl⟩ := h
  have hptr : strstr 0 p (s ++ 0 :: r) = some ((firstPlace p s).map (0 + ·)) := by
    rw [strstr, hstring, Option.map_some]
  have hloop : substitute p u fuel (s ++ 0 :: r) ((firstPlace p s).map (0 + ·)) =
      some (replaceAll p u 0 s ++ 0 :: r) := substitute_eq (a := []) hp hu hfuel hs
  refine ⟨_, _, hptr, hloop, ?_, ?_, r, rfl⟩
  · rw [List.length_append, (replaceAll_spec hp hu s).length, List.length_append]
  · intro hmem
    rcases mem_of_mem_replaceAll hmem with hmem | hmem
    · exact h0 hmem
    · exact hs hmem

omit [DecidableEq α] in
/-- A zero behind the string changes nothing. -/
theorem put_zero_behind {buf s : List α} {i : ℕ} (h : Holds buf s) (hle : s.length ≤ i)
    (hlt : i < buf.length) :
    ∃ buf', put i [0] buf = some buf' ∧ buf'.length = buf.length ∧ Holds buf' s := by
  obtain ⟨hs, r, rfl⟩ := h
  obtain ⟨k, rfl⟩ := Nat.exists_eq_add_of_le hle
  have hfits : s.length + k + [(0 : α)].length ≤ (s ++ 0 :: r).length := hlt
  have hput : put (s.length + k) [0] (s ++ 0 :: r) =
      some (s ++ (0 :: r).take k ++ ([0] ++ (s ++ 0 :: r).drop (s.length + k + 1))) := by
    rw [put, if_pos hfits, List.take_length_add_append]
    rfl
  refine ⟨_, hput, length_put hput, hs, ?_⟩
  generalize (s ++ 0 :: r).drop (s.length + k + 1) = rest
  cases k with
  | zero => exact ⟨rest, by simp⟩
  | succ k => exact ⟨r.take k ++ 0 :: rest, by simp⟩

end CString
