import Mathlib.Data.List.Basic
import Mathlib.Data.Nat.Digits.Lemmas

/-!
# Decimal numerals

A number in decimal digits, as ASCII bytes, padded with zeros to a width; the numeral of a
number that needs more digits is longer.

## Main definitions

* `padded` — the numeral.

## Main results

* `padded_injective`, `padded_cons_inj` — a numeral, and one in front of a separator, can be
  read back.
* `length_padded` — a number that fits has exactly the width.
* `padded_append_lt_iff` — the numerals of such numbers are in the order of the numbers.
-/

namespace Decimal

/-- The byte of a digit. -/
def digit (d : ℕ) : UInt8 := UInt8.ofNat (48 + d)

/-- The numeral of `n`, at least `w` digits long. -/
def padded (w n : ℕ) : List UInt8 :=
  ((Nat.digits 10 n ++ List.replicate (w - (Nat.digits 10 n).length) 0).reverse).map digit

theorem toNat_digit {d : ℕ} (hd : d < 10) : (digit d).toNat = 48 + d := by
  rw [digit, UInt8.toNat_ofNat']
  exact Nat.mod_eq_of_lt (by omega)

/-- The digits of a numeral, the lowest one first. -/
theorem mem_digits_lt {w n d : ℕ}
    (hd : d ∈ (Nat.digits 10 n ++ List.replicate (w - (Nat.digits 10 n).length) 0)) : d < 10 := by
  rcases List.mem_append.mp hd with h | h
  · exact Nat.digits_lt_base (by norm_num) h
  · rw [List.eq_of_mem_replicate h]
    norm_num

/-- What a numeral stands for. -/
def value (l : List UInt8) : ℕ := Nat.ofDigits 10 (l.reverse.map fun c => c.toNat - 48)

theorem value_padded (w n : ℕ) : value (padded w n) = n := by
  have hdigits : ((padded w n).reverse.map fun c => c.toNat - 48) =
      Nat.digits 10 n ++ List.replicate (w - (Nat.digits 10 n).length) 0 := by
    rw [padded, ← List.map_reverse, List.reverse_reverse, List.map_map]
    refine (List.map_congr_left ?_).trans (List.map_id _)
    intro d hd
    rw [Function.comp_apply, toNat_digit (mem_digits_lt hd), Nat.add_sub_cancel_left, id]
  rw [value, hdigits, Nat.ofDigits_append_replicate_zero, Nat.ofDigits_digits]

theorem padded_injective (w : ℕ) : Function.Injective (padded w) := by
  intro m n h
  rw [← value_padded w m, h, value_padded]

/-- The bytes of a numeral are digits. -/
theorem mem_padded {w n : ℕ} {c : UInt8} (hc : c ∈ padded w n) : 48 ≤ c.toNat ∧ c.toNat < 58 := by
  obtain ⟨d, hd, rfl⟩ := List.mem_map.mp hc
  have hlt := mem_digits_lt (List.mem_reverse.mp hd)
  rw [toNat_digit hlt]
  omega

theorem append_cons_inj {c : UInt8} {xs ys r r' : List UInt8} (hx : c ∉ xs) (hy : c ∉ ys)
    (h : xs ++ c :: r = ys ++ c :: r') : xs = ys ∧ r = r' := by
  rcases List.append_eq_append_iff.mp h with ⟨l, rfl, hl⟩ | ⟨l, rfl, hl⟩
  · cases l with
    | nil => exact ⟨(List.append_nil xs).symm, List.tail_eq_of_cons_eq hl⟩
    | cons d l =>
      rw [List.cons_append] at hl
      have hd := List.head_eq_of_cons_eq hl
      exact absurd (List.mem_append_right xs (hd ▸ List.mem_cons_self)) hy
  · cases l with
    | nil => exact ⟨List.append_nil ys, (List.tail_eq_of_cons_eq hl).symm⟩
    | cons d l =>
      rw [List.cons_append] at hl
      have hd := List.head_eq_of_cons_eq hl
      exact absurd (List.mem_append_right ys (hd ▸ List.mem_cons_self)) hx

/-- A numeral in front of a separator can be read back, with what follows. -/
theorem padded_cons_inj {w m n : ℕ} {c : UInt8} (hc : c.toNat < 48) {r r' : List UInt8} :
    padded w m ++ c :: r = padded w n ++ c :: r' ↔ m = n ∧ r = r' := by
  have hnot : ∀ k, c ∉ padded w k := fun k hk => absurd (mem_padded hk).1 (by omega)
  constructor
  · intro h
    obtain ⟨hpad, hr⟩ := append_cons_inj (hnot m) (hnot n) h
    exact ⟨padded_injective w hpad, hr⟩
  · rintro ⟨rfl, rfl⟩
    rfl

theorem length_padded {w n : ℕ} (hn : n < 10 ^ w) : (padded w n).length = w := by
  have hlen := (Nat.digits_length_le_iff (by norm_num : 1 < 10) n).mpr hn
  simp only [padded, List.length_map, List.length_reverse, List.length_append,
    List.length_replicate]
  omega

/-- So can one that fits, in front of anything. -/
theorem padded_append_inj {w m n : ℕ} (hm : m < 10 ^ w) (hn : n < 10 ^ w) {r r' : List UInt8} :
    padded w m ++ r = padded w n ++ r' ↔ m = n ∧ r = r' := by
  constructor
  · intro h
    obtain ⟨hpad, hr⟩ := List.append_inj h ((length_padded hm).trans (length_padded hn).symm)
    exact ⟨padded_injective w hpad, hr⟩
  · rintro ⟨rfl, rfl⟩
    rfl

/-! ### The order of numerals -/

theorem value_cons (c : UInt8) (l : List UInt8) :
    value (c :: l) = value l + 10 ^ l.length * (c.toNat - 48) := by
  rw [value, List.reverse_cons, List.map_append, Nat.ofDigits_append, List.length_map,
    List.length_reverse, List.map_singleton, Nat.ofDigits_singleton]
  rfl

theorem value_lt {l : List UInt8} (hl : ∀ c ∈ l, 48 ≤ c.toNat ∧ c.toNat < 58) :
    value l < 10 ^ l.length := by
  induction l with
  | nil => simp [value]
  | cons c l ih =>
    have hlow := ih fun d hd => hl d (List.mem_cons_of_mem c hd)
    have hc := hl c List.mem_cons_self
    have hdigit : c.toNat - 48 + 1 ≤ 10 := by omega
    rw [value_cons, List.length_cons, Nat.pow_succ]
    calc value l + 10 ^ l.length * (c.toNat - 48)
        < 10 ^ l.length + 10 ^ l.length * (c.toNat - 48) := Nat.add_lt_add_right hlow _
      _ = 10 ^ l.length * (c.toNat - 48 + 1) := by rw [Nat.mul_succ, Nat.add_comm]
      _ ≤ 10 ^ l.length * 10 := Nat.mul_le_mul_left _ hdigit

/-- Numerals of one length are in the order of what they stand for. -/
theorem append_lt_append_iff {l l' r r' : List UInt8} (hlen : l.length = l'.length)
    (hl : ∀ c ∈ l, 48 ≤ c.toNat ∧ c.toNat < 58) (hl' : ∀ c ∈ l', 48 ≤ c.toNat ∧ c.toNat < 58) :
    l ++ r < l' ++ r' ↔ value l < value l' ∨ value l = value l' ∧ r < r' := by
  induction l generalizing l' with
  | nil =>
    obtain rfl := List.eq_nil_of_length_eq_zero hlen.symm
    simp
  | cons c l ih =>
    cases l' with
    | nil => cases hlen
    | cons c' l' =>
      have hlen' : l.length = l'.length := Nat.succ.inj hlen
      have htail := fun d hd => hl d (List.mem_cons_of_mem c hd)
      have htail' := fun d hd => hl' d (List.mem_cons_of_mem c' hd)
      have hlow := value_lt htail
      have hlow' := value_lt htail'
      have hc := hl c List.mem_cons_self
      have hc' := hl' c' List.mem_cons_self
      rw [List.cons_append, List.cons_append, List.cons_lt_cons_iff, ih hlen' htail htail', value_cons,
        value_cons, ← hlen', UInt8.lt_iff_toNat_lt, ← UInt8.toNat_inj]
      rw [← hlen'] at hlow'
      generalize 10 ^ l.length = p at *
      rcases Nat.lt_trichotomy c.toNat c'.toNat with hlt | heq | hgt
      · -- the first digit decides
        have hstep : p * (c.toNat - 48) + p ≤ p * (c'.toNat - 48) := by
          rw [← Nat.mul_succ]
          exact Nat.mul_le_mul_left _ (by omega)
        constructor
        · intro _
          exact .inl (by omega)
        · intro _
          exact .inl hlt
      · rw [heq, Nat.add_lt_add_iff_right, Nat.add_right_cancel_iff]
        simp only [Nat.lt_irrefl, false_or, true_and]
      · have hstep : p * (c'.toNat - 48) + p ≤ p * (c.toNat - 48) := by
          rw [← Nat.mul_succ]
          exact Nat.mul_le_mul_left _ (by omega)
        constructor
        · intro h
          omega
        · intro h
          omega

/-- Two numbers that fit, in front of anything. -/
theorem padded_append_lt_iff {w m n : ℕ} (hm : m < 10 ^ w) (hn : n < 10 ^ w) {r r' : List UInt8} :
    padded w m ++ r < padded w n ++ r' ↔ m < n ∨ m = n ∧ r < r' := by
  rw [append_lt_append_iff ((length_padded hm).trans (length_padded hn).symm) (fun _ => mem_padded)
    (fun _ => mem_padded), value_padded, value_padded]

/-- Two numbers that fit, in front of a separator. -/
theorem padded_cons_lt_iff {w m n : ℕ} (hm : m < 10 ^ w) (hn : n < 10 ^ w) {c : UInt8}
    {r r' : List UInt8} : padded w m ++ c :: r < padded w n ++ c :: r' ↔ m < n ∨ m = n ∧ r < r' := by
  rw [padded_append_lt_iff hm hn, List.cons_lt_cons_iff]
  simp only [UInt8.lt_irrefl, false_or, true_and]

example : padded 4 26 = [48, 48, 50, 54] := by decide

end Decimal
