import Mathlib.Tactic

/-!
# Sums and differences in signed words

A program that adds and subtracts signed integers computes in words of a fixed width, and
what it computes is the integer sum as long as no operation overflows.  The expressions here
have a value over the integers and one over words, and a condition that says when they agree;
a comparison of two of them is then the comparison of the integers.

## Main definitions

* `Expr`, `Comparison` — sums and differences of variables, and `<` between two of them.
* `Expr.value`, `Expr.compute` — what an expression means, and what a machine computes.
* `Expr.Overflows` — some operation overflows.
* `Comparison.Exact` — nothing overflows, and the test is that of the integers.

## Main results

* `Expr.toInt_compute` — without overflow the machine computes the value.
* `Expr.not_overflows_iff` — **nothing overflows exactly if the value of every operation has
  the width of a word.**
-/

namespace SignedExpr

variable {V : Type*} {w : ℕ}

/-- The integers that a signed word of `w` bits can have. -/
def Fits (w : ℕ) (x : ℤ) : Prop := -2 ^ (w - 1) ≤ x ∧ x < 2 ^ (w - 1)

instance (w : ℕ) (x : ℤ) : Decidable (Fits w x) := inferInstanceAs (Decidable (_ ∧ _))

theorem toInt_ofInt {x : ℤ} (hw : 0 < w) (hx : Fits w x) : (BitVec.ofInt w x).toInt = x :=
  BitVec.toInt_ofInt_eq_self hw hx.1 hx.2

/-! ### Expressions -/

/-- Sums and differences of variables. -/
inductive Expr (V : Type*) where
  | var (v : V)
  | add (a b : Expr V)
  | sub (a b : Expr V)

namespace Expr

/-- The meaning over the integers. -/
def value (env : V → ℤ) : Expr V → ℤ
  | var v => env v
  | add a b => a.value env + b.value env
  | sub a b => a.value env - b.value env

/-- What a machine computes. -/
def compute (env : V → BitVec w) : Expr V → BitVec w
  | var v => env v
  | add a b => a.compute env + b.compute env
  | sub a b => a.compute env - b.compute env

/-- Some operation overflows. -/
def Overflows (env : V → BitVec w) : Expr V → Prop
  | var _ => False
  | add a b => a.Overflows env ∨ b.Overflows env ∨
      (a.compute env).saddOverflow (b.compute env) = true
  | sub a b => a.Overflows env ∨ b.Overflows env ∨
      (a.compute env).ssubOverflow (b.compute env) = true

/-- The value of every operation fits. -/
def Bounded (w : ℕ) (env : V → ℤ) : Expr V → Prop
  | var _ => True
  | add a b => a.Bounded w env ∧ b.Bounded w env ∧ Fits w (a.value env + b.value env)
  | sub a b => a.Bounded w env ∧ b.Bounded w env ∧ Fits w (a.value env - b.value env)

/-- Without overflow the machine computes the value. -/
theorem toInt_compute {env : V → BitVec w} :
    ∀ {e : Expr V}, ¬ e.Overflows env → (e.compute env).toInt = e.value fun v => (env v).toInt
  | var _, _ => rfl
  | add a b, h => by
    simp only [Overflows, not_or] at h
    obtain ⟨ha, hb, hadd⟩ := h
    rw [compute, BitVec.toInt_add_of_not_saddOverflow hadd, toInt_compute ha, toInt_compute hb,
      value]
  | sub a b, h => by
    simp only [Overflows, not_or] at h
    obtain ⟨ha, hb, hsub⟩ := h
    rw [compute, BitVec.toInt_sub_of_not_ssubOverflow hsub, toInt_compute ha, toInt_compute hb,
      value]

theorem not_saddOverflow_iff {x y : BitVec w} :
    ¬ x.saddOverflow y = true ↔ Fits w (x.toInt + y.toInt) := by
  simp [BitVec.saddOverflow, Fits, and_comm]

theorem not_ssubOverflow_iff {x y : BitVec w} :
    ¬ x.ssubOverflow y = true ↔ Fits w (x.toInt - y.toInt) := by
  simp [BitVec.ssubOverflow, Fits, and_comm]

/-- **Nothing overflows exactly if the value of every operation has the width of a word.** -/
theorem not_overflows_iff {env : V → BitVec w} {e : Expr V} :
    ¬ e.Overflows env ↔ e.Bounded w fun v => (env v).toInt := by
  induction e with
  | var v => simp [Overflows, Bounded]
  | add a b iha ihb =>
    rw [Overflows, not_or, not_or, Bounded, ← iha, ← ihb, not_saddOverflow_iff]
    refine and_congr_right fun ha => and_congr_right fun hb => ?_
    rw [toInt_compute ha, toInt_compute hb]
  | sub a b iha ihb =>
    rw [Overflows, not_or, not_or, Bounded, ← iha, ← ihb, not_ssubOverflow_iff]
    refine and_congr_right fun ha => and_congr_right fun hb => ?_
    rw [toInt_compute ha, toInt_compute hb]

end Expr

/-! ### Comparisons -/

/-- `lesser < greater`. -/
structure Comparison (V : Type*) where
  lesser : Expr V
  greater : Expr V

namespace Comparison

variable (c : Comparison V)

/-- The comparison of the integers. -/
def Holds (env : V → ℤ) : Prop := c.lesser.value env < c.greater.value env

/-- The test that a machine makes. -/
def test (env : V → BitVec w) : Bool := (c.lesser.compute env).slt (c.greater.compute env)

/-- Some operation on either side overflows. -/
def Overflows (env : V → BitVec w) : Prop := c.lesser.Overflows env ∨ c.greater.Overflows env

instance (env : V → ℤ) : Decidable (c.Holds env) := inferInstanceAs (Decidable (_ < _))

/-- Nothing overflows, and the test is that of the integers. -/
structure Exact (env : V → BitVec w) : Prop where
  not_overflows : ¬ c.Overflows env
  test_iff : c.test env = true ↔ c.Holds fun v => (env v).toInt

/-- **Without overflow a test is that of the integers**, so nothing else is to be asked of an exact
one. -/
theorem exact_iff {env : V → BitVec w} : c.Exact env ↔ ¬ c.Overflows env := by
  refine ⟨Exact.not_overflows, fun h => ⟨h, ?_⟩⟩
  obtain ⟨hlesser, hgreater⟩ := not_or.mp h
  rw [test, BitVec.slt_iff_toInt_lt, Expr.toInt_compute hlesser, Expr.toInt_compute hgreater,
    Holds]

/-- The variables being integers that fit. -/
theorem exact_ofInt_iff {env : V → ℤ} (hw : 0 < w) (henv : ∀ v, Fits w (env v)) :
    c.Exact (fun v => BitVec.ofInt w (env v)) ↔
      c.lesser.Bounded w env ∧ c.greater.Bounded w env := by
  have hint : (fun v => (BitVec.ofInt w (env v)).toInt) = env :=
    funext fun v => toInt_ofInt hw (henv v)
  rw [exact_iff, Overflows, not_or, Expr.not_overflows_iff, Expr.not_overflows_iff, hint]

/-- The test of an exact comparison. -/
theorem Exact.test_ofInt_iff {c : Comparison V} {env : V → ℤ} (hw : 0 < w)
    (henv : ∀ v, Fits w (env v)) (h : c.Exact fun v => BitVec.ofInt w (env v)) :
    c.test (fun v => BitVec.ofInt w (env v)) = true ↔ c.Holds env := by
  have hint : (fun v => (BitVec.ofInt w (env v)).toInt) = env :=
    funext fun v => toInt_ofInt hw (henv v)
  rw [h.test_iff, hint]

end Comparison

end SignedExpr
