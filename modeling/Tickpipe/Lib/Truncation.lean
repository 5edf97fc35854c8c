import Mathlib.Algebra.Order.Field.Rat
import Mathlib.Algebra.Order.Field.Basic
import Mathlib.Data.Rat.Cast.Order
import Mathlib.Tactic.Linarith
import Mathlib.Tactic.FieldSimp
import Mathlib.Tactic.Ring

set_option autoImplicit true

/-! How far a truncating division is off. -/

namespace Truncation

variable {a b n : Int}

theorem mul_tdiv_le (ha : 0 ≤ a) (hb : 0 < b) : b * a.tdiv b ≤ a ∧ a < b * a.tdiv b + b := by
  have hmod := Int.tmod_add_mul_tdiv a b
  have hnonneg := Int.tmod_nonneg b ha
  have hlt := Int.tmod_lt_of_pos a hb
  omega

theorem le_mul_tdiv (ha : a ≤ 0) (hb : 0 < b) : a ≤ b * a.tdiv b ∧ b * a.tdiv b - b < a := by
  obtain ⟨hle, hlt⟩ := mul_tdiv_le (Int.neg_nonneg_of_nonpos ha) hb
  rw [Int.neg_tdiv, Int.mul_neg] at hle hlt
  omega

theorem mul_abs_tdiv_le (hb : 0 < b) : b * |a.tdiv b| ≤ |a| := by
  have hnonneg (a : Int) (ha : 0 ≤ a) : b * |a.tdiv b| ≤ |a| := by
    rw [abs_of_nonneg ha, abs_of_nonneg (Int.tdiv_nonneg ha hb.le)]
    exact (mul_tdiv_le ha hb).1
  rcases Int.le_total 0 a with ha | ha
  · exact hnonneg a ha
  · rw [← abs_neg a, ← abs_neg (a.tdiv b), ← Int.neg_tdiv]
    exact hnonneg (-a) (Int.neg_nonneg_of_nonpos ha)

theorem abs_tdiv_le (hb : 0 < b) (h : |a| ≤ n * b) : |a.tdiv b| ≤ n := by
  apply Int.le_of_mul_le_mul_left _ hb
  rw [Int.mul_comm b n]
  exact (mul_abs_tdiv_le hb).trans h

/-- Of two dividends that make up a multiple of the divisor, both divisions together leave out a
divisor at most. -/
theorem tdiv_add_tdiv (ha : 0 ≤ a) (hb : 0 ≤ b) (hd : 0 < d) (h : a + b = n * d) :
    a.tdiv d + b.tdiv d = n ∨ a.tdiv d + b.tdiv d = n - 1 := by
  obtain ⟨hle, hlt⟩ := mul_tdiv_le ha hd
  obtain ⟨hle', hlt'⟩ := mul_tdiv_le hb hd
  have hrest : d * (n - (a.tdiv d + b.tdiv d)) = a - d * a.tdiv d + (b - d * b.tdiv d) := by
    rw [Int.mul_sub, Int.mul_add, Int.mul_comm d n]
    omega
  have hlow : 0 ≤ n - (a.tdiv d + b.tdiv d) := by
    apply nonneg_of_mul_nonneg_right _ hd
    omega
  have hhigh : n - (a.tdiv d + b.tdiv d) < 2 := by
    apply Int.lt_of_mul_lt_mul_left _ hd.le
    omega
  omega

section Rational

theorem div_sub_tdiv (hb : 0 < b) :
    (a : ℚ) / b - (a.tdiv b : Int) = ((a - b * a.tdiv b : Int) : ℚ) / b := by
  have hb' : (b : ℚ) ≠ 0 := Int.cast_ne_zero.2 hb.ne'
  push_cast
  field_simp

theorem div_sub_tdiv_nonneg (ha : 0 ≤ a) (hb : 0 < b) :
    0 ≤ (a : ℚ) / b - (a.tdiv b : Int) ∧ (a : ℚ) / b - (a.tdiv b : Int) < 1 := by
  have hb' : (0 : ℚ) < b := Int.cast_pos.2 hb
  obtain ⟨hle, hlt⟩ := mul_tdiv_le ha hb
  rw [div_sub_tdiv hb, div_lt_one hb']
  constructor
  · exact div_nonneg (Int.cast_nonneg (by omega)) hb'.le
  · exact Int.cast_lt.2 (by omega)

theorem abs_div_sub_tdiv_lt (hb : 0 < b) : |(a : ℚ) / b - (a.tdiv b : Int)| < 1 := by
  rcases Int.le_total 0 a with ha | ha
  · obtain ⟨hle, hlt⟩ := div_sub_tdiv_nonneg ha hb
    rw [abs_of_nonneg hle]
    exact hlt
  · obtain ⟨hle, hlt⟩ := div_sub_tdiv_nonneg (Int.neg_nonneg_of_nonpos ha) hb
    rw [Int.neg_tdiv, Int.cast_neg, Int.cast_neg, neg_div, neg_sub_neg] at hle hlt
    rw [abs_sub_comm, abs_of_nonneg hle]
    exact hlt

theorem abs_div_sub_tdiv_le (hb : 0 < b) : |(a : ℚ) / b - (a.tdiv b : Int)| ≤ (b - 1) / b := by
  have hb' : (0 : ℚ) < b := Int.cast_pos.2 hb
  have hrest : |a - b * a.tdiv b| ≤ b - 1 := by
    rw [abs_le]
    rcases Int.le_total 0 a with ha | ha
    · obtain ⟨hle, hlt⟩ := mul_tdiv_le ha hb
      omega
    · obtain ⟨hle, hlt⟩ := le_mul_tdiv ha hb
      omega
  rw [div_sub_tdiv hb, abs_div, abs_of_pos hb', div_le_div_iff_of_pos_right hb']
  exact_mod_cast hrest

section Error

variable {p x : Int} {q e : ℚ}

/-- A division passes on a part of the error of its dividend. -/
theorem abs_div_sub_tdiv_le_of (hb : 0 < b) (hq : |q - a| ≤ e) :
    |q / b - (a.tdiv b : Int)| ≤ (e + (b - 1)) / b := by
  have hb' : (0 : ℚ) < b := Int.cast_pos.2 hb
  have hpart : |q / b - a / b| ≤ e / b := by
    rw [← sub_div, abs_div, abs_of_pos hb']
    exact div_le_div_of_nonneg_right hq hb'.le
  calc |q / b - (a.tdiv b : Int)| ≤ |q / b - a / b| + |(a : ℚ) / b - (a.tdiv b : Int)| :=
        abs_sub_le _ _ _
    _ ≤ e / b + (b - 1) / b := add_le_add hpart (abs_div_sub_tdiv_le hb)
    _ = (e + (b - 1)) / b := (add_div _ _ _).symm

/-- A factor below the divisor passes on no more than the error of the other factor. -/
theorem abs_mul_div_sub_tdiv_le (hb : 0 < b) (hx : |x| ≤ b) (hq : |q - p| ≤ e) :
    |q * x / b - ((p * x).tdiv b : Int)| ≤ e + 1 := by
  have hb' : (0 : ℚ) < b := Int.cast_pos.2 hb
  have hx' : |(x : ℚ) / b| ≤ 1 := by
    rw [abs_div, abs_of_pos hb', div_le_one hb']
    exact_mod_cast hx
  have hpart : |q * x / b - (p * x : Int) / b| ≤ e := by
    have hring : q * x / b - (p * x : Int) / b = (q - p) * (x / b) := by
      push_cast
      ring
    rw [hring, abs_mul]
    calc |q - p| * |(x : ℚ) / b| ≤ e * 1 :=
          mul_le_mul hq hx' (abs_nonneg _) ((abs_nonneg _).trans hq)
      _ = e := mul_one e
  calc |q * x / b - ((p * x).tdiv b : Int)| ≤ |q * x / b - (p * x : Int) / b| +
        |((p * x : Int) : ℚ) / b - ((p * x).tdiv b : Int)| := abs_sub_le _ _ _
    _ ≤ e + 1 := add_le_add hpart (abs_div_sub_tdiv_lt hb).le

end Error

end Rational

end Truncation
