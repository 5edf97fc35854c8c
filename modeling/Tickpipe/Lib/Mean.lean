import Mathlib.Algebra.Order.Ring.Nat
import Mathlib.Tactic.Linarith
import Mathlib.Tactic.Ring

set_option autoImplicit true

/-! The mean of two numbers, weighted and rounded down. -/

/-- `hi` weighs `x`, and `lo` weighs `y`. -/
def mean (lo hi x y : Nat) : Nat := (lo * y + hi * x) / (x + y)

namespace Mean

variable {lo hi x y m : Nat}

theorem div_le_div_of_mul_le {a b c d : Nat} (hb : 0 < b) (hd : 0 < d) (h : a * d ≤ c * b) :
    a / b ≤ c / d := by
  rw [Nat.le_div_iff_mul_le hd]
  apply Nat.le_of_mul_le_mul_left _ hb
  calc b * (a / b * d) = b * (a / b) * d := (Nat.mul_assoc _ _ _).symm
    _ ≤ a * d := Nat.mul_le_mul_right d (Nat.mul_div_le a b)
    _ ≤ c * b := h
    _ = b * c := Nat.mul_comm c b

theorem le_mean (h : lo ≤ hi) (hpos : 0 < x + y) : lo ≤ mean lo hi x y := by
  have hx := Nat.mul_le_mul_right x h
  rw [mean, Nat.le_div_iff_mul_le hpos, Nat.mul_add]
  omega

theorem mean_lt (x : Nat) (h : lo < hi) (hy : 0 < y) : mean lo hi x y < hi := by
  have hlt := Nat.mul_lt_mul_of_pos_right h hy
  rw [mean, Nat.div_lt_iff_lt_mul (Nat.add_pos_right x hy), Nat.mul_add]
  omega

theorem mean_mono (h : lo ≤ hi) (hpos : 0 < x + y) (hx : x ≤ x') :
    mean lo hi x y ≤ mean lo hi x' y := by
  obtain ⟨d, rfl⟩ := Nat.exists_eq_add_of_le h
  apply div_le_div_of_mul_le hpos (Nat.lt_of_lt_of_le hpos (Nat.add_le_add_right hx y))
  have hweight := Nat.mul_le_mul_left (d * y) hx
  linarith

theorem mean_anti (h : lo ≤ hi) (hpos : 0 < x + y) (hy : y ≤ y') :
    mean lo hi x y' ≤ mean lo hi x y := by
  obtain ⟨d, rfl⟩ := Nat.exists_eq_add_of_le h
  apply div_le_div_of_mul_le (Nat.lt_of_lt_of_le hpos (Nat.add_le_add_left hy x)) hpos
  have hweight := Nat.mul_le_mul_left (d * x) hy
  linarith

section Half

variable (hm : lo + hi = 2 * m)
include hm

/-- The mean is at least the one of equal weights exactly when the higher number weighs no less. -/
theorem half_le_mean_iff (h : lo < hi) (hpos : 0 < x + y) : m ≤ mean lo hi x y ↔ y ≤ x := by
  obtain ⟨d, rfl⟩ := Nat.exists_eq_add_of_lt h
  have hhalf : 2 * (m * (x + y)) = (lo + (lo + d + 1)) * (x + y) := by rw [hm, Nat.mul_assoc]
  have hgap : (lo + (lo + d + 1)) * (x + y) + (d + 1) * x =
      2 * (lo * y + (lo + d + 1) * x) + (d + 1) * y := by ring
  rw [mean, Nat.le_div_iff_mul_le hpos]
  constructor
  · intro hle
    apply Nat.le_of_mul_le_mul_left _ (Nat.succ_pos d)
    rw [Nat.succ_eq_add_one]
    omega
  · intro hle
    have hweight := Nat.mul_le_mul_left (d + 1) hle
    omega

theorem mean_self (hx : 0 < x) : mean lo hi x x = m := by
  have hsum : lo * x + hi * x = m * (x + x) := by
    rw [← Nat.add_mul, hm]
    ring
  rw [mean, hsum]
  exact Nat.mul_div_cancel m (Nat.add_pos_left hx x)

end Half

end Mean
