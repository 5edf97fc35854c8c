import Tickpipe.Microstructure
import Tickpipe.Lib.Truncation

set_option autoImplicit true

namespace Tickpipe.Microstructure

open Checked (signed signed_of_fits signed_eq_pure_iff bind_eq_pure_iff pure_inj)

def power (p x : Int) : Int := (p * x).tdiv scale

def series (x : Int) : Int :=
  let x2 := power x x
  let x3 := power x2 x
  let x4 := power x3 x
  x - x2.tdiv 2 + x3.tdiv 3 - x4.tdiv 4

/-- The largest return whose series fits in 64 bits. -/
def maxReturn : Int := 78265056478150

theorem scale_pos : 0 < scale := by decide

section Bounds

variable {p x m k : Int}

theorem abs_mul_le_scale (hp : |p| ≤ k * scale) (hx : |x| ≤ m * scale) :
    |p * x| ≤ k * m * scale * scale := by
  calc |p * x| = |p| * |x| := abs_mul p x
    _ ≤ k * scale * (m * scale) := mul_le_mul hp hx (abs_nonneg x) ((abs_nonneg p).trans hp)
    _ = k * m * scale * scale := by ring

theorem abs_power_le (hp : |p| ≤ k * scale) (hx : |x| ≤ m * scale) :
    |power p x| ≤ k * m * scale :=
  Truncation.abs_tdiv_le scale_pos (abs_mul_le_scale hp hx)

theorem nextPower_eq (hp : |p| ≤ k * scale) (hx : |x| ≤ m * scale)
    (hkm : k * m * scale * scale < 2 ^ 127) : nextPower p x = pure (power p x) := by
  have hproduct := (abs_mul_le_scale hp hx).trans_lt hkm
  have hpower : |power p x| < 2 ^ 127 := by
    have hle : scale * |power p x| ≤ |p * x| := Truncation.mul_abs_tdiv_le scale_pos
    have hnonneg := abs_nonneg (power p x)
    rw [scale] at hle
    omega
  rw [abs_lt] at hproduct hpower
  rw [power] at hpower
  rw [nextPower, signed_of_fits (by omega) (by omega), Checked.pure_bind, power]
  exact signed_of_fits (by omega) (by omega)

theorem abs_series_le (hx : |x| ≤ m * scale) :
    12 * |series x| ≤ (12 * m + 6 * m ^ 2 + 4 * m ^ 3 + 3 * m ^ 4) * scale := by
  have h2 := abs_power_le hx hx
  have h3 := abs_power_le h2 hx
  have h4 := abs_power_le h3 hx
  rw [series]
  generalize power (power (power x x) x) x = x4 at h4
  generalize power (power x x) x = x3 at h3
  generalize power x x = x2 at h2
  have hd2 : 2 * |x2.tdiv 2| ≤ |x2| := Truncation.mul_abs_tdiv_le (by decide)
  have hd3 : 3 * |x3.tdiv 3| ≤ |x3| := Truncation.mul_abs_tdiv_le (by decide)
  have hd4 : 4 * |x4.tdiv 4| ≤ |x4| := Truncation.mul_abs_tdiv_le (by decide)
  have hsum : |x - x2.tdiv 2 + x3.tdiv 3 - x4.tdiv 4| ≤
      |x| + |x2.tdiv 2| + |x3.tdiv 3| + |x4.tdiv 4| := by
    have h := abs_sub (x - x2.tdiv 2 + x3.tdiv 3) (x4.tdiv 4)
    have h' := abs_add_le (x - x2.tdiv 2) (x3.tdiv 3)
    have h'' := abs_sub x (x2.tdiv 2)
    omega
  linarith

end Bounds

/-- Within `79` times the scale every power is computed exactly, and so are the sums. -/
theorem log1p1e12_eq (hx : |x| ≤ 79 * scale) (hlow : -2 ^ 63 ≤ series x)
    (hhigh : series x < 2 ^ 63) :
    log1p1e12 x = pure (series x) := by
  have h2 := abs_power_le hx hx
  have h3 := abs_power_le h2 hx
  have h4 := abs_power_le h3 hx
  rw [log1p1e12, nextPower_eq hx hx (by decide), Checked.pure_bind,
    nextPower_eq h2 hx (by decide), Checked.pure_bind, nextPower_eq h3 hx (by decide),
    Checked.pure_bind]
  rw [series] at hlow hhigh ⊢
  generalize power (power (power x x) x) x = x4 at h4 hlow hhigh
  generalize power (power x x) x = x3 at h3 hlow hhigh
  generalize power x x = x2 at h2 hlow hhigh
  have hd2 : 2 * |x2.tdiv 2| ≤ |x2| := Truncation.mul_abs_tdiv_le (by decide)
  have hd3 : 3 * |x3.tdiv 3| ≤ |x3| := Truncation.mul_abs_tdiv_le (by decide)
  rw [scale] at hx h2 h3
  have h2' := abs_le.1 (show |x2.tdiv 2| ≤ 2 ^ 64 by omega)
  have h3' := abs_le.1 (show |x3.tdiv 3| ≤ 2 ^ 64 by omega)
  have hx' := abs_le.1 hx
  rw [signed_of_fits (by omega) (by omega), Checked.pure_bind,
    signed_of_fits (by omega) (by omega), Checked.pure_bind,
    signed_of_fits (by omega) (by omega), Checked.pure_bind]
  exact signed_of_fits (by omega) (by omega)

theorem eq_series_of_exact (h : log1p1e12 x = pure r) : r = series x ∧ -2 ^ 63 ≤ r := by
  rw [log1p1e12] at h
  simp only [nextPower, bind_eq_pure_iff, signed_eq_pure_iff] at h
  obtain ⟨x2, ⟨_, ⟨-, rfl⟩, -, rfl⟩, x3, ⟨_, ⟨-, rfl⟩, -, rfl⟩, x4, ⟨_, ⟨-, rfl⟩, -, rfl⟩,
    _, ⟨-, rfl⟩, _, ⟨-, rfl⟩, _, ⟨-, rfl⟩, hfits, rfl⟩ := h
  exact ⟨rfl, by omega⟩

section Nonneg

/-- The powers of a return that is not negative, and the series between bounds that are linear in
them. -/
theorem series_nonneg (hx : 0 ≤ x) : ∃ a b c,
    (scale * a ≤ x * x ∧ x * x < scale * a + scale) ∧
    (scale * b ≤ a * x ∧ a * x < scale * b + scale) ∧
    (scale * c ≤ b * x ∧ b * x < scale * c + scale) ∧ 0 ≤ a ∧ 0 ≤ b ∧ 0 ≤ c ∧
    12 * x - 6 * a + 4 * b - 3 * c - 8 ≤ 12 * series x ∧
    12 * series x ≤ 12 * x - 6 * a + 4 * b - 3 * c + 15 := by
  have hpower {p : Int} (hp : 0 ≤ p) : 0 ≤ power p x :=
    Int.tdiv_nonneg (mul_nonneg hp hx) scale_pos.le
  have hstep {p : Int} (hp : 0 ≤ p) :
      scale * power p x ≤ p * x ∧ p * x < scale * power p x + scale :=
    Truncation.mul_tdiv_le (mul_nonneg hp hx) scale_pos
  have h2 := hpower hx
  have h3 := hpower h2
  have h4 := hpower h3
  refine ⟨_, _, _, hstep hx, hstep h2, hstep h3, h2, h3, h4, ?_⟩
  rw [series]
  generalize power (power (power x x) x) x = c at h4
  generalize power (power x x) x = b at h3
  generalize power x x = a at h2
  have ha := Truncation.mul_tdiv_le (b := 2) h2 (by decide)
  have hb := Truncation.mul_tdiv_le (b := 3) h3 (by decide)
  have hc := Truncation.mul_tdiv_le (b := 4) h4 (by decide)
  omega

theorem series_le_polynomial (hx : 2 * scale ≤ x) :
    12 * scale ^ 3 * series x ≤ scale ^ 3 * (12 * x + 18) + scale ^ 2 * (3 * x - 4 * scale) -
      (x ^ 2 - scale) * (3 * x ^ 2 - 4 * scale * x + 6 * scale ^ 2) := by
  rw [scale] at hx
  obtain ⟨a, b, c, ⟨-, ha⟩, ⟨-, hb⟩, ⟨-, hc⟩, -, -, -, -, hs⟩ :=
    series_nonneg (x := x) (by omega)
  rw [scale] at *
  have hb' := mul_nonneg (show 0 ≤ 1000000000000 * b - a * x + 1000000000000 by linarith)
    (show 0 ≤ 3 * x - 4 * 1000000000000 by omega)
  have ha' := mul_nonneg (show 0 ≤ 1000000000000 * a - x ^ 2 + 1000000000000 by linarith)
    (show 0 ≤ 3 * x ^ 2 - 4 * 1000000000000 * x + 6 * 1000000000000 ^ 2 by nlinarith)
  linarith

/-- Past the largest return the series falls below what 64 bits hold. -/
theorem series_lt_of_gt (h : maxReturn < x) : series x < -2 ^ 63 := by
  obtain ⟨k, rfl⟩ : ∃ k, x = maxReturn + 1 + k := ⟨x - (maxReturn + 1), by ring⟩
  have hk : 0 ≤ k := by omega
  have hle := series_le_polynomial (x := maxReturn + 1 + k) (by rw [scale, maxReturn]; omega)
  have hk2 := pow_nonneg hk 2
  have hk3 := pow_nonneg hk 3
  have hk4 := pow_nonneg hk 4
  generalize series (maxReturn + 1 + k) = r at hle
  rw [scale, maxReturn] at hle
  by_contra hr
  linarith

theorem polynomial_le_series (hx : 2 * scale ≤ x) :
    scale ^ 3 * (12 * x - 8) - x ^ 2 * (3 * x ^ 2 - 4 * scale * x + 6 * scale ^ 2) ≤
      12 * scale ^ 3 * series x := by
  rw [scale] at hx
  obtain ⟨a, b, c, ⟨ha, -⟩, ⟨hb, -⟩, ⟨hc, -⟩, -, -, -, hs, -⟩ := series_nonneg (x := x) (by omega)
  rw [scale] at *
  have hb' := mul_nonneg (show 0 ≤ a * x - 1000000000000 * b by linarith)
    (show 0 ≤ 3 * x - 4 * 1000000000000 by omega)
  have ha' := mul_nonneg (show 0 ≤ x ^ 2 - 1000000000000 * a by linarith)
    (show 0 ≤ 3 * x ^ 2 - 4 * 1000000000000 * x + 6 * 1000000000000 ^ 2 by nlinarith)
  linarith

/-- Up to the largest return the series fits, since its polynomial falls from there on. -/
theorem series_ge_of_le (hx : -scale ≤ x) (h : x ≤ maxReturn) : -2 ^ 63 ≤ series x := by
  rcases le_total (2 * scale) x with hlarge | hsmall
  · have hle := polynomial_le_series hlarge
    have hx0 : 0 ≤ x := by
      rw [scale] at hlarge
      omega
    -- the polynomial at `x` less the one at the largest return has this factor
    have hfactor : 0 ≤ 3 * (maxReturn ^ 3 + maxReturn ^ 2 * x + maxReturn * x ^ 2 + x ^ 3) -
        4 * scale * (maxReturn ^ 2 + maxReturn * x + x ^ 2) + 6 * scale ^ 2 * (maxReturn + x) -
        12 * scale ^ 3 := by
      have hx2 := pow_nonneg hx0 2
      have hx3 := pow_nonneg hx0 3
      rw [scale, maxReturn]
      linarith
    have hfall := mul_nonneg (sub_nonneg.2 h) hfactor
    generalize series x = r at hle
    rw [scale, maxReturn] at hfall
    rw [scale] at hle
    by_contra hr
    linarith
  · have habs : |x| ≤ 2 * scale := by
      rw [abs_le]
      rw [scale] at *
      omega
    have hle := abs_series_le habs
    have hneg := neg_abs_le (series x)
    rw [scale] at hle
    omega

theorem series_lt (hx : -scale ≤ x) : series x < 2 ^ 63 := by
  rcases le_total (2 * scale) x with hlarge | hsmall
  · obtain ⟨k, rfl⟩ : ∃ k, x = 2 * scale + k := ⟨x - 2 * scale, by ring⟩
    have hk : 0 ≤ k := by omega
    have hle := series_le_polynomial hlarge
    have hk2 := pow_nonneg hk 2
    have hk3 := pow_nonneg hk 3
    have hk4 := pow_nonneg hk 4
    generalize series (2 * scale + k) = r at hle
    rw [scale] at hle
    by_contra hr
    linarith
  · have habs : |x| ≤ 2 * scale := by
      rw [abs_le]
      rw [scale] at *
      omega
    have hle := abs_series_le habs
    have hself := le_abs_self (series x)
    rw [scale] at hle
    omega

end Nonneg

/-- From minus one on, the logarithm is computed exactly up to the largest return and no
further. -/
theorem log1p1e12_eq_pure_iff (hx : -scale ≤ x) :
    log1p1e12 x = pure r ↔ x ≤ maxReturn ∧ r = series x := by
  constructor
  · intro h
    obtain ⟨hr, hlow⟩ := eq_series_of_exact h
    refine ⟨?_, hr⟩
    by_contra hgt
    have hlt := series_lt_of_gt (not_le.1 hgt)
    omega
  · rintro ⟨hle, rfl⟩
    apply log1p1e12_eq _ (series_ge_of_le hx hle) (series_lt hx)
    rw [abs_le]
    rw [maxReturn] at hle
    rw [scale] at *
    omega

end Tickpipe.Microstructure
