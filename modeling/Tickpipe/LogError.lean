import Tickpipe.LogSeries

set_option autoImplicit true

namespace Tickpipe.Microstructure

open Truncation (abs_div_sub_tdiv_le_of abs_mul_div_sub_tdiv_le)

/-- The first four terms of `log(1 + t)`, in units of the scale. -/
def exactSeries (t : ℚ) : ℚ := scale * (t - t ^ 2 / 2 + t ^ 3 / 3 - t ^ 4 / 4)

section Error

variable {x : Int}

/-- Each power is off by one more than the power before it. -/
theorem abs_sub_power_le {p : Int} {q e : ℚ} (hx : |x| ≤ scale) (hp : |q - p| ≤ e) :
    |q * x / scale - power p x| ≤ e + 1 :=
  abs_mul_div_sub_tdiv_le scale_pos hx hp

theorem exactSeries_eq (x : Int) : exactSeries (x / scale) =
    x - x * x / scale / 2 + x * x / scale * x / scale / 3 -
      x * x / scale * x / scale * x / scale / 4 := by
  have hscale : (scale : ℚ) ≠ 0 := Int.cast_ne_zero.2 scale_pos.ne'
  rw [exactSeries]
  field_simp

/-- The truncations are off by `1`, `4/3` and `3/2` in the three terms that are divided. -/
theorem abs_series_sub_le (hx : |x| ≤ scale) :
    |(series x : ℚ) - exactSeries (x / scale)| ≤ 23 / 6 := by
  have hself : |(x : ℚ) - x| ≤ 0 := by
    rw [sub_self, abs_zero]
  have h2 := abs_sub_power_le hx hself
  have h3 := abs_sub_power_le hx h2
  have h4 := abs_sub_power_le hx h3
  have hd2 := abs_div_sub_tdiv_le_of (b := 2) (by decide) h2
  have hd3 := abs_div_sub_tdiv_le_of (b := 3) (by decide) h3
  have hd4 := abs_div_sub_tdiv_le_of (b := 4) (by decide) h4
  rw [abs_le] at hd2 hd3 hd4
  rw [exactSeries_eq, series, abs_le]
  push_cast at hd2 hd3 hd4 ⊢
  constructor
  · linarith
  · linarith

end Error

/-- Up to the scale on either side of zero the logarithm is computed exactly as written, and is
within four units of its series. -/
theorem log1p1e12_within_four {x : Int} (hx : |x| ≤ 1000000000000) :
    ∃ r : Int, log1p1e12 x = pure r ∧
      |(r : ℚ) - 10 ^ 12 * (x / 10 ^ 12 - (x / 10 ^ 12) ^ 2 / 2 + (x / 10 ^ 12) ^ 3 / 3 -
        (x / 10 ^ 12) ^ 4 / 4)| < 4 := by
  have hscale : |x| ≤ scale := hx
  obtain ⟨hge, hle⟩ := abs_le.1 hscale
  have hmax : x ≤ maxReturn := hle.trans (by decide)
  have herror := abs_series_sub_le hscale
  have hten : ((scale : Int) : ℚ) = 10 ^ 12 := by norm_num [scale]
  rw [exactSeries, hten] at herror
  exact ⟨series x, (log1p1e12_eq_pure_iff hge).2 ⟨hmax, rfl⟩, herror.trans_lt (by norm_num)⟩

theorem log1p1e12_lowest : ∃ r : Int, log1p1e12 (-1000000000000) = pure r ∧
    |(r : ℚ) - 10 ^ 12 * (((-1000000000000 : Int) : ℚ) / 10 ^ 12 -
      (((-1000000000000 : Int) : ℚ) / 10 ^ 12) ^ 2 / 2 +
      (((-1000000000000 : Int) : ℚ) / 10 ^ 12) ^ 3 / 3 -
      (((-1000000000000 : Int) : ℚ) / 10 ^ 12) ^ 4 / 4)| < 4 :=
  log1p1e12_within_four (by decide)

end Tickpipe.Microstructure
