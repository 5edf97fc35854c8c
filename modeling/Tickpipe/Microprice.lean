import Tickpipe.AnalyticsBounds
import Tickpipe.Lib.Mean

set_option autoImplicit true

namespace Tickpipe

open Checked (signed signed_of_fits)

/-- What `on_book` says of the prices. -/
structure Prices where
  microprice1e8 : Int
  mid1e8 : Int
  microMinusMid1e8 : Int

namespace Microstructure

section Book

variable (bidPx bidQty askPx askQty : UInt32)

/-- The part of `quote` that computes them. -/
def prices : Checked Prices := do
  let micro ← microprice bidPx bidQty askPx askQty
  let sum ← midX2 bidPx askPx
  let mid ← signed 64 (sum * 5000)
  let lean ← signed 64 (micro - mid)
  pure ⟨micro, mid, lean⟩

theorem quote_eq_prices (s : Microstructure) :
    s.quote bidPx bidQty askPx askQty = (do
      let prices ← prices bidPx bidQty askPx askQty
      let ofi ← (if s.havePrev then s.imbalance bidPx bidQty askPx askQty else pure s.m.ofi)
      pure { s with m := { s.m with
        bookUpdates := s.m.bookUpdates + 1
        microprice1e8 := prices.microprice1e8
        mid1e8 := prices.mid1e8
        microMinusMid1e8 := prices.microMinusMid1e8
        ofi := ofi } }) := by
  rw [quote, prices]
  simp only [Checked.bind_assoc, Checked.pure_bind]

/-- The mean of the prices that is weighted by the size on the other side. -/
def meanPrice : Nat := mean (bidPx.toNat * 10000) (askPx.toNat * 10000) bidQty.toNat askQty.toNat

theorem tdiv_eq_meanPrice :
    (microNum bidPx bidQty askPx askQty : Int).tdiv (microDen bidQty askQty) =
      meanPrice bidPx bidQty askPx askQty := by
  have hnum : microNum bidPx bidQty askPx askQty =
      bidPx.toNat * 10000 * askQty.toNat + askPx.toNat * 10000 * bidQty.toNat := by
    rw [microNum]
    ring
  rw [← Int.ofNat_tdiv, hnum]
  rfl

variable {bidQty}

theorem prices_eq (hb : bidQty ≠ 0) :
    prices bidPx bidQty askPx askQty = pure {
      microprice1e8 := meanPrice bidPx bidQty askPx askQty
      mid1e8 := (bidPx.toNat + askPx.toNat : Nat) * 5000
      microMinusMid1e8 := meanPrice bidPx bidQty askPx askQty -
        (bidPx.toNat + askPx.toNat : Nat) * 5000 } := by
  have hbid := bidPx.toNat_lt
  have hask := askPx.toNat_lt
  have hq := abs_le.1 (abs_microprice_le bidPx askPx askQty hb)
  rw [tdiv_eq_meanPrice] at hq
  rw [prices, microprice_eq bidPx askPx askQty hb, tdiv_eq_meanPrice, Checked.pure_bind, midX2_eq,
    Checked.pure_bind, signed_of_fits (by omega) (by omega), Checked.pure_bind,
    signed_of_fits (by omega) (by omega), Checked.pure_bind]

variable {askQty bidPx askPx}

theorem onBook_prices (s : Microstructure) (hbid : bidPx ≠ 0) (hlt : bidPx < askPx)
    (hb : bidQty ≠ 0) (ha : askQty ≠ 0) :
    let m := (s.onBook bidPx bidQty askPx askQty).2.m
    m.microprice1e8 = meanPrice bidPx bidQty askPx askQty ∧
      m.microMinusMid1e8 = meanPrice bidPx bidQty askPx askQty -
        (bidPx.toNat + askPx.toNat : Nat) * 5000 := by
  have hask : askPx ≠ 0 := by
    rintro rfl
    exact Nat.not_lt_zero _ hlt
  have hzero : ¬ (bidPx = 0 ∨ askPx = 0 ∨ bidQty = 0 ∨ askQty = 0) := by
    rintro (h | h | h | h)
    · exact hbid h
    · exact hask h
    · exact hb h
    · exact ha h
  obtain ⟨sum, root, hv⟩ :=
    volatility_value (s.quote bidPx bidQty askPx askQty).value bidPx askPx
  rw [onBook, if_neg hzero, if_neg (UInt32.not_le.2 hlt)]
  dsimp only
  rw [hv, quote_eq_prices, prices_eq bidPx askPx askQty hb, Checked.pure_bind]
  exact ⟨rfl, rfl⟩

end Book

/-- The microprice of a quote is computed exactly, lies inside the spread, and leans to the side
with the smaller size. -/
structure Leans (bidPx bidQty askPx askQty : UInt32) : Prop where
  exact : (prices bidPx bidQty askPx askQty).exact = true
  inside (s : Microstructure) : let m := (s.onBook bidPx bidQty askPx askQty).2.m
    (bidPx.toNat * 10 ^ 4 : Int) ≤ m.microprice1e8 ∧ m.microprice1e8 < askPx.toNat * 10 ^ 4
  sign (s : Microstructure) : let m := (s.onBook bidPx bidQty askPx askQty).2.m
    (0 ≤ m.microMinusMid1e8 ↔ bidQty ≥ askQty) ∧ (bidQty = askQty → m.microMinusMid1e8 = 0)
  bid_mono (s s' : Microstructure) (bidQty' : UInt32) : bidQty ≤ bidQty' →
    (s.onBook bidPx bidQty askPx askQty).2.m.microprice1e8 ≤
      (s'.onBook bidPx bidQty' askPx askQty).2.m.microprice1e8
  ask_anti (s s' : Microstructure) (askQty' : UInt32) : askQty ≤ askQty' →
    (s'.onBook bidPx bidQty askPx askQty').2.m.microprice1e8 ≤
      (s.onBook bidPx bidQty askPx askQty).2.m.microprice1e8

theorem microprice_leans (bidPx bidQty askPx askQty : UInt32) (hbid : 0 < bidPx)
    (hlt : bidPx < askPx) (hb : bidQty ≠ 0) (ha : askQty ≠ 0) :
    Leans bidPx bidQty askPx askQty := by
  have hbid' : bidPx ≠ 0 := UInt32.pos_iff_ne_zero.1 hbid
  have hprice : bidPx.toNat * 10000 < askPx.toNat * 10000 :=
    Nat.mul_lt_mul_of_pos_right hlt (by decide)
  have hpos : 0 < bidQty.toNat + askQty.toNat := Nat.add_pos_left (toNat_pos hb) _
  have hmid : bidPx.toNat * 10000 + askPx.toNat * 10000 =
      2 * ((bidPx.toNat + askPx.toNat) * 5000) := by omega
  have hquote (s : Microstructure) := onBook_prices s hbid' hlt hb ha
  constructor
  case exact => rw [prices_eq bidPx askPx askQty hb, Checked.exact_pure]
  case inside =>
    intro s m
    have hlower := Mean.le_mean hprice.le hpos
    have hupper := Mean.mean_lt bidQty.toNat hprice (toNat_pos ha)
    rw [(hquote s).1, meanPrice]
    omega
  case sign =>
    intro s m
    have hhalf := Mean.half_le_mean_iff hmid hprice hpos
    rw [(hquote s).2]
    constructor
    · rw [meanPrice, ge_iff_le, UInt32.le_iff_toNat_le, ← hhalf]
      omega
    · rintro rfl
      rw [meanPrice, Mean.mean_self hmid (toNat_pos hb)]
      omega
  case bid_mono =>
    intro s s' bidQty' hle
    have hb' : bidQty' ≠ 0 := by
      rintro rfl
      exact hb (UInt32.le_zero_iff.1 hle)
    rw [(hquote s).1, (onBook_prices s' hbid' hlt hb' ha).1]
    exact Int.ofNat_le.2 (Mean.mean_mono hprice.le hpos hle)
  case ask_anti =>
    intro s s' askQty' hle
    have ha' : askQty' ≠ 0 := by
      rintro rfl
      exact ha (UInt32.le_zero_iff.1 hle)
    rw [(hquote s).1, (onBook_prices s' hbid' hlt hb ha').1]
    exact Int.ofNat_le.2 (Mean.mean_anti hprice.le hpos hle)

theorem largest_leans : Leans 4294967294 4294967295 4294967295 1 :=
  microprice_leans _ _ _ _ (by decide) (by decide) (by decide) (by decide)

end Microstructure

end Tickpipe
