import Tickpipe.Microstructure
import Tickpipe.Lib.Truncation

set_option autoImplicit true

namespace Tickpipe.Microstructure

open Checked (signed unsigned quotient signed_of_fits unsigned_of_fits quotient_of_ne ite_signed)

/-- What `n` calls can have added to the sums of Kyle's lambda. -/
structure ImpactBounded (n : Nat) (s : Microstructure) : Prop where
  tradeMid : 0 ≤ s.prevTradeMidX2 ∧ s.prevTradeMidX2 < 2 ^ 33
  impact : |s.sumDpV| ≤ n * 2 ^ 65
  impact_volume : |s.sumDpV| ≤ 2 ^ 33 * s.sumVSq
  volume : s.sumVSq ≤ n * 2 ^ 64

/-- What `n` calls can have added to all of the sums but the one of squared returns. -/
structure Bounded (n : Nat) (s : Microstructure) : Prop extends ImpactBounded n s where
  ofi : |s.m.ofi| ≤ n * 2 ^ 33
  spread : s.m.effectiveSpreadSum1e4 ≤ n * 2 ^ 33

theorem Bounded.new : Bounded 0 {} := by
  refine ⟨⟨?_, ?_, ?_, ?_⟩, ?_, ?_⟩ <;> decide

theorem ImpactBounded.mono (h : ImpactBounded n s) (hn : n ≤ n') : ImpactBounded n' s where
  tradeMid := h.tradeMid
  impact := h.impact.trans (by omega)
  impact_volume := h.impact_volume
  volume := h.volume.trans (by omega)

theorem Bounded.mono (h : Bounded n s) (hn : n ≤ n') : Bounded n' s where
  toImpactBounded := h.toImpactBounded.mono hn
  ofi := h.ofi.trans (by omega)
  spread := h.spread.trans (by omega)

theorem toNat_pos {x : UInt32} (h : x ≠ 0) : 0 < x.toNat :=
  Nat.pos_of_ne_zero fun h0 => h (UInt32.toNat_inj.1 h0)

theorem midX2_eq (bidPx askPx : UInt32) :
    midX2 bidPx askPx = pure ((bidPx.toNat + askPx.toNat : Nat) : Int) := by
  have hb := bidPx.toNat_lt
  have ha := askPx.toNat_lt
  rw [midX2, Int.natCast_add]
  apply signed_of_fits <;> omega

section Quote

variable (s : Microstructure) (bidPx bidQty askPx askQty : UInt32)

/-- The microprice before it is rounded down: what is divided, and by what. -/
def microNum : Nat := (bidPx.toNat * askQty.toNat + askPx.toNat * bidQty.toNat) * 10000

def microDen : Nat := bidQty.toNat + askQty.toNat

theorem mul_lt_of_uint32 (x y : UInt32) : x.toNat * y.toNat < 2 ^ 64 := by
  have h := Nat.mul_lt_mul'' x.toNat_lt y.toNat_lt
  rw [← Nat.pow_add] at h
  exact h

theorem microNum_le :
    microNum bidPx bidQty askPx askQty ≤ 2 ^ 32 * 10000 * microDen bidQty askQty := by
  have hbid := Nat.mul_le_mul_right askQty.toNat bidPx.toNat_lt.le
  have hask := Nat.mul_le_mul_right bidQty.toNat askPx.toNat_lt.le
  rw [microNum, microDen]
  omega

variable {bidQty}

theorem microDen_pos (hb : bidQty ≠ 0) : (0 : Int) < microDen bidQty askQty := by
  have hpos := toNat_pos hb
  rw [microDen]
  omega

theorem abs_microprice_le (hb : bidQty ≠ 0) :
    |(microNum bidPx bidQty askPx askQty : Int).tdiv (microDen bidQty askQty)| ≤
      2 ^ 32 * 10000 := by
  apply Truncation.abs_tdiv_le (microDen_pos askQty hb)
  rw [abs_of_nonneg (Int.natCast_nonneg _)]
  exact_mod_cast microNum_le bidPx bidQty askPx askQty

theorem microprice_eq (hb : bidQty ≠ 0) :
    microprice bidPx bidQty askPx askQty =
      pure ((microNum bidPx bidQty askPx askQty : Int).tdiv (microDen bidQty askQty)) := by
  have hbid := mul_lt_of_uint32 bidPx askQty
  have hask := mul_lt_of_uint32 askPx bidQty
  have hbq := bidQty.toNat_lt
  have haq := askQty.toNat_lt
  have hden := microDen_pos askQty hb
  have hq := abs_le.1 (abs_microprice_le bidPx askPx askQty hb)
  rw [microprice, unsigned_of_fits (n := bidPx.toNat * askQty.toNat) (by push_cast; rfl) (by omega),
    Checked.pure_bind,
    unsigned_of_fits (n := askPx.toNat * bidQty.toNat) (by push_cast; rfl) (by omega),
    Checked.pure_bind,
    unsigned_of_fits (n := bidPx.toNat * askQty.toNat + askPx.toNat * bidQty.toNat)
      (by push_cast; rfl) (by omega), Checked.pure_bind,
    unsigned_of_fits (n := microNum bidPx bidQty askPx askQty) (by rw [microNum]; push_cast; rfl)
      (by rw [microNum]; omega), Checked.pure_bind,
    unsigned_of_fits (n := microDen bidQty askQty) (by rw [microDen]; push_cast; rfl)
      (by rw [microDen]; omega), Checked.pure_bind, quotient_of_ne hden.ne', Checked.pure_bind]
  apply signed_of_fits <;> omega

variable (bidQty)

def flow : Int :=
  let e := if bidPx ≥ s.pb then (bidQty.toNat : Int) else 0
  let e := if bidPx ≤ s.pb then e - s.qb.toNat else e
  let e := if askPx ≤ s.pa then e - askQty.toNat else e
  if askPx ≥ s.pa then e + s.qa.toNat else e

variable {s}

/-- The imbalance moves by at most two sizes on either side of zero. -/
theorem imbalance_eq (h : |s.m.ofi| ≤ 2 ^ 62) :
    s.imbalance bidPx bidQty askPx askQty = pure (s.m.ofi + s.flow bidPx bidQty askPx askQty) ∧
      |s.flow bidPx bidQty askPx askQty| ≤ 2 ^ 33 := by
  have hbq := bidQty.toNat_lt
  have haq := askQty.toNat_lt
  have hqb := s.qb.toNat_lt
  have hqa := s.qa.toNat_lt
  rw [abs_le] at h
  rw [imbalance, flow]
  rw [ite_signed fun _ => by omega, Checked.pure_bind]
  generalize he : (if bidPx ≥ s.pb then (bidQty.toNat : Int) else 0) = e1
  have h1 : 0 ≤ e1 ∧ e1 < 2 ^ 32 := by
    rw [← he]
    split <;> omega
  clear he
  rw [ite_signed fun _ => by omega, Checked.pure_bind]
  generalize he : (if bidPx ≤ s.pb then e1 - s.qb.toNat else e1) = e2
  have h2 : -2 ^ 32 < e2 ∧ e2 < 2 ^ 32 := by
    rw [← he]
    split <;> omega
  clear he
  rw [ite_signed fun _ => by omega, Checked.pure_bind]
  generalize he : (if askPx ≤ s.pa then e2 - askQty.toNat else e2) = e3
  have h3 : -2 ^ 33 < e3 ∧ e3 < 2 ^ 32 := by
    rw [← he]
    split <;> omega
  clear he
  rw [ite_signed fun _ => by omega, Checked.pure_bind]
  generalize he : (if askPx ≥ s.pa then e3 + s.qa.toNat else e3) = e4
  have h4 : -2 ^ 33 < e4 ∧ e4 < 2 ^ 33 := by
    rw [← he]
    split <;> omega
  rw [abs_le]
  exact ⟨signed_of_fits (by omega) (by omega), by omega, by omega⟩

variable (s) in
/-- The metrics with an update, but for the volatility. -/
def withQuote : Microstructure :=
  { s with m := { s.m with
    bookUpdates := s.m.bookUpdates + 1
    microprice1e8 := (microNum bidPx bidQty askPx askQty : Int).tdiv (microDen bidQty askQty)
    mid1e8 := (bidPx.toNat + askPx.toNat : Nat) * 5000
    microMinusMid1e8 := (microNum bidPx bidQty askPx askQty : Int).tdiv
      (microDen bidQty askQty) - (bidPx.toNat + askPx.toNat : Nat) * 5000
    ofi := if s.havePrev then s.m.ofi + s.flow bidPx bidQty askPx askQty else s.m.ofi } }

theorem quote_eq (h : |s.m.ofi| ≤ 2 ^ 62) (hb : bidQty ≠ 0) :
    s.quote bidPx bidQty askPx askQty = pure (s.withQuote bidPx bidQty askPx askQty) := by
  have hbid := bidPx.toNat_lt
  have hask := askPx.toNat_lt
  have hq := abs_le.1 (abs_microprice_le bidPx askPx askQty hb)
  obtain ⟨hflow, -⟩ := imbalance_eq bidPx bidQty askPx askQty h
  rw [quote, microprice_eq bidPx askPx askQty hb, Checked.pure_bind, midX2_eq, Checked.pure_bind,
    signed_of_fits (by omega) (by omega), Checked.pure_bind,
    signed_of_fits (by omega) (by omega), Checked.pure_bind, hflow, ← apply_ite pure]
  rfl

end Quote

section Trade

/-- What a trade adds to the effective spread. -/
def spreadOf (mid : Int) (px : UInt32) : Nat := (2 * px.toNat - mid).natAbs

theorem spreadOf_lt (hmid : 0 ≤ mid ∧ mid < 2 ^ 33) (px : UInt32) : spreadOf mid px < 2 ^ 33 := by
  have hpx := px.toNat_lt
  rw [spreadOf]
  omega

/-- The sums of Kyle's lambda with a trade of signed volume `v`, and the lambda they give. -/
def withImpact (s : Microstructure) (dp v : Int) : Microstructure :=
  let sumDpV := s.sumDpV + dp * v
  let sumVSq := s.sumVSq + v.natAbs ^ 2
  { s with
    sumDpV, sumVSq
    m := { s.m with kyleLambda1e12 :=
      if sumVSq > 0 then (sumDpV * 50000000).tdiv sumVSq else s.m.kyleLambda1e12 } }

section Impact

variable {s : Microstructure} {n : Nat} {mid dp v : Int}

/-- A move weighted by a volume is no more than the largest move for the squared volume. -/
theorem abs_mul_le (hdp : |dp| ≤ 2 ^ 33) (v : Int) : |dp * v| ≤ 2 ^ 33 * (v.natAbs ^ 2 : Nat) := by
  have hv : |v| ≤ (v.natAbs ^ 2 : Nat) := by
    rw [Int.abs_eq_natAbs]
    exact_mod_cast Nat.le_self_pow two_ne_zero v.natAbs
  calc |dp * v| = |dp| * |v| := abs_mul dp v
    _ ≤ 2 ^ 33 * (v.natAbs ^ 2 : Nat) := mul_le_mul hdp hv (abs_nonneg v) (by decide)

theorem natAbs_sq_lt (hv : |v| < 2 ^ 32) : v.natAbs ^ 2 < 2 ^ 64 := by
  have hlt : v.natAbs < 2 ^ 32 := by
    rw [abs_lt] at hv
    omega
  exact Nat.pow_lt_pow_left hlt two_ne_zero

theorem ImpactBounded.sums (hs : ImpactBounded n s) (hdp : |dp| ≤ 2 ^ 33) (hv : |v| < 2 ^ 32) :
    |s.sumDpV + dp * v| ≤ (n + 1 : Nat) * 2 ^ 65 ∧
      |s.sumDpV + dp * v| ≤ 2 ^ 33 * (s.sumVSq + v.natAbs ^ 2 : Nat) ∧
      s.sumVSq + v.natAbs ^ 2 ≤ (n + 1) * 2 ^ 64 := by
  have hadd := abs_add_le s.sumDpV (dp * v)
  have hproduct : |dp * v| ≤ 2 ^ 33 * 2 ^ 32 := by
    rw [abs_mul]
    exact mul_le_mul hdp hv.le (abs_nonneg v) (by decide)
  have hsquare := abs_mul_le hdp v
  have hlt := natAbs_sq_lt hv
  have himpact := hs.impact
  have hvolume := hs.impact_volume
  have hsum := hs.volume
  refine ⟨?_, ?_, ?_⟩
  · push_cast
    omega
  · rw [Int.natCast_add]
    omega
  · omega

theorem addImpact_eq (hs : ImpactBounded n s) (hn : n < 2 ^ 29) (hmid : 0 ≤ mid ∧ mid < 2 ^ 33)
    (hv : |v| < 2 ^ 32) : s.addImpact mid v = pure (s.withImpact (mid - s.prevTradeMidX2) v) := by
  have hprev := hs.tradeMid
  generalize hdp' : mid - s.prevTradeMidX2 = dp
  have hdp : |dp| ≤ 2 ^ 33 := abs_le.2 (by omega)
  have hproduct : |dp * v| ≤ 2 ^ 33 * 2 ^ 32 := by
    rw [abs_mul]
    exact mul_le_mul hdp hv.le (abs_nonneg v) (by decide)
  have hsquare : v * v = (v.natAbs ^ 2 : Nat) := by rw [Nat.pow_two, ← Int.natAbs_mul_self]
  have hlt := natAbs_sq_lt hv
  obtain ⟨hsum, hvolume, hsq⟩ := hs.sums hdp hv
  rw [abs_le] at hproduct hsum
  rw [addImpact, hdp', signed_of_fits (by omega) (by omega), Checked.pure_bind,
    signed_of_fits (by omega) (by omega), Checked.pure_bind,
    signed_of_fits (by omega) (by omega), Checked.pure_bind, hsquare,
    signed_of_fits (by omega) (by omega), Checked.pure_bind,
    unsigned_of_fits rfl (by omega), Checked.pure_bind,
    unsigned_of_fits (Int.natCast_add _ _).symm (by omega), Checked.pure_bind]
  dsimp only
  by_cases hpos : s.sumVSq + v.natAbs ^ 2 > 0
  · have hden : (0 : Int) < (s.sumVSq + v.natAbs ^ 2 : Nat) := by omega
    have hq : |((s.sumDpV + dp * v) * 50000000).tdiv (s.sumVSq + v.natAbs ^ 2 : Nat)| ≤
        2 ^ 33 * 50000000 := by
      apply Truncation.abs_tdiv_le hden
      rw [abs_mul]
      have h5 : |(50000000 : Int)| = 50000000 := rfl
      rw [h5]
      omega
    rw [abs_le] at hq
    rw [if_pos hpos, signed_of_fits (by omega) (by omega), Checked.pure_bind,
      signed_of_fits (by omega) (by omega), Checked.pure_bind, quotient_of_ne hden.ne',
      Checked.pure_bind, signed_of_fits (by omega) (by omega), Checked.pure_bind, withImpact]
    dsimp only
    rw [if_pos hpos]
  · rw [if_neg hpos, withImpact]
    dsimp only
    rw [if_neg hpos]

theorem ImpactBounded.withImpact (hs : ImpactBounded n s) (hdp : |dp| ≤ 2 ^ 33)
    (hv : |v| < 2 ^ 32) : ImpactBounded (n + 1) (s.withImpact dp v) := by
  obtain ⟨hsum, hvolume, hsq⟩ := hs.sums hdp hv
  exact ⟨hs.tradeMid, hsum, hvolume, hsq⟩

end Impact

variable (s : Microstructure) (px qty : UInt32) (buyerInitiated : Bool)

def signedVolume : Int := if buyerInitiated then qty.toNat else -qty.toNat

theorem abs_signedVolume_lt : |signedVolume qty buyerInitiated| < 2 ^ 32 := by
  have hqty := qty.toNat_lt
  rw [signedVolume, abs_lt]
  split <;> omega

def lastMid : Int := (s.pb.toNat + s.pa.toNat : Nat)

theorem lastMid_bounds : 0 ≤ s.lastMid ∧ s.lastMid < 2 ^ 33 := by
  have hpb := s.pb.toNat_lt
  have hpa := s.pa.toNat_lt
  rw [lastMid]
  omega

def withSpread : Microstructure :=
  { s with m := { s.m with
    trades := s.m.trades + 1
    effectiveSpreadSum1e4 := s.m.effectiveSpreadSum1e4 + spreadOf s.lastMid px
    effectiveSpreadN := s.m.effectiveSpreadN + 1 } }

def withTrade : Microstructure :=
  let s' :=
    if s.prevTradeMidX2 > 0 then
      (s.withSpread px).withImpact (s.lastMid - s.prevTradeMidX2) (signedVolume qty buyerInitiated)
    else s.withSpread px
  { s' with prevTradeMidX2 := s.lastMid }

variable {s}

theorem addSpread_eq (h : s.m.effectiveSpreadSum1e4 < 2 ^ 63) :
    s.addSpread s.lastMid px = pure (s.withSpread px) := by
  have hpx := px.toNat_lt
  have hmid := s.lastMid_bounds
  have hlt := spreadOf_lt hmid px
  have hd : (if 2 * px.toNat - s.lastMid < 0 then -(2 * px.toNat - s.lastMid)
      else 2 * px.toNat - s.lastMid) = (spreadOf s.lastMid px : Int) := by
    rw [spreadOf]
    split <;> omega
  rw [addSpread, signed_of_fits (by omega) (by omega), Checked.pure_bind,
    signed_of_fits (by omega) (by omega), Checked.pure_bind, ite_signed fun _ => by omega,
    Checked.pure_bind, unsigned_of_fits hd (by omega), Checked.pure_bind,
    unsigned_of_fits (Int.natCast_add _ _).symm (by omega), Checked.pure_bind, withSpread]

theorem trade_eq (hs : Bounded n s) (hn : n < 2 ^ 29) :
    s.trade px qty buyerInitiated = pure (s.withTrade px qty buyerInitiated) := by
  have hqty := qty.toNat_lt
  have hspread := hs.spread
  have hv : (if buyerInitiated then signed 64 qty.toNat else signed 64 (-qty.toNat)) =
      pure (signedVolume qty buyerInitiated) := by
    rw [signedVolume]
    split <;> exact signed_of_fits (by omega) (by omega)
  have himpact : (s.withSpread px).addImpact s.lastMid (signedVolume qty buyerInitiated) =
      pure ((s.withSpread px).withImpact (s.lastMid - s.prevTradeMidX2)
        (signedVolume qty buyerInitiated)) :=
    addImpact_eq ⟨hs.tradeMid, hs.impact, hs.impact_volume, hs.volume⟩ hn s.lastMid_bounds
      (abs_signedVolume_lt qty buyerInitiated)
  rw [trade, midX2_eq, Checked.pure_bind, ← lastMid, addSpread_eq px (by omega), Checked.pure_bind,
    hv, Checked.pure_bind, himpact, ← apply_ite pure]
  rfl

theorem Bounded.withTrade (hs : Bounded n s) :
    Bounded (n + 1) (s.withTrade px qty buyerInitiated) := by
  have hmid := s.lastMid_bounds
  have hlt := spreadOf_lt hmid px
  have hofi := (hs.mono (Nat.le_succ n)).ofi
  have hspread : s.m.effectiveSpreadSum1e4 + spreadOf s.lastMid px ≤ (n + 1) * 2 ^ 33 := by
    have hle := hs.spread
    omega
  have himpact : ImpactBounded n (s.withSpread px) :=
    ⟨hs.tradeMid, hs.impact, hs.impact_volume, hs.volume⟩
  rw [Microstructure.withTrade]
  split
  · have hprev := hs.tradeMid
    have hdp : |s.lastMid - s.prevTradeMidX2| ≤ 2 ^ 33 := abs_le.2 (by omega)
    have h := himpact.withImpact hdp (abs_signedVolume_lt qty buyerInitiated)
    exact ⟨⟨hmid, h.impact, h.impact_volume, h.volume⟩, hofi, hspread⟩
  · have h := himpact.mono (Nat.le_succ n)
    exact ⟨⟨hmid, h.impact, h.impact_volume, h.volume⟩, hofi, hspread⟩

end Trade

section Volatility

/-- Whatever the return, the volatility changes its own metrics and the previous mid only. -/
theorem volatility_value (s : Microstructure) (bidPx askPx : UInt32) :
    ∃ sum root, (s.volatility bidPx askPx).value = { s with
      sumSqRet1e18 := sum
      prevMid1e4X2 := (bidPx.toNat + askPx.toNat : Nat)
      havePrev := true
      m := { s.m with
        realizedVol1e9 := root
        returnSamples :=
          if s.havePrev ∧ s.prevMid1e4X2 > 0 ∧
              ((bidPx.toNat + askPx.toNat : Nat) : Int) ≠ s.prevMid1e4X2 then
            s.m.returnSamples + 1
          else s.m.returnSamples } } := by
  rw [volatility, midX2_eq, Checked.pure_bind]
  split
  · exact ⟨_, _, rfl⟩
  · exact ⟨_, _, rfl⟩

end Volatility

end Tickpipe.Microstructure
