import Tickpipe.AnalyticsBounds
import Tickpipe.RefDouble

set_option autoImplicit true

namespace Tickpipe

open Mealy (after outputs)
open Microstructure (Bounded microNum microDen microDen_pos withQuote)

namespace Microstructure

variable {s : Microstructure} {n : Nat} (bidPx bidQty askPx askQty : UInt32)

theorem onBook_eq (hofi : |s.m.ofi| ≤ 2 ^ 62)
    (hzero : ¬ (bidPx = 0 ∨ askPx = 0 ∨ bidQty = 0 ∨ askQty = 0)) (hlt : ¬ bidPx ≥ askPx) :
    ∃ exact sum root, s.onBook bidPx bidQty askPx askQty = (⟨true, exact⟩,
      { s.withQuote bidPx bidQty askPx askQty with
        pb := bidPx
        qb := bidQty
        pa := askPx
        qa := askQty
        havePrev := true
        sumSqRet1e18 := sum
        prevMid1e4X2 := (bidPx.toNat + askPx.toNat : Nat)
        m := { (s.withQuote bidPx bidQty askPx askQty).m with
          realizedVol1e9 := root
          returnSamples :=
            if s.havePrev ∧ s.prevMid1e4X2 > 0 ∧
                ((bidPx.toNat + askPx.toNat : Nat) : Int) ≠ s.prevMid1e4X2 then
              s.m.returnSamples + 1
            else s.m.returnSamples } }) := by
  have hb : bidQty ≠ 0 := fun h => hzero (.inr (.inr (.inl h)))
  rw [onBook, if_neg hzero, if_neg hlt, quote_eq bidPx bidQty askPx askQty hofi hb]
  obtain ⟨sum, root, hv⟩ :=
    volatility_value (s.withQuote bidPx bidQty askPx askQty) bidPx askPx
  dsimp only [Checked.value_pure, Checked.exact_pure]
  rw [hv]
  exact ⟨_, sum, root, rfl⟩

theorem Bounded.onBook (hs : Bounded n s) (hn : n < 2 ^ 29) :
    (s.onBook bidPx bidQty askPx askQty).1.analytics = true ∧
      Bounded (n + 1) (s.onBook bidPx bidQty askPx askQty).2 := by
  have hmono := hs.mono (Nat.le_succ n)
  by_cases hzero : bidPx = 0 ∨ askPx = 0 ∨ bidQty = 0 ∨ askQty = 0
  · rw [Microstructure.onBook, if_pos hzero]
    exact ⟨rfl, hmono⟩
  · by_cases hlt : bidPx ≥ askPx
    · rw [Microstructure.onBook, if_neg hzero, if_pos hlt]
      exact ⟨rfl, ⟨hmono.tradeMid, hmono.impact, hmono.impact_volume, hmono.volume⟩, hmono.ofi,
        hmono.spread⟩
    · have hofi : |s.m.ofi| ≤ 2 ^ 62 := hs.ofi.trans (by omega)
      obtain ⟨exact, sum, root, h⟩ := onBook_eq bidPx bidQty askPx askQty hofi hzero hlt
      rw [h]
      refine ⟨rfl, ⟨hmono.tradeMid, hmono.impact, hmono.impact_volume, hmono.volume⟩, ?_,
        hmono.spread⟩
      obtain ⟨-, hflow⟩ := imbalance_eq bidPx bidQty askPx askQty hofi
      have hadd := abs_add_le s.m.ofi (s.flow bidPx bidQty askPx askQty)
      have hle := hs.ofi
      dsimp only [withQuote]
      split
      · push_cast
        omega
      · exact hmono.ofi

theorem Bounded.onTrade (hs : Bounded n s) (hn : n < 2 ^ 29) (px qty : UInt32)
    (buyerInitiated : Bool) : (s.onTrade px qty buyerInitiated).1.analytics = true ∧
      Bounded (n + 1) (s.onTrade px qty buyerInitiated).2 := by
  rw [Microstructure.onTrade]
  split
  · exact ⟨rfl, hs.mono (Nat.le_succ n)⟩
  · rw [trade_eq px qty buyerInitiated hs hn]
    exact ⟨rfl, hs.withTrade px qty buyerInitiated⟩

end Microstructure

namespace RefDouble

section Book

variable (log : ℚ → ℚ) (r : RefDouble) (bp bq ap aq : ℚ)

def flow : ℚ :=
  let e := 0
  let e := if bp ≥ r.pb then e + bq else e
  let e := if bp ≤ r.pb then e - r.qb else e
  let e := if ap ≤ r.pa then e - aq else e
  if ap ≥ r.pa then e + r.qa else e

theorem onBook_eq (hzero : ¬ (bp ≤ 0 ∨ ap ≤ 0 ∨ bq ≤ 0 ∨ aq ≤ 0)) (hlt : ¬ bp ≥ ap) :
    ∃ sumSq, r.onBook log bp bq ap aq = { r with
      micro := (bp * aq + ap * bq) / (bq + aq)
      mid := (bp + ap) / 2
      ofi := if r.havePrev then r.ofi + r.flow bp bq ap aq else r.ofi
      sumSq := sumSq
      nRet := if r.havePrev ∧ r.prevMid > 0 ∧ (bp + ap) / 2 ≠ r.prevMid then r.nRet + 1 else r.nRet
      prevMid := (bp + ap) / 2
      havePrev := true
      pb := bp
      qb := bq
      pa := ap
      qa := aq } := by
  rw [onBook, if_neg hzero, if_neg hlt]
  dsimp only
  cases hp : r.havePrev with
  | false =>
    refine ⟨r.sumSq, ?_⟩
    simp only [Bool.false_eq_true, if_false, false_and]
  | true =>
    by_cases hm : r.prevMid > 0 ∧ (bp + ap) / 2 ≠ r.prevMid
    · refine ⟨r.sumSq + log ((bp + ap) / 2 / r.prevMid) * log ((bp + ap) / 2 / r.prevMid), ?_⟩
      simp only [if_true, true_and, if_pos hm]
      rfl
    · refine ⟨r.sumSq, ?_⟩
      simp only [if_true, true_and, if_neg hm]
      rfl

end Book

section Trade

variable (r : RefDouble) (px q dp v : ℚ) (buy : Bool)

def lastMid : ℚ := (r.pb + r.pa) / 2

def withSpread : RefDouble :=
  { r with esSum := r.esSum + 2 * |px - r.lastMid|, esN := r.esN + 1 }

def withImpact : RefDouble :=
  { r with
    sumDpv := r.sumDpv + dp * v
    sumVv := r.sumVv + v * v
    lambda := if r.sumVv + v * v > 0 then (r.sumDpv + dp * v) / (r.sumVv + v * v) else r.lambda }

theorem withImpact_eq : r.withImpact dp v =
    let r := { r with sumDpv := r.sumDpv + dp * v, sumVv := r.sumVv + v * v }
    if r.sumVv > 0 then { r with lambda := r.sumDpv / r.sumVv } else r := by
  rw [withImpact]
  dsimp only
  split
  · rfl
  · rfl

theorem onTrade_eq (h : r.havePrev = true) : r.onTrade px q buy =
    { (if r.prevTradeMid > 0 then
        (r.withSpread px).withImpact (r.lastMid - r.prevTradeMid) (if buy then q else -q)
      else r.withSpread px) with prevTradeMid := r.lastMid } := by
  rw [onTrade, if_neg (not_not.2 h), withImpact_eq]
  rfl

end Trade

end RefDouble

/-- The metrics are those of the twin, each in its unit. -/
structure Shadows (m : Metrics) (r : RefDouble) : Prop where
  mid : (m.mid1e8 : ℚ) = 10 ^ 4 * r.mid
  ofi : (m.ofi : ℚ) = r.ofi
  spread : (m.effectiveSpreadSum1e4 : ℚ) = r.esSum
  spreadN : m.effectiveSpreadN = r.esN
  samples : m.returnSamples = r.nRet
  degenerate : m.degenerateBooks = r.degenerate
  micro : 0 ≤ 10 ^ 4 * r.micro - m.microprice1e8 ∧ 10 ^ 4 * r.micro - m.microprice1e8 < 1
  lambda : |10 ^ 8 * r.lambda - m.kyleLambda1e12| < 1

/-- The analytics hold what their twin holds, with the mids doubled. -/
structure Agrees (s : Microstructure) (r : RefDouble) : Prop where
  refines : Shadows s.m r
  havePrev : s.havePrev = r.havePrev
  quoted : s.havePrev = true → s.pb ≠ 0 ∧ s.pa ≠ 0
  pb : (s.pb.toNat : ℚ) = r.pb
  qb : (s.qb.toNat : ℚ) = r.qb
  pa : (s.pa.toNat : ℚ) = r.pa
  qa : (s.qa.toNat : ℚ) = r.qa
  prevMid : (s.prevMid1e4X2 : ℚ) = 2 * r.prevMid
  prevTradeMid : (s.prevTradeMidX2 : ℚ) = 2 * r.prevTradeMid
  sumDpV : (s.sumDpV : ℚ) = 2 * r.sumDpv
  sumVSq : (s.sumVSq : ℚ) = r.sumVv

namespace Agrees

theorem new : Agrees {} {} where
  refines := ⟨by norm_num, rfl, rfl, rfl, rfl, rfl, by norm_num, by norm_num⟩
  havePrev := rfl
  quoted h := by cases h
  pb := rfl
  qb := rfl
  pa := rfl
  qa := rfl
  prevMid := by norm_num
  prevTradeMid := by norm_num
  sumDpV := by norm_num
  sumVSq := by norm_num

variable {s : Microstructure} {r : RefDouble} {n : Nat} (log : ℚ → ℚ)

theorem toNat_nonpos_iff (x : UInt32) : (x.toNat : ℚ) ≤ 0 ↔ x = 0 := by
  rw [← UInt32.toNat_inj]
  exact_mod_cast Nat.le_zero

section Flow

variable {c c' : Prop} [Decidable c] [Decidable c'] {e : Int} {e' : ℚ}

theorem ite_add_cast (h : c ↔ c') (he : (e : ℚ) = e') (x : Nat) :
    ((if c then e + x else e : Int) : ℚ) = if c' then e' + x else e' := by
  rw [apply_ite Int.cast, Int.cast_add, Int.cast_natCast, he]
  exact if_congr h rfl rfl

theorem ite_sub_cast (h : c ↔ c') (he : (e : ℚ) = e') (x : Nat) :
    ((if c then e - x else e : Int) : ℚ) = if c' then e' - x else e' := by
  rw [apply_ite Int.cast, Int.cast_sub, Int.cast_natCast, he]
  exact if_congr h rfl rfl

end Flow

theorem flow (h : Agrees s r) (bidPx bidQty askPx askQty : UInt32) :
    (s.flow bidPx bidQty askPx askQty : ℚ) =
      r.flow bidPx.toNat bidQty.toNat askPx.toNat askQty.toNat := by
  have hle (x y : UInt32) : x ≤ y ↔ (x.toNat : ℚ) ≤ y.toNat := Nat.cast_le.symm
  rw [Microstructure.flow, RefDouble.flow, ← h.pb, ← h.qb, ← h.pa, ← h.qa]
  apply ite_add_cast (hle _ _)
  apply ite_sub_cast (hle _ _)
  apply ite_sub_cast (hle _ _)
  rw [← Int.zero_add (bidQty.toNat : Int)]
  exact ite_add_cast (hle _ _) Int.cast_zero _

section Book

variable (bidPx bidQty askPx askQty : UInt32)

theorem mid_cast :
    (((bidPx.toNat + askPx.toNat : Nat) : Int) : ℚ) =
      2 * ((bidPx.toNat + askPx.toNat : ℚ) / 2) := by
  push_cast
  ring

theorem return_iff (h : Agrees s r) :
    (s.havePrev ∧ s.prevMid1e4X2 > 0 ∧
      ((bidPx.toNat + askPx.toNat : Nat) : Int) ≠ s.prevMid1e4X2) ↔
      (r.havePrev ∧ r.prevMid > 0 ∧ (bidPx.toNat + askPx.toNat : ℚ) / 2 ≠ r.prevMid) := by
  have hprev := h.prevMid
  have hpos : s.prevMid1e4X2 > 0 ↔ r.prevMid > 0 := by
    rw [gt_iff_lt, ← Int.cast_pos (R := ℚ), hprev]
    constructor <;> intro h <;> linarith
  have hmid : ((bidPx.toNat + askPx.toNat : Nat) : Int) ≠ s.prevMid1e4X2 ↔
      (bidPx.toNat + askPx.toNat : ℚ) / 2 ≠ r.prevMid := by
    rw [← Int.cast_inj.ne (α := ℚ), hprev, mid_cast, Ne, mul_right_inj' two_ne_zero]
  rw [h.havePrev, hpos, hmid]

theorem micro (hb : bidQty ≠ 0) :
    let micro : ℚ := (bidPx.toNat * askQty.toNat + askPx.toNat * bidQty.toNat) /
      (bidQty.toNat + askQty.toNat)
    let micro1e8 := (microNum bidPx bidQty askPx askQty : Int).tdiv (microDen bidQty askQty)
    0 ≤ 10 ^ 4 * micro - micro1e8 ∧ 10 ^ 4 * micro - micro1e8 < 1 := by
  have h := Truncation.div_sub_tdiv_nonneg (Int.natCast_nonneg
    (microNum bidPx bidQty askPx askQty)) (microDen_pos askQty hb)
  have hscale : (10 : ℚ) ^ 4 * ((bidPx.toNat * askQty.toNat + askPx.toNat * bidQty.toNat) /
      (bidQty.toNat + askQty.toNat)) =
      ((microNum bidPx bidQty askPx askQty : Int) : ℚ) / (microDen bidQty askQty : Int) := by
    rw [microNum, microDen]
    push_cast
    ring
  intro micro micro1e8
  rw [hscale]
  exact h

theorem onBook (h : Agrees s r) (hs : Bounded n s) (hn : n < 2 ^ 29) :
    Agrees (s.onBook bidPx bidQty askPx askQty).2
      (r.onBook log bidPx.toNat bidQty.toNat askPx.toNat askQty.toNat) := by
  have hzero : ((bidPx.toNat : ℚ) ≤ 0 ∨ (askPx.toNat : ℚ) ≤ 0 ∨ (bidQty.toNat : ℚ) ≤ 0 ∨
      (askQty.toNat : ℚ) ≤ 0) ↔ (bidPx = 0 ∨ askPx = 0 ∨ bidQty = 0 ∨ askQty = 0) := by
    rw [toNat_nonpos_iff, toNat_nonpos_iff, toNat_nonpos_iff, toNat_nonpos_iff]
  have hlt : (bidPx.toNat : ℚ) ≥ askPx.toNat ↔ bidPx ≥ askPx := Nat.cast_le
  have hflow := h.flow bidPx bidQty askPx askQty
  have hreturn := h.return_iff bidPx askPx
  obtain ⟨hm, hprev, hquoted, hpb, hqb, hpa, hqa, hmid, htrade, hdpv, hvsq⟩ := h
  by_cases hz : bidPx = 0 ∨ askPx = 0 ∨ bidQty = 0 ∨ askQty = 0
  · rw [Microstructure.onBook, if_pos hz, RefDouble.onBook, if_pos (hzero.2 hz)]
    exact ⟨hm, hprev, hquoted, hpb, hqb, hpa, hqa, hmid, htrade, hdpv, hvsq⟩
  · by_cases hl : bidPx ≥ askPx
    · rw [Microstructure.onBook, if_neg hz, if_pos hl, RefDouble.onBook, if_neg (hz ∘ hzero.1),
        if_pos (hlt.2 hl)]
      exact ⟨⟨hm.mid, hm.ofi, hm.spread, hm.spreadN, hm.samples, congrArg (· + 1) hm.degenerate,
        hm.micro, hm.lambda⟩, hprev, hquoted, hpb, hqb, hpa, hqa, hmid, htrade, hdpv, hvsq⟩
    · have hofi : |s.m.ofi| ≤ 2 ^ 62 := hs.ofi.trans (by omega)
      have hb : bidQty ≠ 0 := fun h => hz (.inr (.inr (.inl h)))
      obtain ⟨exact, sum, root, hnext⟩ :=
        Microstructure.onBook_eq bidPx bidQty askPx askQty hofi hz hl
      obtain ⟨sumSq, hnext'⟩ := RefDouble.onBook_eq log r bidPx.toNat bidQty.toNat askPx.toNat
        askQty.toNat (hz ∘ hzero.1) (hl ∘ hlt.1)
      rw [hnext, hnext']
      exact {
        refines := {
          mid := by
            dsimp only [withQuote]
            push_cast
            ring
          ofi := by
            dsimp only [withQuote]
            rw [apply_ite Int.cast, Int.cast_add, hflow, hm.ofi, hprev]
          spread := hm.spread
          spreadN := hm.spreadN
          samples := if_congr hreturn (congrArg (· + 1) hm.samples) hm.samples
          degenerate := hm.degenerate
          micro := micro bidPx bidQty askPx askQty hb
          lambda := hm.lambda }
        havePrev := rfl
        quoted := fun _ => ⟨fun h => hz (.inl h), fun h => hz (.inr (.inl h))⟩
        pb := rfl
        qb := rfl
        pa := rfl
        qa := rfl
        prevMid := mid_cast bidPx askPx
        prevTradeMid := htrade
        sumDpV := hdpv
        sumVSq := hvsq }

end Book

section Trade

variable (px qty : UInt32) (buyerInitiated : Bool)

theorem lastMid (h : Agrees s r) : (s.lastMid : ℚ) = 2 * r.lastMid := by
  rw [RefDouble.lastMid, ← h.pb, ← h.pa]
  exact mid_cast s.pb s.pa

theorem spreadOf (h : Agrees s r) :
    (Microstructure.spreadOf s.lastMid px : ℚ) = 2 * |(px.toNat : ℚ) - r.lastMid| := by
  have hdouble : ((2 * px.toNat - s.lastMid : Int) : ℚ) = 2 * ((px.toNat : ℚ) - r.lastMid) := by
    rw [Int.cast_sub, h.lastMid]
    push_cast
    ring
  rw [Microstructure.spreadOf, Nat.cast_natAbs, Int.cast_abs, hdouble, abs_mul, abs_two]

theorem withSpread (h : Agrees s r) : Agrees (s.withSpread px) (r.withSpread px.toNat) where
  refines := {
    mid := h.refines.mid
    ofi := h.refines.ofi
    spread := by
      dsimp only [Microstructure.withSpread]
      rw [Nat.cast_add, h.spreadOf, h.refines.spread]
      rfl
    spreadN := congrArg (· + 1) h.refines.spreadN
    samples := h.refines.samples
    degenerate := h.refines.degenerate
    micro := h.refines.micro
    lambda := h.refines.lambda }
  havePrev := h.havePrev
  quoted := h.quoted
  pb := h.pb
  qb := h.qb
  pa := h.pa
  qa := h.qa
  prevMid := h.prevMid
  prevTradeMid := h.prevTradeMid
  sumDpV := h.sumDpV
  sumVSq := h.sumVSq

/-- A doubled move weighs twice as much, and one division is off by less than one. -/
theorem withImpact (h : Agrees s r) {dp v : Int} {dp' v' : ℚ} (hdp : (dp : ℚ) = 2 * dp')
    (hv : (v : ℚ) = v') : Agrees (s.withImpact dp v) (r.withImpact dp' v') := by
  have hsumDpV : ((s.sumDpV + dp * v : Int) : ℚ) = 2 * (r.sumDpv + dp' * v') := by
    rw [Int.cast_add, Int.cast_mul, h.sumDpV, hdp, hv]
    ring
  have hsumVSq : ((s.sumVSq + v.natAbs ^ 2 : Nat) : ℚ) = r.sumVv + v' * v' := by
    rw [Nat.cast_add, Nat.cast_pow, Nat.cast_natAbs, Int.cast_abs, sq_abs, h.sumVSq, hv]
    ring
  have hpos : s.sumVSq + v.natAbs ^ 2 > 0 ↔ r.sumVv + v' * v' > 0 := by
    rw [← hsumVSq]
    exact Nat.cast_pos.symm
  have hlambda : |10 ^ 8 * (if r.sumVv + v' * v' > 0 then
        (r.sumDpv + dp' * v') / (r.sumVv + v' * v') else r.lambda) -
      ((if s.sumVSq + v.natAbs ^ 2 > 0 then
        ((s.sumDpV + dp * v) * 50000000).tdiv (s.sumVSq + v.natAbs ^ 2 : Nat)
        else s.m.kyleLambda1e12 : Int) : ℚ)| < 1 := by
    by_cases hc : s.sumVSq + v.natAbs ^ 2 > 0
    · have hlt := Truncation.abs_div_sub_tdiv_lt (a := (s.sumDpV + dp * v) * 50000000)
        (Int.natCast_pos.2 hc)
      have hscale : (((s.sumDpV + dp * v) * 50000000 : Int) : ℚ) /
          ((s.sumVSq + v.natAbs ^ 2 : Nat) : Int) =
          10 ^ 8 * ((r.sumDpv + dp' * v') / (r.sumVv + v' * v')) := by
        rw [Int.cast_mul, hsumDpV, Int.cast_natCast, hsumVSq]
        push_cast
        ring
      rw [if_pos hc, if_pos (hpos.1 hc), ← hscale]
      exact hlt
    · rw [if_neg hc, if_neg (hc ∘ hpos.2)]
      exact h.refines.lambda
  exact {
    refines := {
      mid := h.refines.mid
      ofi := h.refines.ofi
      spread := h.refines.spread
      spreadN := h.refines.spreadN
      samples := h.refines.samples
      degenerate := h.refines.degenerate
      micro := h.refines.micro
      lambda := hlambda }
    havePrev := h.havePrev
    quoted := h.quoted
    pb := h.pb
    qb := h.qb
    pa := h.pa
    qa := h.qa
    prevMid := h.prevMid
    prevTradeMid := h.prevTradeMid
    sumDpV := hsumDpV
    sumVSq := hsumVSq }

theorem signedVolume :
    (Microstructure.signedVolume qty buyerInitiated : ℚ) =
      if buyerInitiated then (qty.toNat : ℚ) else -qty.toNat := by
  rw [Microstructure.signedVolume, apply_ite Int.cast, Int.cast_neg, Int.cast_natCast]

theorem onTrade (h : Agrees s r) (hs : Bounded n s) (hn : n < 2 ^ 29) :
    Agrees (s.onTrade px qty buyerInitiated).2 (r.onTrade px.toNat qty.toNat buyerInitiated) := by
  cases hp : s.havePrev with
  | false =>
    rw [Microstructure.onTrade, if_pos (.inl (by rw [hp]; exact Bool.false_ne_true)),
      RefDouble.onTrade, if_pos (by rw [← h.havePrev, hp]; exact Bool.false_ne_true)]
    exact h
  | true =>
    obtain ⟨hpb, hpa⟩ := h.quoted hp
    have hquoted : ¬ (¬ s.havePrev = true ∨ s.pb = 0 ∨ s.pa = 0) := by
      rintro (hn | hn | hn)
      · exact hn hp
      · exact hpb hn
      · exact hpa hn
    have hpos : s.prevTradeMidX2 > 0 ↔ r.prevTradeMid > 0 := by
      rw [gt_iff_lt, ← Int.cast_pos (R := ℚ), h.prevTradeMid]
      constructor <;> intro h <;> linarith
    have hdp : ((s.lastMid - s.prevTradeMidX2 : Int) : ℚ) = 2 * (r.lastMid - r.prevTradeMid) := by
      rw [Int.cast_sub, h.lastMid, h.prevTradeMid]
      ring
    have hsum : Agrees
        (if s.prevTradeMidX2 > 0 then (s.withSpread px).withImpact
          (s.lastMid - s.prevTradeMidX2) (Microstructure.signedVolume qty buyerInitiated)
        else s.withSpread px)
        (if r.prevTradeMid > 0 then (r.withSpread px.toNat).withImpact
          (r.lastMid - r.prevTradeMid) (if buyerInitiated then (qty.toNat : ℚ) else -qty.toNat)
        else r.withSpread px.toNat) := by
      by_cases hc : s.prevTradeMidX2 > 0
      · rw [if_pos hc, if_pos (hpos.1 hc)]
        exact (h.withSpread px).withImpact hdp (signedVolume qty buyerInitiated)
      · rw [if_neg hc, if_neg (hc ∘ hpos.2)]
        exact h.withSpread px
    rw [Microstructure.onTrade, if_neg hquoted, Microstructure.trade_eq px qty _ hs hn,
      RefDouble.onTrade_eq r _ _ _ (h.havePrev ▸ hp)]
    have hr := hsum.refines
    exact { hsum with
      refines := ⟨hr.mid, hr.ofi, hr.spread, hr.spreadN, hr.samples, hr.degenerate, hr.micro,
        hr.lambda⟩
      prevTradeMid := h.lastMid }

theorem step (h : Agrees s r) (hs : Bounded n s) (hn : n < 2 ^ 29) (event : MarketEvent) :
    Agrees (s.step event).2 (r.step log event) := by
  cases event with
  | book bidPx bidQty askPx askQty => exact h.onBook log bidPx bidQty askPx askQty hs hn
  | trade px qty buyerInitiated => exact h.onTrade px qty buyerInitiated hs hn

end Trade

end Agrees

theorem Microstructure.Bounded.step {s : Microstructure} (hs : Bounded n s) (hn : n < 2 ^ 29)
    (event : MarketEvent) :
    (s.step event).1.analytics = true ∧ Bounded (n + 1) (s.step event).2 := by
  cases event with
  | book bidPx bidQty askPx askQty => exact hs.onBook bidPx bidQty askPx askQty hn
  | trade px qty buyerInitiated => exact hs.onTrade hn px qty buyerInitiated

/-- Over a run that keeps the sums in bounds, every call computes exactly and the twins agree. -/
theorem Agrees.run (log : ℚ → ℚ) {s : Microstructure} {r : RefDouble} (h : Agrees s r)
    (hs : Bounded n s) (events : List MarketEvent) (hn : n + events.length ≤ 2 ^ 29) :
    (∀ exact ∈ outputs Microstructure.step s events, exact.analytics = true) ∧
      Agrees (after Microstructure.step s events) (events.foldl (RefDouble.step log) r) := by
  induction events generalizing n s r with
  | nil =>
    refine ⟨fun exact hmem => ?_, h⟩
    cases hmem
  | cons event events ih =>
    rw [List.length_cons] at hn
    obtain ⟨hexact, hs'⟩ := hs.step (by omega) event
    obtain ⟨hall, hagrees⟩ := ih (h.step log hs (by omega) event) hs' (by omega)
    refine ⟨fun exact hmem => ?_, hagrees⟩
    rcases List.mem_cons.1 hmem with rfl | hmem
    · exact hexact
    · exact hall exact hmem

/-- The fixed-point analytics refine their twin in exact arithmetic, after every call. -/
theorem analytics_refine_reference (log : ℚ → ℚ) (events : List MarketEvent)
    (h : events.length ≤ 2 ^ 29) :
    (∀ exact ∈ outputs Microstructure.step {} events, exact.analytics = true) ∧
      ∀ n, Shadows (after Microstructure.step {} (events.take n)).m
        ((events.take n).foldl (RefDouble.step log) {}) := by
  refine ⟨(Agrees.new.run log Bounded.new events (by omega)).1, fun n => ?_⟩
  have hle := List.length_take_le' n events
  have hrun := Agrees.new.run log Bounded.new (events.take n) (by omega)
  exact hrun.2.refines

/-- A trade before any book, a book, a locked one, a trade, a book and a trade. -/
def sampleDay : List MarketEvent :=
  [.trade 7 3 true, .book 100 10 103 30, .book 103 1 103 1, .trade 102 5 true, .book 101 2 103 7,
    .trade 101 4 false]

theorem sampleDay_refines :
    Shadows (after Microstructure.step {} sampleDay).m
      (sampleDay.foldl (RefDouble.step fun x => x - 1) {}) :=
  (analytics_refine_reference _ sampleDay (by decide)).2 6

end Tickpipe
