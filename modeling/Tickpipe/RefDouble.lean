import Tickpipe.Microstructure
import Mathlib.Algebra.Order.Field.Rat

set_option autoImplicit true

namespace Tickpipe

/-- The twin of the analytics in the validation harness, in exact arithmetic. -/
structure RefDouble where
  micro : ℚ := 0
  mid : ℚ := 0
  ofi : ℚ := 0
  esSum : ℚ := 0
  esN : Nat := 0
  sumSq : ℚ := 0
  nRet : Nat := 0
  sumDpv : ℚ := 0
  sumVv : ℚ := 0
  lambda : ℚ := 0
  pb : ℚ := 0
  qb : ℚ := 0
  pa : ℚ := 0
  qa : ℚ := 0
  prevMid : ℚ := 0
  prevTradeMid : ℚ := 0
  havePrev : Bool := false
  degenerate : Nat := 0

namespace RefDouble

/-- `log` is the logarithm that the realized volatility takes. -/
def onBook (log : ℚ → ℚ) (r : RefDouble) (bp bq ap aq : ℚ) : RefDouble :=
  if bp ≤ 0 ∨ ap ≤ 0 ∨ bq ≤ 0 ∨ aq ≤ 0 then r
  else if bp ≥ ap then { r with degenerate := r.degenerate + 1 }
  else
    let r := { r with micro := (bp * aq + ap * bq) / (bq + aq), mid := (bp + ap) / 2 }
    let r :=
      if r.havePrev then
        let e := 0
        let e := if bp ≥ r.pb then e + bq else e
        let e := if bp ≤ r.pb then e - r.qb else e
        let e := if ap ≤ r.pa then e - aq else e
        let e := if ap ≥ r.pa then e + r.qa else e
        let r := { r with ofi := r.ofi + e }
        let m := (bp + ap) / 2
        let r :=
          if r.prevMid > 0 ∧ m ≠ r.prevMid then
            let x := log (m / r.prevMid)
            { r with sumSq := r.sumSq + x * x, nRet := r.nRet + 1 }
          else r
        { r with prevMid := m }
      else { r with prevMid := (bp + ap) / 2, havePrev := true }
    { r with pb := bp, qb := bq, pa := ap, qa := aq }

def onTrade (r : RefDouble) (px q : ℚ) (buy : Bool) : RefDouble :=
  if ¬ r.havePrev then r
  else
    let m := (r.pb + r.pa) / 2
    let r := { r with esSum := r.esSum + 2 * |px - m|, esN := r.esN + 1 }
    let v := if buy then q else -q
    let r :=
      if r.prevTradeMid > 0 then
        let dp := m - r.prevTradeMid
        let r := { r with sumDpv := r.sumDpv + dp * v, sumVv := r.sumVv + v * v }
        if r.sumVv > 0 then { r with lambda := r.sumDpv / r.sumVv } else r
      else r
    { r with prevTradeMid := m }

def step (log : ℚ → ℚ) (r : RefDouble) : MarketEvent → RefDouble
  | .book bidPx bidQty askPx askQty =>
    r.onBook log bidPx.toNat bidQty.toNat askPx.toNat askQty.toNat
  | .trade px qty buyerInitiated => r.onTrade px.toNat qty.toNat buyerInitiated

end RefDouble

end Tickpipe
