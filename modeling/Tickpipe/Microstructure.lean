import Tickpipe.Lib.Checked
import Tickpipe.Lib.Mealy

set_option autoImplicit true

namespace Tickpipe

open Checked (signed unsigned quotient)

/-- Each metric in its unit; the events are counted without bound. -/
structure Metrics where
  microprice1e8 : Int := 0
  mid1e8 : Int := 0
  microMinusMid1e8 : Int := 0
  ofi : Int := 0
  effectiveSpreadSum1e4 : Nat := 0
  effectiveSpreadN : Nat := 0
  realizedVol1e9 : Nat := 0
  returnSamples : Nat := 0
  kyleLambda1e12 : Int := 0
  bookUpdates : Nat := 0
  trades : Nat := 0
  degenerateBooks : Nat := 0
deriving DecidableEq

structure Microstructure where
  m : Metrics := {}
  pb : UInt32 := 0
  qb : UInt32 := 0
  pa : UInt32 := 0
  qa : UInt32 := 0
  havePrev : Bool := false
  sumSqRet1e18 : Nat := 0
  sumDpV : Int := 0
  sumVSq : Nat := 0
  prevMid1e4X2 : Int := 0
  prevTradeMidX2 : Int := 0
deriving DecidableEq

namespace Microstructure

def scale : Int := 1000000000000

def nextPower (power x : Int) : Checked Int := do
  let product ← signed 128 (power * x)
  signed 128 (product.tdiv scale)

def log1p1e12 (x : Int) : Checked Int := do
  let x2 ← nextPower x x
  let x3 ← nextPower x2 x
  let x4 ← nextPower x3 x
  let r ← signed 128 (x - x2.tdiv 2)
  let r ← signed 128 (r + x3.tdiv 3)
  let r ← signed 128 (r - x4.tdiv 4)
  signed 64 r

/-- The loop of `isqrt128`, for the bit pairs below `n`. -/
def isqrtLoop (v : Nat) : (n rem root : Nat) → Checked Nat
  | 0, _, root => pure root
  | i + 1, rem, root => do
    let root ← unsigned 128 (root <<< 1 : Nat)
    let rem ← unsigned 128 (rem <<< 2 : Nat)
    let rem := rem ||| ((v >>> (i * 2)) &&& 3)
    if rem > root then
      let rem ← unsigned 128 ((rem : Int) - (root ||| 1 : Nat))
      isqrtLoop v i rem (root ||| 2)
    else isqrtLoop v i rem root

def isqrt128 (v : Nat) : Checked Nat :=
  if v = 0 then pure 0
  else do
    let root ← isqrtLoop v 64 0 0
    unsigned 64 (root >>> 1 : Nat)

section Book

variable (s : Microstructure) (bidPx bidQty askPx askQty : UInt32)

def microprice : Checked Int := do
  let bid ← unsigned 128 (bidPx.toNat * askQty.toNat)
  let ask ← unsigned 128 (askPx.toNat * bidQty.toNat)
  let sum ← unsigned 128 (bid + ask)
  let num ← unsigned 128 (sum * 10000)
  let den ← unsigned 128 (bidQty.toNat + askQty.toNat)
  let q ← quotient num den
  signed 64 q

def midX2 : Checked Int := signed 64 (bidPx.toNat + askPx.toNat)

def imbalance : Checked Int := do
  let e ← (if bidPx ≥ s.pb then signed 64 bidQty.toNat else pure 0)
  let e ← (if bidPx ≤ s.pb then signed 64 (e - s.qb.toNat) else pure e)
  let e ← (if askPx ≤ s.pa then signed 64 (e - askQty.toNat) else pure e)
  let e ← (if askPx ≥ s.pa then signed 64 (e + s.qa.toNat) else pure e)
  signed 64 (s.m.ofi + e)

/-- `on_book` without its last part, the realized volatility. -/
def quote : Checked Microstructure := do
  let micro ← microprice bidPx bidQty askPx askQty
  let sum ← midX2 bidPx askPx
  let mid ← signed 64 (sum * 5000)
  let lean ← signed 64 (micro - mid)
  let ofi ← (if s.havePrev then s.imbalance bidPx bidQty askPx askQty else pure s.m.ofi)
  pure { s with m := { s.m with
    bookUpdates := s.m.bookUpdates + 1
    microprice1e8 := micro
    mid1e8 := mid
    microMinusMid1e8 := lean
    ofi := ofi } }

def return1e12 (prev mid : Int) : Checked Int := do
  let d ← signed 128 (mid - prev)
  let d ← signed 128 (d * scale)
  let q ← quotient d prev
  signed 64 q

/-- The sum of squared returns with the one of this move, and its root. -/
def addReturn (prev mid : Int) : Checked Microstructure := do
  let x ← return1e12 prev mid
  let r ← log1p1e12 x
  let square ← signed 128 (r * r)
  let square ← unsigned 128 square
  let sum ← unsigned 128 (s.sumSqRet1e18 + square)
  let root ← isqrt128 sum
  pure { s with
    sumSqRet1e18 := sum
    m := { s.m with
      returnSamples := s.m.returnSamples + 1
      realizedVol1e9 := root / 1000 } }

def volatility : Checked Microstructure := do
  let mid ← midX2 bidPx askPx
  let s ← (if s.havePrev ∧ s.prevMid1e4X2 > 0 ∧ mid ≠ s.prevMid1e4X2 then
    s.addReturn s.prevMid1e4X2 mid else pure s)
  pure { s with prevMid1e4X2 := mid, havePrev := true }

/-- Whether a call computed exactly: all but the realized volatility, and this. -/
structure Exact where
  analytics : Bool := true
  volatility : Bool := true
deriving DecidableEq

def onBook : Exact × Microstructure :=
  if bidPx = 0 ∨ askPx = 0 ∨ bidQty = 0 ∨ askQty = 0 then ({}, s)
  else if bidPx ≥ askPx then
    ({}, { s with m := { s.m with degenerateBooks := s.m.degenerateBooks + 1 } })
  else
    let q := s.quote bidPx bidQty askPx askQty
    let v := q.value.volatility bidPx askPx
    (⟨q.exact, v.exact⟩, { v.value with pb := bidPx, qb := bidQty, pa := askPx, qa := askQty })

end Book

section Trade

variable (s : Microstructure)

def addSpread (mid : Int) (px : UInt32) : Checked Microstructure := do
  let double ← signed 64 (2 * px.toNat)
  let d ← signed 64 (double - mid)
  let d ← (if d < 0 then signed 64 (-d) else pure d)
  let d ← unsigned 64 d
  let sum ← unsigned 64 (s.m.effectiveSpreadSum1e4 + d)
  pure { s with m := { s.m with
    trades := s.m.trades + 1
    effectiveSpreadSum1e4 := sum
    effectiveSpreadN := s.m.effectiveSpreadN + 1 } }

/-- Kyle's lambda once a trade of signed volume `v` moved the doubled mid. -/
def addImpact (mid v : Int) : Checked Microstructure := do
  let dp ← signed 64 (mid - s.prevTradeMidX2)
  let product ← signed 128 (dp * v)
  let sumDpV ← signed 128 (s.sumDpV + product)
  let square ← signed 128 (v * v)
  let square ← unsigned 128 square
  let sumVSq ← unsigned 128 (s.sumVSq + square)
  let s := { s with sumDpV, sumVSq }
  if sumVSq > 0 then
    let num ← signed 128 (sumDpV * 50000000)
    let den ← signed 128 sumVSq
    let q ← quotient num den
    let lambda ← signed 64 q
    pure { s with m := { s.m with kyleLambda1e12 := lambda } }
  else pure s

def trade (px qty : UInt32) (buyerInitiated : Bool) : Checked Microstructure := do
  let mid ← midX2 s.pb s.pa
  let s ← s.addSpread mid px
  let v ← (if buyerInitiated then signed 64 qty.toNat else signed 64 (-qty.toNat))
  let s ← (if s.prevTradeMidX2 > 0 then s.addImpact mid v else pure s)
  pure { s with prevTradeMidX2 := mid }

def onTrade (px qty : UInt32) (buyerInitiated : Bool) : Exact × Microstructure :=
  if ¬ s.havePrev ∨ s.pb = 0 ∨ s.pa = 0 then ({}, s)
  else
    let t := s.trade px qty buyerInitiated
    (⟨t.exact, true⟩, t.value)

end Trade

end Microstructure

inductive MarketEvent where
  | book (bidPx bidQty askPx askQty : UInt32)
  | trade (px qty : UInt32) (buyerInitiated : Bool)

namespace Microstructure

def step (s : Microstructure) : MarketEvent → Exact × Microstructure
  | .book bidPx bidQty askPx askQty => s.onBook bidPx bidQty askPx askQty
  | .trade px qty buyerInitiated => s.onTrade px qty buyerInitiated

end Microstructure

end Tickpipe
