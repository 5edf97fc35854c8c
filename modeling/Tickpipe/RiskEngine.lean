import Tickpipe.Order
import Tickpipe.Lib.FixedArray

set_option autoImplicit true

namespace Tickpipe

inductive RiskResult where
  | accepted
  | exceedsMaxSize
  | exceedsPosition
  | priceOutOfBand
  | invalidOrder
deriving DecidableEq, Repr

/-- The net position is unbounded here: a signed overflow is undefined in the source. -/
structure PositionEntry where
  stock : Stock := Vector.replicate 8 0
  netPosition : Int := 0
  grossBought : UInt64 := 0
  grossSold : UInt64 := 0
deriving DecidableEq, Inhabited

def maxOrderSize : UInt32 := 10000
def maxNetPosition : Int := 100000
def maxPriceBand : UInt32 := 500000
def maxInstruments : Nat := 128

/-- The counts of both results are the source's modulo `2 ^ 64`. -/
structure RiskEngine where
  positions : Vector PositionEntry maxInstruments
  refPrices : Vector UInt32 maxInstruments
  instrumentCount : Nat
  accepted : Nat
  rejected : Nat
  bound : instrumentCount ≤ maxInstruments

namespace RiskEngine

def new : RiskEngine where
  positions := Vector.replicate maxInstruments {}
  refPrices := Vector.replicate maxInstruments 0
  instrumentCount := 0
  accepted := 0
  rejected := 0
  bound := Nat.zero_le _

/-- The loop of `find_or_create`: the first of the entries in use that has the name. -/
def scan (r : RiskEngine) (stock : Stock) : Option (Fin maxInstruments) :=
  (List.finRange maxInstruments).find? fun i =>
    i < r.instrumentCount ∧ (r.positions.get i).stock = stock

def create (r : RiskEngine) (stock : Stock) (h : r.instrumentCount < maxInstruments) :
    RiskEngine :=
  let idx : Fin maxInstruments := ⟨r.instrumentCount, h⟩
  { r with
    positions := r.positions.put idx { r.positions.get idx with stock := stock, netPosition := 0 }
    instrumentCount := r.instrumentCount + 1
    bound := h }

/-- Where the table is full, a new name gets the first entry, whatever its name. -/
def findOrCreate (r : RiskEngine) (stock : Stock) : Fin maxInstruments × RiskEngine :=
  match r.scan stock with
  | some idx => (idx, r)
  | none =>
    if h : r.instrumentCount < maxInstruments then
      (⟨r.instrumentCount, h⟩, r.create stock h)
    else (⟨0, by decide⟩, r)

/-- The tests of `check` that need no instrument: the reason of a refusal. -/
def screen (order : Order) : Option RiskResult :=
  if order.quantity = 0 ∨ order.price = 0 then some .invalidOrder
  else if order.quantity > maxOrderSize then some .exceedsMaxSize
  else none

def outOfBand (ref price : UInt32) : Bool :=
  ref > 0 && (if price > ref then price - ref else ref - price) ≥ maxPriceBand

def delta (order : Order) : Int :=
  if order.side = .buy then order.quantity.toNat else -order.quantity.toNat

/-- The tests of `check` on the entry of the instrument. -/
def assess (ref : UInt32) (current : Int) (order : Order) : RiskResult :=
  let projected := current + delta order
  if outOfBand ref order.price then .priceOutOfBand
  else if projected > maxNetPosition ∨ projected < -maxNetPosition then .exceedsPosition
  else .accepted

def count (r : RiskEngine) (result : RiskResult) : RiskEngine :=
  if result = .accepted then { r with accepted := r.accepted + 1 }
  else { r with rejected := r.rejected + 1 }

def check (r : RiskEngine) (order : Order) : RiskResult × RiskEngine :=
  match screen order with
  | some reason => (reason, r.count reason)
  | none =>
    let found := r.findOrCreate order.stock
    let result := assess (found.2.refPrices.get found.1)
      (found.2.positions.get found.1).netPosition order
    (result, found.2.count result)

def filled (p : PositionEntry) (side : Side) (quantity : UInt32) : PositionEntry :=
  if side = .buy then
    { p with
      netPosition := p.netPosition + quantity.toNat
      grossBought := p.grossBought + quantity.toUInt64 }
  else
    { p with
      netPosition := p.netPosition - quantity.toNat
      grossSold := p.grossSold + quantity.toUInt64 }

def onFill (r : RiskEngine) (stock : Stock) (side : Side) (quantity : UInt32) : RiskEngine :=
  let found := r.findOrCreate stock
  { found.2 with
    positions := found.2.positions.put found.1
      (filled (found.2.positions.get found.1) side quantity) }

def setReferencePrice (r : RiskEngine) (stock : Stock) (price : UInt32) : RiskEngine :=
  let found := r.findOrCreate stock
  { found.2 with refPrices := found.2.refPrices.put found.1 price }

end RiskEngine

inductive RiskCall where
  | check (order : Order)
  | onFill (stock : Stock) (side : Side) (quantity : UInt32)
  | setReferencePrice (stock : Stock) (price : UInt32)
deriving DecidableEq

namespace RiskCall

def stock : RiskCall → Stock
  | .check order => order.stock
  | .onFill stock _ _ => stock
  | .setReferencePrice stock _ => stock

def registers : RiskCall → Bool
  | .check order => (RiskEngine.screen order).isNone
  | .onFill _ _ _ => true
  | .setReferencePrice _ _ => true

/-- A call answers with the result of its check. -/
def step (r : RiskEngine) : RiskCall → Option RiskResult × RiskEngine
  | .check order => (some (r.check order).1, (r.check order).2)
  | .onFill stock side quantity => (none, r.onFill stock side quantity)
  | .setReferencePrice stock price => (none, r.setReferencePrice stock price)

end RiskCall

end Tickpipe
