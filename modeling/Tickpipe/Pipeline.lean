import Tickpipe.Order
import Tickpipe.Lib.FixedArray
import Tickpipe.Lib.Bitmap

set_option autoImplicit true

namespace Tickpipe

/-- A price tick, `$0.01` at four implied decimals. -/
def tick : UInt32 := 100

/-- The 2048 slots of a ladder, in 32 words of bits. -/
abbrev Slot := Fin (64 * 32)

/-- A fixed-size queue, as block RAM would hold it. -/
structure PriceLevel where
  orderRefs : Vector UInt64 16
  quantities : Vector UInt32 16
  price : UInt32
  count : Fin 17
  side : Side
deriving Inhabited

namespace PriceLevel

def clear (l : PriceLevel) : PriceLevel := { l with count := 0, price := 0 }

def isEmpty (l : PriceLevel) : Bool := l.count = 0

/-- `for (i = 0; i < n; ++i) a[i] = a[i + 1]`. -/
def shiftForward (a : Vector α 16) (n : Nat) (hn : n < 16) : Vector α 16 :=
  n.fold (fun i _ a => a.set i a[i + 1]) a

def headRef (l : PriceLevel) : UInt64 := l.orderRefs.get 0

def headQuantity (l : PriceLevel) : UInt32 := l.quantities.get 0

def setHead (l : PriceLevel) (left : UInt32) : PriceLevel :=
  { l with quantities := l.quantities.set 0 left }

def popFront (l : PriceLevel) : PriceLevel :=
  { l with
    orderRefs := shiftForward l.orderRefs (l.count - 1) (by omega)
    quantities := shiftForward l.quantities (l.count - 1) (by omega)
    count := ⟨l.count - 1, by omega⟩ }

def pushBack (l : PriceLevel) (h : l.count.val < 16) (order : Order) (side : Side) : PriceLevel :=
  { orderRefs := l.orderRefs.set l.count order.orderRef
    quantities := l.quantities.set l.count order.quantity
    price := order.price
    count := ⟨l.count + 1, by omega⟩
    side := side }

end PriceLevel

/-- One side of the ladder: `buy_levels_` with `buy_bits_`, or the same for the sells. -/
structure SlotLadder where
  levels : Vector PriceLevel (64 * 32)
  bits : Bitmap 32

namespace SlotLadder

def setBit (bits : Bitmap 32) (slot : Slot) : Bitmap 32 := bits.set slot
def clearBit (bits : Bitmap 32) (slot : Slot) : Bitmap 32 := bits.clear slot

/-- The highest occupied slot, the best bid; nothing where the source returns -1. -/
def topSlot (bits : Bitmap 32) : Option Slot := bits.top

def bottomSlot (bits : Bitmap 32) : Option Slot := bits.bottom

def fill (s : SlotLadder) (slot : Slot) (quantity : UInt32) : SlotLadder :=
  let resting := s.levels.get slot
  if resting.isEmpty then s
  else
    let left := resting.headQuantity - quantity
    let resting := resting.setHead left
    if left = 0 then
      let resting := resting.popFront
      { levels := s.levels.put slot resting
        bits := if resting.count = 0 then clearBit s.bits slot else s.bits }
    else { s with levels := s.levels.put slot resting }

/-- Rest an order at its slot; a full level drops it. -/
def rest (s : SlotLadder) (slot : Slot) (order : Order) (side : Side) : SlotLadder :=
  let level := s.levels.get slot
  if h : level.count.val < 16 then
    { levels := s.levels.put slot (level.pushBack h order side)
      bits := setBit s.bits slot }
  else s

end SlotLadder

/-- What flows between two stages. -/
structure PipelineRegister where
  order : Order := {}
  levelIndex : Slot := 0
  result : MatchResult := {}
  valid : Bool := false
  stage : UInt8 := 0
deriving Inhabited

/-- The four counts are the source's modulo `2 ^ 64`. -/
structure FpgaPipeline where
  stages : Vector PipelineRegister 5
  buy : SlotLadder
  sell : SlotLadder
  basePrice : UInt32
  baseSet : Bool
  cycles : Nat
  ordersProcessed : Nat
  matchesMade : Nat
  windowMisses : Nat

namespace FpgaPipeline

/-- The constructor; what the levels hold beyond `count` and `price` is arbitrary. -/
def new (buyLevels sellLevels : Vector PriceLevel (64 * 32)) : FpgaPipeline where
  stages := Vector.replicate 5 {}
  buy := ⟨buyLevels.map PriceLevel.clear, Bitmap.empty⟩
  sell := ⟨sellLevels.map PriceLevel.clear, Bitmap.empty⟩
  basePrice := 0
  baseSet := false
  cycles := 0
  ordersProcessed := 0
  matchesMade := 0
  windowMisses := 0

/-- The price at slot zero of a window centred on the first price. -/
def windowBase (price : UInt32) : UInt32 :=
  let half := 1024 * tick
  if price > half then price - half else 0

def setBase (p : FpgaPipeline) (price : UInt32) : FpgaPipeline :=
  if p.baseSet then p else { p with basePrice := windowBase price, baseSet := true }

/-- Nothing where the source returns -1, for a price outside the window. -/
def slotOf (p : FpgaPipeline) (price : UInt32) : Option Slot × FpgaPipeline :=
  let p := p.setBase price
  if price < p.basePrice then (none, p)
  else
    let off := (price - p.basePrice) / tick
    (if h : off.toNat < 64 * 32 then some ⟨off.toNat, h⟩ else none, p)

def stage1Decode (order : Order) : PipelineRegister :=
  { order := order, valid := order.valid ≠ 0, stage := 1 }

def stage2Route (p : FpgaPipeline) (reg : PipelineRegister) : PipelineRegister × FpgaPipeline :=
  let reg := { reg with stage := 2 }
  if reg.valid then
    match p.slotOf reg.order.price with
    | (none, p) => ({ reg with valid := false }, { p with windowMisses := p.windowMisses + 1 })
    | (some slot, p) => ({ reg with levelIndex := slot }, p)
  else (reg, p)

def bestBid (p : FpgaPipeline) : Option PriceLevel :=
  (SlotLadder.topSlot p.buy.bits).map fun slot => p.buy.levels.get slot

def bestAsk (p : FpgaPipeline) : Option PriceLevel :=
  (SlotLadder.bottomSlot p.sell.bits).map fun slot => p.sell.levels.get slot

def stage3Match (p : FpgaPipeline) (reg : PipelineRegister) : PipelineRegister :=
  let reg := { reg with stage := 3 }
  if reg.valid then
    if reg.order.side = .buy then
      match p.bestAsk with
      | some ask =>
        if ¬ ask.isEmpty ∧ ask.price ≤ reg.order.price then
          { reg with result := ⟨reg.order.orderRef, ask.headRef, ask.price,
              min reg.order.quantity ask.headQuantity, true⟩ }
        else reg
      | none => reg
    else
      match p.bestBid with
      | some bid =>
        if ¬ bid.isEmpty ∧ bid.price ≥ reg.order.price then
          { reg with result := ⟨bid.headRef, reg.order.orderRef, bid.price,
              min reg.order.quantity bid.headQuantity, true⟩ }
        else reg
      | none => reg
  else reg

def executeMatch (p : FpgaPipeline) (reg : PipelineRegister) : FpgaPipeline :=
  let p := if reg.order.side = .buy then
      match SlotLadder.bottomSlot p.sell.bits with
      | some slot => { p with sell := p.sell.fill slot reg.result.quantity }
      | none => p
    else
      match SlotLadder.topSlot p.buy.bits with
      | some slot => { p with buy := p.buy.fill slot reg.result.quantity }
      | none => p
  { p with matchesMade := p.matchesMade + 1 }

def executeRest (p : FpgaPipeline) (reg : PipelineRegister) : FpgaPipeline :=
  if reg.order.side = .buy then { p with buy := p.buy.rest reg.levelIndex reg.order .buy }
  else { p with sell := p.sell.rest reg.levelIndex reg.order .sell }

def stage4Execute (p : FpgaPipeline) (reg : PipelineRegister) : PipelineRegister × FpgaPipeline :=
  let reg := { reg with stage := 4 }
  if reg.valid then
    (reg, if reg.result.matched then p.executeMatch reg else p.executeRest reg)
  else (reg, p)

def stage5Respond (reg : PipelineRegister) : PipelineRegister := { reg with stage := 5 }

/-- One clock cycle. The stages advance back to front. -/
def clock (p : FpgaPipeline) (incoming : Order) : MatchResult × FpgaPipeline :=
  let p := { p with cycles := p.cycles + 1 }
  let output := (stage5Respond (p.stages.get 4)).result
  let (reg, p) := p.stage4Execute (p.stages.get 3)
  let p := { p with stages := p.stages.put 4 reg }
  let p := { p with stages := p.stages.put 3 (p.stage3Match (p.stages.get 2)) }
  let (reg, p) := p.stage2Route (p.stages.get 1)
  let p := { p with stages := p.stages.put 2 reg }
  let p := { p with stages := p.stages.put 1 (stage1Decode incoming) }
  let processed := if incoming.valid ≠ 0 then p.ordersProcessed + 1 else p.ordersProcessed
  (output, { p with ordersProcessed := processed })

/-- The half of a clock that touches the ladders: stages 4 and 3. -/
def clockBack (p : FpgaPipeline) : FpgaPipeline :=
  let x := { p with cycles := p.cycles + 1 }.stage4Execute (p.stages.get 3)
  let q := { x.2 with stages := x.2.stages.put 4 x.1 }
  { q with stages := q.stages.put 3 (q.stage3Match (q.stages.get 2)) }

/-- The half that touches the window: stages 2 and 1. -/
def clockFront (p : FpgaPipeline) (incoming : Order) : FpgaPipeline :=
  let y := p.stage2Route (p.stages.get 1)
  { y.2 with
    stages := (y.2.stages.put 2 y.1).put 1 (stage1Decode incoming)
    ordersProcessed := if incoming.valid ≠ 0 then y.2.ordersProcessed + 1 else
      y.2.ordersProcessed }

def decoded (p : FpgaPipeline) : PipelineRegister := p.stages.get 1

def routed (p : FpgaPipeline) : PipelineRegister := p.stages.get 2

def matched (p : FpgaPipeline) : PipelineRegister := p.stages.get 3

def executed (p : FpgaPipeline) : PipelineRegister := p.stages.get 4

def flush (p : FpgaPipeline) : MatchResult × FpgaPipeline :=
  Nat.fold 5 (fun _ _ s => s.2.clock {}) ({}, p)

/-- A pipeline that was built in memory full of zeros. -/
def zeroed : FpgaPipeline where
  stages := Vector.replicate 5 {}
  buy := ⟨Vector.replicate (64 * 32) (PriceLevel.clear default), Bitmap.empty⟩
  sell := ⟨Vector.replicate (64 * 32) (PriceLevel.clear default), Bitmap.empty⟩
  basePrice := 0
  baseSet := false
  cycles := 0
  ordersProcessed := 0
  matchesMade := 0
  windowMisses := 0

end FpgaPipeline

end Tickpipe
