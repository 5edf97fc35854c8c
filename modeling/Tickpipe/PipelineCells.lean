import Tickpipe.FlushResult
import Tickpipe.Lib.Traced

set_option autoImplicit true

/-! The pipeline over its own arrays, with every slot and every index the `int` that it is. -/

namespace Tickpipe

/-- What stages 3 and 4 do with the ladders. -/
inductive Access where
  /-- A level of `buy_levels_` or `sell_levels_`. -/
  | level (slot : Int)
  /-- A place of `order_refs` or `quantities`. -/
  | queue (i : Int)
  /-- A word of `buy_bits_` or `sell_bits_`. -/
  | word (w : Int)
  /-- A level that stage 3 looks into, by its count. -/
  | examined (count : Int)
deriving DecidableEq

/-- A level as it lies in memory. -/
structure LevelCells where
  orderRefs : Vector UInt64 16
  quantities : Vector UInt32 16
  price : UInt32
  count : Int
  side : Side
deriving Inhabited

namespace LevelCells

def clear (l : LevelCells) : LevelCells := { l with count := 0, price := 0 }

def isFull (l : LevelCells) : Bool := l.count ≥ 16

def isEmpty (l : LevelCells) : Bool := l.count = 0

/-- `order_refs[i] = order_refs[i + 1]`, and the same for the quantities. -/
def moveForward (l : LevelCells) (i : Nat) : Traced Access LevelCells := do
  let ref ← Traced.load .queue l.orderRefs (i + 1 : Nat)
  let refs ← Traced.store .queue l.orderRefs i ref
  let quantity ← Traced.load .queue l.quantities (i + 1 : Nat)
  let quantities ← Traced.store .queue l.quantities i quantity
  pure { l with orderRefs := refs, quantities := quantities }

/-- The rounds of the shift for the first `n` values of `i`. -/
def shiftForward (l : LevelCells) : Nat → Traced Access LevelCells
  | 0 => pure l
  | n + 1 => do
    let l ← l.shiftForward n
    l.moveForward n

def popFront (l : LevelCells) : Traced Access LevelCells := do
  let l ← l.shiftForward (l.count - 1).toNat
  pure { l with count := l.count - 1 }

def pushBack (l : LevelCells) (order : Order) (side : Side) : Traced Access LevelCells := do
  let refs ← Traced.store .queue l.orderRefs l.count order.orderRef
  let quantities ← Traced.store .queue l.quantities l.count order.quantity
  pure {
    orderRefs := refs
    quantities := quantities
    price := order.price
    count := l.count + 1
    side := side }

end LevelCells

structure LadderCells where
  levels : Vector LevelCells 2048
  bits : Vector UInt64 32

namespace LadderCells

def maskOf (slot : Int) : UInt64 := 1 <<< UInt64.ofNat (slot % 64).toNat

def setBit (bits : Vector UInt64 32) (slot : Int) : Traced Access (Vector UInt64 32) := do
  let word ← Traced.load .word bits (slot >>> (6 : Nat))
  Traced.store .word bits (slot >>> (6 : Nat)) (word ||| maskOf slot)

def clearBit (bits : Vector UInt64 32) (slot : Int) : Traced Access (Vector UInt64 32) := do
  let word ← Traced.load .word bits (slot >>> (6 : Nat))
  Traced.store .word bits (slot >>> (6 : Nat)) (word &&& ~~~maskOf slot)

def topSlot (bits : Vector UInt64 32) : Int :=
  let slot? (w : Fin 32) : Option Int :=
    if bits[w] ≠ 0 then some ((w.val <<< 6 : Nat) + (63 - Bitmap.clz (bits[w]))) else none
  ((List.finRange 32).reverse.findSome? slot?).getD (-1)

def bottomSlot (bits : Vector UInt64 32) : Int :=
  let slot? (w : Fin 32) : Option Int :=
    if bits[w] ≠ 0 then some ((w.val <<< 6 : Nat) + Bitmap.ctz (bits[w])) else none
  ((List.finRange 32).findSome? slot?).getD (-1)

/-- The level a slot points to; nothing for a null pointer. -/
def levelAt (s : LadderCells) (slot : Int) : Traced Access (Option LevelCells) :=
  if slot < 0 then pure none
  else do
    let level ← Traced.load .level s.levels slot
    pure (some level)

/-- Remove the head of the level at a slot, and clear the bit of the slot with its last order. -/
def popHead (s : LadderCells) (slot : Int) (resting : LevelCells) : Traced Access LadderCells := do
  let resting ← resting.popFront
  let levels ← Traced.store .level s.levels slot resting
  let bits ← (if resting.count = 0 then clearBit s.bits slot else pure s.bits)
  pure ⟨levels, bits⟩

def fill (s : LadderCells) (slot : Int) (quantity : UInt32) : Traced Access LadderCells := do
  let resting ← Traced.load .level s.levels slot
  if resting.isEmpty then pure s
  else do
    let head ← Traced.load .queue resting.quantities 0
    let left := head - quantity
    let quantities ← Traced.store .queue resting.quantities 0 left
    let resting := { resting with quantities := quantities }
    if left = 0 then s.popHead slot resting
    else do
      let levels ← Traced.store .level s.levels slot resting
      pure { s with levels := levels }

/-- Rest an order at a slot; a full level drops it. -/
def rest (s : LadderCells) (slot : Int) (order : Order) (side : Side) :
    Traced Access LadderCells := do
  let level ← Traced.load .level s.levels slot
  if ¬ level.isFull then do
    let level ← level.pushBack order side
    let levels ← Traced.store .level s.levels slot level
    let bits ← setBit s.bits slot
    pure ⟨levels, bits⟩
  else pure s

end LadderCells

/-- What flows between two stages, with the slot as the `uint32_t` that it is stored as. -/
structure RegisterCells where
  order : Order := {}
  levelIndex : UInt32 := 0
  result : MatchResult := {}
  valid : Bool := false
  stage : UInt8 := 0
deriving Inhabited

structure PipelineCells where
  stages : Vector RegisterCells 5
  buy : LadderCells
  sell : LadderCells
  basePrice : UInt32
  baseSet : Bool
  cycles : Nat
  ordersProcessed : Nat
  matchesMade : Nat
  windowMisses : Nat

namespace PipelineCells

def new (buyLevels sellLevels : Vector LevelCells 2048) : PipelineCells where
  stages := Vector.replicate 5 {}
  buy := ⟨buyLevels.map LevelCells.clear, Vector.replicate 32 0⟩
  sell := ⟨sellLevels.map LevelCells.clear, Vector.replicate 32 0⟩
  basePrice := 0
  baseSet := false
  cycles := 0
  ordersProcessed := 0
  matchesMade := 0
  windowMisses := 0

def setBase (p : PipelineCells) (price : UInt32) : PipelineCells :=
  if p.baseSet then p
  else { p with basePrice := FpgaPipeline.windowBase price, baseSet := true }

/-- -1 when the price falls outside the ladder window. -/
def slotOf (p : PipelineCells) (price : UInt32) : Int × PipelineCells :=
  let p := p.setBase price
  if price < p.basePrice then (-1, p)
  else
    let off := (price - p.basePrice) / tick
    (if off < 2048 then off.toNat else -1, p)

def stage1Decode (order : Order) : RegisterCells :=
  { order := order, valid := order.valid ≠ 0, stage := 1 }

def stage2Route (p : PipelineCells) (reg : RegisterCells) : RegisterCells × PipelineCells :=
  let reg := { reg with stage := 2 }
  if reg.valid then
    let (slot, p) := p.slotOf reg.order.price
    if slot < 0 then ({ reg with valid := false }, { p with windowMisses := p.windowMisses + 1 })
    else ({ reg with levelIndex := UInt32.ofInt slot }, p)
  else (reg, p)

def bestBid (p : PipelineCells) : Traced Access (Option LevelCells) :=
  p.buy.levelAt (LadderCells.topSlot p.buy.bits)

def bestAsk (p : PipelineCells) : Traced Access (Option LevelCells) :=
  p.sell.levelAt (LadderCells.bottomSlot p.sell.bits)

def stage3Match (p : PipelineCells) (reg : RegisterCells) : Traced Access RegisterCells :=
  let reg := { reg with stage := 3 }
  if reg.valid then
    if reg.order.side = .buy then do
      match ← p.bestAsk with
      | some ask =>
        tell [.examined ask.count]
        if ¬ ask.isEmpty ∧ ask.price ≤ reg.order.price then do
          let ref ← Traced.load .queue ask.orderRefs 0
          let quantity ← Traced.load .queue ask.quantities 0
          pure { reg with result := ⟨reg.order.orderRef, ref, ask.price,
            min reg.order.quantity quantity, true⟩ }
        else pure reg
      | none => pure reg
    else do
      match ← p.bestBid with
      | some bid =>
        tell [.examined bid.count]
        if ¬ bid.isEmpty ∧ bid.price ≥ reg.order.price then do
          let ref ← Traced.load .queue bid.orderRefs 0
          let quantity ← Traced.load .queue bid.quantities 0
          pure { reg with result := ⟨ref, reg.order.orderRef, bid.price,
            min reg.order.quantity quantity, true⟩ }
        else pure reg
      | none => pure reg
  else pure reg

def executeMatch (p : PipelineCells) (reg : RegisterCells) : Traced Access PipelineCells := do
  let p ← (
    if reg.order.side = .buy then
      let slot := LadderCells.bottomSlot p.sell.bits
      if slot ≥ 0 then do
        let sell ← p.sell.fill slot reg.result.quantity
        pure { p with sell := sell }
      else pure p
    else
      let slot := LadderCells.topSlot p.buy.bits
      if slot ≥ 0 then do
        let buy ← p.buy.fill slot reg.result.quantity
        pure { p with buy := buy }
      else pure p)
  pure { p with matchesMade := p.matchesMade + 1 }

def executeRest (p : PipelineCells) (reg : RegisterCells) : Traced Access PipelineCells :=
  let slot := reg.levelIndex.toInt32.toInt
  if reg.order.side = .buy then do
    let buy ← p.buy.rest slot reg.order .buy
    pure { p with buy := buy }
  else do
    let sell ← p.sell.rest slot reg.order .sell
    pure { p with sell := sell }

def stage4Execute (p : PipelineCells) (reg : RegisterCells) :
    Traced Access (RegisterCells × PipelineCells) :=
  let reg := { reg with stage := 4 }
  if reg.valid then do
    let p ← (if reg.result.matched then p.executeMatch reg else p.executeRest reg)
    pure (reg, p)
  else pure (reg, p)

def stage5Respond (reg : RegisterCells) : RegisterCells := { reg with stage := 5 }

def stage (p : PipelineCells) (i : Int) : RegisterCells := Traced.cell p.stages i

def setStage (p : PipelineCells) (i : Int) (reg : RegisterCells) : PipelineCells :=
  { p with stages := Traced.setCell p.stages i reg }

/-- The half of a clock that touches the window: stages 2 and 1. -/
def clockFront (p : PipelineCells) (incoming : Order) : PipelineCells :=
  let (reg, p) := p.stage2Route (p.stage 1)
  let p := p.setStage 2 reg
  let p := p.setStage 1 (stage1Decode incoming)
  let processed := if incoming.valid ≠ 0 then p.ordersProcessed + 1 else p.ordersProcessed
  { p with ordersProcessed := processed }

/-- One clock cycle. The stages advance back to front. -/
def clock (p : PipelineCells) (incoming : Order) :
    Traced Access (MatchResult × PipelineCells) := do
  let p := { p with cycles := p.cycles + 1 }
  let output := (stage5Respond (p.stage 4)).result
  let (reg, p) ← p.stage4Execute (p.stage 3)
  let p := p.setStage 4 reg
  let reg ← p.stage3Match (p.stage 2)
  let p := p.setStage 3 reg
  pure (output, p.clockFront incoming)

/-- Clock in empty orders; the result of the last one. -/
def drain (p : PipelineCells) : Nat → Traced Access (MatchResult × PipelineCells)
  | 0 => pure ({}, p)
  | n + 1 => do
    let last ← p.drain n
    last.2.clock {}

def flush (p : PipelineCells) : Traced Access (MatchResult × PipelineCells) := p.drain 5

def call (p : PipelineCells) : PipelineCall → Traced Access PipelineCells
  | .clock incoming => do
    let last ← p.clock incoming
    pure last.2
  | .flush => do
    let last ← p.flush
    pure last.2

def callAll (p : PipelineCells) (calls : List PipelineCall) : Traced Access PipelineCells :=
  calls.foldlM call p

end PipelineCells

end Tickpipe
