import Tickpipe.Order
import Tickpipe.Lib.Stores

set_option autoImplicit true

namespace Tickpipe

open Stores (Store memcpy)

/-- `enum class OuchMsgType : uint8_t` with the values `'A'`, `'J'`, `'E'` and `'C'`. -/
inductive OuchMsgType where
  | orderAccepted
  | orderRejected
  | orderExecuted
  | orderCancelled
deriving DecidableEq, Repr

def OuchMsgType.toUInt8 : OuchMsgType → UInt8
  | .orderAccepted => 65
  | .orderRejected => 74
  | .orderExecuted => 69
  | .orderCancelled => 67

def writeU32 (p : Nat) (v : UInt32) : List Store :=
  [(p, (v >>> 24 &&& 0xFF).toUInt8), (p + 1, (v >>> 16 &&& 0xFF).toUInt8),
    (p + 2, (v >>> 8 &&& 0xFF).toUInt8), (p + 3, (v &&& 0xFF).toUInt8)]

def writeU64 (p : Nat) (v : UInt64) : List Store :=
  writeU32 p (v >>> 32).toUInt32 ++ writeU32 (p + 4) (v &&& 0xFFFFFFFF).toUInt32

namespace OuchSerializer

/-- `isNull` says that `buf` is a null pointer; offsets count from `buf`. The number returned
stands beside the stores made. -/
def writeAccepted (isNull : Bool) (bufLen : UInt32) (order : Order) (timestamp : UInt64) :
    UInt32 × List Store :=
  let msgLen : UInt32 := 32
  if isNull || bufLen < msgLen then (0, [])
  else (msgLen,
    [(0, OuchMsgType.orderAccepted.toUInt8)] ++ writeU64 1 timestamp ++
      writeU64 9 order.orderRef ++ [(17, order.side.toUInt64.toUInt8)] ++
      writeU32 18 order.quantity ++ writeU32 22 order.price ++
      memcpy 26 order.stock.toList)

def writeRejected (isNull : Bool) (bufLen : UInt32) (order : Order) (reason : UInt8)
    (timestamp : UInt64) : UInt32 × List Store :=
  let msgLen : UInt32 := 19
  if isNull || bufLen < msgLen then (0, [])
  else (msgLen,
    [(0, OuchMsgType.orderRejected.toUInt8)] ++ writeU64 1 timestamp ++
      writeU64 9 order.orderRef ++ [(17, reason)] ++ [(18, 0)])

def writeExecuted (isNull : Bool) (bufLen : UInt32) (order : Order) (result : MatchResult)
    (matchId timestamp : UInt64) : UInt32 × List Store :=
  let msgLen : UInt32 := 34
  if isNull || bufLen < msgLen then (0, [])
  else (msgLen,
    [(0, OuchMsgType.orderExecuted.toUInt8)] ++ writeU64 1 timestamp ++
      writeU64 9 order.orderRef ++ writeU32 17 result.quantity ++ writeU32 21 result.price ++
      writeU64 25 matchId ++ [(33, 0)])

end OuchSerializer

/-- A call of the serialiser, with the values it serialises. -/
inductive OuchCall where
  | accepted (order : Order) (timestamp : UInt64)
  | rejected (order : Order) (reason : UInt8) (timestamp : UInt64)
  | executed (order : Order) (result : MatchResult) (matchId timestamp : UInt64)

def OuchCall.run (isNull : Bool) (bufLen : UInt32) : OuchCall → UInt32 × List Store
  | .accepted order timestamp => OuchSerializer.writeAccepted isNull bufLen order timestamp
  | .rejected order reason timestamp =>
    OuchSerializer.writeRejected isNull bufLen order reason timestamp
  | .executed order result matchId timestamp =>
    OuchSerializer.writeExecuted isNull bufLen order result matchId timestamp

/-- What a response tells the client. -/
inductive OuchMessage where
  | accepted (timestamp orderRef : UInt64) (side : Side) (quantity price : UInt32) (stock : Stock)
  | rejected (timestamp orderRef : UInt64) (reason : UInt8)
  | executed (timestamp orderRef : UInt64) (executedQty executionPrice : UInt32) (matchId : UInt64)
deriving DecidableEq

def OuchCall.message : OuchCall → OuchMessage
  | .accepted order timestamp =>
    .accepted timestamp order.orderRef order.side order.quantity order.price order.stock
  | .rejected order reason timestamp => .rejected timestamp order.orderRef reason
  | .executed order result matchId timestamp =>
    .executed timestamp order.orderRef result.quantity result.price matchId

end Tickpipe
