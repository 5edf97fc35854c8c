import Tickpipe.BookState
import Tickpipe.RiskEngine
import Tickpipe.SoftwareEngine
import Tickpipe.WalRecovery

set_option autoImplicit true

namespace Tickpipe

/-- What the callback of the live exchange works on. Its display is left out. -/
structure ExchangeState (k : Nat) where
  book : BookState k
  engine : SoftwareEngine
  risk : RiskEngine
  wal : LogFile
  messages : Nat := 0
  rejected : Nat := 0
  lastTs : UInt64 := 0

/-- A message, with the clock, the gaps and the disk that an append finds; no message appends more
than once. -/
structure Arrival where
  msg : Order
  now : UInt64
  fill : Nat → UInt8
  room : Nat

namespace ExchangeState

def probe (op : ResolvedOp) : Order where
  orderRef := op.orderRef
  price := op.price
  quantity := op.quantity
  side := op.side
  timestampNs := op.timestampNs
  valid := 1
  stock := op.stock

def append (s : ExchangeState k) (a : Arrival) (type : WalEntryType) (order : Order) :
    Bool × ExchangeState k :=
  let r := s.wal.step (.append type order {} a.now a.fill a.room)
  (r.1, { s with wal := r.2 })

/-- The body of the loop over the operations of a message, with whether its record reached the
log. -/
def onOp (a : Arrival) (s : ExchangeState k) (op : ResolvedOp) : Bool × ExchangeState k :=
  if op.action = .add then
    let checked := s.risk.check (probe op)
    let s := { s with risk := checked.2 }
    if checked.1 ≠ .accepted then
      let r := s.append a .orderRejected (probe op)
      (r.1, { r.2 with rejected := r.2.rejected + 1 })
    else
      let r := s.append a .orderSubmitted (probe op)
      (r.1, { r.2 with engine := r.2.engine.apply op })
  else (true, { s with engine := s.engine.apply op })

def opsOf (s : ExchangeState k) (a : Arrival) : List ResolvedOp := (s.book.resolve a.msg).1.getD []

def resolved (s : ExchangeState k) (a : Arrival) : ExchangeState k :=
  { s with
    book := (s.book.resolve a.msg).2
    messages := s.messages + 1
    lastTs := a.msg.timestampNs }

/-- `on_order`, with whether its records reached the log. -/
def onOrder (s : ExchangeState k) (a : Arrival) : Bool × ExchangeState k :=
  ((Mealy.outputs (onOp a) (s.resolved a) (s.opsOf a)).all id,
    Mealy.after (onOp a) (s.resolved a) (s.opsOf a))

end ExchangeState

end Tickpipe
