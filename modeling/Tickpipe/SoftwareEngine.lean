import Tickpipe.BookState
import Tickpipe.Lib.OrdMap

set_option autoImplicit true

namespace Tickpipe

instance strictAsc : IsStrictTotalOrder UInt32 (· < ·) where
  trichotomous _ _ hab hba := UInt32.le_antisymm (UInt32.not_lt.1 hba) (UInt32.not_lt.1 hab)
  irrefl a := UInt32.lt_irrefl a
  trans _ _ _ := UInt32.lt_trans

instance strictDesc : IsStrictTotalOrder UInt32 (· > ·) where
  trichotomous _ _ hab hba := UInt32.le_antisymm (UInt32.not_lt.1 hab) (UInt32.not_lt.1 hba)
  irrefl a := UInt32.lt_irrefl a
  trans _ _ _ hab hbc := UInt32.lt_trans hbc hab

/-- The queue at one price: references and remaining quantities, earliest first. -/
abbrev Level := List (UInt64 × UInt32)

/-- One side of the book, a `std::map` whose comparator is `lt`. -/
abbrev Ladder (lt : UInt32 → UInt32 → Prop) := OrdMap UInt32 lt Level

abbrev Bids := Ladder (· > ·)
abbrev Asks := Ladder (· < ·)

/-- Rewrite the quantity of the first entry of a reference, erasing it on `none`. -/
def Level.alter (f : UInt32 → Option UInt32) (ref : UInt64) : Level → Option Level
  | [] => none
  | (r, n) :: q =>
    if r = ref then
      match f n with
      | none => some q
      | some n' => some ((r, n') :: q)
    else (Level.alter f ref q).map ((r, n) :: ·)

/-- What is left of `n` shares after `qty` are taken, at most all of them. -/
def shrunk (qty n : UInt32) : Option UInt32 :=
  if n - min qty n = 0 then none else some (n - min qty n)

namespace Ladder

variable {lt : UInt32 → UInt32 → Prop} [DecidableRel lt] [IsStrictTotalOrder UInt32 lt]

/-- The queue at a price, empty where there is no level. -/
def queue (book : Ladder lt) (price : UInt32) : Level := (book.get? price).getD []

def pushBack (book : Ladder lt) (price : UInt32) (entry : UInt64 × UInt32) : Ladder lt :=
  book.insert price (book.queue price ++ [entry])

/-- Put back a queue that was changed, erasing the level when nothing is left in it. -/
def settle (book : Ladder lt) (price : UInt32) (q : Level) : Ladder lt :=
  if q = [] then book.erase price else book.insert price q

/-- The lambda of `remove_ref` and `reduce_ref`: look at one level only. -/
def alterAt (f : UInt32 → Option UInt32) (book : Ladder lt) (price : UInt32) (ref : UInt64) :
    Option (Ladder lt) :=
  match book.get? price with
  | none => none
  | some q => (Level.alter f ref q).map (book.settle price)

/-- The first level, in map order, that holds a reference, with its queue rewritten. -/
def scanEntries (f : UInt32 → Option UInt32) (ref : UInt64) :
    List (UInt32 × Level) → Option (UInt32 × Level)
  | [] => none
  | (price, q) :: l =>
    match Level.alter f ref q with
    | some q' => some (price, q')
    | none => scanEntries f ref l

/-- The `scan` lambda of `apply`, for an execution away from the resting price. -/
def scan (f : UInt32 → Option UInt32) (book : Ladder lt) (ref : UInt64) : Option (Ladder lt) :=
  (scanEntries f ref book.entries).map fun e => book.settle e.1 e.2

end Ladder

/-- The counts of orders, matches and orphans are the source's modulo `2 ^ 64`. -/
structure SoftwareEngine where
  bids : Bids := OrdMap.empty
  asks : Asks := OrdMap.empty
  ordersProcessed : Nat := 0
  matchesMade : Nat := 0
  sharesTraded : UInt64 := 0
  orphanOps : Nat := 0
  lastPrice : UInt32 := 0

namespace SoftwareEngine

def countTrade (e : SoftwareEngine) (quantity price : UInt32) : SoftwareEngine :=
  { e with
    matchesMade := e.matchesMade + 1
    sharesTraded := e.sharesTraded + quantity.toUInt64
    lastPrice := price }

/-- A trade between the incoming order and the head of the queue at the best opposite price. -/
def hitHead (book : Ladder lt) [DecidableRel lt] [IsStrictTotalOrder UInt32 lt] (price : UInt32)
    (ref : UInt64) (n quantity : UInt32) (rest : Level) : Ladder lt :=
  let left := n - min quantity n
  book.settle price (if left = 0 then rest else (ref, left) :: rest)

/-- `queue.front()` of an empty level is undefined; no run builds one, and the model then rests
the order. -/
def tryMatchBuy (e : SoftwareEngine) (order : Order) : MatchResult × SoftwareEngine :=
  let rest := ({}, { e with bids := e.bids.pushBack order.price (order.orderRef, order.quantity) })
  match e.asks.first? with
  | some (price, (ref, n) :: q) =>
    if price ≤ order.price then
      let quantity := min order.quantity n
      (⟨order.orderRef, ref, price, quantity, true⟩,
        { e with asks := hitHead e.asks price ref n order.quantity q }.countTrade quantity price)
    else rest
  | _ => rest

def tryMatchSell (e : SoftwareEngine) (order : Order) : MatchResult × SoftwareEngine :=
  let rest := ({}, { e with asks := e.asks.pushBack order.price (order.orderRef, order.quantity) })
  match e.bids.first? with
  | some (price, (ref, n) :: q) =>
    if price ≥ order.price then
      let quantity := min order.quantity n
      (⟨ref, order.orderRef, price, quantity, true⟩,
        { e with bids := hitHead e.bids price ref n order.quantity q }.countTrade quantity price)
    else rest
  | _ => rest

def submit (e : SoftwareEngine) (order : Order) : MatchResult × SoftwareEngine :=
  let e := { e with ordersProcessed := e.ordersProcessed + 1 }
  if order.side = .buy then e.tryMatchBuy order else e.tryMatchSell order

def restOrder (e : SoftwareEngine) (side : Side) (price : UInt32) (ref : UInt64) (qty : UInt32) :
    SoftwareEngine :=
  if qty = 0 then e
  else if side = .buy then { e with bids := e.bids.pushBack price (ref, qty) }
  else { e with asks := e.asks.pushBack price (ref, qty) }

def alterRef (f : UInt32 → Option UInt32) (e : SoftwareEngine) (side : Side) (price : UInt32)
    (ref : UInt64) : Option SoftwareEngine :=
  if side = .buy then (e.bids.alterAt f price ref).map fun bids => { e with bids := bids }
  else (e.asks.alterAt f price ref).map fun asks => { e with asks := asks }

/-- Nothing is returned where the source returns false. -/
def removeRef (e : SoftwareEngine) (side : Side) (price : UInt32) (ref : UInt64) :
    Option SoftwareEngine :=
  alterRef (fun _ => none) e side price ref

def reduceRef (e : SoftwareEngine) (side : Side) (price : UInt32) (ref : UInt64) (qty : UInt32) :
    Option SoftwareEngine :=
  alterRef (shrunk qty) e side price ref

def scanRef (e : SoftwareEngine) (side : Side) (ref : UInt64) (qty : UInt32) :
    Option SoftwareEngine :=
  if side = .buy then (e.bids.scan (shrunk qty) ref).map fun bids => { e with bids := bids }
  else (e.asks.scan (shrunk qty) ref).map fun asks => { e with asks := asks }

def countOrphan (e : SoftwareEngine) : SoftwareEngine := { e with orphanOps := e.orphanOps + 1 }

/-- A `C` prints at a price the order does not rest at, so a missed level falls back to a scan. -/
def executeBook (e : SoftwareEngine) (op : ResolvedOp) : SoftwareEngine :=
  match e.reduceRef op.side op.price op.orderRef op.quantity with
  | some e => e
  | none => (e.scanRef op.side op.orderRef op.quantity).getD e.countOrphan

def apply (e : SoftwareEngine) (op : ResolvedOp) : SoftwareEngine :=
  match op.action with
  | .add =>
    let e := e.restOrder op.side op.price op.orderRef op.quantity
    { e with ordersProcessed := e.ordersProcessed + 1 }
  | .execute =>
    let e := e.executeBook op
    -- a zero match number is a non-printable execution
    if op.matchNumber ≠ 0 then e.countTrade op.quantity op.price else e
  | .cancel => (e.reduceRef op.side op.price op.orderRef op.quantity).getD e.countOrphan
  | .delete => (e.removeRef op.side op.price op.orderRef).getD e.countOrphan
  | .trade => e.countTrade op.quantity op.price
  | .replace | .none => e

def applyAll (e : SoftwareEngine) (ops : List ResolvedOp) : SoftwareEngine := ops.foldl apply e

theorem applyAll_cons (e : SoftwareEngine) (op : ResolvedOp) (ops : List ResolvedOp) :
    e.applyAll (op :: ops) = (e.apply op).applyAll ops :=
  rfl

variable {e : SoftwareEngine} {order : Order}

def counted (e : SoftwareEngine) : SoftwareEngine :=
  { e with ordersProcessed := e.ordersProcessed + 1 }

theorem submit_buy_hit (hs : order.side = .buy)
    (hf : e.asks.first? = some (price, (ref, n) :: q)) (hp : price ≤ order.price) :
    e.submit order = (⟨order.orderRef, ref, price, min order.quantity n, true⟩,
      { e.counted with asks := hitHead e.asks price ref n order.quantity q }.countTrade
        (min order.quantity n) price) := by
  rw [submit, if_pos hs, tryMatchBuy]
  dsimp only
  rw [hf]
  dsimp only
  rw [if_pos hp]
  rfl

theorem submit_sell_hit (hs : order.side ≠ .buy)
    (hf : e.bids.first? = some (price, (ref, n) :: q)) (hp : price ≥ order.price) :
    e.submit order = (⟨ref, order.orderRef, price, min order.quantity n, true⟩,
      { e.counted with bids := hitHead e.bids price ref n order.quantity q }.countTrade
        (min order.quantity n) price) := by
  rw [submit, if_neg hs, tryMatchSell]
  dsimp only
  rw [hf]
  dsimp only
  rw [if_pos hp]
  rfl

theorem submit_buy_rest (hs : order.side = .buy)
    (hf : ∀ price q, e.asks.first? = some (price, q) → ¬ price ≤ order.price) :
    e.submit order = ({}, { e.counted with
      bids := e.bids.pushBack order.price (order.orderRef, order.quantity) }) := by
  rw [submit, if_pos hs, tryMatchBuy]
  dsimp only
  split
  · next he => rw [if_neg (hf _ _ he), counted]
  · rfl

theorem submit_sell_rest (hs : order.side ≠ .buy)
    (hf : ∀ price q, e.bids.first? = some (price, q) → ¬ price ≥ order.price) :
    e.submit order = ({}, { e.counted with
      asks := e.asks.pushBack order.price (order.orderRef, order.quantity) }) := by
  rw [submit, if_neg hs, tryMatchSell]
  dsimp only
  split
  · next he => rw [if_neg (hf _ _ he), counted]
  · rfl

end SoftwareEngine

end Tickpipe
