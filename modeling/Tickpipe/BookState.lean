import Tickpipe.Order
import Tickpipe.Lib.FixedArray
import Mathlib.Data.Nat.Bits

set_option autoImplicit true

namespace Tickpipe

structure RestingOrder where
  orderRef : UInt64 := 0
  quantity : UInt32 := 0
  price : UInt32 := 0
  side : Side := .none
  stock : Stock := Vector.replicate 8 0
deriving DecidableEq, Inhabited

structure ResolvedOp where
  action : Action
  orderRef : UInt64
  quantity : UInt32
  price : UInt32
  matchNumber : UInt64
  timestampNs : UInt64
  side : Side
  stock : Stock
deriving DecidableEq, Inhabited

/-- The counts are the source's as long as they are below `2 ^ 64`. -/
structure BookState.Stats where
  adds : Nat := 0
  executes : Nat := 0
  cancels : Nat := 0
  deletes : Nat := 0
  replaces : Nat := 0
  trades : Nat := 0
  unresolved : Nat := 0
  tableFull : Nat := 0
  live : Nat := 0
  peakLive : Nat := 0
  maxProbe : Nat := 0
deriving DecidableEq, Inhabited

inductive SlotState where
  | empty
  | occupied
  | tombstone
deriving DecidableEq, Inhabited

/-- The order table: `capacity_ = 2 ^ k` slots with their states. -/
structure BookState (k : Nat) where
  slots : Vector RestingOrder (2 ^ k)
  state : Vector SlotState (2 ^ k)
  stats : BookState.Stats
  digest : UInt64

def fnvOffset : UInt64 := 0xcbf29ce484222325
def fnvPrime : UInt64 := 0x100000001b3

/-- Fold the eight bytes of a word, least significant first, into an FNV-1a digest. -/
def fold (digest v : UInt64) : UInt64 :=
  (List.range 8).foldl
    (fun h i => (h ^^^ ((v >>> UInt64.ofNat (i * 8)) &&& 0xFF)) * fnvPrime) digest

def hashRef (ref : UInt64) : UInt64 :=
  let ref := ref ^^^ (ref >>> 33)
  let ref := ref * 0xff51afd7ed558ccd
  let ref := ref ^^^ (ref >>> 33)
  let ref := ref * 0xc4ceb9fe1a85ec53
  ref ^^^ (ref >>> 33)

namespace BookState

def masked (k : Nat) (i : Nat) : Fin (2 ^ k) :=
  ⟨i &&& (2 ^ k - 1), by
    rw [Nat.and_two_pow_sub_one_eq_mod]
    exact Nat.mod_lt _ (Nat.two_pow_pos k)⟩

def capacity (_ : BookState k) : Nat := 2 ^ k

/-- The constructor: the slots are whatever memory `new[]` returned. -/
def new (slots : Vector RestingOrder (2 ^ k)) : BookState k where
  slots := slots
  state := Vector.replicate (2 ^ k) .empty
  stats := {}
  digest := fnvOffset

def reset (b : BookState k) : BookState k :=
  { b with
    state := Vector.replicate (2 ^ k) .empty
    stats := {}
    digest := fnvOffset }

def foldOp (digest : UInt64) (op : ResolvedOp) : UInt64 :=
  let h := fold digest op.action.toUInt64
  let h := fold h op.orderRef
  let h := fold h op.quantity.toUInt64
  let h := fold h op.price.toUInt64
  fold h op.side.toUInt64

/-- The loop shared by `find` and `erase`. The fuel is `capacity_ - probes`, so running out of
it is the `++probes >= capacity_` exit. -/
def findLoop (b : BookState k) (ref : UInt64) : Nat → Fin (2 ^ k) → Nat → Option (Fin (2 ^ k) × Nat)
  | 0, _, _ => none
  | fuel + 1, idx, probes =>
    match b.state.get idx with
    | .empty => none
    | .occupied =>
      if (b.slots.get idx).orderRef = ref then some (idx, probes)
      else findLoop b ref fuel (masked k (idx + 1)) (probes + 1)
    | .tombstone => findLoop b ref fuel (masked k (idx + 1)) (probes + 1)

def raiseMaxProbe (b : BookState k) (probes : Nat) : BookState k :=
  { b with stats := { b.stats with maxProbe := max b.stats.maxProbe probes } }

def find (b : BookState k) (ref : UInt64) : Option (Fin (2 ^ k)) × BookState k :=
  match b.findLoop ref (2 ^ k) (masked k (hashRef ref).toNat) 0 with
  | some (idx, probes) => (some idx, b.raiseMaxProbe probes)
  | none => (none, b)

inductive InsertExit (k : Nat) where
  | overwrite (idx : Fin (2 ^ k))
  | place (idx : Fin (2 ^ k)) (probes : Nat)
  | full

/-- The loop of `insert`; `reuse` is the first tombstone met. -/
def insertLoop (b : BookState k) (ref : UInt64) :
    Nat → Fin (2 ^ k) → Nat → Option (Fin (2 ^ k)) → InsertExit k
  | 0, _, _, _ => .full
  | fuel + 1, idx, probes, reuse =>
    match b.state.get idx with
    | .empty => .place (reuse.getD idx) probes
    | .occupied =>
      if (b.slots.get idx).orderRef = ref then .overwrite idx
      else insertLoop b ref fuel (masked k (idx + 1)) (probes + 1) reuse
    | .tombstone =>
      insertLoop b ref fuel (masked k (idx + 1)) (probes + 1) (reuse.or (some idx))

def Stats.countLive (s : Stats) (probes : Nat) : Stats :=
  { s with
    maxProbe := max s.maxProbe probes
    live := s.live + 1
    peakLive := max s.peakLive (s.live + 1) }

def insert (b : BookState k) (ro : RestingOrder) : Bool × BookState k :=
  match b.insertLoop ro.orderRef (2 ^ k) (masked k (hashRef ro.orderRef).toNat) 0 none with
  | .overwrite idx => (true, { b with slots := b.slots.put idx ro })
  | .full => (false, { b with stats := { b.stats with tableFull := b.stats.tableFull + 1 } })
  | .place idx probes =>
    (true, { b with
      slots := b.slots.put idx ro
      state := b.state.put idx .occupied
      stats := b.stats.countLive probes })

def erase (b : BookState k) (ref : UInt64) : Bool × BookState k :=
  match b.findLoop ref (2 ^ k) (masked k (hashRef ref).toNat) 0 with
  | some (idx, _) =>
    (true, { b with
      state := b.state.put idx .tombstone
      stats := { b.stats with live := b.stats.live - 1 } })
  | none => (false, b)

/-- `ro->quantity -= n` through the pointer that `find` returned. -/
def reduce (b : BookState k) (idx : Fin (2 ^ k)) (n : UInt32) : BookState k :=
  let ro := b.slots.get idx
  { b with slots := b.slots.put idx { ro with quantity := ro.quantity - n } }

def countUnresolved (b : BookState k) : BookState k :=
  { b with stats := { b.stats with unresolved := b.stats.unresolved + 1 } }

/-- `Action::Add`, the only message that carries the full order. -/
def resolveAdd (b : BookState k) (msg : Order) : Option (List ResolvedOp) × BookState k :=
  match b.insert ⟨msg.orderRef, msg.quantity, msg.price, msg.side, msg.stock⟩ with
  | (false, b) => (none, b)
  | (true, b) =>
    (some [⟨.add, msg.orderRef, msg.quantity, msg.price, 0, msg.timestampNs, msg.side, msg.stock⟩],
      { b with stats := { b.stats with adds := b.stats.adds + 1 } })

def taken (msg : Order) (ro : RestingOrder) : UInt32 :=
  if msg.quantity < ro.quantity then msg.quantity else ro.quantity

def take (b : BookState k) (ref : UInt64) (idx : Fin (2 ^ k)) (n : UInt32) : BookState k :=
  let b := b.reduce idx n
  if (b.slots.get idx).quantity = 0 then (b.erase ref).2 else b

/-- Execute and Cancel: shares come off the order that the message names. -/
def resolveTake (b : BookState k) (msg : Order) (op : RestingOrder → UInt32 → ResolvedOp)
    (count : Stats → Stats) : Option (List ResolvedOp) × BookState k :=
  match b.find msg.orderRef with
  | (none, b) => (none, b.countUnresolved)
  | (some idx, b) =>
    let ro := b.slots.get idx
    let n := taken msg ro
    let b := b.take msg.orderRef idx n
    (some [op ro n], { b with stats := count b.stats })

def resolveExecute (b : BookState k) (msg : Order) : Option (List ResolvedOp) × BookState k :=
  b.resolveTake msg
    (fun ro filled =>
      -- a price on the message is a `C`, no price is an `E` at the resting price
      let price := if msg.price ≠ 0 then msg.price else ro.price
      ⟨.execute, msg.orderRef, filled, price, msg.matchNumber, msg.timestampNs, ro.side, ro.stock⟩)
    fun s => { s with executes := s.executes + 1 }

def resolveCancel (b : BookState k) (msg : Order) : Option (List ResolvedOp) × BookState k :=
  b.resolveTake msg
    (fun ro pulled =>
      ⟨.cancel, msg.orderRef, pulled, ro.price, 0, msg.timestampNs, ro.side, ro.stock⟩)
    fun s => { s with cancels := s.cancels + 1 }

def resolveDelete (b : BookState k) (msg : Order) : Option (List ResolvedOp) × BookState k :=
  match b.find msg.orderRef with
  | (none, b) => (none, b.countUnresolved)
  | (some idx, b) =>
    let ro := b.slots.get idx
    let b := (b.erase msg.orderRef).2
    (some [⟨.delete, msg.orderRef, ro.quantity, ro.price, 0, msg.timestampNs, ro.side, ro.stock⟩],
      { b with stats := { b.stats with deletes := b.stats.deletes + 1 } })

/-- `Action::Replace`: the old reference goes, the new one is inserted behind. -/
def resolveReplace (b : BookState k) (msg : Order) : Option (List ResolvedOp) × BookState k :=
  match b.find msg.orderRef with
  | (none, b) => (none, b.countUnresolved)
  | (some idx, b) =>
    let ro := b.slots.get idx
    let del : ResolvedOp :=
      ⟨.delete, msg.orderRef, ro.quantity, ro.price, 0, msg.timestampNs, ro.side, ro.stock⟩
    let b := (b.erase msg.orderRef).2
    match b.insert ⟨msg.newOrderRef, msg.quantity, msg.price, ro.side, ro.stock⟩ with
    | (false, b) => (some [del], b)
    | (true, b) =>
      (some [del, ⟨.add, msg.newOrderRef, msg.quantity, msg.price, 0, msg.timestampNs, ro.side,
          ro.stock⟩],
        { b with stats := { b.stats with replaces := b.stats.replaces + 1 } })

def resolveTrade (b : BookState k) (msg : Order) : Option (List ResolvedOp) × BookState k :=
  (some [⟨.trade, msg.orderRef, msg.quantity, msg.price, msg.matchNumber, msg.timestampNs,
      msg.side, msg.stock⟩],
    { b with stats := { b.stats with trades := b.stats.trades + 1 } })

/-- The operations of `ResolveResult`, or nothing where `resolve_impl` returns false. -/
def resolveImpl (b : BookState k) (msg : Order) : Option (List ResolvedOp) × BookState k :=
  match msg.action with
  | .add => b.resolveAdd msg
  | .execute => b.resolveExecute msg
  | .cancel => b.resolveCancel msg
  | .delete => b.resolveDelete msg
  | .replace => b.resolveReplace msg
  | .trade => b.resolveTrade msg
  | .none => (none, b)

def resolve (b : BookState k) (msg : Order) : Option (List ResolvedOp) × BookState k :=
  match b.resolveImpl msg with
  | (none, b) => (none, b)
  | (some ops, b) => (some ops, { b with digest := ops.foldl foldOp b.digest })

end BookState

end Tickpipe
