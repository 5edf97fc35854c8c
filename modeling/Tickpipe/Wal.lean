import Tickpipe.Order
import Tickpipe.Lib.Blocks
import Tickpipe.Lib.Layout

set_option autoImplicit true

namespace Tickpipe

inductive WalEntryType where
  | orderSubmitted
  | orderMatched
  | orderRejected
deriving DecidableEq, Inhabited

def WalEntryType.toUInt8 : WalEntryType → UInt8
  | .orderSubmitted => 1
  | .orderMatched => 2
  | .orderRejected => 3

structure WalEntry where
  sequence : UInt64 := 0
  timestampNs : UInt64 := 0
  type : WalEntryType
  order : Order := {}
  result : MatchResult := {}
deriving DecidableEq, Inhabited

section Layouts

open Layout (uint64 uint32 uint16 uint8 coded bytes gap)

def Side.layout : Layout Side :=
  coded (fun side => side.toUInt64.toUInt8) [.none, .buy, .sell] fun side => by cases side <;> rfl

def Action.layout : Layout Action :=
  coded (fun action => action.toUInt64.toUInt8)
    [.none, .add, .execute, .cancel, .delete, .replace, .trade] fun action => by
      cases action <;> rfl

def WalEntryType.layout : Layout WalEntryType :=
  coded WalEntryType.toUInt8 [.orderSubmitted, .orderMatched, .orderRejected] fun type => by
    cases type <;> rfl

def flagLayout : Layout Bool :=
  coded Bool.toUInt8 [false, true] fun flag => by cases flag <;> rfl

/-- `struct alignas(64) Order`, field after field, with the gap behind them. -/
def Order.layout : Layout Order :=
  (uint64.seq <| uint64.seq <| uint64.seq <| uint64.seq <| uint32.seq <| uint32.seq <|
    uint16.seq <| Side.layout.seq <| Action.layout.seq <| uint8.seq <| (bytes 8).seq <|
    gap 11).map
    (fun l => {
      timestampNs := l.1
      orderRef := l.2.1
      newOrderRef := l.2.2.1
      matchNumber := l.2.2.2.1
      quantity := l.2.2.2.2.1
      price := l.2.2.2.2.2.1
      stockLocate := l.2.2.2.2.2.2.1
      side := l.2.2.2.2.2.2.2.1
      action := l.2.2.2.2.2.2.2.2.1
      valid := l.2.2.2.2.2.2.2.2.2.1
      stock := l.2.2.2.2.2.2.2.2.2.2.1 })
    (fun o => (o.timestampNs, o.orderRef, o.newOrderRef, o.matchNumber, o.quantity, o.price,
      o.stockLocate, o.side, o.action, o.valid, o.stock, ()))
    fun _ => rfl

def MatchResult.layout : Layout MatchResult :=
  (uint64.seq <| uint64.seq <| uint32.seq <| uint32.seq <| flagLayout.seq <| gap 7).map
    (fun l => ⟨l.1, l.2.1, l.2.2.1, l.2.2.2.1, l.2.2.2.2.1⟩)
    (fun r => (r.buyOrderRef, r.sellOrderRef, r.price, r.quantity, r.matched, ()))
    fun _ => rfl

/-- `struct alignas(64) WalEntry`: behind the type lie its `pad` and the gap before the order,
and behind the result the gap at its end. -/
def WalEntry.layout : Layout WalEntry :=
  (uint64.seq <| uint64.seq <| WalEntryType.layout.seq <| (gap 47).seq <| Order.layout.seq <|
    MatchResult.layout.seq <| gap 32).map
    (fun l => ⟨l.1, l.2.1, l.2.2.1, l.2.2.2.2.1, l.2.2.2.2.2.1⟩)
    (fun e => (e.sequence, e.timestampNs, e.type, (), e.order, e.result, ()))
    fun _ => rfl

def WalEntry.bytes : Nat := WalEntry.layout.size

example : WalEntry.bytes = 192 := rfl

end Layouts

/-- What of a record reaches a file opened for appending, and whether all of it does: the disk may
have no room left, or the file outgrow a `long`. -/
def fwrite (room : Nat) (file bytes : List UInt8) : Bool × List UInt8 :=
  let n := min room (2 ^ 63 - 1 - file.length)
  (bytes.length ≤ n, file ++ bytes.take n)

theorem fwrite_true {room : Nat} {file bytes : List UInt8} (hpos : 0 < bytes.length)
    (h : (fwrite room file bytes).1 = true) :
    fwrite room file bytes = (true, file ++ bytes) ∧ file.length + bytes.length < 2 ^ 63 := by
  have hle : bytes.length ≤ min room (2 ^ 63 - 1 - file.length) := of_decide_eq_true h
  rw [fwrite, List.take_of_length_le hle, decide_eq_true hle]
  exact ⟨rfl, by omega⟩

structure WriteAheadLog where
  isOpen : Bool := false
  sequence : UInt64 := 0
deriving DecidableEq

namespace WriteAheadLog

/-- `fopen` tells whether the file could be opened. -/
def «open» (log : WriteAheadLog) (fopen : Bool) (file : List UInt8) : Bool × WriteAheadLog :=
  if fopen then (true, ⟨true, UInt64.ofNat (file.length / WalEntry.bytes)⟩)
  else (false, { log with isOpen := false })

/-- `now` is the clock, `fill` what lies in the gaps of the entry, and `room` what the disk has
left. The result says whether the record reached the file; the source does not notice a failed
`fflush`. -/
def append (log : WriteAheadLog) (type : WalEntryType) (order : Order) (result : MatchResult)
    (now : UInt64) (fill : Nat → UInt8) (room : Nat) (file : List UInt8) :
    Bool × WriteAheadLog × List UInt8 :=
  if log.isOpen then
    let sequence := log.sequence + 1
    let entry : WalEntry := ⟨sequence, now, type, order, result⟩
    let written := fwrite room file (WalEntry.layout.image fill entry)
    (written.1, { log with sequence }, written.2)
  else (false, log, file)

/-- A record that reaches the file stands whole behind it. -/
theorem append_true {log : WriteAheadLog} {file : List UInt8} (ho : log.isOpen = true)
    (h : (log.append type order result now fill room file).1 = true) :
    let entry : WalEntry := ⟨log.sequence + 1, now, type, order, result⟩
    log.append type order result now fill room file =
      (true, { log with sequence := log.sequence + 1 },
        file ++ WalEntry.layout.image fill entry) ∧
      file.length + WalEntry.bytes < 2 ^ 63 := by
  intro entry
  have hlen : (WalEntry.layout.image fill entry).length = WalEntry.bytes :=
    WalEntry.layout.length_image fill entry
  rw [append, if_pos ho] at h ⊢
  obtain ⟨hfile, hlt⟩ := fwrite_true (hlen ▸ by decide) h
  dsimp only
  rw [hfile, ← hlen]
  exact ⟨rfl, hlt⟩

theorem append_closed {log : WriteAheadLog} (ho : log.isOpen = false) :
    log.append type order result now fill room file = (false, log, file) := by
  rw [append, ho]
  rfl

def close (log : WriteAheadLog) : WriteAheadLog := { log with isOpen := false }

/-- The entries that the callback gets, `none` for one whose bytes are no `WalEntry`, and whether
there was any. -/
def replay (fopen : Bool) (file : List UInt8) : List (Option WalEntry) × Bool :=
  if fopen then
    let entries := (Blocks.blocks WalEntry.bytes file).map WalEntry.layout.value
    (entries, 0 < entries.length)
  else ([], false)

end WriteAheadLog

end Tickpipe
