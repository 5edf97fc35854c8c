import Tickpipe.Lib.Bytes

set_option autoImplicit true

namespace Tickpipe

/-- A record as `push` is given it: a length and the bytes behind a pointer. -/
structure Record where
  len : UInt32
  data : Nat → UInt8

def Record.bytes (r : Record) : List UInt8 := (List.range r.len.toNat).map r.data

structure SpscRing (k : Fin 64) where
  buf : Vector UInt8 (2 ^ k.val)
  head : UInt64 := 0
  tail : UInt64 := 0
  dropped : Nat := 0
  highWater : UInt64 := 0

namespace SpscRing

def capacity (k : Fin 64) : UInt64 := 1 <<< UInt64.ofNat k.val

def mask (k : Fin 64) : UInt64 := capacity k - 1

/-- The offset in `buf_` of byte `i` of the `n` bytes that `write` or `read` copy at a cursor. -/
def offset (k : Fin 64) (cursor : UInt64) (n : UInt32) (i : Nat) : Nat :=
  let off := cursor &&& mask k
  let first := if off + n.toUInt64 ≤ capacity k then n.toUInt64 else capacity k - off
  if i < first.toNat then off.toNat + i else i - first.toNat

/-- The size of a record; the source adds in 32 bits and widens the sum. -/
def need (len : UInt32) : UInt64 := (4 + len).toUInt64

/-- Byte `i` of what a push copies: the length, then the payload. -/
def recordByte (r : Record) (i : Nat) : UInt8 :=
  if i < 4 then Bytes.byteAt r.len.toNat i else r.data (i - 4)

/-- Where a push copies byte `i`. -/
def recordOffset (k : Fin 64) (head : UInt64) (r : Record) (i : Nat) : Nat :=
  if i < 4 then offset k head 4 i else offset k (head + 4) r.len (i - 4)

/-- A store outside the buffer is undefined in the source and lost here. -/
def store (s : SpscRing k) (at_ : Nat) (b : UInt8) : SpscRing k :=
  { s with buf := s.buf.setIfInBounds at_ b }

def load (s : SpscRing k) (at_ : Nat) : UInt8 := s.buf[at_]?.getD 0

end SpscRing

inductive Producer where
  | idle
  | loaded (r : Record) (head : UInt64)
  | copying (r : Record) (head : UInt64) (i : Nat)

inductive Consumer where
  | idle
  | loaded (tail : UInt64)
  | readingLen (tail head : UInt64) (out : List UInt8)
  | readingData (tail : UInt64) (len : UInt32) (out : List UInt8)

/-- The ring between its two threads, with the records pushed and popped so far. -/
structure RingSystem (k : Fin 64) where
  ring : SpscRing k
  producer : Producer := .idle
  consumer : Consumer := .idle
  pushed : List (List UInt8) := []
  popped : List (List UInt8) := []
  bailed : Bool := false

/-- What the scheduler may choose: a call where the thread is idle, or the next step of a call. -/
inductive RingAction where
  | push (r : Record)
  | produce
  | pop
  | consume

namespace RingSystem
open SpscRing

def push (s : RingSystem k) (r : Record) : RingSystem k :=
  match s.producer with
  | .idle => { s with producer := .loaded r s.ring.head }
  | _ => s

def produce (s : RingSystem k) : RingSystem k :=
  match s.producer with
  | .idle => s
  | .loaded r head =>
    let used := head - s.ring.tail
    if used + need r.len > capacity k then
      { s with
        ring := { s.ring with dropped := s.ring.dropped + 1 }
        producer := .idle }
    else
      { s with
        ring := { s.ring with highWater := max s.ring.highWater used }
        producer := .copying r head 0 }
  | .copying r head i =>
    if i < 4 + r.len.toNat then
      { s with
        ring := s.ring.store (recordOffset k head r i) (recordByte r i)
        producer := .copying r head (i + 1) }
    else
      { s with
        ring := { s.ring with head := head + need r.len }
        producer := .idle
        pushed := s.pushed ++ [r.bytes] }

def pop (s : RingSystem k) : RingSystem k :=
  match s.consumer with
  | .idle => { s with consumer := .loaded s.ring.tail }
  | _ => s

def consume (outCap : UInt32) (s : RingSystem k) : RingSystem k :=
  match s.consumer with
  | .idle => s
  | .loaded tail =>
    if s.ring.head = tail then { s with consumer := .idle }
    else { s with consumer := .readingLen tail s.ring.head [] }
  | .readingLen tail head out =>
    if out.length < 4 then
      let b := s.ring.load (offset k tail 4 out.length)
      { s with consumer := .readingLen tail head (out ++ [b]) }
    else
      let len := UInt32.ofNat (Bytes.ofLe out)
      if len = 0 ∨ len > outCap then
        { s with
          ring := { s.ring with tail := head }
          consumer := .idle
          bailed := true }
      else { s with consumer := .readingData tail len [] }
  | .readingData tail len out =>
    if out.length < len.toNat then
      let b := s.ring.load (offset k (tail + 4) len out.length)
      { s with consumer := .readingData tail len (out ++ [b]) }
    else
      { s with
        ring := { s.ring with tail := tail + 4 + len.toUInt64 }
        consumer := .idle
        popped := s.popped ++ [out] }

def step (outCap : UInt32) (s : RingSystem k) : RingAction → RingSystem k
  | .push r => s.push r
  | .produce => s.produce
  | .pop => s.pop
  | .consume => s.consume outCap

/-- A schedule, from an empty ring whose buffer holds anything. -/
def run (outCap : UInt32) (buf : Vector UInt8 (2 ^ k.val)) (schedule : List RingAction) :
    RingSystem k :=
  schedule.foldl (step outCap) { ring := { buf := buf } }

end RingSystem

end Tickpipe
