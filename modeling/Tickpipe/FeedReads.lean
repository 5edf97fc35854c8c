import Tickpipe.UdpReceiver
import Tickpipe.ItchReplay
import Tickpipe.Lib.Reads

set_option autoImplicit true

/-! The decoders once more, over the buffer or file that their pointers point into: a message is
where it starts and how long it is, and every load is recorded. -/

namespace Tickpipe

def load (mem : List UInt8) (i : Nat) : Reads UInt8 := ⟨byte mem i, [i]⟩

def loadBe (mem : List UInt8) : (n : Nat) → (i : Nat) → Reads UInt64
  | 0, _ => pure 0
  | n + 1, i => do
    let v ← loadBe mem n i
    let b ← load mem (i + n)
    pure (v <<< 8 ||| b.toUInt64)

def loadBe32 (mem : List UInt8) (i : Nat) : Reads UInt32 := do
  let a ← load mem i
  let b ← load mem (i + 1)
  let c ← load mem (i + 2)
  let d ← load mem (i + 3)
  pure (a.toUInt32 <<< 24 ||| b.toUInt32 <<< 16 ||| c.toUInt32 <<< 8 ||| d.toUInt32)

def loadBe16 (mem : List UInt8) (i : Nat) : Reads UInt16 := do
  let a ← load mem i
  let b ← load mem (i + 1)
  pure (a.toUInt16 <<< 8 ||| b.toUInt16)

def loadStock (mem : List UInt8) (i : Nat) : Reads Stock := ⟨readStock mem i, List.range' i 8⟩

def ItchParser.decodeAt (mem : List UInt8) (data : Nat) (type : UInt8) (out : Order) :
    Reads (Option Order) :=
  match letter type with
  | 'A' | 'F' => do
    let orderRef ← loadBe mem 8 (data + 11)
    let side ← load mem (data + 19)
    let quantity ← loadBe32 mem (data + 20)
    let stock ← loadStock mem (data + 24)
    let price ← loadBe32 mem (data + 32)
    pure <| some { out with
      action := .add
      orderRef := orderRef
      side := readSide side
      quantity := quantity
      stock := stock
      price := price }
  | 'E' => do
    let orderRef ← loadBe mem 8 (data + 11)
    let quantity ← loadBe32 mem (data + 19)
    let matchNumber ← loadBe mem 8 (data + 23)
    pure <| some { out with
      action := .execute
      orderRef := orderRef
      quantity := quantity
      matchNumber := matchNumber }
  | 'C' => do
    let orderRef ← loadBe mem 8 (data + 11)
    let quantity ← loadBe32 mem (data + 19)
    let matchNumber ← loadBe mem 8 (data + 23)
    let price ← loadBe32 mem (data + 32)
    let printable ← load mem (data + 31)
    pure <| some { out with
      action := .execute
      orderRef := orderRef
      quantity := quantity
      matchNumber := if letter printable ≠ 'Y' then 0 else matchNumber
      price := price }
  | 'X' => do
    let orderRef ← loadBe mem 8 (data + 11)
    let quantity ← loadBe32 mem (data + 19)
    pure <| some { out with
      action := .cancel
      orderRef := orderRef
      quantity := quantity }
  | 'D' => do
    let orderRef ← loadBe mem 8 (data + 11)
    pure <| some { out with
      action := .delete
      orderRef := orderRef }
  | 'U' => do
    let orderRef ← loadBe mem 8 (data + 11)
    let newOrderRef ← loadBe mem 8 (data + 19)
    let quantity ← loadBe32 mem (data + 27)
    let price ← loadBe32 mem (data + 31)
    pure <| some { out with
      action := .replace
      orderRef := orderRef
      newOrderRef := newOrderRef
      quantity := quantity
      price := price }
  | 'P' => do
    let orderRef ← loadBe mem 8 (data + 11)
    let side ← load mem (data + 19)
    let quantity ← loadBe32 mem (data + 20)
    let stock ← loadStock mem (data + 24)
    let price ← loadBe32 mem (data + 32)
    let matchNumber ← loadBe mem 8 (data + 36)
    pure <| some { out with
      action := .trade
      orderRef := orderRef
      side := readSide side
      quantity := quantity
      stock := stock
      price := price
      matchNumber := matchNumber }
  | _ => pure none

def ItchParser.parseAt (c : Counts) (mem : List UInt8) (data len : Nat) :
    Reads (Option Order × Counts) :=
  if len < 11 then pure (none, { c with malformed := c.malformed + 1 })
  else do
    let type ← load mem data
    let expect := expectedLength type
    if expect = 0 then pure (none, { c with unknown := c.unknown + 1 })
    else if len ≠ expect then pure (none, { c with malformed := c.malformed + 1 })
    else if ¬ isBookMessage type then pure (none, { c with ignored := c.ignored + 1 })
    else do
      let locate ← loadBe16 mem (data + 1)
      let timestamp ← loadBe mem 6 (data + 5)
      let out ← decodeAt mem data type { stockLocate := locate, timestampNs := timestamp }
      match out with
      | some out => pure (some { out with valid := 1 }, { c with parsed := c.parsed + 1 })
      | none => pure (none, { c with ignored := c.ignored + 1 })

def SymbolDirectory.adopt (d : SymbolDirectory) (locate : UInt16) (symbol : Stock) :
    SymbolDirectory :=
  let d := { d with
    knownCount := if d.known locate then d.knownCount else d.knownCount + 1
    symbols := Function.update d.symbols locate symbol
    known := Function.update d.known locate true }
  match settlePending symbol d.pending with
  | some pending => { d.markSubscribed locate with pending := pending }
  | none => d

def SymbolDirectory.feedAt (d : SymbolDirectory) (mem : List UInt8) (data len : Nat) :
    Reads (Option SymbolDirectory) :=
  if len ≠ 39 then pure none
  else do
    let type ← load mem data
    if letter type ≠ 'R' then pure none
    else do
      let locate ← loadBe16 mem (data + 1)
      let symbol ← loadStock mem (data + 11)
      pure (some (d.adopt locate symbol))

/-- The lookup of the stock locate, which the loops make only of a message long enough. -/
def SymbolDirectory.filtersAt (d : SymbolDirectory) (mem : List UInt8) (data len : Nat) :
    Reads Bool :=
  if len ≥ 3 then do
    let locate ← loadBe16 mem (data + 1)
    pure !(d.isSubscribed locate)
  else pure false

/-- What becomes of a message in either loop. -/
inductive Outcome where
  | learnt (d : SymbolDirectory)
  | filtered
  | parsed (result : Option Order × Counts)

/-- Only a message that went to the parser gets to the end of the loop's body. -/
def Outcome.reachesEnd : Outcome → Bool
  | .learnt _ => false
  | .filtered => false
  | .parsed _ => true

def outcomeAt (directory : Option SymbolDirectory) (c : Counts) (mem : List UInt8)
    (data len : Nat) : Reads Outcome :=
  match directory with
  | none => do
    let result ← ItchParser.parseAt c mem data len
    pure (.parsed result)
  | some d => do
    let fed ← d.feedAt mem data len
    match fed with
    | some d => pure (.learnt d)
    | none => do
      let filtered ← d.filtersAt mem data len
      if filtered then pure .filtered
      else do
        let result ← ItchParser.parseAt c mem data len
        pure (.parsed result)

/-- A message handed on: where it lies, and the places read to decode it. -/
structure Handed where
  start : Nat
  length : Nat
  places : List Nat

/-- What a loop reads itself, the 32-bit sums it forms, and the messages it hands on. -/
structure LoopTrace where
  framing : List Nat := []
  sums : List (UInt32 × UInt32) := []
  handed : List Handed := []

namespace LoopTrace

def append (t t' : LoopTrace) : LoopTrace where
  framing := t.framing ++ t'.framing
  sums := t.sums ++ t'.sums
  handed := t.handed ++ t'.handed

end LoopTrace

namespace UdpReceiver

def settle (r : UdpReceiver) : Outcome → UdpReceiver
  | .learnt d =>
    { r with
      directory := some d
      directoryMessages := r.directoryMessages + 1 }
  | .filtered => { r with messagesFiltered := r.messagesFiltered + 1 }
  | .parsed (some order, counts) =>
    { r with
      counts := counts
      ordersParsed := r.ordersParsed + 1
      orders := r.orders ++ [order] }
  | .parsed (none, counts) => { r with counts := counts }

/-- The unpacking loop with its 32-bit offset. -/
def unpackAt (mem : Datagram) (n : UInt32) : (left : Nat) → (seq : UInt64) → (off : UInt32) →
    UdpReceiver → UdpReceiver × LoopTrace
  | 0, _, _, r => (r, {})
  | left + 1, seq, off, r =>
    if off + 2 > n then (r.countShort, { sums := [(off, 2)] })
    else
      let msgLen := loadBe16 mem off.toNat
      let framed : LoopTrace := { framing := msgLen.places, sums := [(off, 2)] }
      let off := off + 2
      if msgLen.value = 0 then (r.countShort, framed)
      else
        let len := msgLen.value.toUInt32
        let framed := { framed with sums := framed.sums ++ [(off, len)] }
        if off + len > n then (r.countShort, framed)
        else
          let outcome := outcomeAt r.directory r.counts mem off.toNat len.toNat
          let msg := (mem.drop off.toNat).take len.toNat
          let r' := { r.settle outcome.value with handed := r.handed ++ [(seq, msg)] }
          let rest := unpackAt mem n left (seq + 1) (off + len) r'
          let one : Handed := ⟨off.toNat, len.toNat, outcome.places⟩
          (rest.1, ({ framed with handed := [one] } : LoopTrace).append rest.2)

/-- One datagram of `n` bytes from the ring, header included. -/
def receiveAt (r : UdpReceiver) (mem : Datagram) : UdpReceiver × LoopTrace :=
  let n := UInt32.ofNat mem.length
  if n < UInt32.ofNat moldHeader then (r.countShort, {})
  else
    let seq := loadBe mem 8 10
    let count := loadBe16 mem 18
    let loop := unpackAt mem n count.value.toNat seq.value (UInt32.ofNat moldHeader)
      (r.sequence seq.value count.value)
    (loop.1, ({ framing := seq.places ++ count.places } : LoopTrace).append loop.2)

end UdpReceiver

namespace ItchReplay

def settle (s : ItchReplay) (len : Nat) (outcome : Outcome) : ItchReplay :=
  let s := { s with
    messagesTotal := s.messagesTotal + 1
    bytesRead := s.bytesRead + (2 + len) }
  match outcome with
  | .learnt d =>
    { s with
      directory := some d
      directoryMessages := s.directoryMessages + 1 }
  | .filtered => { s with messagesFiltered := s.messagesFiltered + 1 }
  | .parsed (some order, counts) =>
    { s with
      counts := counts
      messagesParsed := s.messagesParsed + 1
      orders := s.orders ++ [order] }
  | .parsed (none, counts) =>
    { s with
      counts := counts
      messagesSkipped := s.messagesSkipped + 1 }

/-- The loop over the mapped file; its offsets are pointers. -/
def replayLoopAt (maxMessages : Nat) (mem : List UInt8) : (fuel : Nat) → (p : Nat) → ItchReplay →
    ItchReplay × LoopTrace
  | 0, _, s => (s, {})
  | fuel + 1, p, s =>
    if p + 2 ≤ mem.length then
      let msgLen := loadBe16 mem p
      let len := msgLen.value.toNat
      let framed : LoopTrace := { framing := msgLen.places }
      let p := p + 2
      if len = 0 ∨ p + len > mem.length then (s, framed)
      else
        let outcome := outcomeAt s.directory s.counts mem p len
        let s' := s.settle len outcome.value
        let one : LoopTrace := { framed with handed := [⟨p, len, outcome.places⟩] }
        if maxMessages ≠ 0 ∧ outcome.value.reachesEnd ∧ s'.messagesTotal ≥ maxMessages then
          (s', one)
        else
          let rest := replayLoopAt maxMessages mem fuel (p + len) s'
          (rest.1, one.append rest.2)
    else (s, {})

def replayAllAt (maxMessages : Nat) (mem : List UInt8) (s : ItchReplay) :
    ItchReplay × LoopTrace :=
  replayLoopAt maxMessages mem mem.length 0 s

end ItchReplay

end Tickpipe
