import Tickpipe.SymbolDirectory

set_option autoImplicit true

namespace Tickpipe

/-- The book thread of the receiver, with what it has passed on. -/
structure UdpReceiver where
  directory : Option SymbolDirectory := none
  counts : Counts := {}
  ordersParsed : Nat := 0
  messagesFiltered : Nat := 0
  directoryMessages : Nat := 0
  shortPackets : Nat := 0
  gaps : Nat := 0
  messagesLost : UInt64 := 0
  outOfOrder : Nat := 0
  expectedSeq : UInt64 := 0
  orders : List Order := []
  handed : List (UInt64 × Body) := []

namespace UdpReceiver

def moldHeader : Nat := 20

def parse (r : UdpReceiver) (msg : Body) : UdpReceiver :=
  let p := ItchParser.parse r.counts msg
  match p.1 with
  | some order =>
    { r with
      counts := p.2
      ordersParsed := r.ordersParsed + 1
      orders := r.orders ++ [order] }
  | none => { r with counts := p.2 }

/-- The directory takes a message, filters it, or lets it pass to the parser. -/
def handle (r : UdpReceiver) (msg : Body) : UdpReceiver :=
  match r.directory with
  | none => r.parse msg
  | some d =>
    match d.feed msg with
    | some d =>
      { r with
        directory := some d
        directoryMessages := r.directoryMessages + 1 }
    | none =>
      if msg.length ≥ 3 ∧ d.isSubscribed (readBe16 msg 1) = false then
        { r with messagesFiltered := r.messagesFiltered + 1 }
      else r.parse msg

def handOn (r : UdpReceiver) (seq : UInt64) (msg : Body) : UdpReceiver :=
  { r.handle msg with handed := r.handed ++ [(seq, msg)] }

/-- Gap detection: what a sequence number and a count do to the expected one. -/
def sequence (r : UdpReceiver) (seq : UInt64) (count : UInt16) : UdpReceiver :=
  let r :=
    if r.expectedSeq = 0 then { r with expectedSeq := seq }
    else if seq > r.expectedSeq then
      { r with
        gaps := r.gaps + 1
        messagesLost := r.messagesLost + (seq - r.expectedSeq) }
    else if seq < r.expectedSeq then { r with outOfOrder := r.outOfOrder + 1 }
    else r
  { r with expectedSeq := seq + count.toUInt64 }

def countShort (r : UdpReceiver) : UdpReceiver := { r with shortPackets := r.shortPackets + 1 }

/-- The loop over the messages of a datagram, with `left` of them to come from `off` on. -/
def unpack (buf : Datagram) : (left : Nat) → (seq : UInt64) → (off : Nat) → UdpReceiver →
    UdpReceiver
  | 0, _, _, r => r
  | left + 1, seq, off, r =>
    if off + 2 > buf.length then r.countShort
    else
      let msgLen := (readBe16 buf off).toNat
      let off := off + 2
      if msgLen = 0 ∨ off + msgLen > buf.length then r.countShort
      else
        unpack buf left (seq + 1) (off + msgLen)
          (r.handOn seq ((buf.drop off).take msgLen))

def receive (r : UdpReceiver) (buf : Datagram) : UdpReceiver :=
  if buf.length < moldHeader then r.countShort
  else
    let seq := readBe64 buf 10
    let count := readBe16 buf 18
    unpack buf count.toNat seq moldHeader (r.sequence seq count)

def receiveAll (r : UdpReceiver) (buf : List Datagram) : UdpReceiver := buf.foldl receive r

end UdpReceiver

end Tickpipe
