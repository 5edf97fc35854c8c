import Tickpipe.SpscRing
import Tickpipe.UdpReceiver

set_option autoImplicit true

namespace Tickpipe

def maxPacketSize : UInt32 := 2048

/-- A datagram as `recv` leaves it in a buffer of `MAX_PACKET_SIZE` bytes. -/
structure RecvPacket extends Record where
  pos : 0 < len
  le : len ≤ maxPacketSize

inductive SocketThread where
  | receiving
  | received (packet : RecvPacket)
  | pushing
  | leaving
  | stopped

inductive BookThread where
  | calling
  | popping
  | processing (datagram : Datagram)
  | testing
  | measuring
  | measured (cursor : UInt64)
  | joining
  | done
  deriving DecidableEq

/-- The feed handler: a socket thread and a book thread that share a ring and a flag. -/
structure FeedHandler (k : Fin 64) where
  ring : RingSystem k
  running : Bool := true
  socket : SocketThread := .receiving
  armed : Bool := false
  packetsReceived : Nat := 0
  bytesReceived : Nat := 0
  book : BookThread := .calling
  receiver : UdpReceiver
  processed : List Datagram := []
  ringDropped : Nat := 0
  ringHighWater : UInt64 := 0

/-- What the scheduler may choose: an outcome of `recv`, or the next step of a thread. -/
inductive FeedAction where
  /-- No packet stands for an outcome of zero or less. -/
  | recv (outcome : Option RecvPacket)
  | socket
  | book

namespace FeedHandler

def recv (s : FeedHandler k) (outcome : Option RecvPacket) : FeedHandler k :=
  match s.socket with
  | .receiving =>
    match outcome with
    | none => if s.armed then { s with socket := .leaving } else s
    | some packet =>
      { s with
        armed := true
        packetsReceived := s.packetsReceived + 1
        bytesReceived := s.bytesReceived + packet.len.toNat
        socket := .received packet }
  | .received _ | .pushing | .leaving | .stopped => s

def afterPush : Producer → SocketThread
  | .idle => .receiving
  | .loaded _ _ | .copying _ _ _ => .pushing

/-- `recv_thread`, between two calls of `recv`. -/
def socketStep (s : FeedHandler k) : FeedHandler k :=
  match s.socket with
  | .receiving => s
  | .received packet =>
    { s with
      ring := s.ring.push packet.toRecord
      socket := .pushing }
  | .pushing =>
    { s with
      ring := s.ring.produce
      socket := afterPush s.ring.produce.producer }
  | .leaving =>
    { s with
      running := false
      socket := .stopped }
  | .stopped => s

/-- Where the book thread is after a step of its pop, with the records that the step returned. -/
def afterPop (returned : List Datagram) : Consumer → BookThread
  | .idle =>
    match returned with
    | [] => .testing
    | datagram :: _ => .processing datagram
  | .loaded _ | .readingLen _ _ _ | .readingData _ _ _ => .popping

/-- The loop of `receive_loop`. The compiler chooses which cursor `used` loads first. -/
def bookStep (headFirst : Bool) (s : FeedHandler k) : FeedHandler k :=
  match s.book with
  | .calling =>
    { s with
      ring := s.ring.pop
      book := .popping }
  | .popping =>
    let ring := s.ring.consume maxPacketSize
    { s with
      ring := ring
      book := afterPop (ring.popped.drop s.ring.popped.length) ring.consumer }
  | .processing datagram =>
    { s with
      receiver := s.receiver.receive datagram
      processed := s.processed ++ [datagram]
      book := .calling }
  | .testing => { s with book := if s.running then .calling else .measuring }
  | .measuring =>
    { s with book := .measured (if headFirst then s.ring.ring.head else s.ring.ring.tail) }
  | .measured cursor =>
    let head := if headFirst then cursor else s.ring.ring.head
    let tail := if headFirst then s.ring.ring.tail else cursor
    { s with book := if head - tail = 0 then .joining else .calling }
  | .joining =>
    match s.socket with
    | .stopped =>
      { s with
        ringDropped := s.ring.ring.dropped
        ringHighWater := s.ring.ring.highWater
        book := .done }
    | .receiving | .received _ | .pushing | .leaving => s
  | .done => s

def step (headFirst : Bool) (s : FeedHandler k) : FeedAction → FeedHandler k
  | .recv outcome => s.recv outcome
  | .socket => s.socketStep
  | .book => s.bookStep headFirst

def run (headFirst : Bool) (buf : Vector UInt8 (2 ^ k.val)) (receiver : UdpReceiver)
    (schedule : List FeedAction) : FeedHandler k :=
  schedule.foldl (step headFirst) { ring := { ring := { buf := buf } }, receiver := receiver }

def Left (s : FeedHandler k) : Prop := s.book = .joining ∨ s.book = .done

instance (s : FeedHandler k) : Decidable s.Left :=
  inferInstanceAs (Decidable (_ ∨ _))

end FeedHandler

end Tickpipe
