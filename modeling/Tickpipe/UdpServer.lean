import Tickpipe.ItchParser

set_option autoImplicit true

namespace Tickpipe

/-- A call of `sendto`: what was handed to the socket and whether it went out. -/
structure Attempt where
  datagram : Datagram
  sent : Bool

structure UdpServer where
  /-- The first `payload_len_` bytes of `packet_`. -/
  packet : List UInt8 := []
  packetMsgs : UInt16 := 0
  nextSeq : UInt64 := 1
  packetsSent : Nat := 0
  messagesSent : Nat := 0
  bytesSent : Nat := 0
  attempts : List Attempt := []
  /-- Every message that got a sequence number, with it. -/
  numbered : List (UInt64 × Body) := []

namespace UdpServer

def moldHeader : Nat := 20
def maxPayload : Nat := 1400
def maxMsgSize : Nat := 1024

/-- `TICKPIPE01`. -/
def session : Vector UInt8 10 := #v[84, 73, 67, 75, 80, 73, 80, 69, 48, 49]

/-- Send what is buffered; the outcome of the `n`-th `sendto` is `sendto n`. -/
def flush (sendto : Nat → Bool) (s : UdpServer) : Bool × UdpServer :=
  if s.packetMsgs = 0 then (true, s)
  else
    let out := session.toList ++ writeBe64 (s.nextSeq - s.packetMsgs.toUInt64) ++
      writeBe16 s.packetMsgs ++ s.packet
    let sent := sendto s.attempts.length
    let s := { s with
      packet := []
      packetMsgs := 0
      attempts := s.attempts ++ [⟨out, sent⟩] }
    if sent then
      (true, { s with
        packetsSent := s.packetsSent + 1
        bytesSent := s.bytesSent + out.length })
    else (false, s)

def enqueue (s : UdpServer) (data : Body) : UdpServer :=
  { s with
    packet := s.packet ++ writeBe16 (UInt16.ofNat data.length) ++ data
    packetMsgs := s.packetMsgs + 1
    nextSeq := s.nextSeq + 1
    messagesSent := s.messagesSent + 1
    numbered := s.numbered ++ [(s.nextSeq, data)] }

def isFull (s : UdpServer) (data : Body) : Bool :=
  s.packet.length + (2 + data.length) > maxPayload || s.packetMsgs = 0xFFFF

def sendMessage (sendto : Nat → Bool) (s : UdpServer) (data : Body) : Bool × UdpServer :=
  if 2 + data.length > maxPayload then (false, s)
  else if s.isFull data then
    match s.flush sendto with
    | (true, s) => (true, s.enqueue data)
    | (false, s) => (false, s)
  else (true, s.enqueue data)

inductive Call where
  | send (data : Body)
  | flush

def call (sendto : Nat → Bool) (s : UdpServer) : Call → UdpServer
  | .send data => (s.sendMessage sendto data).2
  | .flush => (s.flush sendto).2

def run (sendto : Nat → Bool) (s : UdpServer) (calls : List Call) : UdpServer :=
  calls.foldl (call sendto) s

def emitted (s : UdpServer) : List Datagram := (s.attempts.filter (·.sent)).map (·.datagram)

/-- The next message of the file and what follows it, as two calls of `fread` get them. -/
def readMessage (file : List UInt8) : Option (Body × List UInt8) :=
  if file.length < 2 then none
  else
    let msgLen := (readBe16 file 0).toNat
    let rest := file.drop 2
    if msgLen = 0 ∨ msgLen > maxMsgSize then none
    else if rest.length < msgLen then none
    else some (rest.take msgLen, rest.drop msgLen)

/-- The loop of `replay_file` once the `k`-th message was read. Whether rate control flushes
before a message depends on the clock, so `pause` may be any decision. -/
def replayLoop (pause : Nat → Bool) (sendto : Nat → Bool) :
    (fuel : Nat) → (k : Nat) → UdpServer → List UInt8 → UdpServer
  | 0, _, s, _ => s
  | fuel + 1, k, s, file =>
    match readMessage file with
    | none => s
    | some (msg, rest) =>
      let s := if pause k then (s.flush sendto).2 else s
      replayLoop pause sendto fuel (k + 1) (s.sendMessage sendto msg).2 rest

/-- Every message takes bytes of the file, so its length is fuel enough. -/
def replayFile (pause : Nat → Bool) (sendto : Nat → Bool) (s : UdpServer) (file : List UInt8) :
    UdpServer :=
  ((replayLoop pause sendto file.length 0 s file).flush sendto).2

end UdpServer

end Tickpipe
