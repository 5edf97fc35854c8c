import Tickpipe.SymbolDirectory

set_option autoImplicit true

namespace Tickpipe

/-- What `replay_all` counts, with the directory it feeds and the orders it passes on. -/
structure ItchReplay where
  directory : Option SymbolDirectory := none
  counts : Counts := {}
  messagesTotal : Nat := 0
  messagesParsed : Nat := 0
  messagesSkipped : Nat := 0
  messagesFiltered : Nat := 0
  directoryMessages : Nat := 0
  bytesRead : Nat := 0
  orders : List Order := []

namespace ItchReplay

def handle (s : ItchReplay) (msg : Body) : ItchReplay :=
  let s := { s with
    messagesTotal := s.messagesTotal + 1
    bytesRead := s.bytesRead + (2 + msg.length) }
  let parse : ItchReplay :=
    let p := ItchParser.parse s.counts msg
    match p.1 with
    | some order =>
      { s with
        counts := p.2
        messagesParsed := s.messagesParsed + 1
        orders := s.orders ++ [order] }
    | none =>
      { s with
        counts := p.2
        messagesSkipped := s.messagesSkipped + 1 }
  match s.directory with
  | none => parse
  | some d =>
    match d.feed msg with
    | some d =>
      { s with
        directory := some d
        directoryMessages := s.directoryMessages + 1 }
    | none =>
      if msg.length ≥ 3 ∧ d.isSubscribed (readBe16 msg 1) = false then
        { s with messagesFiltered := s.messagesFiltered + 1 }
      else parse

def reachesParser (s : ItchReplay) (msg : Body) : Bool :=
  match s.directory with
  | none => true
  | some d =>
    (d.feed msg).isNone && !(msg.length ≥ 3 && !d.isSubscribed (readBe16 msg 1))

/-- The loop over the mapped file from offset `p` on. A message limit of zero is none; the limit
is tested only after a message that went to the parser. -/
def replayLoop (maxMessages : Nat) (file : List UInt8) : (fuel : Nat) → (p : Nat) → ItchReplay →
    ItchReplay
  | 0, _, s => s
  | fuel + 1, p, s =>
    if p + 2 ≤ file.length then
      let msgLen := (readBe16 file p).toNat
      let p := p + 2
      if msgLen = 0 ∨ p + msgLen > file.length then s
      else
        let msg := (file.drop p).take msgLen
        let s' := s.handle msg
        -- a message that the directory keeps goes on with `continue`, past the test
        if maxMessages ≠ 0 ∧ s.reachesParser msg ∧ s'.messagesTotal ≥ maxMessages then s'
        else replayLoop maxMessages file fuel (p + msgLen) s'
    else s

/-- Every message takes bytes of the file, so its length is fuel enough. -/
def replayAll (maxMessages : Nat) (file : List UInt8) (s : ItchReplay) : ItchReplay :=
  replayLoop maxMessages file file.length 0 s

end ItchReplay

end Tickpipe
