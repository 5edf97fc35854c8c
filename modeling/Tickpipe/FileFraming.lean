import Tickpipe.ItchReplay
import Tickpipe.Packer
import Tickpipe.Lib.Framing

set_option autoImplicit true

namespace Tickpipe

open Framing (pieces Consumes)
open UdpServer (Call readMessage)

/-- The first complete message of a file, behind its length, and what follows it. -/
def nextMessage (file : List UInt8) : Option (Body × List UInt8) :=
  let msgLen := (readBe16 file 0).toNat
  if 2 ≤ file.length ∧ msgLen ≠ 0 ∧ 2 + msgLen ≤ file.length then
    some ((file.drop 2).take msgLen, file.drop (2 + msgLen))
  else none

/-- The complete messages a file begins with, up to a zero length or its end. -/
def messages (file : List UInt8) : List Body := pieces nextMessage file.length file

theorem nextMessage_some (h : nextMessage file = some (msg, rest)) :
    msg ≠ [] ∧ file.length = 2 + msg.length + rest.length := by
  rw [nextMessage] at h
  split at h
  case isTrue hlen =>
    obtain ⟨rfl, rfl⟩ := Prod.mk.inj (Option.some.inj h)
    have htake : ((file.drop 2).take (readBe16 file 0).toNat).length = (readBe16 file 0).toNat := by
      rw [List.length_take, List.length_drop]
      omega
    constructor
    · intro hnil
      rw [hnil] at htake
      exact hlen.2.1 htake.symm
    · rw [htake, List.length_drop]
      omega
  case isFalse => cases h

theorem consumes_nextMessage : Consumes nextMessage := by
  intro file msg rest h
  have hlen := (nextMessage_some h).2
  omega

/-- The messages of a file are its first one and the messages of what follows. -/
theorem messages_eq (file : List UInt8) : messages file =
    match nextMessage file with
    | none => []
    | some (msg, rest) => msg :: messages rest := by
  have hfuel := Framing.pieces_of_length_le consumes_nextMessage (Nat.le_succ file.length)
  rw [messages, ← hfuel]
  cases hm : nextMessage file with
  | none => rw [Framing.pieces_succ_none hm]
  | some x =>
    obtain ⟨msg, rest⟩ := x
    have hlt := consumes_nextMessage file msg rest hm
    rw [Framing.pieces_succ_some hm,
      Framing.pieces_of_length_le consumes_nextMessage hlt.le]
    rfl

theorem ne_nil_of_mem_messages (h : msg ∈ messages file) : msg ≠ [] := by
  obtain ⟨l, rest, hl⟩ := Framing.exists_of_mem_pieces h
  exact (nextMessage_some hl).1

section Replay

theorem byte_drop (file : List UInt8) (p i : Nat) : byte (file.drop p) i = byte file (p + i) := by
  rw [byte, byte, List.getD_eq_getElem?_getD, List.getElem?_drop, List.getD_eq_getElem?_getD]

theorem readBe16_drop (file : List UInt8) (p i : Nat) :
    readBe16 (file.drop p) i = readBe16 file (p + i) := by
  rw [readBe16, byte_drop, byte_drop, readBe16, Nat.add_assoc]

/-- Handling messages until one that went to the parser meets the limit. -/
def ItchReplay.handleUntil (maxMessages : Nat) : List Body → ItchReplay → ItchReplay
  | [], s => s
  | msg :: msgs, s =>
    if maxMessages ≠ 0 ∧ s.reachesParser msg ∧ (s.handle msg).messagesTotal ≥ maxMessages then
      s.handle msg
    else handleUntil maxMessages msgs (s.handle msg)

/-- The walk over the mapped file handles its complete messages, one after another. -/
theorem replayLoop_eq (maxMessages : Nat) (file : List UInt8) (fuel p : Nat) (s : ItchReplay) :
    ItchReplay.replayLoop maxMessages file fuel p s =
      ItchReplay.handleUntil maxMessages (pieces nextMessage fuel (file.drop p)) s := by
  induction fuel generalizing p s with
  | zero => rfl
  | succ fuel ih =>
    have hread : readBe16 (file.drop p) 0 = readBe16 file p := readBe16_drop file p 0
    have hdrop := List.length_drop (i := p) (l := file)
    rw [ItchReplay.replayLoop]
    by_cases hp : p + 2 ≤ file.length
    · rw [if_pos hp]
      dsimp only
      by_cases hlen : (readBe16 file p).toNat = 0 ∨ p + 2 + (readBe16 file p).toNat > file.length
      · have hnone : nextMessage (file.drop p) = none := by
          rw [nextMessage, hread]
          exact if_neg (by omega)
        rw [if_pos hlen, Framing.pieces_succ_none hnone]
        rfl
      · have hsome : nextMessage (file.drop p) = some
            ((file.drop (p + 2)).take (readBe16 file p).toNat,
              file.drop (p + 2 + (readBe16 file p).toNat)) := by
          rw [nextMessage, hread, List.drop_drop, List.drop_drop, ← Nat.add_assoc]
          exact if_pos (by omega)
        rw [if_neg hlen, Framing.pieces_succ_some hsome, ItchReplay.handleUntil, ih]
    · have hnone : nextMessage (file.drop p) = none := by
        rw [nextMessage, hread]
        exact if_neg (by omega)
      rw [if_neg hp, Framing.pieces_succ_none hnone]
      rfl

theorem replayAll_limited (maxMessages : Nat) (file : List UInt8) (s : ItchReplay) :
    s.replayAll maxMessages file = ItchReplay.handleUntil maxMessages (messages file) s :=
  replayLoop_eq maxMessages file file.length 0 s

theorem ItchReplay.handleUntil_zero (msgs : List Body) (s : ItchReplay) :
    handleUntil 0 msgs s = msgs.foldl handle s := by
  induction msgs generalizing s with
  | nil => rfl
  | cons msg msgs ih =>
    rw [handleUntil, if_neg (fun h => h.1 rfl), ih, List.foldl_cons]

theorem replayAll_eq (file : List UInt8) (s : ItchReplay) :
    s.replayAll 0 file = (messages file).foldl ItchReplay.handle s := by
  rw [replayAll_limited, ItchReplay.handleUntil_zero]

end Replay

section Server

def replayCalls (pause : Nat → Bool) : (k : Nat) → List Body → List Call
  | _, [] => []
  | k, msg :: msgs =>
    (if pause k then [.flush] else []) ++ .send msg :: replayCalls pause (k + 1) msgs

theorem readMessage_eq (file : List UInt8) :
    readMessage file = (nextMessage file).filter fun x => x.1.length ≤ UdpServer.maxMsgSize := by
  have hdrop : (file.drop 2).length = file.length - 2 := List.length_drop
  rw [readMessage, nextMessage]
  by_cases hfile : file.length < 2
  · rw [if_pos hfile, if_neg (by omega)]
    rfl
  · rw [if_neg hfile]
    dsimp only
    rw [hdrop]
    by_cases hlen : 2 ≤ file.length ∧ (readBe16 file 0).toNat ≠ 0 ∧
        2 + (readBe16 file 0).toNat ≤ file.length
    · have htake : ((file.drop 2).take (readBe16 file 0).toNat).length =
          (readBe16 file 0).toNat := by
        rw [List.length_take, hdrop]
        omega
      rw [if_pos hlen, Option.filter_some, htake, List.drop_drop]
      by_cases hmax : (readBe16 file 0).toNat ≤ UdpServer.maxMsgSize
      · rw [if_neg (by omega), if_neg (by omega), if_pos (decide_eq_true hmax)]
      · rw [if_pos (by omega), if_neg (by simpa using hmax)]
    · rw [if_neg hlen, Option.filter_none]
      split
      · rfl
      · rw [if_pos (by omega)]

/-- `replay_file` makes the calls for the messages it reads. -/
theorem server_replayLoop_eq (pause : Nat → Bool) (sendto : Nat → Bool) (fuel k : Nat)
    (s : UdpServer)
    (file : List UInt8) :
    UdpServer.replayLoop pause sendto fuel k s file =
      s.run sendto (replayCalls pause k (pieces readMessage fuel file)) := by
  induction fuel generalizing k s file with
  | zero => rfl
  | succ fuel ih =>
    rw [UdpServer.replayLoop]
    cases hread : readMessage file with
    | none =>
      rw [Framing.pieces_succ_none hread]
      rfl
    | some x =>
      rw [Framing.pieces_succ_some hread, replayCalls, UdpServer.run, List.foldl_append,
        List.foldl_cons]
      dsimp only
      rw [ih]
      by_cases hp : pause k
      · rw [if_pos hp, if_pos hp]
        rfl
      · rw [if_neg hp, if_neg hp]
        rfl

def readMessages (file : List UInt8) : List Body := pieces readMessage file.length file

theorem replayFile_eq (pause sendto : Nat → Bool) (s : UdpServer) (file : List UInt8) :
    UdpServer.replayFile pause sendto s file =
      s.run sendto (replayCalls pause 0 (readMessages file) ++ [.flush]) := by
  rw [UdpServer.replayFile, server_replayLoop_eq, UdpServer.run, UdpServer.run, List.foldl_append]
  rfl

theorem readMessage_some (h : readMessage file = some (msg, rest)) :
    msg ≠ [] ∧ msg.length ≤ UdpServer.maxMsgSize ∧ 3 + rest.length ≤ file.length := by
  rw [readMessage_eq, Option.filter_eq_some_iff] at h
  have hnext := nextMessage_some h.1
  have hpos := List.length_pos_iff.2 hnext.1
  exact ⟨hnext.1, of_decide_eq_true h.2, by omega⟩

theorem mem_readMessages (h : msg ∈ readMessages file) :
    msg ≠ [] ∧ msg.length ≤ UdpServer.maxMsgSize := by
  obtain ⟨l, rest, hl⟩ := Framing.exists_of_mem_pieces h
  have hread := readMessage_some hl
  exact ⟨hread.1, hread.2.1⟩

theorem length_readMessages_le (file : List UInt8) : 3 * (readMessages file).length ≤ file.length :=
  Framing.mul_length_pieces_le (fun _ _ _ h => (readMessage_some h).2.2) _ _

theorem readMessages_eq (h : ∀ msg ∈ messages file, msg.length ≤ UdpServer.maxMsgSize) :
    readMessages file = messages file := by
  apply Framing.pieces_eq_of_refuses_none (P := fun msg => msg.length ≤ UdpServer.maxMsgSize) _ _ h
  · intro l hl
    rw [readMessage_eq, hl]
    rfl
  · intro l msg rest hl hmsg
    rw [readMessage_eq, hl, Option.filter_some, if_pos (decide_eq_true hmsg)]

theorem readMessage_framed (h : msg ≠ []) (hmax : msg.length ≤ UdpServer.maxMsgSize)
    (rest : List UInt8) : readMessage (framed [msg] ++ rest) = some (msg, rest) := by
  have hpos := List.length_pos_iff.2 h
  have hlen : (writeBe16 (UInt16.ofNat msg.length)).length = 2 := rfl
  have hread := readBe16_write [] (UInt16.ofNat msg.length) (msg ++ rest)
  rw [UdpServer.maxMsgSize] at hmax
  rw [framed_cons, framed_nil, List.append_nil, List.append_assoc, readMessage]
  rw [List.nil_append] at hread
  change readBe16 _ 0 = _ at hread
  have hnat : (UInt16.ofNat msg.length).toNat = msg.length := by
    rw [UInt16.toNat_ofNat', Nat.mod_eq_of_lt (by omega)]
  rw [hread, hnat, List.length_append, hlen, if_neg (by omega)]
  dsimp only
  rw [List.drop_left' hlen, UdpServer.maxMsgSize, if_neg (by omega),
    if_neg (by rw [List.length_append]; omega), List.take_left, List.drop_left]

/-- `replay_file` reads back the messages that a file was made of. -/
theorem readMessages_framed
    (h : ∀ msg ∈ msgs, msg ≠ [] ∧ msg.length ≤ UdpServer.maxMsgSize) :
    readMessages (framed msgs) = msgs := by
  have hconsumes : Consumes readMessage := by
    intro file msg rest hread
    have hlen := (readMessage_some hread).2.2
    omega
  induction msgs with
  | nil => rfl
  | cons msg msgs ih =>
    obtain ⟨hne, hmax⟩ := h msg List.mem_cons_self
    have hsplit : framed (msg :: msgs) = framed [msg] ++ framed msgs := framed_append [msg] msgs
    have hread := readMessage_framed hne hmax (framed msgs)
    have hlt := hconsumes _ _ _ hread
    rw [readMessages, hsplit, ← Framing.pieces_of_length_le hconsumes (Nat.le_succ _),
      Framing.pieces_succ_some hread, Framing.pieces_of_length_le hconsumes hlt.le]
    exact congrArg (msg :: ·) (ih fun m hm => h m (List.mem_cons_of_mem _ hm))

theorem passed_replayCalls (pause : Nat → Bool) (k : Nat) (msgs : List Body) :
    passed (replayCalls pause k msgs) = msgs := by
  induction msgs generalizing k with
  | nil => rfl
  | cons msg msgs ih =>
    rw [replayCalls, passed_append, passed_send, ih]
    split
    · rfl
    · rfl

end Server

end Tickpipe
