import Tickpipe.FileFraming
import Tickpipe.Sender

set_option autoImplicit true

namespace Tickpipe

open UdpServer (session Call maxPayload maxMsgSize)

/-- Both paths have fed the same messages: to the directory, to the filter and to the parser. -/
structure SameFeed (r : UdpReceiver) (s : ItchReplay) : Prop where
  orders : r.orders = s.orders
  directory : r.directory = s.directory
  counts : r.counts = s.counts
  directoryMessages : r.directoryMessages = s.directoryMessages
  messagesFiltered : r.messagesFiltered = s.messagesFiltered
  parsed : r.ordersParsed = s.messagesParsed

namespace SameFeed

theorem parse (h : SameFeed r s) (msg : Body) (total bytes : Nat) :
    SameFeed (r.parse msg)
      (match (ItchParser.parse s.counts msg).1 with
      | some order =>
        { s with
          messagesTotal := total
          bytesRead := bytes
          counts := (ItchParser.parse s.counts msg).2
          messagesParsed := s.messagesParsed + 1
          orders := s.orders ++ [order] }
      | none =>
        { s with
          messagesTotal := total
          bytesRead := bytes
          counts := (ItchParser.parse s.counts msg).2
          messagesSkipped := s.messagesSkipped + 1 }) := by
  rw [UdpReceiver.parse, h.counts]
  cases (ItchParser.parse s.counts msg).1 with
  | some order =>
    exact ⟨congrArg (· ++ [order]) h.orders, h.directory, rfl, h.directoryMessages,
      h.messagesFiltered, congrArg (· + 1) h.parsed⟩
  | none =>
    exact ⟨h.orders, h.directory, rfl, h.directoryMessages, h.messagesFiltered, h.parsed⟩

theorem handle (h : SameFeed r s) (msg : Body) : SameFeed (r.handle msg) (s.handle msg) := by
  have hparse := h.parse msg (s.messagesTotal + 1) (s.bytesRead + (2 + msg.length))
  rw [UdpReceiver.handle, ItchReplay.handle, h.directory]
  cases hd : s.directory with
  | none =>
    rw [hd] at hparse
    exact hparse
  | some d =>
    rw [hd] at hparse
    dsimp only
    cases d.feed msg with
    | some d' =>
      exact ⟨h.orders, rfl, h.counts, congrArg (· + 1) h.directoryMessages, h.messagesFiltered,
        h.parsed⟩
    | none =>
      dsimp only
      split
      · exact ⟨h.orders, rfl, h.counts, h.directoryMessages, congrArg (· + 1) h.messagesFiltered,
          h.parsed⟩
      · exact hparse

theorem handOn (h : SameFeed r s) (seq : UInt64) (msg : Body) :
    SameFeed (r.handOn seq msg) (s.handle msg) := by
  have hh := h.handle msg
  exact ⟨hh.orders, hh.directory, hh.counts, hh.directoryMessages, hh.messagesFiltered, hh.parsed⟩

theorem handAll (h : SameFeed r s) (seq : UInt64) (msgs : List Body)
    (hne : ∀ msg ∈ msgs, msg ≠ []) :
    SameFeed (r.handAll seq msgs) (msgs.foldl ItchReplay.handle s) := by
  induction msgs generalizing r s seq with
  | nil => exact h
  | cons msg msgs ih =>
    rw [UdpReceiver.handAll, if_neg (hne msg List.mem_cons_self), List.foldl_cons]
    exact ih (h.handOn seq msg) _ fun m hm => hne m (List.mem_cons_of_mem _ hm)

theorem sequence (h : SameFeed r s) (seq : UInt64) (count : UInt16) :
    SameFeed (r.sequence seq count) s := by
  obtain ⟨ho, hd, hc, hm, hf, hp⟩ := h
  rw [UdpReceiver.sequence]
  split
  · exact ⟨ho, hd, hc, hm, hf, hp⟩
  · split
    · exact ⟨ho, hd, hc, hm, hf, hp⟩
    · split
      · exact ⟨ho, hd, hc, hm, hf, hp⟩
      · exact ⟨ho, hd, hc, hm, hf, hp⟩

/-- The batching into datagrams does not show. -/
theorem receiveAll (h : SameFeed r s) (session : Vector UInt8 10) (ps : List Packet)
    (hne : ∀ msg ∈ ps.flatMap (·.msgs), msg ≠ []) :
    SameFeed (r.receiveAll (ps.map (·.encode session)))
      ((ps.flatMap (·.msgs)).foldl ItchReplay.handle s) := by
  induction ps generalizing r s with
  | nil => exact h
  | cons p ps ih =>
    rw [List.flatMap_cons] at hne ⊢
    rw [List.foldl_append, List.map_cons, UdpReceiver.receiveAll, List.foldl_cons,
      UdpReceiver.receive_encode]
    refine ih ?_ fun m hm => hne m (List.mem_append_right _ hm)
    exact (h.sequence _ _).handAll _ _ fun m hm => hne m (List.mem_append_left _ hm)

end SameFeed

/-- A run of calls that ends in a flush puts every message that fits a datagram on the wire. -/
theorem flatMap_sent_flush (calls : List Call) (h : ∀ m ∈ passed calls, 2 + m.length ≤ maxPayload) :
    (Packer.run (fun _ => true) {} (calls ++ [.flush])).sent.flatMap (·.msgs) = passed calls := by
  let k := Packer.run (fun _ => true) {} (calls ++ [.flush])
  have hpending : k.pending = [] := by
    have hk : k = (Packer.run (fun _ => true) {} calls).flush true := List.foldl_append
    rw [hk, Packer.pending_flush]
  have hpassed : passed (calls ++ [.flush]) = passed calls := by
    rw [passed_append]
    exact List.append_nil _
  have hacc : k.accepted = passed calls := by
    have hrun := Packer.accepted_run (calls ++ [.flush]) (by rw [hpassed]; exact h) {}
    rw [hpassed] at hrun
    exact hrun
  rw [← hacc, Packer.accepted, hpending, List.append_nil]
  exact Packer.flatMap_sent (Packer.log_sent (by simp) _)

/-- The socket path passes on what the file path passes on, wherever the sender flushes. -/
theorem paths_agree (file : List UInt8) (h : ∀ msg ∈ messages file, msg.length ≤ maxMsgSize)
    (pause : Nat → Bool) (directory : Option SymbolDirectory) :
    SameFeed
      (UdpReceiver.receiveAll { directory }
        (UdpServer.replayFile pause (fun _ => true) {} file).emitted)
      (ItchReplay.replayAll 0 file { directory }) := by
  have hpassed := passed_replayCalls pause 0 (messages file)
  have hfit : ∀ m ∈ passed (replayCalls pause 0 (messages file)), 2 + m.length ≤ maxPayload := by
    intro m hm
    rw [hpassed] at hm
    have hmax := h m hm
    rw [maxMsgSize] at hmax
    rw [maxPayload]
    omega
  have hmsgs := flatMap_sent_flush _ hfit
  have hstart : SameFeed { directory } { directory } := ⟨rfl, rfl, rfl, rfl, rfl, rfl⟩
  have hreplay : ItchReplay.replayAll 0 file { directory } =
      ((Packer.run (fun _ => true) {}
        (replayCalls pause 0 (messages file) ++ [.flush])).sent.flatMap
          (·.msgs)).foldl ItchReplay.handle { directory } := by
    rw [hmsgs, hpassed, replayAll_eq]
  rw [replayFile_eq, readMessages_eq h, (Refines.empty.run _ _).emitted, hreplay]
  refine hstart.receiveAll session _ fun m hm => ?_
  rw [hmsgs, hpassed] at hm
  exact ne_nil_of_mem_messages hm

section Day

def acmeName : List UInt8 := [65, 67, 77, 69, 32, 32, 32, 32]

/-- The subscription to it, as it waits for the message that names it. -/
def forAcme : SymbolDirectory :=
  { SymbolDirectory.new with pending := [SymbolDirectory.pad8 acmeName] }

/-- A day of one name that is subscribed and one that is not: the name, two Adds, an execution, a
system event, and the beginning of another one. -/
def dayFile : List UInt8 :=
  let symbol : Body :=
    [82, 0, 1] ++ List.replicate 8 0 ++ acmeName ++ List.replicate 20 0
  let add (locate ref : UInt8) : Body :=
    [65, 0, locate] ++ List.replicate 15 0 ++ [ref, 66, 0, 0, 0, 100] ++ List.replicate 12 1
  let execute (locate ref : UInt8) : Body :=
    [69, 0, locate] ++ List.replicate 15 0 ++ [ref, 0, 0, 0, 40] ++ List.replicate 8 1
  framed [symbol, add 1 7, add 2 8, execute 1 7, List.replicate 12 83] ++ [0, 12, 83]

theorem dayFile_agrees :
    let replayed := ItchReplay.replayAll 0 dayFile { directory := some forAcme }
    replayed.orders.map (fun order => (order.action, order.orderRef)) = [(.add, 7), (.execute, 7)] ∧
      replayed.directoryMessages = 1 ∧ replayed.messagesFiltered = 2 ∧
      SameFeed
        (UdpReceiver.receiveAll { directory := some forAcme }
          (UdpServer.replayFile (fun k => k = 2) (fun _ => true) {} dayFile).emitted)
        replayed := by
  intro replayed
  refine ⟨by decide +kernel, by decide +kernel, by decide +kernel, ?_⟩
  exact paths_agree dayFile (by decide +kernel) (fun k => k = 2) (some forAcme)

end Day

end Tickpipe
