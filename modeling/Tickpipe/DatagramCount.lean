import Tickpipe.PathAgreement
import Tickpipe.Lib.Batching

set_option autoImplicit true

namespace Tickpipe

open UdpServer (maxPayload Call)

def payloadOf (m : Body) : Nat := 2 + m.length

theorem length_framed (msgs : List Body) : (framed msgs).length = (msgs.map payloadOf).sum := by
  induction msgs with
  | nil => rfl
  | cons m msgs ih =>
    rw [framed_cons, List.length_append, List.length_append, ih]
    rfl

/-- The calls as items to be packed, and cuts. -/
def items (calls : List Call) : List (Option Body) :=
  calls.map fun
    | .send m => some m
    | .flush => none

namespace Packer

/-- The packer whose every datagram goes out is the general one. -/
structure Packs (k : Packer) (b : Batcher Body) : Prop where
  closed : k.log.length = b.closed
  pending : k.pending = b.pending

theorem Packs.flush (h : Packs k b) : Packs (k.flush true) b.cut := by
  rw [Packer.flush, Batcher.cut, h.pending]
  split
  · exact h
  · refine ⟨?_, rfl⟩
    rw [List.length_append, h.closed]
    rfl

theorem room_iff (h : Packs k b) (m : Body) : k.Room m ↔ b.Room payloadOf maxPayload m := by
  rw [Room, Batcher.Room, ← h.pending, ← length_framed]
  rfl

theorem Packs.send (h : Packs k b) (hm : payloadOf m ≤ maxPayload) :
    Packs (k.send true m) (b.put payloadOf maxPayload m) := by
  have hflush := h.flush
  rw [Packer.send, dif_pos (show 2 + m.length ≤ maxPayload from hm), Batcher.put]
  by_cases hr : k.Room m
  · rw [dif_pos hr, if_pos ((room_iff h m).1 hr)]
    exact ⟨h.closed, congrArg (· ++ [m]) h.pending⟩
  · rw [dif_neg hr, if_neg (mt (room_iff h m).2 hr), if_pos rfl]
    exact ⟨hflush.closed, congrArg (· ++ [m]) (k.pending_flush true)⟩

theorem Packs.run (h : Packs k b) (hcalls : ∀ m ∈ passed calls, payloadOf m ≤ maxPayload) :
    Packs (k.run (fun _ => true) calls) (b.run payloadOf maxPayload (items calls)) := by
  induction calls generalizing k b with
  | nil => exact h
  | cons c calls ih =>
    cases c with
    | send m =>
      rw [passed_send] at hcalls
      exact ih (h.send (hcalls m List.mem_cons_self))
        fun m' hm => hcalls m' (List.mem_cons_of_mem m hm)
    | flush => exact ih h.flush hcalls

end Packer

namespace UdpServer

/-- The counters of what went out are those of what was handed to the socket. -/
structure Counted (s : UdpServer) : Prop where
  packets : s.packetsSent = s.emitted.length
  bytes : s.bytesSent = (s.emitted.map List.length).sum

theorem emitted_attempt {s s' : UdpServer} (h : s'.attempts = s.attempts ++ [a]) :
    s'.emitted = s.emitted ++ if a.sent then [a.datagram] else [] := by
  rw [emitted, emitted, h, List.filter_append, List.map_append]
  cases hsent : a.sent with
  | true => rw [List.filter_cons_of_pos hsent]; rfl
  | false => rw [List.filter_cons_of_neg (by simp [hsent])]; rfl

theorem Counted.flush (h : Counted s) (sendto : Nat → Bool) : Counted (s.flush sendto).2 := by
  rw [UdpServer.flush]
  split
  · exact h
  · dsimp only
    cases hsent : sendto s.attempts.length with
    | true =>
      rw [if_pos rfl]
      refine ⟨?_, ?_⟩
      · rw [emitted_attempt (s := s) rfl, if_pos rfl]
        dsimp only
        rw [List.length_append, h.packets]
        rfl
      · rw [emitted_attempt (s := s) rfl, if_pos rfl, List.map_append, List.sum_append, ← h.bytes]
        rfl
    | false =>
      rw [if_neg Bool.false_ne_true]
      refine ⟨?_, ?_⟩
      · rw [emitted_attempt (s := s) rfl, if_neg Bool.false_ne_true, List.append_nil]
        exact h.packets
      · rw [emitted_attempt (s := s) rfl, if_neg Bool.false_ne_true, List.append_nil]
        exact h.bytes

theorem Counted.sendMessage (h : Counted s) (sendto : Nat → Bool) (data : Body) :
    Counted (s.sendMessage sendto data).2 := by
  have hflush := h.flush sendto
  rw [UdpServer.sendMessage]
  split
  · exact h
  · split
    · split
      case h_1 s' hs =>
        rw [hs] at hflush
        exact ⟨hflush.packets, hflush.bytes⟩
      case h_2 s' hs =>
        rw [hs] at hflush
        exact hflush
    · exact ⟨h.packets, h.bytes⟩

theorem Counted.run (h : Counted s) (sendto : Nat → Bool) (calls : List Call) :
    Counted (s.run sendto calls) := by
  induction calls generalizing s with
  | nil => exact h
  | cons c calls ih =>
    cases c with
    | send m => exact ih (h.sendMessage sendto m)
    | flush => exact ih (h.flush sendto)

end UdpServer

theorem items_unpaced (k : Nat) (msgs : List Body) :
    items (replayCalls (fun _ => false) k msgs) = msgs.map some := by
  induction msgs generalizing k with
  | nil => rfl
  | cons m msgs ih => exact congrArg (some m :: ·) (ih (k + 1))

theorem items_interrupted (h : ∀ n, pause n = true → pause' n = true) (k : Nat)
    (msgs : List Body) :
    Batcher.Interrupted (items (replayCalls pause k msgs)) (items (replayCalls pause' k msgs)) := by
  induction msgs generalizing k with
  | nil => exact .nil
  | cons m msgs ih =>
    have hrest := (ih (k + 1)).cons (some m)
    rw [replayCalls, replayCalls]
    cases hp : pause k with
    | true =>
      rw [h k hp]
      exact hrest.cons none
    | false =>
      cases hp' : pause' k with
      | true => exact hrest.cut
      | false => exact hrest

def fileCalls (pause : Nat → Bool) (file : List UInt8) : List Call :=
  replayCalls pause 0 (readMessages file)

theorem fileCalls_fit (pause : Nat → Bool) (file : List UInt8) :
    ∀ m ∈ passed (fileCalls pause file), payloadOf m ≤ maxPayload := by
  intro m hm
  rw [fileCalls, passed_replayCalls] at hm
  have hsize := (mem_readMessages hm).2
  rw [UdpServer.maxMsgSize] at hsize
  rw [payloadOf, maxPayload]
  omega

theorem emitted_replay (pause : Nat → Bool) (file : List UInt8) :
    (UdpServer.replayFile pause (fun _ => true) {} file).emitted =
      (Packer.run (fun _ => true) {} (fileCalls pause file ++ [.flush])).sent.map
        (·.encode UdpServer.session) := by
  rw [replayFile_eq]
  exact (Refines.empty.run (fun _ => true) _).emitted

theorem counted_replay (pause : Nat → Bool) (file : List UInt8) :
    (UdpServer.replayFile pause (fun _ => true) {} file).Counted := by
  rw [replayFile_eq]
  exact (UdpServer.Counted.mk (s := {}) rfl rfl).run _ _

/-- Over a socket that takes everything the datagrams of a replay are the batches of its items. -/
theorem packetsSent_replay (pause : Nat → Bool) (file : List UInt8) :
    (UdpServer.replayFile pause (fun _ => true) {} file).packetsSent =
      (Batcher.run payloadOf maxPayload {} (items (fileCalls pause file) ++ [none])).closed := by
  have hfit : ∀ m ∈ passed (fileCalls pause file ++ [.flush]), payloadOf m ≤ maxPayload := by
    rw [passed_append]
    exact fun m hm => fileCalls_fit pause file m (by simpa [passed] using hm)
  have hpacks := (Packer.Packs.mk (k := {}) (b := {}) rfl rfl).run hfit
  have hitems : items (fileCalls pause file ++ [.flush]) = items (fileCalls pause file) ++ [none] :=
    List.map_append
  have hall := Packer.log_sent (k := {}) (fun x hx => by cases hx)
    (fileCalls pause file ++ [.flush])
  rw [(counted_replay pause file).packets, emitted_replay, Packer.sent_eq hall, List.length_map,
    List.length_map, hpacks.closed, hitems]

theorem length_encodes (ps : List Packet) :
    ((ps.map (·.encode UdpServer.session)).map List.length).sum =
      20 * ps.length + (framed (ps.flatMap (·.msgs))).length := by
  induction ps with
  | nil => rfl
  | cons p ps ih =>
    rw [List.map_cons, List.map_cons, List.sum_cons, ih, Packet.length_encode, List.flatMap_cons,
      framed_append, List.length_append, List.length_cons]
    omega

/-- A replay puts a header on the wire for each datagram, and every message once. -/
theorem bytesSent_replay (pause : Nat → Bool) (file : List UInt8) :
    (UdpServer.replayFile pause (fun _ => true) {} file).bytesSent =
      20 * (UdpServer.replayFile pause (fun _ => true) {} file).packetsSent +
        (framed (readMessages file)).length := by
  rw [(counted_replay pause file).bytes, (counted_replay pause file).packets, emitted_replay,
    length_encodes, List.length_map, flatMap_sent_flush _ (fileCalls_fit pause file), fileCalls,
    passed_replayCalls]

/-- The replay packs the messages of a file into the fewest datagrams: at full speed no other way
of putting them, in order, into datagrams of the payload's size takes fewer, and rate control
that flushes in more places never saves a datagram or a byte. -/
theorem replay_sends_fewest {batches : List (List Body)}
    (hjoin : batches.flatten = readMessages file)
    (hfit : ∀ msgs ∈ batches, (framed msgs).length ≤ maxPayload)
    (hpause : ∀ n, pause n = true → pause' n = true) :
    (UdpServer.replayFile (fun _ => false) (fun _ => true) {} file).packetsSent ≤ batches.length ∧
      (UdpServer.replayFile pause (fun _ => true) {} file).packetsSent ≤
        (UdpServer.replayFile pause' (fun _ => true) {} file).packetsSent ∧
      (UdpServer.replayFile pause (fun _ => true) {} file).bytesSent ≤
        (UdpServer.replayFile pause' (fun _ => true) {} file).bytesSent := by
  have hfewest : (UdpServer.replayFile (fun _ => false) (fun _ => true) {} file).packetsSent ≤
      batches.length := by
    rw [packetsSent_replay, fileCalls, items_unpaced, ← hjoin]
    exact Batcher.closed_le_length fun msgs hmsgs => length_framed msgs ▸ hfit msgs hmsgs
  have hmore : (UdpServer.replayFile pause (fun _ => true) {} file).packetsSent ≤
      (UdpServer.replayFile pause' (fun _ => true) {} file).packetsSent := by
    rw [packetsSent_replay, packetsSent_replay]
    have hitems := (items_interrupted hpause 0 (readMessages file)).append
      (Batcher.interrupted_refl [none])
    exact (Batcher.Ahead.run hitems (.refl {})).closed_le
  refine ⟨hfewest, hmore, ?_⟩
  rw [bytesSent_replay, bytesSent_replay]
  omega

/-- Two messages of a byte, which might have gone out each on its own. -/
theorem twoMessages_fewest :
    (UdpServer.replayFile (fun _ => false) (fun _ => true) {} [0, 1, 83, 0, 1, 83]).packetsSent ≤
        2 ∧
      (UdpServer.replayFile (fun n => n == 1) (fun _ => true) {}
        [0, 1, 83, 0, 1, 83]).packetsSent ≤
        (UdpServer.replayFile (fun _ => true) (fun _ => true) {}
          [0, 1, 83, 0, 1, 83]).packetsSent ∧
      (UdpServer.replayFile (fun n => n == 1) (fun _ => true) {} [0, 1, 83, 0, 1, 83]).bytesSent ≤
        (UdpServer.replayFile (fun _ => true) (fun _ => true) {}
          [0, 1, 83, 0, 1, 83]).bytesSent := by
  have hjoin : ([[[83]], [[83]]] : List (List Body)).flatten =
      readMessages [0, 1, 83, 0, 1, 83] := by
    decide +kernel
  exact replay_sends_fewest hjoin (by decide) fun _ _ => rfl

end Tickpipe
