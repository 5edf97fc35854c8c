import Tickpipe.LossAccounting
import Tickpipe.PathAgreement
import Tickpipe.Shutdown

set_option autoImplicit true

namespace Tickpipe

open UdpServer (session Call maxPayload maxMsgSize)

theorem delivered_cons (x : α) (xs : List α) (arrives : Bool) (mask : List Bool) :
    delivered (x :: xs) (arrives :: mask) =
      if arrives then x :: delivered xs mask else delivered xs mask := by
  cases arrives <;> rfl

/-- A channel that drops some of its input may let through any sublist of it. -/
theorem exists_delivered (h : List.Sublist ys xs) : ∃ mask, delivered xs mask = ys := by
  induction h with
  | slnil => exact ⟨[], rfl⟩
  | cons x h ih =>
    obtain ⟨mask, hmask⟩ := ih
    exact ⟨false :: mask, hmask⟩
  | cons_cons x h ih =>
    obtain ⟨mask, hmask⟩ := ih
    refine ⟨true :: mask, ?_⟩
    rw [delivered_cons, if_pos rfl, hmask]

namespace RingSystem

def inPush : Producer → List (List UInt8)
  | .idle => []
  | .loaded r _ | .copying r _ _ => [r.bytes]

/-- The ring was offered these records: it has taken some of them, and counts the others. -/
structure Offered (s : RingSystem k) (records : List (List UInt8)) : Prop where
  sublist : (s.pushed ++ inPush s.producer).Sublist records
  length : records.length = s.offered

variable {s : RingSystem k} {records : List (List UInt8)}

theorem Offered.push (h : s.Offered records) (hidle : s.producer = .idle) (r : Record) :
    (s.push r).Offered (records ++ [r.bytes]) where
  sublist := by
    have hsub := h.sublist
    rw [hidle, inPush, List.append_nil] at hsub
    rw [RingSystem.push, hidle]
    exact hsub.append (List.Sublist.refl _)
  length := by
    rw [offered_push hidle, List.length_append, h.length]
    rfl

theorem Offered.produce (h : s.Offered records) : s.produce.Offered records where
  sublist := by
    have hsub := h.sublist
    rw [RingSystem.produce]
    cases hp : s.producer with
    | idle => exact h.sublist
    | loaded r head =>
      rw [hp] at hsub
      dsimp only
      split
      · rw [inPush, List.append_nil]
        exact (List.sublist_append_left _ _).trans hsub
      · exact hsub
    | copying r head i =>
      rw [hp] at hsub
      dsimp only
      split
      · exact hsub
      · rw [inPush, List.append_nil]
        exact hsub
  length := h.length.trans s.offered_produce.symm

theorem pushed_pop (s : RingSystem k) : s.pop.pushed = s.pushed := by
  rw [pop]
  cases s.consumer <;> rfl

theorem pushed_consume (s : RingSystem k) (outCap : UInt32) :
    (s.consume outCap).pushed = s.pushed := by
  rw [consume]
  cases s.consumer with
  | idle => rfl
  | loaded tail =>
    dsimp only
    split <;> rfl
  | readingLen tail head out =>
    dsimp only
    split
    · rfl
    · split <;> rfl
  | readingData tail len out =>
    dsimp only
    split <;> rfl

theorem Offered.pop (h : s.Offered records) : s.pop.Offered records where
  sublist := by
    rw [s.pushed_pop, s.producer_pop]
    exact h.sublist
  length := h.length.trans s.offered_pop.symm

theorem Offered.consume (h : s.Offered records) (outCap : UInt32) :
    (s.consume outCap).Offered records where
  sublist := by
    rw [s.pushed_consume, s.producer_consume]
    exact h.sublist
  length := h.length.trans (s.offered_consume outCap).symm

end RingSystem

namespace FeedHandler

open RingSystem (Offered)

def arrival (s : FeedHandler k) : FeedAction → List Datagram
  | .recv (some packet) =>
    match s.socket with
    | .receiving => [packet.bytes]
    | .received _ | .pushing | .leaving | .stopped => []
  | .recv none | .socket | .book => []

def arrivals (headFirst : Bool) (s : FeedHandler k) : List FeedAction → List Datagram
  | [] => []
  | a :: schedule => s.arrival a ++ arrivals headFirst (s.step headFirst a) schedule

/-- The datagram that is received and not yet offered to the ring. -/
def held : SocketThread → List Datagram
  | .received packet => [packet.bytes]
  | .receiving | .pushing | .leaving | .stopped => []

/-- What came from the socket was offered to the ring, or is about to be. -/
def Received (s : FeedHandler k) (datagrams : List Datagram) : Prop :=
  ∃ records, s.ring.Offered records ∧ datagrams = records ++ held s.socket

variable {s : FeedHandler k} {headFirst : Bool} {receiver : UdpReceiver}
  {datagrams : List Datagram}

theorem recv_busy (h : s.socket ≠ .receiving) (outcome : Option RecvPacket) :
    s.recv outcome = s ∧ s.arrival (.recv outcome) = [] := by
  rw [FeedHandler.recv.eq_def]
  cases hs : s.socket with
  | receiving => exact absurd hs h
  | received _ | pushing | leaving | stopped =>
    refine ⟨rfl, ?_⟩
    cases outcome with
    | none => rfl
    | some packet => rw [arrival, hs]

theorem Received.recv (h : s.Received datagrams) (outcome : Option RecvPacket) :
    (s.recv outcome).Received (datagrams ++ s.arrival (.recv outcome)) := by
  by_cases hs : s.socket = .receiving
  · obtain ⟨records, hoffered, hdatagrams⟩ := h
    rw [hs, held, List.append_nil] at hdatagrams
    rw [FeedHandler.recv.eq_def, hs, hdatagrams]
    cases outcome with
    | none =>
      dsimp only
      split
      · exact ⟨records, hoffered, rfl⟩
      · exact ⟨records, hoffered, by rw [arrival, hs, held]⟩
    | some packet => exact ⟨records, hoffered, by rw [arrival, hs, held]⟩
  · obtain ⟨hsame, hnone⟩ := recv_busy hs outcome
    rw [hsame, hnone, List.append_nil]
    exact h

theorem Received.socketStep (h : s.Received datagrams) (hs : s.Sound headFirst receiver) :
    s.socketStep.Received datagrams := by
  have hsocket := hs.socket
  obtain ⟨records, hoffered, hdatagrams⟩ := h
  rw [FeedHandler.socketStep]
  cases hthread : s.socket with
  | receiving => exact ⟨records, hoffered, hdatagrams⟩
  | received packet =>
    rw [hthread] at hsocket hdatagrams
    exact ⟨records ++ [packet.bytes], hoffered.push hsocket.1 packet.toRecord, by
      rw [hdatagrams, held, held, List.append_nil]⟩
  | pushing =>
    rw [hthread] at hdatagrams
    have hheld : held (afterPush s.ring.produce.producer) = [] := by
      cases s.ring.produce.producer <;> rfl
    exact ⟨records, hoffered.produce, by rw [hdatagrams, hheld, held]⟩
  | leaving =>
    rw [hthread] at hdatagrams
    exact ⟨records, hoffered, hdatagrams⟩
  | stopped => exact ⟨records, hoffered, hdatagrams⟩

/-- The book thread offers nothing to the ring. -/
theorem Received.bookStep (h : s.Received datagrams) (headFirst : Bool) :
    (s.bookStep headFirst).Received datagrams := by
  obtain ⟨records, hoffered, hdatagrams⟩ := h
  rw [FeedHandler.bookStep]
  cases s.book with
  | calling => exact ⟨records, hoffered.pop, hdatagrams⟩
  | popping => exact ⟨records, hoffered.consume maxPacketSize, hdatagrams⟩
  | processing datagram => exact ⟨records, hoffered, hdatagrams⟩
  | testing => exact ⟨records, hoffered, hdatagrams⟩
  | measuring => exact ⟨records, hoffered, hdatagrams⟩
  | measured cursor => exact ⟨records, hoffered, hdatagrams⟩
  | joining =>
    dsimp only
    split <;> exact ⟨records, hoffered, hdatagrams⟩
  | done => exact ⟨records, hoffered, hdatagrams⟩

theorem Received.step (h : s.Received datagrams) (hs : s.Sound headFirst receiver)
    (a : FeedAction) : (s.step headFirst a).Received (datagrams ++ s.arrival a) := by
  cases a with
  | recv outcome => exact h.recv outcome
  | socket =>
    rw [arrival, List.append_nil]
    exact h.socketStep hs
  | book =>
    rw [arrival, List.append_nil]
    exact h.bookStep headFirst

theorem Received.run (h : s.Received datagrams) (hs : s.Sound headFirst receiver)
    (schedule : List FeedAction) : (schedule.foldl (FeedHandler.step headFirst) s).Received
      (datagrams ++ s.arrivals headFirst schedule) := by
  induction schedule generalizing s datagrams with
  | nil =>
    rw [arrivals, List.append_nil]
    exact h
  | cons a schedule ih =>
    rw [arrivals, ← List.append_assoc]
    exact ih (h.step hs a) (hs.step a)

def start (buf : Vector UInt8 (2 ^ k.val)) (receiver : UdpReceiver) : FeedHandler k where
  ring := { ring := { buf := buf } }
  receiver := receiver

theorem start_received (buf : Vector UInt8 (2 ^ k.val)) (receiver : UdpReceiver) :
    (start buf receiver).Received [] :=
  ⟨[], ⟨List.Sublist.refl _, rfl⟩, rfl⟩

/-- After the join, the datagrams from the socket were processed in order, less those that the ring
counts as dropped. -/
theorem processed_arrivals (headFirst : Bool) (buf : Vector UInt8 (2 ^ k.val))
    (receiver : UdpReceiver) (schedule : List FeedAction)
    (hd : (run headFirst buf receiver schedule).book = .done) :
    let s := run headFirst buf receiver schedule
    let datagrams := (start buf receiver).arrivals headFirst schedule
    s.processed.Sublist datagrams ∧ datagrams.length = s.processed.length + s.ringDropped := by
  intro s datagrams
  have hsound : s.Sound headFirst receiver := run_sound headFirst buf receiver schedule
  obtain ⟨hstopped, hpopped, hprocessed⟩ := hsound.drained (Or.inr hd)
  have hbook := hsound.book
  have hsocket := hsound.socket
  have hreceived : s.Received datagrams :=
    (start_received buf receiver).run (start_sound headFirst buf receiver) schedule
  obtain ⟨records, hoffered, hrecords⟩ := hreceived
  rw [hd] at hbook
  rw [hstopped] at hsocket
  rw [hstopped, held, List.append_nil] at hrecords
  have hsub := hoffered.sublist
  have hlength := hoffered.length
  rw [hsocket.1, RingSystem.inPush, List.append_nil, ← hpopped, ← hprocessed] at hsub
  rw [RingSystem.offered, hsocket.1, ← hpopped, ← hprocessed, ← hbook.2.2] at hlength
  rw [hrecords]
  exact ⟨hsub, hlength⟩

end FeedHandler

theorem receiver_accounts (directory : Option SymbolDirectory) (calls : List Call)
    (mask : List Bool) (hlen : ∀ m ∈ passed calls, 1 ≤ m.length ∧ m.length ≤ 1024)
    (hfew : (passed calls).length < 2 ^ 64) :
    delivered (packets calls) mask = [] ∧ lossRuns ((packets calls).zip mask) = [] ∨
      ∃ p, (delivered (packets calls) mask).head? = some p ∧
        Accounts { directory, expectedSeq := UInt64.ofNat p.first }
          (receiver directory calls mask) (lossRuns ((packets calls).zip mask))
          ((delivered (packets calls) mask).flatMap (·.msgs)).length := by
  have hzip := prefix_of_zip calls mask
  have hcount := length_zip_packets_le calls mask fun m hm => (hlen m hm).2
  have hbody := packets_bodies calls hlen
  have hmsgs : ∀ p ∈ ((packets calls).zip mask).map (·.1), p.msgs ≠ [] := fun p hp =>
    (Packer.inv_empty.run _ calls).sent_nonempty (hzip.subset hp)
  rw [receiver_delivered]
  exact lossRuns_accounts session ((packets calls).zip mask) { directory } 1 le_rfl rfl
    (consecutive_zip_packets calls mask) (by omega) hmsgs fun p hp => hbody p (hzip.subset hp)

/-- The counts themselves; where nothing came through, there is nothing to count. -/
theorem receiver_counts (directory : Option SymbolDirectory) (calls : List Call)
    (mask : List Bool) (hlen : ∀ m ∈ passed calls, 1 ≤ m.length ∧ m.length ≤ 1024)
    (hfew : (passed calls).length < 2 ^ 64) :
    let r := receiver directory calls mask
    r.gaps = (lossRuns ((packets calls).zip mask)).length ∧
      r.messagesLost.toNat = messagesIn (lossRuns ((packets calls).zip mask)) ∧
      r.outOfOrder = 0 ∧ r.shortPackets = 0 := by
  intro r
  rcases receiver_accounts directory calls mask hlen hfew with ⟨hnone, hruns⟩ | ⟨p, -, h⟩
  · have hempty : r = { directory } := by
      rw [show r = _ from receiver_delivered directory calls mask, hnone]
      rfl
    rw [hempty, hruns]
    exact ⟨rfl, rfl, rfl, rfl⟩
  · have hcount := length_zip_packets_le calls mask fun m hm => (hlen m hm).2
    have hbound := messagesIn_lossRuns_le ((packets calls).zip mask)
    have hsmall : messagesIn (lossRuns ((packets calls).zip mask)) < 2 ^ 64 := by omega
    refine ⟨?_, ?_, h.outOfOrder, h.shortPackets⟩
    · rw [h.gaps, Nat.zero_add]
    · rw [h.messagesLost, UInt64.zero_add, UInt64.toNat_ofNat', Nat.mod_eq_of_lt hsmall]

/-- What came through the network and the ring was handed on, and the receiver counts what is
missing in between; `mask` tells which datagrams came through both. -/
structure FeedAccounted (calls : List Call) (mask : List Bool) (datagrams : List Datagram)
    (s : FeedHandler k) : Prop where
  processed : s.processed = delivered (onWire calls) mask
  dropped : datagrams.length = s.processed.length + s.ringDropped
  handed : s.receiver.handed.map (·.2) = (delivered (packets calls) mask).flatMap (·.msgs)
  gaps : s.receiver.gaps = (lossRuns ((packets calls).zip mask)).length
  messagesLost : s.receiver.messagesLost.toNat = messagesIn (lossRuns ((packets calls).zip mask))
  outOfOrder : s.receiver.outOfOrder = 0
  shortPackets : s.receiver.shortPackets = 0
  total : ∀ p ∈ (delivered (packets calls) mask).head?,
    ∀ q ∈ (delivered (packets calls) mask).getLast?,
      p.first + s.receiver.handed.length + s.receiver.messagesLost.toNat = q.next

theorem lossRunsAfter_eq_nil (trace : List (Packet × Bool)) (run : List Packet)
    (h : trace.filter (·.2) = []) : lossRunsAfter run trace = [] := by
  induction trace generalizing run with
  | nil => rfl
  | cons x trace ih =>
    obtain ⟨p, kept⟩ := x
    cases kept with
    | false => exact ih _ h
    | true => cases h

/-- Up to the last delivered datagram, every number is of a message that was delivered or lost. -/
theorem lossRunsAfter_span (trace : List (Packet × Bool)) (run : List Packet) (n : Nat)
    (hcons : Consecutive n (trace.map (·.1)))
    (hq : q ∈ ((trace.filter (·.2)).map (·.1)).getLast?) :
    n + (((trace.filter (·.2)).map (·.1)).flatMap (·.msgs)).length +
        messagesIn (lossRunsAfter run trace) =
      q.next + (run.flatMap (·.msgs)).length := by
  induction trace generalizing run n with
  | nil => cases hq
  | cons x trace ih =>
    obtain ⟨p, kept⟩ := x
    have hfirst : p.first = n := hcons.1
    have hrest := hcons.2
    have hnext : p.next = p.first + p.msgs.length := rfl
    cases kept with
    | false =>
      have h := ih (run ++ [p]) p.next hrest hq
      rw [List.flatMap_append, List.length_append, List.flatMap_singleton] at h
      rw [List.filter_cons, if_neg Bool.false_ne_true, lossRunsAfter]
      omega
    | true =>
      have hruns : messagesIn (lossRunsAfter run ((p, true) :: trace)) =
          (run.flatMap (·.msgs)).length + messagesIn (lossRunsAfter [] trace) := by
        rw [lossRunsAfter]
        split
        · next hrun => rw [hrun, List.flatMap_nil, List.length_nil, Nat.zero_add]
        · rw [messagesIn, List.flatten_cons, List.flatMap_append, List.length_append]
          rfl
      rw [List.filter_cons, if_pos rfl, List.map_cons] at hq ⊢
      rw [List.flatMap_cons, List.length_append, hruns]
      dsimp only
      by_cases hnone : trace.filter (·.2) = []
      · rw [hnone] at hq ⊢
        obtain rfl : p = q := Option.some.inj hq
        rw [lossRunsAfter_eq_nil trace [] hnone]
        have hzero : messagesIn [] = 0 := rfl
        rw [List.map_nil, List.flatMap_nil, List.length_nil]
        omega
      · have hmap : (trace.filter (·.2)).map (·.1) ≠ [] := fun h => hnone (List.map_eq_nil_iff.1 h)
        rw [List.getLast?_cons_of_ne_nil hmap] at hq
        have h := ih [] p.next hrest hq
        rw [List.flatMap_nil, List.length_nil] at h
        omega

/-- The span that a receiver sees begins with the first delivered datagram. -/
theorem lossRuns_span (trace : List (Packet × Bool)) (n : Nat)
    (hcons : Consecutive n (trace.map (·.1)))
    (hp : p ∈ ((trace.filter (·.2)).map (·.1)).head?)
    (hq : q ∈ ((trace.filter (·.2)).map (·.1)).getLast?) :
    p.first + (((trace.filter (·.2)).map (·.1)).flatMap (·.msgs)).length +
      messagesIn (lossRuns trace) = q.next := by
  induction trace generalizing n with
  | nil => cases hp
  | cons x trace ih =>
    obtain ⟨p', kept⟩ := x
    cases kept with
    | false => exact ih p'.next hcons.2 hp hq
    | true =>
      obtain rfl : p' = p := Option.some.inj hp
      have h := lossRunsAfter_span ((p', true) :: trace) [] n hcons hq
      rw [lossRunsAfter, if_pos rfl, List.flatMap_nil, List.length_nil] at h
      rw [hcons.1]
      exact h

/-- Whatever the network loses and the full ring refuses, under every schedule of the two threads,
shows in the counts of the receiver. -/
theorem feed_loss_accounted {k : Fin 64} (directory : Option SymbolDirectory) (calls : List Call)
    (hlen : ∀ m ∈ passed calls, 1 ≤ m.length ∧ m.length ≤ 1024)
    (hfew : (passed calls).length < 2 ^ 64) (headFirst : Bool) (buf : Vector UInt8 (2 ^ k.val))
    (schedule : List FeedAction)
    (harrive : ((FeedHandler.start buf { directory }).arrivals headFirst schedule).Sublist
      (onWire calls))
    (hd : (FeedHandler.run headFirst buf { directory } schedule).book = .done) :
    ∃ mask, FeedAccounted calls mask
      ((FeedHandler.start buf { directory }).arrivals headFirst schedule)
      (FeedHandler.run headFirst buf { directory } schedule) := by
  obtain ⟨hsub, hdropped⟩ := FeedHandler.processed_arrivals headFirst buf { directory } schedule hd
  obtain ⟨mask, hmask⟩ := exists_delivered (hsub.trans harrive)
  have hsound := FeedHandler.run_sound headFirst buf { directory } schedule
  have hreceiver : (FeedHandler.run headFirst buf { directory } schedule).receiver =
      receiver directory calls mask := by
    rw [hsound.receiver, receiver, hmask]
  obtain ⟨hgaps, hlost, horder, hshort⟩ := receiver_counts directory calls mask hlen hfew
  have hhanded := handed_delivered directory calls mask (packets_bodies calls hlen)
  have hlength : (receiver directory calls mask).handed.length =
      ((delivered (packets calls) mask).flatMap (·.msgs)).length := by
    rw [← hhanded, List.length_map]
  refine ⟨mask, ?_⟩
  constructor
  case processed => exact hmask.symm
  case dropped => exact hdropped
  case handed => exact hreceiver ▸ hhanded
  case gaps => exact hreceiver ▸ hgaps
  case messagesLost => exact hreceiver ▸ hlost
  case outOfOrder => exact hreceiver ▸ horder
  case shortPackets => exact hreceiver ▸ hshort
  case total =>
    rw [hreceiver, hlength, hlost]
    exact fun p hp q hq => lossRuns_span _ 1 (consecutive_zip_packets calls mask) hp hq

def reaches (d : Datagram) (hpos : 0 < UInt32.ofNat d.length := by decide +kernel)
    (hle : UInt32.ofNat d.length ≤ maxPacketSize := by decide +kernel) : FeedAction :=
  .recv (some ⟨⟨UInt32.ofNat d.length, byte d⟩, hpos, hle⟩)

/-- The ring of 32 bytes is full when the second datagram comes. -/
def fullRing : List FeedAction :=
  [reaches ((onWire threeDatagrams).getD 0 [])] ++ List.replicate 30 .socket ++
  [reaches ((onWire threeDatagrams).getD 1 [])] ++ List.replicate 2 .socket ++
  List.replicate 40 .book ++
  [reaches ((onWire threeDatagrams).getD 2 [])] ++ List.replicate 30 .socket ++
  [.recv none, .socket] ++ List.replicate 60 .book

theorem fullRing_accounted :
    ∃ mask, FeedAccounted threeDatagrams mask
      ((FeedHandler.start (k := 5) (Vector.replicate 32 0) {}).arrivals true fullRing)
      (FeedHandler.run (k := 5) true (Vector.replicate 32 0) {} fullRing) := by
  apply feed_loss_accounted none threeDatagrams (by decide) (by decide) true _ fullRing
  · decide +kernel
  · decide +kernel

example :
    (FeedHandler.run (k := 5) true (Vector.replicate 32 0) {} fullRing).ringDropped = 1 ∧
      (FeedHandler.run (k := 5) true (Vector.replicate 32 0) {} fullRing).receiver.messagesLost =
        2 := by
  decide +kernel

/-- When the network loses nothing and the ring refuses nothing, the book thread passes on what a
replay of the file passes on, under every schedule of the two threads. -/
theorem feed_replays_file {k : Fin 64} (file : List UInt8)
    (hlen : ∀ msg ∈ messages file, msg.length ≤ maxMsgSize) (pause : Nat → Bool)
    (directory : Option SymbolDirectory) (headFirst : Bool) (buf : Vector UInt8 (2 ^ k.val))
    (schedule : List FeedAction)
    (harrive : (FeedHandler.start buf { directory }).arrivals headFirst schedule =
      (UdpServer.replayFile pause (fun _ => true) {} file).emitted)
    (hd : (FeedHandler.run headFirst buf { directory } schedule).book = .done)
    (hdropped : (FeedHandler.run headFirst buf { directory } schedule).ringDropped = 0) :
    SameFeed (FeedHandler.run headFirst buf { directory } schedule).receiver
      (ItchReplay.replayAll 0 file { directory }) := by
  obtain ⟨hsub, hlength⟩ := FeedHandler.processed_arrivals headFirst buf { directory } schedule hd
  rw [hdropped, Nat.add_zero] at hlength
  have hprocessed := hsub.eq_of_length hlength.symm
  have hsound := FeedHandler.run_sound headFirst buf { directory } schedule
  have hpassed := passed_replayCalls pause 0 (messages file)
  have hmsgs := flatMap_sent_flush (replayCalls pause 0 (messages file)) fun m hm => by
    have hm' := hlen m (hpassed ▸ hm)
    rw [maxMsgSize] at hm'
    rw [maxPayload]
    omega
  have hstart : SameFeed { directory } { directory } := ⟨rfl, rfl, rfl, rfl, rfl, rfl⟩
  have hsame := hstart.receiveAll session
    (Packer.run (fun _ => true) {} (replayCalls pause 0 (messages file) ++ [.flush])).sent
    fun m hm => ne_nil_of_mem_messages (hpassed ▸ hmsgs ▸ hm)
  rw [hmsgs, hpassed, ← replayAll_eq] at hsame
  rw [hsound.receiver, hprocessed, harrive, replayFile_eq, readMessages_eq hlen,
    (Refines.empty.run _ _).emitted]
  exact hsame

def interleaved : List FeedAction :=
  let sent := (UdpServer.replayFile (fun k => k = 2) (fun _ => true) {} dayFile).emitted
  [reaches (sent.getD 0 [])] ++ List.replicate 130 .socket ++
  [reaches (sent.getD 1 [])] ++ (List.replicate 130 [.socket, .book]).flatten ++
  [.recv none, .socket] ++ List.replicate 140 .book

theorem interleaved_replays :
    SameFeed
      (FeedHandler.run (k := 8) true (Vector.replicate 256 0) { directory := some forAcme }
        interleaved).receiver
      (ItchReplay.replayAll 0 dayFile { directory := some forAcme }) := by
  apply feed_replays_file dayFile (by decide +kernel) (fun k => k = 2) (some forAcme) true _
    interleaved
  · decide +kernel
  · decide +kernel
  · decide +kernel

end Tickpipe
