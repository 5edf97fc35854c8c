import Tickpipe.LossRuns
import Tickpipe.Sender

set_option autoImplicit true

namespace Tickpipe

open UdpServer (session Call moldHeader maxPayload)

/-- The datagrams of a run of calls whose every `sendto` succeeds. -/
def packets (calls : List Call) : List Packet := (Packer.run (fun _ => true) {} calls).sent

def onWire (calls : List Call) : List Datagram := (UdpServer.run (fun _ => true) {} calls).emitted

/-- The receiver behind a channel that lets through what `mask` says, in order. -/
def receiver (directory : Option SymbolDirectory) (calls : List Call) (mask : List Bool) :
    UdpReceiver :=
  UdpReceiver.receiveAll { directory } (delivered (onWire calls) mask)

/-- Nothing is handed on that was not sent, and what was lost is counted exactly. -/
structure LossAccounted (directory : Option SymbolDirectory) (calls : List Call)
    (mask : List Bool) : Prop where
  encoded : onWire calls = (packets calls).map (·.encode session)
  packed : (packets calls).flatMap (·.msgs) <+: passed calls
  size : ∀ buf ∈ onWire calls, buf.length ≤ moldHeader + maxPayload
  handed : (receiver directory calls mask).handed.map (·.2) =
    (delivered (packets calls) mask).flatMap (·.msgs)
  outOfOrder : (receiver directory calls mask).outOfOrder = 0
  shortPackets : (receiver directory calls mask).shortPackets = 0
  gaps : (receiver directory calls mask).gaps = (lossRuns ((packets calls).zip mask)).length
  messagesLost : (receiver directory calls mask).messagesLost.toNat =
    messagesIn (lossRuns ((packets calls).zip mask))
  total : ∀ p, (delivered (packets calls) mask).head? = some p →
    (receiver directory calls mask).handed.length +
        (receiver directory calls mask).messagesLost.toNat =
      ((receiver directory calls mask).expectedSeq - UInt64.ofNat p.first).toNat

theorem onWire_eq (calls : List Call) :
    onWire calls = (packets calls).map (·.encode session) :=
  (Refines.empty.run _ calls).emitted

theorem packets_eq (calls : List Call) :
    packets calls = (Packer.run (fun _ => true) {} calls).log.map (·.1) :=
  Packer.sent_eq (Packer.log_sent (by simp) calls)

theorem flatMap_packets (calls : List Call) :
    (packets calls).flatMap (·.msgs) = (Packer.run (fun _ => true) {} calls).packed :=
  Packer.flatMap_sent (Packer.log_sent (by simp) calls)

theorem flatMap_packets_prefix (h : ∀ m ∈ passed calls, m.length ≤ 1024) :
    (packets calls).flatMap (·.msgs) <+: passed calls := by
  have hfit : ∀ m ∈ passed calls, 2 + m.length ≤ maxPayload := by
    intro m hm
    have hlen := h m hm
    rw [maxPayload]
    omega
  have hacc := Packer.accepted_run calls hfit {}
  rw [flatMap_packets]
  exact ⟨_, hacc⟩

theorem size_onWire (calls : List Call) :
    ∀ buf ∈ onWire calls, buf.length ≤ moldHeader + maxPayload := by
  intro buf hbuf
  rw [onWire_eq] at hbuf
  obtain ⟨p, hp, rfl⟩ := List.mem_map.1 hbuf
  rw [packets_eq] at hp
  obtain ⟨x, hx, rfl⟩ := List.mem_map.1 hp
  have hsize := (Packer.inv_empty.run _ calls).size x hx
  rw [Packet.length_encode, moldHeader]
  exact Nat.add_le_add_left hsize 20

theorem map_fst_zip_prefix (xs : List α) (ys : List β) : (xs.zip ys).map (·.1) <+: xs := by
  induction xs generalizing ys with
  | nil => exact List.prefix_rfl
  | cons x xs ih =>
    cases ys with
    | nil => exact List.nil_prefix
    | cons y ys => exact List.cons_prefix_cons.2 ⟨rfl, ih ys⟩

theorem Consecutive.of_prefix (h : Consecutive n ps) (hpre : pre <+: ps) : Consecutive n pre := by
  induction pre generalizing n ps with
  | nil => trivial
  | cons p pre ih =>
    obtain ⟨qs, rfl⟩ := hpre
    exact ⟨h.1, ih h.2 (List.prefix_append _ _)⟩

section Channel

variable (directory : Option SymbolDirectory) (calls : List Call) (mask : List Bool)

theorem prefix_of_zip : ((packets calls).zip mask).map (·.1) <+: packets calls :=
  map_fst_zip_prefix _ _

theorem consecutive_zip_packets : Consecutive 1 (((packets calls).zip mask).map (·.1)) := by
  have h := (Packer.inv_empty.run (fun _ => true) calls).consecutive
  rw [← packets_eq] at h
  exact h.of_prefix (prefix_of_zip calls mask)

theorem length_zip_packets_le (hlen : ∀ m ∈ passed calls, m.length ≤ 1024) :
    ((((packets calls).zip mask).map (·.1)).flatMap (·.msgs)).length ≤ (passed calls).length := by
  obtain ⟨ps, hps⟩ := prefix_of_zip calls mask
  have hlength := congrArg (fun l : List Packet => (l.flatMap (·.msgs)).length) hps
  simp only [List.flatMap_append, List.length_append] at hlength
  have hprefix := flatMap_packets_prefix hlen
  have hle := hprefix.length_le
  omega

theorem packets_bodies (hlen : ∀ m ∈ passed calls, 1 ≤ m.length ∧ m.length ≤ 1024) :
    ∀ p ∈ packets calls, ∀ m ∈ p.msgs, m ≠ [] := by
  intro p hp m hm hnil
  have hsent := flatMap_packets_prefix fun m hm => (hlen m hm).2
  have hpos := (hlen m (hsent.subset (List.mem_flatMap.2 ⟨p, hp, hm⟩))).1
  rw [hnil] at hpos
  cases hpos

theorem delivered_packets_subset : delivered (packets calls) mask ⊆ packets calls := by
  intro p hp
  obtain ⟨x, hx, rfl⟩ := List.mem_map.1 hp
  exact (prefix_of_zip calls mask).subset (List.mem_map_of_mem (List.mem_filter.1 hx).1)

theorem receiver_delivered :
    receiver directory calls mask = UdpReceiver.receiveAll { directory }
      ((delivered (packets calls) mask).map (·.encode session)) := by
  rw [receiver, onWire_eq, delivered_map]

theorem handed_delivered (hbody : ∀ p ∈ packets calls, ∀ m ∈ p.msgs, m ≠ []) :
    (receiver directory calls mask).handed.map (·.2) =
      (delivered (packets calls) mask).flatMap (·.msgs) := by
  rw [receiver_delivered, UdpReceiver.handed_receiveAll, List.nil_append, List.map_flatMap]
  simp only [map_snd_number]
  exact List.flatMap_congr fun p hp =>
    readable_eq (hbody p (delivered_packets_subset calls mask hp))

end Channel

theorem loss_accounted (directory : Option SymbolDirectory) (calls : List Call) (mask : List Bool)
    (hlen : ∀ m ∈ passed calls, 1 ≤ m.length ∧ m.length ≤ 1024)
    (hfew : (passed calls).length < 2 ^ 64) : LossAccounted directory calls mask := by
  have hshort : ∀ m ∈ passed calls, m.length ≤ 1024 := fun m hm => (hlen m hm).2
  have hprefix := flatMap_packets_prefix hshort
  have hzip := prefix_of_zip calls mask
  have hcount := length_zip_packets_le calls mask hshort
  have hbody := packets_bodies calls hlen
  have hmsgs : ∀ p ∈ ((packets calls).zip mask).map (·.1), p.msgs ≠ [] := fun p hp =>
    (Packer.inv_empty.run _ calls).sent_nonempty (hzip.subset hp)
  have hhanded := handed_delivered directory calls mask hbody
  have hhandedLength : (receiver directory calls mask).handed.length =
      ((delivered (packets calls) mask).flatMap (·.msgs)).length := by
    rw [← hhanded, List.length_map]
  have hbound := messagesIn_lossRuns_le ((packets calls).zip mask)
  have hreceiver := receiver_delivered directory calls mask
  have haccounts := lossRuns_accounts session ((packets calls).zip mask) { directory } 1 le_rfl rfl
    (consecutive_zip_packets calls mask) (by omega) hmsgs fun p hp => hbody p (hzip.subset hp)
  rw [← delivered, ← hreceiver] at haccounts
  rcases haccounts with ⟨hnone, hruns⟩ | ⟨p, hhead, h⟩
  · have hempty : receiver directory calls mask = { directory } := by
      rw [hreceiver, hnone]
      rfl
    refine ⟨onWire_eq calls, hprefix, size_onWire calls, hhanded, ?_, ?_, ?_, ?_, ?_⟩
    · rw [hempty]
    · rw [hempty]
    · rw [hempty, hruns]
      rfl
    · rw [hempty, hruns]
      rfl
    · intro p hp
      rw [hnone] at hp
      cases hp
  · have hlost : (receiver directory calls mask).messagesLost.toNat =
        messagesIn (lossRuns ((packets calls).zip mask)) := by
      rw [h.messagesLost]
      have hzero : (0 : UInt64) + UInt64.ofNat (messagesIn (lossRuns ((packets calls).zip mask))) =
          UInt64.ofNat (messagesIn (lossRuns ((packets calls).zip mask))) := UInt64.zero_add _
      rw [hzero, UInt64.toNat_ofNat', Nat.mod_eq_of_lt (by omega)]
    refine ⟨onWire_eq calls, hprefix, size_onWire calls, hhanded, h.outOfOrder, h.shortPackets, ?_,
      hlost, ?_⟩
    · rw [h.gaps]
      exact Nat.zero_add _
    · intro q hq
      obtain rfl := Option.some.inj (hq.symm.trans hhead)
      rw [h.expectedSeq, UInt64.add_comm, UInt64.add_sub_cancel, UInt64.toNat_ofNat', hhandedLength,
        hlost, delivered, Nat.mod_eq_of_lt (by omega)]

def threeDatagrams : List Call :=
  [.send [83], .flush, .send [72, 0], .send [72, 1], .flush, .send [83], .flush]

theorem dropped_datagram_accounted : LossAccounted none threeDatagrams [true, false, true] :=
  loss_accounted none threeDatagrams [true, false, true] (by decide) (by decide)

example : (receiver none threeDatagrams [true, false, true]).messagesLost = 2 := by decide +kernel

def systemEvent : Body := [83]

def systemEventPacket (first : Nat) : Packet := ⟨first, [systemEvent], by decide, by decide⟩

/-- One system event a datagram, `n` times. -/
def systemEvents (n : Nat) : List Call := (List.replicate n [.send systemEvent, .flush]).flatten

theorem run_systemEvent (k : Packer) (hk : k.pending = []) :
    k.run (fun _ => true) [.send systemEvent, .flush] =
      { log := k.log ++ [(systemEventPacket (1 + k.packed.length), true)] } := by
  obtain ⟨log, pending, fits⟩ := k
  subst hk
  rfl

theorem run_systemEvents (n : Nat) :
    (Packer.run (fun _ => true) {} (systemEvents n)) =
      { log := (List.range n).map fun i => (systemEventPacket (i + 1), true) } := by
  induction n with
  | zero => rfl
  | succ n ih =>
    have hpacked : (Packer.packed
        { log := (List.range n).map fun i => (systemEventPacket (i + 1), true) }).length = n := by
      rw [Packer.packed, List.flatMap_map, List.length_flatMap]
      simp [systemEventPacket]
    rw [systemEvents, List.replicate_succ', List.flatten_append, List.flatten_singleton, Packer.run,
      List.foldl_append, ← Packer.run, ← Packer.run, ← systemEvents, ih, run_systemEvent _ rfl,
      hpacked, Nat.add_comm 1 n, List.range_succ, List.map_append]
    rfl

theorem passed_systemEvents (n : Nat) : passed (systemEvents n) = List.replicate n systemEvent := by
  induction n with
  | zero => rfl
  | succ n ih =>
    rw [systemEvents, List.replicate_succ, List.flatten_cons, passed_append, ← systemEvents, ih]
    rfl

theorem packets_systemEvents (n : Nat) :
    packets (systemEvents n) = (List.range n).map fun i => systemEventPacket (i + 1) := by
  rw [packets_eq, run_systemEvents, List.map_map]
  rfl

/-- Only the first and the last datagram come through. -/
def ends (n : Nat) : List Bool := true :: (List.replicate n false ++ [true])

theorem delivered_ends (n : Nat) :
    delivered (packets (systemEvents (n + 2))) (ends n) =
      [systemEventPacket 1, systemEventPacket (n + 2)] := by
  have hrange : List.range (n + 2) = 0 :: (List.range' 1 n ++ [n + 1]) := by
    rw [List.range_succ, List.range_eq_range', List.range'_succ]
    rfl
  have hfilter (xs : List Packet) (hxs : xs.length = n) :
      (xs.zip (List.replicate n false)).filter (·.2) = [] := by
    rw [List.filter_eq_nil_iff]
    intro x hx
    have hmem := (List.of_mem_zip hx).2
    rw [List.eq_of_mem_replicate hmem]
    exact Bool.false_ne_true
  have hlen : ((List.range' 1 n).map fun i => systemEventPacket (i + 1)).length = n := by
    rw [List.length_map, List.length_range']
  rw [packets_systemEvents, hrange, List.map_cons, List.map_append, ends, delivered,
    List.zip_cons_cons, List.zip_append (hlen.trans List.length_replicate.symm), List.filter_cons,
    if_pos rfl, List.filter_append, hfilter _ hlen]
  rfl

/-- The 2^64-th message has the number 0, which comes as out of order after number 1. -/
theorem numbers_wrap :
    ¬ ∀ directory calls mask, (∀ m ∈ passed calls, 1 ≤ m.length ∧ m.length ≤ 1024) →
      LossAccounted directory calls mask := by
  obtain ⟨n, hn⟩ : ∃ n, n + 2 = 2 ^ 64 := ⟨2 ^ 64 - 2, rfl⟩
  intro h
  have hlen : ∀ m ∈ passed (systemEvents (n + 2)), 1 ≤ m.length ∧ m.length ≤ 1024 := by
    intro m hm
    rw [passed_systemEvents] at hm
    rw [List.eq_of_mem_replicate hm]
    decide
  have hout := (h none (systemEvents (n + 2)) (ends n) hlen).outOfOrder
  have hseq : UInt64.ofNat (systemEventPacket (n + 2)).first = 0 := by
    rw [systemEventPacket, hn]
    rfl
  have hlate : (receiver none (systemEvents (n + 2)) (ends n)).outOfOrder = 1 := by
    rw [receiver, onWire_eq, delivered_map, delivered_ends, List.map_cons, List.map_singleton,
      UdpReceiver.receiveAll, List.foldl_cons, List.foldl_cons, List.foldl_nil,
      UdpReceiver.receive_encode, UdpReceiver.outOfOrder_handAll, UdpReceiver.outOfOrder_sequence,
      hseq, UdpReceiver.expectedSeq_encode]
    rfl
  rw [hlate] at hout
  cases hout

end Tickpipe
