import Tickpipe.Packer

set_option autoImplicit true

namespace Tickpipe

open UdpServer (maxPayload session Call)

/-- The server's buffers hold what the packer keeps. -/
structure Refines (s : UdpServer) (k : Packer) : Prop where
  packet : s.packet = framed k.pending
  packetMsgs : s.packetMsgs = UInt16.ofNat k.pending.length
  nextSeq : s.nextSeq = UInt64.ofNat k.packet.next
  attempts : s.attempts = k.log.map fun x => ⟨x.1.encode session, x.2⟩
  numbered : s.numbered = number 1 k.accepted

namespace Refines

theorem empty : Refines {} {} := ⟨rfl, rfl, rfl, rfl, rfl⟩

theorem pending_length_lt (k : Packer) : k.pending.length ≤ 700 := by
  have h := length_framed_le k.pending
  have hfits := k.fits
  rw [maxPayload] at hfits
  omega

theorem packetMsgs_toNat (h : Refines s k) : s.packetMsgs.toNat = k.pending.length := by
  have hk := pending_length_lt k
  rw [h.packetMsgs, UInt16.toNat_ofNat', Nat.mod_eq_of_lt (by omega)]

theorem packetMsgs_eq_zero (h : Refines s k) : s.packetMsgs = 0 ↔ k.pending = [] := by
  rw [← List.length_eq_zero_iff, ← h.packetMsgs_toNat, ← UInt16.toNat_inj]
  rfl

theorem attempts_length (h : Refines s k) : s.attempts.length = k.log.length := by
  rw [h.attempts, List.length_map]

/-- The number of the first message is found by counting back from the next one. -/
theorem first_eq (h : Refines s k) :
    s.nextSeq - s.packetMsgs.toUInt64 = UInt64.ofNat k.packet.first := by
  have hm : s.packetMsgs.toUInt64 = UInt64.ofNat k.pending.length := by
    rw [← UInt64.ofNat_toNat (x := s.packetMsgs.toUInt64), UInt16.toNat_toUInt64,
      h.packetMsgs_toNat]
  have hnext : k.packet.next = k.packet.first + k.pending.length := rfl
  rw [h.nextSeq, hm, hnext, UInt64.ofNat_add, UInt64.add_sub_cancel]

theorem flush (h : Refines s k) (sendto : Nat → Bool) :
    (s.flush sendto).1 = (k.pending = [] || sendto k.log.length) ∧
      Refines (s.flush sendto).2 (k.flush (sendto k.log.length)) := by
  rw [UdpServer.flush, Packer.flush]
  by_cases he : k.pending = []
  · rw [if_pos (h.packetMsgs_eq_zero.2 he), if_pos he, decide_eq_true he]
    exact ⟨rfl, h⟩
  · have hout : session.toList ++ writeBe64 (s.nextSeq - s.packetMsgs.toUInt64) ++
        writeBe16 s.packetMsgs ++ s.packet = k.packet.encode session := by
      rw [h.first_eq, h.packetMsgs, h.packet]
      rfl
    have hn : k.packet.next = 1 + (k.packed ++ k.pending).length + 0 := by
      rw [List.length_append, ← Nat.add_assoc]
      rfl
    have hacc := k.accepted_flush (sendto k.log.length)
    rw [Packer.flush, if_neg he] at hacc
    rw [if_neg (fun hz => he (h.packetMsgs_eq_zero.1 hz)), if_neg he, decide_eq_false he,
      Bool.false_or]
    simp only [hout, h.attempts_length]
    have hr : Refines
        { s with
          packet := []
          packetMsgs := 0
          attempts := s.attempts ++ [⟨k.packet.encode session, sendto k.log.length⟩] }
        { log := k.log ++ [(k.packet, sendto k.log.length)] } := by
      refine ⟨rfl, rfl, ?_, ?_, ?_⟩
      · rw [h.nextSeq, hn]
        have hp : Packer.packed { log := k.log ++ [(k.packet, sendto k.log.length)] } =
            k.packed ++ k.pending := by
          rw [Packer.packed, List.flatMap_append, List.flatMap_singleton]
          rfl
        exact congrArg (fun l : List Body => UInt64.ofNat (1 + l.length + 0)) hp.symm
      · rw [List.map_append, ← h.attempts]
        rfl
      · rw [hacc]
        exact h.numbered
    split
    case isTrue ht =>
      exact ⟨ht.symm, ⟨hr.packet, hr.packetMsgs, hr.nextSeq, hr.attempts, hr.numbered⟩⟩
    case isFalse hf => exact ⟨(Bool.eq_false_iff.2 hf).symm, hr⟩

theorem enqueue (h : Refines s k) (m : Body) (hr : k.Room m) :
    Refines (s.enqueue m) (k.add m hr) := by
  have hnext : k.packet.next = 1 + k.accepted.length := by
    rw [Packer.accepted, List.length_append, ← Nat.add_assoc]
    rfl
  refine ⟨?_, ?_, ?_, h.attempts, ?_⟩
  · rw [UdpServer.enqueue, h.packet]
    exact (framed_append k.pending [m]).symm ▸ (List.append_assoc _ _ _).trans
      (congrArg (framed k.pending ++ ·) (List.append_nil _).symm)
  · have hlen : (k.add m hr).pending.length = k.pending.length + 1 :=
      List.length_append
    rw [UdpServer.enqueue, h.packetMsgs, hlen, UInt16.ofNat_add]
    rfl
  · have hlen : (k.add m hr).packet.next = k.packet.next + 1 := by
      rw [Packet.next, Packet.next, Nat.add_assoc]
      exact congrArg (_ + ·) List.length_append
    rw [UdpServer.enqueue, h.nextSeq, hlen, UInt64.ofNat_add]
    rfl
  · rw [UdpServer.enqueue, h.numbered, h.nextSeq, Packer.accepted_add, number_append, hnext]
    rfl

theorem isFull (h : Refines s k) (m : Body) : s.isFull m = true ↔ ¬ k.Room m := by
  have hk := pending_length_lt k
  have hn : s.packetMsgs ≠ 0xFFFF := by
    intro he
    have hc := h.packetMsgs_toNat
    rw [he] at hc
    have h65535 : (0xFFFF : UInt16).toNat = 65535 := rfl
    omega
  rw [UdpServer.isFull, h.packet, Packer.Room, Nat.not_le]
  simp [hn]

theorem sendMessage (h : Refines s k) (sendto : Nat → Bool) (m : Body) :
    ((s.sendMessage sendto m).1 = true ↔
        2 + m.length ≤ maxPayload ∧ (s.isFull m = true → sendto s.attempts.length = true)) ∧
      Refines (s.sendMessage sendto m).2 (k.send (sendto k.log.length) m) := by
  rw [UdpServer.sendMessage, Packer.send]
  by_cases hlen : 2 + m.length ≤ maxPayload
  · rw [if_neg (Nat.not_lt.2 hlen), dif_pos hlen]
    by_cases hr : k.Room m
    · have hnot : s.isFull m = false := Bool.eq_false_iff.2 fun hf => (h.isFull m).1 hf hr
      rw [hnot, dif_pos hr]
      exact ⟨by simp [hlen], h.enqueue m hr⟩
    · have hfull : s.isFull m = true := (h.isFull m).2 hr
      have he : k.pending ≠ [] := by
        intro he
        apply hr
        rw [Packer.Room, he, framed_nil, List.length_nil, Nat.zero_add]
        exact hlen
      obtain ⟨h1, h2⟩ := h.flush sendto
      rw [decide_eq_false he, Bool.false_or] at h1
      rw [hfull, dif_neg hr, if_pos rfl, h.attempts_length]
      rw [← Prod.eta (s.flush sendto), h1]
      cases hok : sendto k.log.length with
      | true =>
        rw [hok] at h2
        exact ⟨by simp [hlen], h2.enqueue m (k.room_flush true m hlen)⟩
      | false =>
        rw [hok] at h2
        exact ⟨by simp, h2⟩
  · rw [if_pos (Nat.not_le.1 hlen), dif_neg hlen]
    exact ⟨by simp [hlen], h⟩

theorem call (h : Refines s k) (sendto : Nat → Bool) (c : Call) :
    Refines (s.call sendto c) (k.call sendto c) := by
  cases c with
  | send m => exact (h.sendMessage sendto m).2
  | flush => exact (h.flush sendto).2

theorem run (h : Refines s k) (sendto : Nat → Bool) (calls : List Call) :
    Refines (s.run sendto calls) (k.run sendto calls) := by
  induction calls generalizing s k with
  | nil => exact h
  | cons c calls ih => exact ih (h.call sendto c)

theorem emitted (h : Refines s k) : s.emitted = k.sent.map (·.encode session) := by
  rw [UdpServer.emitted, h.attempts, List.filter_map, List.map_map, Packer.sent, List.map_map]
  rfl

end Refines

end Tickpipe
