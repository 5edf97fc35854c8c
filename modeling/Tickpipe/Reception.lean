import Tickpipe.Mold
import Mathlib.Data.List.Range
import Mathlib.Data.List.Infix

set_option autoImplicit true

namespace Tickpipe

namespace UdpReceiver

/-- The numbers that a datagram with this number counts as lost. -/
def gapBefore (r : UdpReceiver) (seq : UInt64) : List Nat :=
  if r.expectedSeq = 0 then []
  else List.range' r.expectedSeq.toNat (seq.toNat - r.expectedSeq.toNat)

def lostIn (r : UdpReceiver) : List Datagram → List Nat
  | [] => []
  | buf :: bufs =>
    (if buf.length < moldHeader then [] else r.gapBefore (readBe64 buf 10)) ++
      (r.receive buf).lostIn bufs

theorem mem_gapBefore {r : UdpReceiver} :
    n ∈ r.gapBefore seq ↔ r.expectedSeq ≠ 0 ∧ r.expectedSeq.toNat ≤ n ∧ n < seq.toNat := by
  rw [gapBefore]
  split
  case isTrue h => simp [h]
  case isFalse h =>
    rw [List.mem_range'_1]
    constructor
    · intro hn
      exact ⟨h, by omega⟩
    · intro hn
      omega

theorem nodup_gapBefore (r : UdpReceiver) (seq : UInt64) : (r.gapBefore seq).Nodup := by
  rw [gapBefore]
  split
  · exact List.nodup_nil
  · exact List.nodup_range'

theorem messagesLost_sequence (r : UdpReceiver) (seq : UInt64) (count : UInt16) :
    (r.sequence seq count).messagesLost =
      r.messagesLost + UInt64.ofNat (r.gapBefore seq).length := by
  have hzero (h : seq ≤ r.expectedSeq) : seq.toNat - r.expectedSeq.toNat = 0 :=
    Nat.sub_eq_zero_of_le (UInt64.le_iff_toNat_le.1 h)
  rw [sequence, gapBefore]
  split
  case isTrue => exact (UInt64.add_zero _).symm
  case isFalse =>
    rw [List.length_range']
    split
    case isTrue h =>
      have hle : r.expectedSeq ≤ seq := UInt64.le_of_lt h
      rw [← UInt64.toNat_sub_of_le _ _ hle, UInt64.ofNat_toNat]
    case isFalse h =>
      rw [hzero (UInt64.not_lt.1 h)]
      split
      · exact (UInt64.add_zero _).symm
      · exact (UInt64.add_zero _).symm

theorem gapBefore_eq_nil {r : UdpReceiver} :
    r.gapBefore seq = [] ↔ r.expectedSeq = 0 ∨ seq ≤ r.expectedSeq := by
  rw [gapBefore, UInt64.le_iff_toNat_le]
  split
  case isTrue h => simp [h]
  case isFalse h =>
    rw [List.range'_eq_nil_iff, Nat.sub_eq_zero_iff_le]
    simp [h]

theorem gaps_sequence (r : UdpReceiver) (seq : UInt64) (count : UInt16) :
    (r.sequence seq count).gaps = r.gaps + if r.gapBefore seq = [] then 0 else 1 := by
  simp only [gapBefore_eq_nil, ← UInt64.not_lt]
  rw [sequence]
  split
  case isTrue h => simp [h]
  case isFalse h =>
    split
    case isTrue hlt => simp [h, hlt]
    case isFalse hlt =>
      split
      · simp [h, hlt]
      · simp [h, hlt]

theorem outOfOrder_sequence (r : UdpReceiver) (seq : UInt64) (count : UInt16) :
    (r.sequence seq count).outOfOrder =
      r.outOfOrder + if r.expectedSeq ≠ 0 ∧ seq < r.expectedSeq then 1 else 0 := by
  rw [sequence]
  split
  case isTrue h => simp [h]
  case isFalse h =>
    split
    case isTrue hlt =>
      have hn : ¬ seq < r.expectedSeq := UInt64.not_lt.2 (UInt64.le_of_lt hlt)
      simp [hn]
    case isFalse =>
      split
      case isTrue hlt => simp [h, hlt]
      case isFalse hn => simp [hn]

theorem shortPackets_sequence (r : UdpReceiver) (seq : UInt64) (count : UInt16) :
    (r.sequence seq count).shortPackets = r.shortPackets := by
  rw [sequence]
  split
  · rfl
  · split
    · rfl
    · split
      · rfl
      · rfl

theorem messagesLost_unpack (buf : Datagram) (left : Nat) (seq : UInt64) (off : Nat)
    (r : UdpReceiver) : (unpack buf left seq off r).messagesLost = r.messagesLost := by
  induction left generalizing seq off r with
  | zero => rfl
  | succ left ih =>
    rw [unpack]
    split
    · rfl
    · dsimp only
      split
      · rfl
      · rw [ih, messagesLost_handOn]

/-- Whatever comes in, `messages_lost_` grows by the numbers counted as lost. -/
theorem messagesLost_receiveAll (r : UdpReceiver) (bufs : List Datagram) :
    (r.receiveAll bufs).messagesLost =
      r.messagesLost + UInt64.ofNat (r.lostIn bufs).length := by
  induction bufs generalizing r with
  | nil => exact (UInt64.add_zero _).symm
  | cons buf bufs ih =>
    rw [receiveAll, List.foldl_cons]
    refine (ih _).trans ?_
    rw [lostIn, List.length_append, UInt64.ofNat_add, ← UInt64.add_assoc]
    congr 1
    rw [receive]
    split
    · exact (UInt64.add_zero _).symm
    · dsimp only
      rw [messagesLost_unpack, messagesLost_sequence]

theorem receiveAll_append (r : UdpReceiver) (bufs bufs' : List Datagram) :
    r.receiveAll (bufs ++ bufs') = (r.receiveAll bufs).receiveAll bufs' :=
  List.foldl_append

theorem lostIn_append (r : UdpReceiver) (bufs bufs' : List Datagram) :
    r.lostIn (bufs ++ bufs') = r.lostIn bufs ++ (r.receiveAll bufs).lostIn bufs' := by
  induction bufs generalizing r with
  | nil => rfl
  | cons buf bufs ih =>
    rw [List.cons_append, lostIn, ih, lostIn, List.append_assoc]
    rfl

section

variable (r : UdpReceiver) (session : Vector UInt8 10) (p : Packet) (ps : List Packet)

theorem lostIn_encode :
    r.lostIn [p.encode session] = r.gapBefore (UInt64.ofNat p.first) := by
  have hlen := p.length_encode session
  rw [lostIn, lostIn, List.append_nil, if_neg (by rw [hlen, moldHeader]; omega), p.readBe64_encode]

@[simp] theorem expectedSeq_encode :
    (r.receive (p.encode session)).expectedSeq = UInt64.ofNat p.next := by
  have hc : (UInt16.ofNat p.msgs.length).toUInt64 = UInt64.ofNat p.msgs.length := by
    rw [← UInt64.ofNat_toNat (x := (UInt16.ofNat p.msgs.length).toUInt64), UInt16.toNat_toUInt64,
      UInt16.toNat_ofNat', Nat.mod_eq_of_lt p.count_lt]
  rw [receive_encode, expectedSeq_handAll, Packet.next, UInt64.ofNat_add, ← hc]
  rfl

@[simp] theorem handed_encode :
    (r.receive (p.encode session)).handed = r.handed ++ number p.first (readable p.msgs) := by
  rw [receive_encode, handed_handAll]
  congr 1
  rw [sequence]
  split
  · rfl
  · split
    · rfl
    · split
      · rfl
      · rfl

theorem handed_receiveAll :
    (r.receiveAll (ps.map (·.encode session))).handed =
      r.handed ++ ps.flatMap fun p => number p.first (readable p.msgs) := by
  induction ps generalizing r with
  | nil => exact (List.append_nil _).symm
  | cons p ps ih =>
    rw [List.map_cons, receiveAll, List.foldl_cons, List.flatMap_cons, ← List.append_assoc,
      ← handed_encode r session p]
    exact ih _

end

end UdpReceiver

end Tickpipe
