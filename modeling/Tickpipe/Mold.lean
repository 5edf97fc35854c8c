import Tickpipe.UdpReceiver
import Mathlib.Data.List.TakeWhile

set_option autoImplicit true

namespace Tickpipe

/-- Messages, each behind its two-byte length. -/
def framed (msgs : List Body) : List UInt8 :=
  msgs.flatMap fun m => writeBe16 (UInt16.ofNat m.length) ++ m

@[simp] theorem framed_nil : framed [] = [] := rfl

theorem framed_cons (m : Body) (ms : List Body) :
    framed (m :: ms) = writeBe16 (UInt16.ofNat m.length) ++ m ++ framed ms := rfl

theorem framed_append (ms ms' : List Body) : framed (ms ++ ms') = framed ms ++ framed ms' :=
  List.flatMap_append

theorem length_framed_le (msgs : List Body) : 2 * msgs.length ≤ (framed msgs).length := by
  induction msgs with
  | nil => exact Nat.zero_le _
  | cons m ms ih =>
    have h : (writeBe16 (UInt16.ofNat m.length)).length = 2 := rfl
    rw [framed_cons, List.length_append, List.length_append, h, List.length_cons]
    omega

theorem length_le_framed (h : m ∈ msgs) : 2 + m.length ≤ (framed msgs).length := by
  obtain ⟨ms, ms', rfl⟩ := List.append_of_mem h
  have h2 : (writeBe16 (UInt16.ofNat m.length)).length = 2 := rfl
  rw [framed_append, framed_cons, List.length_append, List.length_append, List.length_append, h2]
  omega

/-- A MoldUDP64 datagram: its messages and the number of the first of them. Their count and
their lengths fit the 16-bit fields. -/
structure Packet where
  first : Nat
  msgs : List Body
  count_lt : msgs.length < 2 ^ 16
  length_lt : ∀ m ∈ msgs, m.length < 2 ^ 16
deriving DecidableEq

/-- Messages under consecutive numbers, as 64 bits hold them. -/
def number (n : Nat) (msgs : List Body) : List (UInt64 × Body) :=
  (msgs.zipIdx n).map fun x => (UInt64.ofNat x.2, x.1)

@[simp] theorem number_cons (n : Nat) (m : Body) (ms : List Body) :
    number n (m :: ms) = (UInt64.ofNat n, m) :: number (n + 1) ms := rfl

theorem number_append (n : Nat) (ms ms' : List Body) :
    number n (ms ++ ms') = number n ms ++ number (n + ms.length) ms' := by
  rw [number, List.zipIdx_append, List.map_append, number, number]

theorem map_snd_number (n : Nat) (msgs : List Body) : (number n msgs).map (·.2) = msgs := by
  rw [number, List.map_map]
  exact List.zipIdx_map_fst n msgs

theorem map_fst_number (n : Nat) (msgs : List Body) :
    (number n msgs).map (·.1) = (List.range' n msgs.length).map UInt64.ofNat := by
  rw [number, List.map_map, ← List.zipIdx_map_snd n msgs, List.map_map]
  rfl

namespace Packet

def next (p : Packet) : Nat := p.first + p.msgs.length

def numbers (p : Packet) : List Nat := List.range' p.first p.msgs.length

theorem mem_numbers {p : Packet} : n ∈ p.numbers ↔ p.first ≤ n ∧ n < p.next := by
  rw [numbers, List.mem_range'_1, next]

def encode (session : Vector UInt8 10) (p : Packet) : Datagram :=
  session.toList ++ writeBe64 (UInt64.ofNat p.first) ++ writeBe16 (UInt16.ofNat p.msgs.length) ++
    framed p.msgs

theorem length_encode (session : Vector UInt8 10) (p : Packet) :
    (p.encode session).length = 20 + (framed p.msgs).length := by
  have h2 : (writeBe16 (UInt16.ofNat p.msgs.length)).length = 2 := rfl
  rw [encode, List.length_append, List.length_append, List.length_append, length_writeBe64,
    Vector.length_toList, h2]

theorem readBe64_encode (session : Vector UInt8 10) (p : Packet) :
    readBe64 (p.encode session) 10 = UInt64.ofNat p.first := by
  have hs : session.toList.length = 10 := Vector.length_toList
  have h := readBe64_write session.toList (UInt64.ofNat p.first)
    (writeBe16 (UInt16.ofNat p.msgs.length) ++ framed p.msgs)
  rw [← List.append_assoc] at h
  simp only [hs] at h
  exact h

end Packet

namespace UdpReceiver

/-- The messages of a datagram are handed on up to an empty one, which counts as a short packet. -/
def handAll (r : UdpReceiver) (seq : UInt64) : List Body → UdpReceiver
  | [] => r
  | m :: ms => if m = [] then r.countShort else (r.handOn seq m).handAll (seq + 1) ms

/-- The loop over the messages reads back what `framed` wrote, wherever it starts. -/
theorem unpack_framed (pre : List UInt8) (msgs : List Body) (hlt : ∀ m ∈ msgs, m.length < 2 ^ 16)
    (seq : UInt64) (r : UdpReceiver) :
    unpack (pre ++ framed msgs) msgs.length seq pre.length r = r.handAll seq msgs := by
  induction msgs generalizing pre seq r with
  | nil => rfl
  | cons m ms ih =>
    have hm : m.length < 2 ^ 16 := hlt m List.mem_cons_self
    have hlen : (writeBe16 (UInt16.ofNat m.length)).length = 2 := rfl
    have hread (rest : List UInt8) :
        (readBe16 (pre ++ writeBe16 (UInt16.ofNat m.length) ++ rest) pre.length).toNat =
          m.length := by
      rw [readBe16_write, UInt16.toNat_ofNat', Nat.mod_eq_of_lt hm]
    rw [framed_cons]
    generalize writeBe16 (UInt16.ofNat m.length) = len at hlen hread ⊢
    have hbuf : pre ++ (len ++ m ++ framed ms) = pre ++ len ++ (m ++ framed ms) := by
      rw [List.append_assoc, List.append_assoc]
    have hsize : (pre ++ len ++ (m ++ framed ms)).length =
        pre.length + 2 + (m.length + (framed ms).length) := by
      rw [List.length_append, List.length_append, List.length_append, hlen]
    rw [hbuf, List.length_cons, unpack, if_neg (by omega)]
    simp only [hread]
    rw [handAll]
    by_cases h : m = []
    · rw [if_pos (Or.inl (List.length_eq_zero_iff.2 h)), if_pos h]
    · have hpos : m.length ≠ 0 := fun hz => h (List.length_eq_zero_iff.1 hz)
      rw [if_neg (by omega), if_neg h]
      have hoff : pre.length + 2 = (pre ++ len).length := by rw [List.length_append, hlen]
      have hbody : ((pre ++ len ++ (m ++ framed ms)).drop (pre.length + 2)).take m.length = m := by
        rw [hoff, List.drop_left, List.take_left]
      have hnext : pre.length + 2 + m.length = (pre ++ len ++ m).length := by
        rw [List.length_append, hoff]
      rw [hbody, hnext, ← List.append_assoc]
      exact ih (pre ++ len ++ m) (fun m' hm' => hlt m' (List.mem_cons_of_mem _ hm')) _ _

theorem receive_encode (r : UdpReceiver) (session : Vector UInt8 10) (p : Packet) :
    r.receive (p.encode session) =
      (r.sequence (UInt64.ofNat p.first) (UInt16.ofNat p.msgs.length)).handAll
        (UInt64.ofNat p.first) p.msgs := by
  have hs : session.toList.length = 10 := Vector.length_toList
  have hq := length_writeBe64 (UInt64.ofNat p.first)
  have hc : (writeBe16 (UInt16.ofNat p.msgs.length)).length = 2 := rfl
  have h18 : (session.toList ++ writeBe64 (UInt64.ofNat p.first)).length = 18 := by
    rw [List.length_append, hs, hq]
  have hcount : readBe16 (p.encode session) 18 = UInt16.ofNat p.msgs.length := by
    rw [Packet.encode, ← h18]
    exact readBe16_write _ _ _
  have h20 : moldHeader = (session.toList ++ writeBe64 (UInt64.ofNat p.first) ++
      writeBe16 (UInt16.ofNat p.msgs.length)).length := by
    rw [List.length_append, h18, hc]
    rfl
  have hlen := p.length_encode session
  have hn : (UInt16.ofNat p.msgs.length).toNat = p.msgs.length := by
    rw [UInt16.toNat_ofNat', Nat.mod_eq_of_lt p.count_lt]
  rw [receive, if_neg (by rw [hlen, moldHeader]; omega)]
  simp only [p.readBe64_encode session, hcount, hn]
  rw [h20]
  exact unpack_framed _ _ p.length_lt _ _

/-- What handling a message can change. -/
theorem handle_cases (r : UdpReceiver) (msg : Body) :
    ∃ directory counts ordersParsed messagesFiltered directoryMessages orders,
      r.handle msg =
        { r with
          directory
          counts
          ordersParsed
          messagesFiltered
          directoryMessages
          orders } := by
  have hparse : ∃ counts ordersParsed orders, r.parse msg =
      { r with
        counts
        ordersParsed
        orders } := by
    rw [parse]
    split
    · exact ⟨_, _, _, rfl⟩
    · exact ⟨_, _, _, rfl⟩
  obtain ⟨counts, ordersParsed, orders, hparse⟩ := hparse
  rw [handle]
  split
  · exact ⟨_, _, _, _, _, _, hparse⟩
  · split
    · exact ⟨_, _, _, _, _, _, rfl⟩
    · split
      · exact ⟨_, _, _, _, _, _, rfl⟩
      · exact ⟨_, _, _, _, _, _, hparse⟩

section

variable (r : UdpReceiver) (seq : UInt64) (msg : Body)

@[simp] theorem expectedSeq_handOn : (r.handOn seq msg).expectedSeq = r.expectedSeq := by
  obtain ⟨_, _, _, _, _, _, h⟩ := r.handle_cases msg
  rw [handOn, h]

@[simp] theorem gaps_handOn : (r.handOn seq msg).gaps = r.gaps := by
  obtain ⟨_, _, _, _, _, _, h⟩ := r.handle_cases msg
  rw [handOn, h]

@[simp] theorem messagesLost_handOn : (r.handOn seq msg).messagesLost = r.messagesLost := by
  obtain ⟨_, _, _, _, _, _, h⟩ := r.handle_cases msg
  rw [handOn, h]

@[simp] theorem outOfOrder_handOn : (r.handOn seq msg).outOfOrder = r.outOfOrder := by
  obtain ⟨_, _, _, _, _, _, h⟩ := r.handle_cases msg
  rw [handOn, h]

@[simp] theorem shortPackets_handOn : (r.handOn seq msg).shortPackets = r.shortPackets := by
  obtain ⟨_, _, _, _, _, _, h⟩ := r.handle_cases msg
  rw [handOn, h]

@[simp] theorem handed_handOn : (r.handOn seq msg).handed = r.handed ++ [(seq, msg)] := rfl

variable (msgs : List Body)

@[simp] theorem expectedSeq_handAll : (r.handAll seq msgs).expectedSeq = r.expectedSeq := by
  induction msgs generalizing r seq with
  | nil => rfl
  | cons m ms ih =>
    rw [handAll]
    split
    · rfl
    · rw [ih, expectedSeq_handOn]

@[simp] theorem gaps_handAll : (r.handAll seq msgs).gaps = r.gaps := by
  induction msgs generalizing r seq with
  | nil => rfl
  | cons m ms ih =>
    rw [handAll]
    split
    · rfl
    · rw [ih, gaps_handOn]

@[simp] theorem messagesLost_handAll : (r.handAll seq msgs).messagesLost = r.messagesLost := by
  induction msgs generalizing r seq with
  | nil => rfl
  | cons m ms ih =>
    rw [handAll]
    split
    · rfl
    · rw [ih, messagesLost_handOn]

@[simp] theorem outOfOrder_handAll : (r.handAll seq msgs).outOfOrder = r.outOfOrder := by
  induction msgs generalizing r seq with
  | nil => rfl
  | cons m ms ih =>
    rw [handAll]
    split
    · rfl
    · rw [ih, outOfOrder_handOn]

end

theorem shortPackets_handAll (r : UdpReceiver) (seq : UInt64) (h : ∀ m ∈ msgs, m ≠ []) :
    (r.handAll seq msgs).shortPackets = r.shortPackets := by
  induction msgs generalizing r seq with
  | nil => rfl
  | cons m ms ih =>
    rw [handAll, if_neg (h m List.mem_cons_self),
      ih _ _ fun m' hm' => h m' (List.mem_cons_of_mem _ hm'), shortPackets_handOn]

end UdpReceiver

/-- The messages before an empty one, which is where a receiver stops. -/
def readable (msgs : List Body) : List Body := msgs.takeWhile (· ≠ [])

theorem readable_eq {msgs : List Body} (h : ∀ m ∈ msgs, m ≠ []) : readable msgs = msgs := by
  rw [readable, List.takeWhile_eq_self_iff]
  intro m hm
  exact decide_eq_true (h m hm)

namespace UdpReceiver

theorem handed_handAll (r : UdpReceiver) (n : Nat) (msgs : List Body) :
    (r.handAll (UInt64.ofNat n) msgs).handed = r.handed ++ number n (readable msgs) := by
  induction msgs generalizing r n with
  | nil => exact (List.append_nil _).symm
  | cons m ms ih =>
    rw [handAll, readable, List.takeWhile_cons]
    by_cases h : m = []
    · rw [if_pos h, if_neg (by simpa using h)]
      exact (List.append_nil _).symm
    · have hn : UInt64.ofNat n + 1 = UInt64.ofNat (n + 1) := (UInt64.ofNat_add n 1).symm
      rw [if_neg h, if_pos (by simpa using h), hn, ih, handed_handOn, number_cons,
        List.append_assoc]
      rfl

end UdpReceiver

end Tickpipe
