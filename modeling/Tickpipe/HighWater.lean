import Tickpipe.Reception

set_option autoImplicit true

namespace Tickpipe

def highWater (ps : List Packet) : Nat := (ps.map Packet.next).foldr max 0

theorem next_le_highWater (h : p ∈ ps) : p.next ≤ highWater ps := by
  induction ps with
  | nil => cases h
  | cons q ps ih =>
    rcases List.mem_cons.1 h with rfl | h
    · exact Nat.le_max_left _ _
    · exact (ih h).trans (Nat.le_max_right _ _)

theorem highWater_le (h : ∀ p ∈ ps, p.next ≤ n) : highWater ps ≤ n := by
  induction ps with
  | nil => exact Nat.zero_le _
  | cons p ps ih =>
    exact Nat.max_le.2
      ⟨h p List.mem_cons_self, ih fun q hq => h q (List.mem_cons_of_mem _ hq)⟩

theorem highWater_append_singleton (ps : List Packet) (p : Packet) :
    highWater (ps ++ [p]) = max (highWater ps) p.next := by
  apply Nat.le_antisymm
  · apply highWater_le
    intro q hq
    rcases List.mem_append.1 hq with hq | hq
    · exact (next_le_highWater hq).trans (Nat.le_max_left _ _)
    · rw [List.mem_singleton.1 hq]
      exact Nat.le_max_right _ _
  · apply Nat.max_le.2
    constructor
    · exact highWater_le fun q hq => next_le_highWater (List.mem_append_left _ hq)
    · exact next_le_highWater List.mem_concat_self

section

variable (session : Vector UInt8 10) (directory : Option SymbolDirectory)

def received (ps : List Packet) : UdpReceiver :=
  UdpReceiver.receiveAll { directory } (ps.map (·.encode session))

def countedLost (ps : List Packet) : List Nat :=
  UdpReceiver.lostIn { directory } (ps.map (·.encode session))

theorem received_append_singleton (ps : List Packet) (p : Packet) :
    received session directory (ps ++ [p]) =
      (received session directory ps).receive (p.encode session) := by
  rw [received, List.map_append, UdpReceiver.receiveAll_append]
  rfl

theorem countedLost_append_singleton (ps : List Packet) (p : Packet) :
    countedLost session directory (ps ++ [p]) = countedLost session directory ps ++
      (received session directory ps).gapBefore (UInt64.ofNat p.first) := by
  rw [countedLost, List.map_append, UdpReceiver.lostIn_append, List.map_singleton,
    UdpReceiver.lostIn_encode]
  rfl

theorem messagesLost_received (ps : List Packet) :
    (received session directory ps).messagesLost =
      UInt64.ofNat (countedLost session directory ps).length := by
  rw [received, UdpReceiver.messagesLost_receiveAll]
  exact UInt64.zero_add _

/-- `expected_seq_` is the high-water mark after every datagram; what is counted as lost is counted
once, and was not received before. -/
structure HighWaterMark (ps : List Packet) : Prop where
  expected : ∀ pre, pre <+: ps → (received session directory pre).expectedSeq.toNat = highWater pre
  counted : (received session directory ps).messagesLost.toNat =
    (countedLost session directory ps).length
  once : (countedLost session directory ps).Nodup
  unreceived : ∀ pre p, pre ++ [p] <+: ps →
    ∀ n ∈ (received session directory pre).gapBefore (UInt64.ofNat p.first),
      ∀ q ∈ pre, n ∉ q.numbers

end

/-- No `seq + count` wraps, and none is below that of a datagram received earlier. -/
def EndsAscend (ps : List Packet) : Prop :=
  (∀ p ∈ ps, p.next < 2 ^ 64) ∧ ps.Pairwise fun q p => q.next ≤ p.next

theorem endsAscend_append_singleton :
    EndsAscend (ps ++ [p]) ↔ EndsAscend ps ∧ p.next < 2 ^ 64 ∧ highWater ps ≤ p.next := by
  rw [EndsAscend, EndsAscend, List.pairwise_append]
  constructor
  · rintro ⟨hlt, hps, -, hp⟩
    refine ⟨⟨fun q hq => hlt q (List.mem_append_left _ hq), hps⟩, ?_, ?_⟩
    · exact hlt p List.mem_concat_self
    · exact highWater_le fun q hq => hp q hq p (List.mem_singleton.2 rfl)
  · intro ⟨⟨hlt, hps⟩, hp, hle⟩
    refine ⟨?_, hps, List.pairwise_singleton _ _, ?_⟩
    · intro q hq
      rcases List.mem_append.1 hq with hq | hq
      · exact hlt q hq
      · rw [List.mem_singleton.1 hq]
        exact hp
    · intro q hq p' hp'
      rw [List.mem_singleton.1 hp']
      exact (next_le_highWater hq).trans hle

theorem EndsAscend.of_prefix (h : EndsAscend ps) (hpre : pre <+: ps) : EndsAscend pre :=
  ⟨fun p hp => h.1 p (hpre.subset hp), h.2.sublist hpre.sublist⟩

theorem EndsAscend.highWater_lt (h : EndsAscend ps) : highWater ps < 2 ^ 64 := by
  have hle : highWater ps ≤ 2 ^ 64 - 1 := highWater_le fun p hp => Nat.le_sub_one_of_lt (h.1 p hp)
  omega

/-- As long as the ends ascend, every lost number is below the mark. -/
structure Tracks (session : Vector UInt8 10) (directory : Option SymbolDirectory)
    (ps : List Packet) : Prop where
  expected : (received session directory ps).expectedSeq.toNat = highWater ps
  lost_lt : ∀ n ∈ countedLost session directory ps, n < highWater ps
  length_le : (countedLost session directory ps).length ≤ highWater ps
  once : (countedLost session directory ps).Nodup

section

variable (session : Vector UInt8 10) (directory : Option SymbolDirectory)

theorem EndsAscend.tracks (h : EndsAscend ps) : Tracks session directory ps := by
  induction ps using List.reverseRecOn with
  | nil => exact ⟨rfl, by simp [countedLost, UdpReceiver.lostIn], Nat.zero_le _, List.nodup_nil⟩
  | append_singleton ps p ih =>
    obtain ⟨hps, hnext, hle⟩ := endsAscend_append_singleton.1 h
    have t := ih hps
    have hmark : highWater (ps ++ [p]) = p.next := by
      rw [highWater_append_singleton, Nat.max_eq_right hle]
    have hfirst : p.first ≤ p.next := Nat.le_add_right _ _
    have hseq : (UInt64.ofNat p.first).toNat = p.first := by
      rw [UInt64.toNat_ofNat', Nat.mod_eq_of_lt (hfirst.trans_lt hnext)]
    have hgap : ((received session directory ps).gapBefore (UInt64.ofNat p.first)).length ≤
        p.first - highWater ps := by
      rw [UdpReceiver.gapBefore]
      split
      · exact Nat.zero_le _
      · rw [List.length_range', hseq, t.expected]
    refine ⟨?_, ?_, ?_, ?_⟩
    · rw [received_append_singleton, UdpReceiver.expectedSeq_encode, UInt64.toNat_ofNat',
        Nat.mod_eq_of_lt hnext, hmark]
    · intro n hn
      rw [hmark]
      rw [countedLost_append_singleton] at hn
      rcases List.mem_append.1 hn with hn | hn
      · exact (t.lost_lt n hn).trans_le hle
      · have hlt := (UdpReceiver.mem_gapBefore.1 hn).2.2
        rw [hseq] at hlt
        exact hlt.trans_le hfirst
    · have hlength := t.length_le
      rw [countedLost_append_singleton, List.length_append, hmark]
      omega
    · rw [countedLost_append_singleton]
      refine List.nodup_append.2 ⟨t.once, UdpReceiver.nodup_gapBefore _ _, ?_⟩
      rintro n hn _ hn' rfl
      have hlt := t.lost_lt n hn
      have hge := (UdpReceiver.mem_gapBefore.1 hn').2.1
      rw [t.expected] at hge
      omega

theorem endsAscend_of_expected
    (h : ∀ pre, pre <+: ps → (received session directory pre).expectedSeq.toNat = highWater pre) :
    EndsAscend ps := by
  induction ps using List.reverseRecOn with
  | nil => exact ⟨fun _ h => absurd h List.not_mem_nil, List.Pairwise.nil⟩
  | append_singleton ps p ih =>
    have hps := ih fun pre hpre => h pre (hpre.trans (List.prefix_append _ _))
    have hp := h (ps ++ [p]) List.prefix_rfl
    rw [received_append_singleton, UdpReceiver.expectedSeq_encode, UInt64.toNat_ofNat',
      highWater_append_singleton] at hp
    have hmod := Nat.mod_lt p.next (Nat.two_pow_pos 64)
    have hle := Nat.mod_le p.next (2 ^ 64)
    exact endsAscend_append_singleton.2 ⟨hps, by omega, by omega⟩

end

/-- The receiver keeps a high-water mark exactly as long as no datagram ends below an earlier
one. -/
theorem highWaterMark_iff (session : Vector UInt8 10) (directory : Option SymbolDirectory)
    (ps : List Packet) :
    HighWaterMark session directory ps ↔ EndsAscend ps := by
  constructor
  · intro h
    exact endsAscend_of_expected session directory h.expected
  · intro h
    have tracks (pre) (hpre : pre <+: ps) : Tracks session directory pre :=
      (h.of_prefix hpre).tracks session directory
    have t := tracks ps List.prefix_rfl
    refine ⟨fun pre hpre => (tracks pre hpre).expected, ?_, t.once, ?_⟩
    · have hlt := t.length_le.trans_lt h.highWater_lt
      rw [messagesLost_received, UInt64.toNat_ofNat', Nat.mod_eq_of_lt hlt]
    · intro pre p hpre n hn q hq hmem
      have hge := (UdpReceiver.mem_gapBefore.1 hn).2.1
      rw [(tracks pre ((List.prefix_append _ _).trans hpre)).expected] at hge
      have hnext := next_le_highWater hq
      have hlt := (Packet.mem_numbers.1 hmem).2
      omega

def singleMessage (first : Nat) : Packet := ⟨first, [[83]], by decide, by decide⟩

/-- Message 1 comes in once more between messages 2 and 3; `expected_seq_` goes back to 2, and
message 2 is counted as lost when message 3 comes in. -/
def lateDatagram : List Packet :=
  [singleMessage 1, singleMessage 2, singleMessage 1, singleMessage 3]

theorem late_datagram_moves_back :
    ¬ ∀ session directory ps, (∀ p ∈ ps, 1 ≤ p.first ∧ p.next < 2 ^ 64) →
      HighWaterMark session directory ps := by
  intro h
  have hmark := h (Vector.replicate 10 32) none lateDatagram (by decide)
  have hexpected := hmark.expected (lateDatagram.take 3) (List.take_prefix _ _)
  revert hexpected
  decide +kernel

end Tickpipe
