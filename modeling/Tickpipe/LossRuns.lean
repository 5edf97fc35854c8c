import Tickpipe.Packer
import Tickpipe.Reception

set_option autoImplicit true

namespace Tickpipe

/-- What a channel that drops some of its input lets through. -/
def delivered (xs : List α) (mask : List Bool) : List α := ((xs.zip mask).filter (·.2)).map (·.1)

theorem delivered_map (f : α → β) (xs : List α) (mask : List Bool) :
    delivered (xs.map f) mask = (delivered xs mask).map f := by
  rw [delivered, List.zip_map_left, List.filter_map, List.map_map, delivered, List.map_map]
  rfl

/-- The maximal runs of dropped datagrams that lie between two delivered ones, when `run` was
dropped since the last delivery. -/
def lossRunsAfter (run : List Packet) : List (Packet × Bool) → List (List Packet)
  | [] => []
  | (p, false) :: rest => lossRunsAfter (run ++ [p]) rest
  | (_, true) :: rest => if run = [] then lossRunsAfter [] rest else run :: lossRunsAfter [] rest

/-- What is dropped before the first delivery lies between no two. -/
def lossRuns : List (Packet × Bool) → List (List Packet)
  | [] => []
  | (_, false) :: rest => lossRuns rest
  | (_, true) :: rest => lossRunsAfter [] rest

def messagesIn (runs : List (List Packet)) : Nat := (runs.flatten.flatMap (·.msgs)).length

theorem messagesIn_append (runs runs' : List (List Packet)) :
    messagesIn (runs ++ runs') = messagesIn runs + messagesIn runs' := by
  rw [messagesIn, List.flatten_append, List.flatMap_append, List.length_append]
  rfl

/-- What receiving some datagrams does to the counters: the runs that show as gaps, and the number
of messages handed on. -/
structure Accounts (r r' : UdpReceiver) (runs : List (List Packet)) (count : Nat) : Prop where
  gaps : r'.gaps = r.gaps + runs.length
  messagesLost : r'.messagesLost = r.messagesLost + UInt64.ofNat (messagesIn runs)
  outOfOrder : r'.outOfOrder = r.outOfOrder
  shortPackets : r'.shortPackets = r.shortPackets
  expectedSeq : r'.expectedSeq = r.expectedSeq + UInt64.ofNat (count + messagesIn runs)

theorem Accounts.refl (r : UdpReceiver) : Accounts r r [] 0 :=
  ⟨rfl, (UInt64.add_zero _).symm, rfl, rfl, (UInt64.add_zero _).symm⟩

theorem Accounts.trans (h : Accounts r r' runs count) (h' : Accounts r' r'' runs' count') :
    Accounts r r'' (runs ++ runs') (count + count') := by
  have hcount : count + count' + (messagesIn runs + messagesIn runs') =
      count + messagesIn runs + (count' + messagesIn runs') := by omega
  refine ⟨?_, ?_, h'.outOfOrder.trans h.outOfOrder, h'.shortPackets.trans h.shortPackets, ?_⟩
  · rw [h'.gaps, h.gaps, List.length_append, Nat.add_assoc]
  · rw [h'.messagesLost, h.messagesLost, messagesIn_append, UInt64.ofNat_add, UInt64.add_assoc]
  · rw [h'.expectedSeq, h.expectedSeq, messagesIn_append, hcount, UInt64.add_assoc,
      ← UInt64.ofNat_add]

variable (session : Vector UInt8 10)

/-- A datagram comes in after `run` was lost. -/
theorem accounts_receive (r : UdpReceiver) (run : List Packet) (p : Packet) (hn : 1 ≤ n)
    (hr : r.expectedSeq = UInt64.ofNat n) (hrun : ∀ q ∈ run, q.msgs ≠ [])
    (hp : p.first = n + (run.flatMap (·.msgs)).length) (hlt : p.first < 2 ^ 64)
    (hbody : ∀ m ∈ p.msgs, m ≠ []) :
    Accounts r (r.receive (p.encode session)) (if run = [] then [] else [run]) p.msgs.length := by
  have hexpected : r.expectedSeq.toNat = n := by
    rw [hr, UInt64.toNat_ofNat', Nat.mod_eq_of_lt (by omega)]
  have hseq : (UInt64.ofNat p.first).toNat = p.first := by
    rw [UInt64.toNat_ofNat', Nat.mod_eq_of_lt hlt]
  have hne : r.expectedSeq ≠ 0 := by
    intro he
    rw [he] at hexpected
    have hzero : (0 : UInt64).toNat = 0 := rfl
    omega
  have hgap : r.gapBefore (UInt64.ofNat p.first) = List.range' n (run.flatMap (·.msgs)).length := by
    rw [UdpReceiver.gapBefore, if_neg hne, hexpected, hseq, hp, Nat.add_sub_cancel_left]
  have hlost : messagesIn (if run = [] then [] else [run]) = (run.flatMap (·.msgs)).length := by
    split
    case isTrue he =>
      rw [he]
      rfl
    case isFalse =>
      rw [messagesIn, List.flatten_singleton]
  have hempty : (run.flatMap (·.msgs)).length = 0 ↔ run = [] := by
    rw [List.length_eq_zero_iff, List.flatMap_eq_nil_iff]
    constructor
    · intro h
      by_contra hne
      obtain ⟨q, hq⟩ := List.exists_mem_of_ne_nil _ hne
      exact hrun q hq (h q hq)
    · intro h q hq
      rw [h] at hq
      cases hq
  refine ⟨?_, ?_, ?_, ?_, ?_⟩
  · rw [UdpReceiver.receive_encode, UdpReceiver.gaps_handAll, UdpReceiver.gaps_sequence, hgap]
    congr 1
    simp only [List.range'_eq_nil_iff, hempty]
    split
    · rfl
    · rfl
  · rw [UdpReceiver.receive_encode, UdpReceiver.messagesLost_handAll,
      UdpReceiver.messagesLost_sequence, hgap, hlost, List.length_range']
  · have hnot : ¬ (r.expectedSeq ≠ 0 ∧ UInt64.ofNat p.first < r.expectedSeq) := by
      rw [UInt64.lt_iff_toNat_lt, hseq, hexpected]
      omega
    rw [UdpReceiver.receive_encode, UdpReceiver.outOfOrder_handAll,
      UdpReceiver.outOfOrder_sequence, if_neg hnot, Nat.add_zero]
  · rw [UdpReceiver.receive_encode, UdpReceiver.shortPackets_handAll _ _ hbody,
      UdpReceiver.shortPackets_sequence]
  · rw [UdpReceiver.expectedSeq_encode, Packet.next, hlost, hr, ← UInt64.ofNat_add, hp]
    congr 1
    omega

theorem accounts_receiveAll (trace : List (Packet × Bool)) (run : List Packet) (r : UdpReceiver)
    (n : Nat) (hn : 1 ≤ n) (hr : r.expectedSeq = UInt64.ofNat n)
    (hcons : Consecutive n (run ++ trace.map (·.1)))
    (hend : n + ((run ++ trace.map (·.1)).flatMap (·.msgs)).length ≤ 2 ^ 64)
    (hmsgs : ∀ p ∈ run ++ trace.map (·.1), p.msgs ≠ [])
    (hbody : ∀ p ∈ run ++ trace.map (·.1), ∀ m ∈ p.msgs, m ≠ []) :
    Accounts r (r.receiveAll (((trace.filter (·.2)).map (·.1)).map (·.encode session)))
      (lossRunsAfter run trace) (((trace.filter (·.2)).map (·.1)).flatMap (·.msgs)).length := by
  induction trace generalizing run r n with
  | nil => exact Accounts.refl r
  | cons x trace ih =>
    obtain ⟨p, kept⟩ := x
    have hassoc : run ++ p :: trace.map (·.1) = (run ++ [p]) ++ trace.map (·.1) :=
      (List.append_assoc run [p] _).symm
    rw [List.map_cons, hassoc] at hcons hend hmsgs hbody
    cases kept with
    | false => exact ih (run ++ [p]) r n hn hr hcons hend hmsgs hbody
    | true =>
      have hprun : p ∈ (run ++ [p]) ++ trace.map (·.1) :=
        List.mem_append_left _ List.mem_concat_self
      obtain ⟨hp, hrest⟩ : p.first = n + (run.flatMap (·.msgs)).length ∧
          Consecutive p.next (trace.map (·.1)) := by
        rw [List.append_assoc] at hcons
        exact (consecutive_append_cons n run p _).1 hcons |>.2
      have hlength : n + (((run ++ [p]) ++ trace.map (·.1)).flatMap (·.msgs)).length =
          p.next + ((trace.map (·.1)).flatMap (·.msgs)).length := by
        rw [List.flatMap_append, List.length_append, List.flatMap_append, List.length_append,
          List.flatMap_singleton, Packet.next, hp]
        omega
      rw [hlength] at hend
      have hpos := List.length_pos_iff.2 (hmsgs p hprun)
      have hnext : p.next = p.first + p.msgs.length := rfl
      have hrest_mem {q : Packet} (hq : q ∈ trace.map (·.1)) :
          q ∈ (run ++ [p]) ++ trace.map (·.1) := List.mem_append_right _ hq
      have hstep := accounts_receive session r run p hn hr
        (fun q hq => hmsgs q (List.mem_append_left _ (List.mem_append_left _ hq))) hp (by omega)
        (hbody p hprun)
      have htail := ih [] (r.receive (p.encode session)) p.next (by omega)
        (UdpReceiver.expectedSeq_encode r session p) hrest hend
        (fun q hq => hmsgs q (hrest_mem hq)) (fun q hq => hbody q (hrest_mem hq))
      have h := hstep.trans htail
      rw [lossRunsAfter]
      have hruns : (if run = [] then lossRunsAfter [] trace else run :: lossRunsAfter [] trace) =
          (if run = [] then [] else [run]) ++ lossRunsAfter [] trace := by
        split
        · rfl
        · rfl
      rw [hruns, List.filter_cons, if_pos rfl, List.map_cons, List.map_cons, List.flatMap_cons,
        List.length_append]
      exact h

/-- The receiver joins the stream at the first datagram, whatever its number. -/
theorem receive_join (r : UdpReceiver) (p : Packet) (hr : r.expectedSeq = 0) :
    r.receive (p.encode session) =
      UdpReceiver.receive { r with expectedSeq := UInt64.ofNat p.first } (p.encode session) := by
  have hsequence (seq : UInt64) (count : UInt16) : r.sequence seq count =
      UdpReceiver.sequence { r with expectedSeq := seq } seq count := by
    rw [UdpReceiver.sequence, if_pos hr, UdpReceiver.sequence]
    by_cases h : seq = 0
    · rw [if_pos h]
    · rw [if_neg h, if_neg (UInt64.lt_irrefl seq), if_neg (UInt64.lt_irrefl seq)]
  rw [UdpReceiver.receive_encode, hsequence, UdpReceiver.receive_encode]

theorem lossRuns_accounts (trace : List (Packet × Bool)) (r : UdpReceiver) (n : Nat) (hn : 1 ≤ n)
    (hr : r.expectedSeq = 0) (hcons : Consecutive n (trace.map (·.1)))
    (hend : n + ((trace.map (·.1)).flatMap (·.msgs)).length ≤ 2 ^ 64)
    (hmsgs : ∀ p ∈ trace.map (·.1), p.msgs ≠ [])
    (hbody : ∀ p ∈ trace.map (·.1), ∀ m ∈ p.msgs, m ≠ []) :
    (trace.filter (·.2)).map (·.1) = [] ∧ lossRuns trace = [] ∨
      ∃ p, ((trace.filter (·.2)).map (·.1)).head? = some p ∧
        Accounts { r with expectedSeq := UInt64.ofNat p.first }
          (r.receiveAll (((trace.filter (·.2)).map (·.1)).map (·.encode session)))
          (lossRuns trace) (((trace.filter (·.2)).map (·.1)).flatMap (·.msgs)).length := by
  induction trace generalizing n with
  | nil => exact Or.inl ⟨rfl, rfl⟩
  | cons x trace ih =>
    obtain ⟨p, kept⟩ := x
    have hfirst : p.first = n := hcons.1
    cases kept with
    | false =>
      have hlength : p.next + ((trace.map (·.1)).flatMap (·.msgs)).length ≤ 2 ^ 64 := by
        rw [List.map_cons, List.flatMap_cons, List.length_append, ← Nat.add_assoc] at hend
        rw [Packet.next, hfirst]
        exact hend
      exact ih p.next (by rw [Packet.next]; omega) hcons.2 hlength
        (fun q hq => hmsgs q (List.mem_cons_of_mem _ hq))
        (fun q hq => hbody q (List.mem_cons_of_mem _ hq))
    | true =>
      refine Or.inr ⟨p, rfl, ?_⟩
      have h := accounts_receiveAll session ((p, true) :: trace) []
        { r with expectedSeq := UInt64.ofNat p.first } n hn (congrArg UInt64.ofNat hfirst) hcons
        hend hmsgs hbody
      have hjoin : r.receiveAll ((p :: (trace.filter (·.2)).map (·.1)).map (·.encode session)) =
          UdpReceiver.receiveAll { r with expectedSeq := UInt64.ofNat p.first }
            ((p :: (trace.filter (·.2)).map (·.1)).map (·.encode session)) := by
        rw [List.map_cons, UdpReceiver.receiveAll, List.foldl_cons, receive_join session r p hr]
        rfl
      rw [List.filter_cons, if_pos rfl, List.map_cons, hjoin]
      rw [lossRunsAfter, if_pos rfl] at h
      exact h

theorem messagesIn_lossRunsAfter_le (trace : List (Packet × Bool)) (run : List Packet) :
    (((trace.filter (·.2)).map (·.1)).flatMap (·.msgs)).length +
        messagesIn (lossRunsAfter run trace) ≤
      (run.flatMap (·.msgs)).length + ((trace.map (·.1)).flatMap (·.msgs)).length := by
  induction trace generalizing run with
  | nil => exact Nat.zero_le _
  | cons x trace ih =>
    obtain ⟨p, kept⟩ := x
    rw [List.map_cons, List.flatMap_cons, List.length_append]
    cases kept with
    | false =>
      have h := ih (run ++ [p])
      rw [List.flatMap_append, List.length_append, List.flatMap_singleton] at h
      rw [List.filter_cons, if_neg Bool.false_ne_true, lossRunsAfter, ← Nat.add_assoc]
      exact h
    | true =>
      have h := ih []
      rw [List.flatMap_nil, List.length_nil] at h
      rw [List.filter_cons, if_pos rfl, List.map_cons, List.flatMap_cons, List.length_append,
        lossRunsAfter]
      split
      · omega
      · have hcons : messagesIn (run :: lossRunsAfter [] trace) =
            (run.flatMap (·.msgs)).length + messagesIn (lossRunsAfter [] trace) := by
          rw [messagesIn, List.flatten_cons, List.flatMap_append, List.length_append]
          rfl
        omega

theorem messagesIn_lossRuns_le (trace : List (Packet × Bool)) :
    (((trace.filter (·.2)).map (·.1)).flatMap (·.msgs)).length + messagesIn (lossRuns trace) ≤
      ((trace.map (·.1)).flatMap (·.msgs)).length := by
  induction trace with
  | nil => exact Nat.zero_le _
  | cons x trace ih =>
    obtain ⟨p, kept⟩ := x
    cases kept with
    | false =>
      rw [List.map_cons, List.flatMap_cons, List.length_append]
      exact ih.trans (Nat.le_add_left _ _)
    | true =>
      have h := messagesIn_lossRunsAfter_le ((p, true) :: trace) []
      rw [lossRunsAfter, if_pos rfl, List.flatMap_nil, List.length_nil, Nat.zero_add] at h
      exact h

end Tickpipe
