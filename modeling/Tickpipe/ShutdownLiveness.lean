import Tickpipe.Shutdown
import Tickpipe.Lib.Rounds

set_option autoImplicit true

namespace Tickpipe

namespace RingSystem
open SpscRing

def used (s : RingSystem k) : Nat := (s.ring.head - s.ring.tail).toNat

variable {s : RingSystem k}

/-- A record that waits takes its length and four bytes. -/
theorem Sound.used_cons (h : s.Sound outCap H T (b :: rest)) :
    0 < b.length ∧ 4 + b.length ≤ s.used := by
  have hspan := h.span
  rw [List.flatMap_cons, List.length_append, length_frame] at hspan
  rw [used, h.used_toNat]
  exact ⟨h.oldest.1, by omega⟩

theorem Sound.used_le (h : s.Sound outCap H T queue) : s.used ≤ 2 ^ k.val := by
  rw [used, h.used_toNat]
  exact Nat.sub_le_iff_le_add'.2 h.fits

theorem used_eq_zero_iff : s.used = 0 ↔ s.ring.head - s.ring.tail = 0 := by
  rw [used, ← UInt64.toNat_zero, UInt64.toNat_inj]

/-- Two for each byte that waits pay for the turns of the loop that pops it. -/
def popRank (s : RingSystem k) : Nat :=
  match s.consumer with
  | .idle => 2 * s.used + 10
  | .loaded _ => 2 * s.used + 5
  | .readingLen _ _ out => 2 * s.used + 4 - out.length
  | .readingData _ _ out => 2 * s.used - 1 - out.length

/-- A step of a pop reads on, finds the ring empty, or takes a record. -/
inductive PopStep (s s' : RingSystem k) : Prop where
  | reads (popped : s'.popped = s.popped) (consumer : s'.consumer ≠ .idle)
      (rank : s'.popRank < s.popRank)
  | empty (popped : s'.popped = s.popped) (consumer : s'.consumer = .idle)
      (used : s'.used = 0) (rank : 5 ≤ s.popRank)
  | takes (out : List UInt8) (popped : s'.popped = s.popped ++ [out])
      (consumer : s'.consumer = .idle) (rank : 2 * s'.used + 7 < s.popRank)

theorem popStep_loaded (hc : s.consumer = .loaded s.ring.tail) :
    PopStep s (s.consume outCap) := by
  rw [RingSystem.consume, hc]
  dsimp only
  split
  · next hempty =>
    refine .empty rfl rfl ?_ ?_
    · rw [used, hempty, UInt64.sub_self, UInt64.toNat_zero]
    · rw [popRank, hc]
      exact Nat.le_add_left _ _
  · refine .reads rfl (fun h => by cases h) ?_
    rw [popRank, popRank, hc]
    exact Nat.lt_succ_self _

theorem Sound.length_served {tail head : UInt64} (h : s.Sound outCap H T queue)
    (hc : s.consumer = .readingLen tail head out) (hge : ¬ out.length < 4) :
    ¬ (UInt32.ofNat (Bytes.ofLe out) = 0 ∨ UInt32.ofNat (Bytes.ofLe out) > outCap) := by
  obtain ⟨-, b, rest, rfl, hnat⟩ := h.length_read hc hge
  obtain ⟨hpos, hcap, -, -, -⟩ := h.oldest
  rintro (hz | hbig)
  · rw [hz] at hnat
    exact absurd hnat.symm (Nat.ne_of_gt hpos)
  · rw [gt_iff_lt, UInt32.lt_iff_toNat_lt, hnat] at hbig
    omega

theorem Sound.popStep_readingLen {tail head : UInt64} (h : s.Sound outCap H T queue)
    (hc : s.consumer = .readingLen tail head out) : PopStep s (s.consume outCap) := by
  have hcons := h.consumer
  rw [hc] at hcons
  obtain ⟨-, b, rest, rfl, hout⟩ := hcons
  obtain ⟨hpos, hused⟩ := h.used_cons
  have hfour := hout.length_le
  rw [Bytes.length_leBytes] at hfour
  rw [RingSystem.consume, hc]
  dsimp only
  split
  · refine .reads rfl (fun h => by cases h) ?_
    rw [popRank, popRank, hc]
    dsimp only [used] at hused ⊢
    rw [List.length_append, List.length_singleton]
    omega
  · next hge =>
    rw [if_neg (h.length_served hc hge)]
    refine .reads rfl (fun h => by cases h) ?_
    rw [popRank, popRank, hc]
    dsimp only [used, List.length_nil] at hused ⊢
    omega

/-- What is left in use when the tail moves past a record that is read whole. -/
theorem Sound.used_release {tail : UInt64} (h : s.Sound outCap H T queue)
    (hc : s.consumer = .readingData tail len out) :
    (s.ring.head - (tail + 4 + len.toUInt64)).toNat = s.used - (4 + len.toNat) := by
  have hcons := h.consumer
  rw [hc] at hcons
  obtain ⟨rfl, b, rest, rfl, hlen, -⟩ := hcons
  obtain ⟨hpos, hused⟩ := h.used_cons
  have hsize : (4 + len.toUInt64).toNat = 4 + len.toNat := by
    rw [UInt64.toNat_add, UInt32.toNat_toUInt64]
    have := len.toNat_lt
    have : (4 : UInt64).toNat = 4 := rfl
    omega
  have hsub : s.ring.head - (s.ring.tail + 4 + len.toUInt64) =
      s.ring.head - s.ring.tail - (4 + len.toUInt64) := by
    rw [UInt64.sub_eq_iff_eq_add, UInt64.add_assoc, UInt64.add_comm s.ring.tail,
      ← UInt64.add_assoc, UInt64.sub_add_cancel, UInt64.sub_add_cancel]
  rw [hsub, UInt64.toNat_sub_of_le _ _ (UInt64.le_iff_toNat_le.2 (hsize ▸ hlen ▸ hused)), hsize]
  rfl

theorem Sound.popStep_readingData {tail : UInt64} (h : s.Sound outCap H T queue)
    (hc : s.consumer = .readingData tail len out) : PopStep s (s.consume outCap) := by
  have hcons := h.consumer
  rw [hc] at hcons
  obtain ⟨rfl, b, rest, rfl, hlen, hout⟩ := hcons
  obtain ⟨hpos, hused⟩ := h.used_cons
  have hle := hout.length_le
  rw [RingSystem.consume, hc]
  dsimp only
  split
  · refine .reads rfl (fun h => by cases h) ?_
    rw [popRank, popRank, hc]
    dsimp only [used] at hused ⊢
    rw [List.length_append, List.length_singleton]
    omega
  · refine .takes out rfl rfl ?_
    have hfreed := h.used_release hc
    rw [used, hfreed, popRank, hc]
    dsimp only
    omega

theorem Sound.popStep (h : s.Sound outCap H T queue) (hc : s.consumer ≠ .idle) :
    PopStep s (s.consume outCap) := by
  cases hcon : s.consumer with
  | idle => exact absurd hcon hc
  | loaded tail =>
    have hcons := h.consumer
    rw [hcon] at hcons
    exact popStep_loaded (hcons ▸ hcon)
  | readingLen tail head out => exact h.popStep_readingLen hcon
  | readingData tail len out => exact h.popStep_readingData hcon

end RingSystem

namespace FeedHandler

def Quiet : FeedAction → Prop
  | .recv (some _) => False
  | .recv none | .socket | .book => True

def pushRank : Producer → Nat
  | .idle => 1
  | .loaded r _ => r.len.toNat + 6
  | .copying r _ i => 4 + r.len.toNat - i + 1

/-- The steps from which the socket thread stops, when no datagram comes in. -/
def socketRank (s : FeedHandler k) : Nat :=
  match s.socket with
  | .receiving => 2
  | .received packet => packet.len.toNat + 9
  | .pushing => pushRank s.ring.producer + 2
  | .leaving => 1
  | .stopped => 0

def socketHelper (s : FeedHandler k) : FeedAction :=
  match s.socket with
  | .receiving => .recv none
  | .received _ | .pushing | .leaving | .stopped => .socket

/-- The steps from which the book thread is done, when nothing is pushed any more. -/
def bookRank (s : FeedHandler k) : Nat :=
  let used := s.ring.used
  match s.book with
  | .calling => 2 * used + 6
  | .popping => s.ring.popRank
  | .processing _ => 2 * used + 7
  | .testing => if used = 0 then 4 else 2 * used + 9
  | .measuring => if used = 0 then 3 else 2 * used + 8
  | .measured _ => if used = 0 then 2 else 2 * used + 7
  | .joining => 1
  | .done => 0

variable {s : FeedHandler k} {headFirst : Bool} {receiver : UdpReceiver}

/-- The book thread keeps away from the socket thread and its end of the ring. -/
theorem bookStep_frame (headFirst : Bool) (s : FeedHandler k) :
    (s.bookStep headFirst).socket = s.socket ∧ (s.bookStep headFirst).armed = s.armed ∧
      (s.bookStep headFirst).ring.producer = s.ring.producer := by
  rw [bookStep]
  cases s.book with
  | calling => exact ⟨rfl, rfl, s.ring.producer_pop⟩
  | popping => exact ⟨rfl, rfl, s.ring.producer_consume maxPacketSize⟩
  | processing datagram => exact ⟨rfl, rfl, rfl⟩
  | testing => exact ⟨rfl, rfl, rfl⟩
  | measuring => exact ⟨rfl, rfl, rfl⟩
  | measured cursor => exact ⟨rfl, rfl, rfl⟩
  | joining =>
    dsimp only
    split <;> exact ⟨rfl, rfl, rfl⟩
  | done => exact ⟨rfl, rfl, rfl⟩

theorem armed_socketStep (s : FeedHandler k) : s.socketStep.armed = s.armed := by
  rw [socketStep]
  cases s.socket <;> rfl

theorem armed_recv (h : s.armed = true) (outcome : Option RecvPacket) :
    (s.recv outcome).armed = true := by
  rw [recv.eq_def]
  cases s.socket with
  | receiving =>
    cases outcome with
    | none =>
      dsimp only
      split
      · exact h
      · exact h
    | some packet => rfl
  | received packet => exact h
  | pushing => exact h
  | leaving => exact h
  | stopped => exact h

theorem armed_step (h : s.armed = true) (a : FeedAction) : (s.step headFirst a).armed = true := by
  cases a with
  | recv outcome => exact armed_recv h outcome
  | socket => exact (armed_socketStep s).trans h
  | book => exact (bookStep_frame headFirst s).2.1.trans h

theorem recv_none_receiving (h : s.armed = true) (hs : s.socket = .receiving) :
    s.recv none = { s with socket := .leaving } := by
  rw [recv.eq_def, hs]
  exact if_pos h

theorem recv_none_other (hs : s.socket ≠ .receiving) : s.recv none = s := by
  rw [recv.eq_def]
  cases h : s.socket with
  | receiving => exact absurd h hs
  | received packet => rfl
  | pushing => rfl
  | leaving => rfl
  | stopped => rfl

/-- A step of a push lowers what is left of it. -/
theorem pushRank_produce (ring : RingSystem k) (hp : ring.producer ≠ .idle) :
    ring.produce.producer = .idle ∧ 1 ≤ pushRank ring.producer ∨
      ring.produce.producer ≠ .idle ∧
        pushRank ring.produce.producer < pushRank ring.producer := by
  rw [RingSystem.produce]
  cases h : ring.producer with
  | idle => exact absurd h hp
  | loaded r head =>
    dsimp only
    split
    · exact Or.inl ⟨rfl, Nat.le_add_left _ _⟩
    · refine Or.inr ⟨(fun h => by cases h), ?_⟩
      rw [pushRank, pushRank]
      omega
  | copying r head i =>
    dsimp only
    split
    · refine Or.inr ⟨(fun h => by cases h), ?_⟩
      rw [pushRank, pushRank]
      omega
    · exact Or.inl ⟨rfl, Nat.le_add_left _ _⟩

/-- Every step that the socket thread makes brings it closer to its end. -/
theorem socketStep_lowers (h : s.Sound headFirst receiver) (hs : s.socket ≠ .receiving)
    (hpos : 0 < s.socketRank) : s.socketStep.socketRank < s.socketRank := by
  have hsocket := h.socket
  rw [socketRank] at hpos
  rw [socketStep, socketRank, socketRank]
  cases hc : s.socket with
  | receiving => exact absurd hc hs
  | received packet =>
    rw [hc] at hsocket
    have hpush : (s.ring.push packet.toRecord).producer =
        .loaded packet.toRecord s.ring.ring.head := by
      rw [RingSystem.push, hsocket.1]
    dsimp only
    rw [hpush, pushRank]
    omega
  | pushing =>
    dsimp only
    by_cases hp : s.ring.producer = .idle
    · have hsame : s.ring.produce = s.ring := by
        rw [RingSystem.produce, hp]
      rw [hsame, hp]
      exact Nat.lt_succ_self 2
    · rcases pushRank_produce s.ring hp with ⟨hidle, hle⟩ | ⟨hbusy, hlt⟩
      · rw [hidle]
        exact Nat.lt_add_of_pos_left hle
      · have hafter : afterPush s.ring.produce.producer = .pushing := by
          cases hb : s.ring.produce.producer with
          | idle => exact absurd hb hbusy
          | loaded r head => rfl
          | copying r head i => rfl
        rw [hafter]
        exact Nat.add_lt_add_right hlt 2
  | leaving => exact Nat.zero_lt_one
  | stopped =>
    rw [hc] at hpos
    cases hpos

theorem socket_stopped (hzero : s.socketRank = 0) : s.socket = .stopped := by
  rw [socketRank] at hzero
  cases hc : s.socket with
  | stopped => rfl
  | receiving | received _ | pushing | leaving =>
    rw [hc] at hzero
    cases hzero

theorem socket_ranked (headFirst : Bool) (receiver : UdpReceiver) :
    Ranked (step headFirst) Quiet
      (fun s : FeedHandler k => s.Sound headFirst receiver ∧ s.armed = true)
      socketRank socketHelper where
  keeps h _ := ⟨h.1.step _, armed_step h.2 _⟩
  stands := by
    rintro s a ⟨h, harmed⟩ ha
    cases a with
    | recv outcome =>
      cases outcome with
      | some packet => exact ha.elim
      | none =>
        by_cases hs : s.socket = .receiving
        · left
          rw [step, recv_none_receiving harmed hs, socketRank, socketRank, hs]
          exact Nat.lt_succ_self 1
        · right
          rw [step, recv_none_other hs]
          exact ⟨rfl, rfl⟩
    | socket =>
      rw [step]
      by_cases hs : s.socket = .receiving
      · right
        rw [socketStep, hs]
        exact ⟨rfl, rfl⟩
      · by_cases hpos : 0 < s.socketRank
        · exact Or.inl (socketStep_lowers h hs hpos)
        · right
          rw [socketStep, socket_stopped (Nat.eq_zero_of_not_pos hpos)]
          exact ⟨rfl, rfl⟩
    | book =>
      obtain ⟨hsocket, -, hproducer⟩ := bookStep_frame headFirst s
      right
      rw [step, socketRank, socketRank, socketHelper, socketHelper, hsocket, hproducer]
      exact ⟨rfl, rfl⟩
  lowers := by
    rintro s ⟨h, harmed⟩ hpos
    by_cases hs : s.socket = .receiving
    · have hhelper : s.socketHelper = .recv none := by
        rw [socketHelper, hs]
      rw [hhelper, step, recv_none_receiving harmed hs, socketRank, socketRank, hs]
      exact Nat.lt_succ_self 1
    · have hhelper : s.socketHelper = .socket := by
        rw [socketHelper]
        cases hc : s.socket with
        | receiving => exact absurd hc hs
        | received _ | pushing | leaving | stopped => rfl
      rw [hhelper]
      exact socketStep_lowers h hs hpos

theorem popStep_lowers (h : s.Sound headFirst receiver) (hb : s.book = .popping) :
    (s.bookStep headFirst).bookRank < s.bookRank := by
  obtain ⟨H, T, queue, hring⟩ := h.ring
  have hrank : s.bookRank = s.ring.popRank := by
    rw [bookRank, hb]
  rw [hrank, bookStep, hb, bookRank]
  dsimp only
  by_cases hc : s.ring.consumer = .idle
  · have hsame : s.ring.consume maxPacketSize = s.ring := by
      rw [RingSystem.consume, hc]
    rw [hsame, List.drop_length, hc, RingSystem.popRank, hc]
    dsimp only [afterPop]
    split <;> omega
  · cases hring.popStep hc with
    | reads hpopped hbusy hlt =>
      have hafter : afterPop [] (s.ring.consume maxPacketSize).consumer = .popping := by
        cases hcon : (s.ring.consume maxPacketSize).consumer with
        | idle => exact absurd hcon hbusy
        | loaded _ | readingLen _ _ _ | readingData _ _ _ => rfl
      rw [hpopped, List.drop_length, hafter]
      exact hlt
    | empty hpopped hidle hused hle =>
      rw [hpopped, List.drop_length, hidle]
      dsimp only [afterPop]
      rw [if_pos hused]
      exact hle
    | takes out hpopped hidle hlt =>
      rw [hpopped, List.drop_left, hidle]
      exact hlt

/-- With the socket thread stopped, every step brings the book thread closer to its end. -/
theorem bookStep_lowers (h : s.Sound headFirst receiver) (hs : s.socket = .stopped)
    (hpos : 0 < s.bookRank) : (s.bookStep headFirst).bookRank < s.bookRank := by
  have hsocket := h.socket
  have hbook := h.book
  rw [hs] at hsocket
  cases hb : s.book with
  | calling =>
    rw [hb] at hbook
    have hpop : s.ring.pop = { s.ring with consumer := .loaded s.ring.ring.tail } := by
      rw [RingSystem.pop, show s.ring.consumer = .idle from hbook]
    rw [bookStep, bookRank, bookRank, hb]
    dsimp only
    rw [hpop]
    exact Nat.lt_succ_self _
  | popping => exact popStep_lowers h hb
  | processing datagram =>
    rw [bookStep, bookRank, bookRank, hb]
    exact Nat.lt_succ_self _
  | testing =>
    rw [bookStep, bookRank, bookRank, hb, hsocket.2]
    dsimp only
    rw [if_neg Bool.false_ne_true]
    dsimp only
    split <;> exact Nat.lt_succ_self _
  | measuring =>
    rw [bookStep, bookRank, bookRank, hb]
    dsimp only
    split <;> exact Nat.lt_succ_self _
  | measured cursor =>
    rw [hb] at hbook
    obtain ⟨-, -, hcursor⟩ := hbook
    have hused : ((if headFirst then cursor else s.ring.ring.head) -
        if headFirst then s.ring.ring.tail else cursor) = s.ring.ring.head - s.ring.ring.tail := by
      cases headFirst with
      | true => exact congrArg (· - s.ring.ring.tail) hcursor
      | false => exact congrArg (s.ring.ring.head - ·) hcursor
    rw [bookStep, bookRank, bookRank, hb]
    dsimp only
    rw [hused]
    by_cases hzero : s.ring.ring.head - s.ring.ring.tail = 0
    · rw [if_pos hzero]
      dsimp only
      rw [if_pos (RingSystem.used_eq_zero_iff.2 hzero)]
      exact Nat.lt_succ_self 1
    · rw [if_neg hzero]
      dsimp only
      rw [if_neg (mt RingSystem.used_eq_zero_iff.1 hzero)]
      exact Nat.lt_succ_self _
  | joining =>
    rw [bookStep, bookRank, bookRank, hb, hs]
    exact Nat.zero_lt_one
  | done =>
    rw [bookRank, hb] at hpos
    cases hpos

/-- Nothing is left to do only for a thread that is done. -/
theorem book_done (h : s.Sound headFirst receiver) (hzero : s.bookRank = 0) : s.book = .done := by
  cases hb : s.book with
  | popping =>
    have hlt := popStep_lowers h hb
    omega
  | done => rfl
  | calling | processing _ | joining =>
    rw [bookRank, hb] at hzero
    cases hzero
  | testing | measuring | measured _ =>
    rw [bookRank, hb] at hzero
    dsimp only at hzero
    split at hzero <;> cases hzero

theorem book_ranked (headFirst : Bool) (receiver : UdpReceiver) :
    Ranked (step headFirst) Quiet
      (fun s : FeedHandler k => s.Sound headFirst receiver ∧ s.socket = .stopped)
      bookRank (fun _ => .book) where
  keeps := by
    rintro s a ⟨h, hs⟩ ha
    refine ⟨h.step a, ?_⟩
    cases a with
    | recv outcome => rw [step, recv.eq_def, hs]; exact hs
    | socket => rw [step, socketStep, hs]; exact hs
    | book => exact (bookStep_frame headFirst s).1.trans hs
  stands := by
    rintro s a ⟨h, hs⟩ ha
    cases a with
    | recv outcome =>
      right
      rw [step, recv.eq_def, hs]
      exact ⟨rfl, rfl⟩
    | socket =>
      right
      rw [step, socketStep, hs]
      exact ⟨rfl, rfl⟩
    | book =>
      by_cases hpos : 0 < s.bookRank
      · exact Or.inl (bookStep_lowers h hs hpos)
      · right
        rw [step, bookStep, book_done h (Nat.eq_zero_of_not_pos hpos)]
        exact ⟨rfl, rfl⟩
  lowers h hpos := bookStep_lowers h.1 h.2 hpos

/-- Before its first datagram the socket thread waits in `recv`. -/
def Waits (s : FeedHandler k) : Prop := s.armed = true ∨ s.socket = .receiving

theorem Waits.step (h : s.Waits) (a : FeedAction) : (s.step headFirst a).Waits := by
  rcases h with harmed | hs
  · exact Or.inl (armed_step harmed a)
  · cases a with
    | recv outcome =>
      rw [FeedHandler.step, recv.eq_def, hs]
      cases outcome with
      | none =>
        dsimp only
        split
        · next harmed => exact Or.inl harmed
        · exact Or.inr hs
      | some packet => exact Or.inl rfl
    | socket =>
      right
      rw [FeedHandler.step, socketStep, hs]
      exact hs
    | book => exact Or.inr ((bookStep_frame headFirst s).1.trans hs)

theorem run_waits (headFirst : Bool) (buf : Vector UInt8 (2 ^ k.val)) (receiver : UdpReceiver)
    (schedule : List FeedAction) : (run headFirst buf receiver schedule).Waits :=
  List.foldlRecOn schedule (FeedHandler.step headFirst) (motive := Waits) (Or.inr rfl)
    fun _ h a _ => h.step a

theorem armed_quiet (headFirst : Bool) (s : FeedHandler k) (actions : List FeedAction)
    (hquiet : ∀ a ∈ actions, Quiet a) :
    (actions.foldl (step headFirst) s).armed = s.armed := by
  refine List.foldlRecOn actions (step headFirst)
    (motive := fun s' : FeedHandler k => s'.armed = s.armed) rfl ?_
  intro s' h a ha
  rw [← h]
  cases a with
  | recv outcome =>
    cases outcome with
    | none =>
      rw [step, recv.eq_def]
      split
      · dsimp only
        split <;> rfl
      · rfl
      · rfl
      · rfl
      · rfl
    | some packet => exact (hquiet _ ha).elim
  | socket => exact armed_socketStep s'
  | book => exact (bookStep_frame headFirst s').2.1

/-- In a round without datagrams `recv` times out and both threads make a step. -/
structure IdleRound (round : List FeedAction) : Prop where
  quiet : ∀ a ∈ round, Quiet a
  timeout : .recv none ∈ round
  socket : .socket ∈ round
  book : .book ∈ round

theorem IdleRound.socketHelper {round : List FeedAction} (h : IdleRound round)
    (s : FeedHandler k) : s.socketHelper ∈ round := by
  rw [FeedHandler.socketHelper]
  cases s.socket with
  | receiving => exact h.timeout
  | received _ | pushing | leaving | stopped => exact h.socket

theorem socketRank_le (s : FeedHandler k) (h : s.Sound headFirst receiver) :
    s.socketRank ≤ 2057 := by
  have hcap : maxPacketSize.toNat = 2048 := rfl
  obtain ⟨H, T, queue, hring⟩ := h.ring
  rw [socketRank]
  cases s.socket with
  | received packet =>
    have hle := UInt32.le_iff_toNat_le.1 packet.le
    dsimp only
    omega
  | pushing =>
    have hproducer := hring.producer
    dsimp only
    cases hp : s.ring.producer with
    | idle => decide
    | loaded r head =>
      rw [hp] at hproducer
      have hle := UInt32.le_iff_toNat_le.1 hproducer.2.cap
      rw [pushRank]
      omega
    | copying r head i =>
      rw [hp] at hproducer
      have hle := UInt32.le_iff_toNat_le.1 hproducer.2.1.cap
      rw [pushRank]
      omega
  | receiving | leaving | stopped => exact of_decide_eq_true rfl

theorem bookRank_le (s : FeedHandler k) (h : s.Sound headFirst receiver) :
    s.bookRank ≤ 2 * 2 ^ k.val + 10 := by
  obtain ⟨H, T, queue, hring⟩ := h.ring
  have hused := hring.used_le
  rw [bookRank]
  cases s.book with
  | popping =>
    dsimp only
    rw [RingSystem.popRank]
    cases s.ring.consumer <;> dsimp only <;> omega
  | testing | measuring | measured _ =>
    dsimp only
    split <;> omega
  | calling | processing _ | joining | done =>
    dsimp only
    omega

/-- A packet in the hands of the socket thread, and two for each byte of the ring. -/
def shutdownRounds (k : Fin 64) : Nat := 2057 + (2 * 2 ^ k.val + 10)

theorem Sound.shuts_down (h : s.Sound headFirst receiver) (harmed : s.armed = true)
    (rounds : List (List FeedAction)) (hidle : ∀ round ∈ rounds, IdleRound round)
    (hlen : shutdownRounds k ≤ rounds.length) :
    (rounds.flatten.foldl (FeedHandler.step headFirst) s).book = .done := by
  rw [shutdownRounds] at hlen
  have hparts := List.take_append_drop 2057 rounds
  have hfirst : ∀ round ∈ rounds.take 2057, IdleRound round := fun r hr =>
    hidle r (List.mem_of_mem_take hr)
  have hlast : ∀ round ∈ rounds.drop 2057, IdleRound round := fun r hr =>
    hidle r (List.mem_of_mem_drop hr)
  rw [← hparts, List.flatten_append, List.foldl_append]
  -- the socket thread first, then the book thread alone
  have hsocket := socket_ranked (k := k) headFirst receiver
  have hbook := book_ranked (k := k) headFirst receiver
  have hzero := hsocket.rounds_zero ⟨h, harmed⟩ (rounds.take 2057)
    (fun r hr => (hfirst r hr).quiet) (fun r hr s _ => (hfirst r hr).socketHelper s)
    ((socketRank_le s h).trans (by rw [List.length_take]; omega))
  have hkept := hsocket.run_keeps ⟨h, harmed⟩ (rounds.take 2057).flatten fun a ha => by
    obtain ⟨r, hr, har⟩ := List.mem_flatten.1 ha
    exact (hfirst r hr).quiet a har
  generalize (rounds.take 2057).flatten.foldl (FeedHandler.step headFirst) s = s' at hzero hkept ⊢
  have hstopped := socket_stopped hzero
  have hzero' := hbook.rounds_zero ⟨hkept.1, hstopped⟩ (rounds.drop 2057)
    (fun r hr => (hlast r hr).quiet) (fun r hr s _ => (hlast r hr).book)
    ((bookRank_le s' hkept.1).trans (by rw [List.length_drop]; omega))
  have hkept' := hbook.run_keeps ⟨hkept.1, hstopped⟩ (rounds.drop 2057).flatten fun a ha => by
    obtain ⟨r, hr, har⟩ := List.mem_flatten.1 ha
    exact (hlast r hr).quiet a har
  exact book_done hkept'.1 hzero'

end FeedHandler

/-- After a silence of so many rounds, the feed handler is done exactly when a datagram had come
before; without one it waits for ever. -/
theorem feed_shuts_down {k : Fin 64} (headFirst : Bool) (buf : Vector UInt8 (2 ^ k.val))
    (receiver : UdpReceiver) (before : List FeedAction) (rounds : List (List FeedAction))
    (hidle : ∀ round ∈ rounds, FeedHandler.IdleRound round)
    (hlen : FeedHandler.shutdownRounds k ≤ rounds.length) :
    (FeedHandler.run headFirst buf receiver (before ++ rounds.flatten)).book = .done ↔
      (FeedHandler.run headFirst buf receiver before).armed = true := by
  have hsound := FeedHandler.run_sound headFirst buf receiver before
  constructor
  case mpr =>
    intro harmed
    rw [FeedHandler.run, List.foldl_append]
    exact hsound.shuts_down harmed rounds hidle hlen
  case mp =>
    intro hd
    have hstopped := (FeedHandler.run_sound headFirst buf receiver
      (before ++ rounds.flatten)).drained (Or.inr hd)
    have harmed : (FeedHandler.run headFirst buf receiver
        (before ++ rounds.flatten)).armed = true := by
      rcases FeedHandler.run_waits headFirst buf receiver (before ++ rounds.flatten) with h | h
      · exact h
      · rw [hstopped.1] at h
        cases h
    rw [FeedHandler.run, List.foldl_append, FeedHandler.armed_quiet] at harmed
    · exact harmed
    · intro a ha
      obtain ⟨r, hr, har⟩ := List.mem_flatten.1 ha
      exact (hidle r hr).quiet a har

def idleRound : List FeedAction := [.recv none, .socket, .book]

theorem idleRound_idle : FeedHandler.IdleRound idleRound where
  quiet := by
    intro a ha
    rw [idleRound, List.mem_cons, List.mem_cons, List.mem_singleton] at ha
    rcases ha with rfl | rfl | rfl <;> exact True.intro
  timeout := List.mem_cons_self
  socket := List.mem_cons_of_mem _ List.mem_cons_self
  book := List.mem_cons_of_mem _ (List.mem_cons_of_mem _ List.mem_cons_self)

/-- A datagram that is still on its way into the ring is not in the way of the end. -/
theorem oneDatagram_shuts_down :
    (FeedHandler.run (k := 3) true (Vector.replicate 8 0) {}
      ([.recv (some ⟨⟨1, fun _ => 7⟩, by decide, by decide⟩), .socket] ++
        (List.replicate (FeedHandler.shutdownRounds 3) idleRound).flatten)).book = .done := by
  refine (feed_shuts_down (k := 3) true (Vector.replicate 8 0) {} _ _ ?_ ?_).2 (by decide +kernel)
  · exact fun round hround => List.eq_of_mem_replicate hround ▸ idleRound_idle
  · rw [List.length_replicate]

end Tickpipe
