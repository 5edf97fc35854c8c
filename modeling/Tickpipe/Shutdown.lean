import Tickpipe.FeedHandler
import Tickpipe.RingFifo

set_option autoImplicit true

namespace Tickpipe

namespace RingSystem

variable {s : RingSystem k}

theorem popped_push (s : RingSystem k) (r : Record) : (s.push r).popped = s.popped := by
  rw [push]
  cases s.producer <;> rfl

theorem consumer_push (s : RingSystem k) (r : Record) : (s.push r).consumer = s.consumer := by
  rw [push]
  cases s.producer <;> rfl

theorem producer_pop (s : RingSystem k) : s.pop.producer = s.producer := by
  rw [pop]
  cases s.consumer <;> rfl

theorem popped_pop (s : RingSystem k) : s.pop.popped = s.popped := by
  rw [pop]
  cases s.consumer <;> rfl

theorem produce_other (s : RingSystem k) :
    s.produce.popped = s.popped ∧ s.produce.consumer = s.consumer := by
  rw [produce]
  cases s.producer with
  | idle => exact ⟨rfl, rfl⟩
  | loaded r head =>
    dsimp only
    split <;> exact ⟨rfl, rfl⟩
  | copying r head i =>
    dsimp only
    split <;> exact ⟨rfl, rfl⟩

theorem producer_consume (s : RingSystem k) (outCap : UInt32) :
    (s.consume outCap).producer = s.producer := by
  rw [consume]
  cases s.consumer with
  | idle => rfl
  | loaded tail =>
    dsimp only
    split <;> rfl
  | readingLen tail head out =>
    dsimp only
    split
    · rfl
    · split <;> rfl
  | readingData tail len out =>
    dsimp only
    split <;> rfl

/-- The records offered to the ring: pushed, dropped, or in the hands of the producer. -/
def offered (s : RingSystem k) : Nat :=
  s.pushed.length + s.ring.dropped +
    match s.producer with
    | .idle => 0
    | .loaded _ _ | .copying _ _ _ => 1

theorem offered_push (h : s.producer = .idle) (r : Record) :
    (s.push r).offered = s.offered + 1 := by
  rw [push, offered, offered, h]
  rfl

theorem offered_produce (s : RingSystem k) : s.produce.offered = s.offered := by
  rw [produce, offered, offered]
  cases hp : s.producer with
  | idle =>
    dsimp only
    rw [hp]
  | loaded r head =>
    dsimp only
    split
    · exact (Nat.add_assoc _ _ _).symm
    · rfl
  | copying r head i =>
    dsimp only
    split
    · rfl
    · rw [List.length_append, List.length_singleton]
      exact Nat.add_right_comm s.pushed.length 1 s.ring.dropped

theorem offered_pop (s : RingSystem k) : s.pop.offered = s.offered := by
  rw [pop]
  cases s.consumer <;> rfl

theorem offered_consume (s : RingSystem k) (outCap : UInt32) :
    (s.consume outCap).offered = s.offered := by
  rw [consume]
  cases s.consumer with
  | idle => rfl
  | loaded tail =>
    dsimp only
    split <;> rfl
  | readingLen tail head out =>
    dsimp only
    split
    · rfl
    · split <;> rfl
  | readingData tail len out =>
    dsimp only
    split <;> rfl

theorem consume_popped (s : RingSystem k) (outCap : UInt32) :
    (s.consume outCap).popped = s.popped ∨
      ∃ b, (s.consume outCap).popped = s.popped ++ [b] ∧ (s.consume outCap).consumer = .idle := by
  rw [consume]
  cases s.consumer with
  | idle => exact Or.inl rfl
  | loaded tail =>
    dsimp only
    split <;> exact Or.inl rfl
  | readingLen tail head out =>
    dsimp only
    split
    · exact Or.inl rfl
    · split <;> exact Or.inl rfl
  | readingData tail len out =>
    dsimp only
    split
    · exact Or.inl rfl
    · exact Or.inr ⟨out, rfl, rfl⟩

end RingSystem

theorem RecvPacket.fits (p : RecvPacket) : p.toRecord.Fits maxPacketSize where
  pos := UInt32.lt_iff_toNat_lt.1 p.pos
  cap := p.le
  room := Nat.lt_of_le_of_lt (UInt32.le_iff_toNat_le.1 p.le) (by decide)

namespace FeedHandler

/-- The producer is in a push only where the socket thread is, and the flag tells whether that
thread has stopped. -/
def SocketSound (producer : Producer) (running : Bool) : SocketThread → Prop
  | .receiving | .received _ | .leaving => producer = .idle ∧ running = true
  | .pushing => running = true
  | .stopped => producer = .idle ∧ running = false

/-- From its test of the flag on, the book thread is alone with the ring. -/
def BookSound (headFirst : Bool) (ring : RingSystem k) (socket : SocketThread)
    (ringDropped : Nat) : BookThread → Prop
  | .calling | .processing _ | .testing => ring.consumer = .idle
  | .popping => True
  | .measuring => ring.consumer = .idle ∧ socket = .stopped
  | .measured cursor => ring.consumer = .idle ∧ socket = .stopped ∧
      cursor = if headFirst then ring.ring.head else ring.ring.tail
  | .joining => socket = .stopped ∧ ring.ring.head = ring.ring.tail
  | .done => socket = .stopped ∧ ring.ring.head = ring.ring.tail ∧
      ringDropped = ring.ring.dropped

def inHand : BookThread → List Datagram
  | .processing datagram => [datagram]
  | .calling | .popping | .testing | .measuring | .measured _ | .joining | .done => []

/-- A step of a pop hands the record that it returns to the book thread. -/
theorem afterPop_sound (headFirst : Bool) (ring : RingSystem k) (socket : SocketThread)
    (ringDropped : Nat) :
    let ring' := ring.consume maxPacketSize
    let book := afterPop (ring'.popped.drop ring.popped.length) ring'.consumer
    BookSound headFirst ring' socket ringDropped book ∧
      ring'.popped = ring.popped ++ inHand book := by
  intro ring' book
  rcases ring.consume_popped maxPacketSize with hnone | ⟨b, hsome, hidle⟩
  · have hdrop : ring'.popped.drop ring.popped.length = [] := by
      rw [hnone, List.drop_length]
    have hbook : book = afterPop [] ring'.consumer := congrArg (afterPop · _) hdrop
    rw [hbook, hnone]
    cases hc : ring'.consumer with
    | idle => exact ⟨hc, (List.append_nil _).symm⟩
    | loaded tail => exact ⟨True.intro, (List.append_nil _).symm⟩
    | readingLen tail head out => exact ⟨True.intro, (List.append_nil _).symm⟩
    | readingData tail len out => exact ⟨True.intro, (List.append_nil _).symm⟩
  · have hdrop : ring'.popped.drop ring.popped.length = [b] := by
      rw [hsome, List.drop_left]
    have hbook : book = .processing b := by
      rw [show book = afterPop _ ring'.consumer from rfl, hdrop, hidle]
      rfl
    rw [hbook]
    exact ⟨hidle, hsome⟩

/-- Only a stopped socket thread has cleared the flag. -/
theorem SocketSound.stopped {socket : SocketThread} (h : SocketSound producer false socket) :
    socket = .stopped := by
  cases socket with
  | receiving => cases h.2
  | received packet => cases h.2
  | pushing => cases h
  | leaving => cases h.2
  | stopped => rfl

def inBuffer : SocketThread → Nat
  | .received _ => 1
  | .receiving | .pushing | .leaving | .stopped => 0

structure Sound (headFirst : Bool) (receiver : UdpReceiver) (s : FeedHandler k) : Prop where
  ring : ∃ H T queue, s.ring.Sound maxPacketSize H T queue
  socket : SocketSound s.ring.producer s.running s.socket
  book : BookSound headFirst s.ring s.socket s.ringDropped s.book
  popped : s.ring.popped = s.processed ++ inHand s.book
  receiver : s.receiver = receiver.receiveAll s.processed
  received : s.packetsReceived = s.ring.offered + inBuffer s.socket

variable {s : FeedHandler k} {headFirst : Bool} {receiver : UdpReceiver}

theorem start_sound (headFirst : Bool) (buf : Vector UInt8 (2 ^ k.val)) (receiver : UdpReceiver) :
    Sound headFirst receiver { ring := { ring := { buf := buf } }, receiver := receiver } where
  ring := ⟨0, 0, [], RingSystem.start_sound maxPacketSize buf⟩
  socket := ⟨rfl, rfl⟩
  book := rfl
  popped := rfl
  receiver := rfl
  received := rfl

/-- While the socket thread runs, the book thread has not seen it stop. -/
theorem BookSound.frame {ring ring' : RingSystem k} {socket : SocketThread} {book : BookThread}
    {ringDropped : Nat} (h : BookSound headFirst ring socket ringDropped book)
    (hs : socket ≠ .stopped)
    (hc : ring'.consumer = ring.consumer) (socket' : SocketThread) :
    BookSound headFirst ring' socket' ringDropped book := by
  cases book with
  | calling => exact hc.trans h
  | popping => exact True.intro
  | processing datagram => exact hc.trans h
  | testing => exact hc.trans h
  | measuring => exact absurd h.2 hs
  | measured cursor => exact absurd h.2.1 hs
  | joining => exact absurd h.1 hs
  | done => exact absurd h.1 hs

theorem Sound.recv (h : s.Sound headFirst receiver) (outcome : Option RecvPacket) :
    (s.recv outcome).Sound headFirst receiver := by
  have hsocket := h.socket
  have hbook := h.book
  have hreceived := h.received
  rw [FeedHandler.recv.eq_def]
  cases hs : s.socket with
  | receiving =>
    have hrun : s.socket ≠ .stopped := by
      rw [hs]
      exact nofun
    rw [hs] at hsocket hreceived
    cases outcome with
    | none =>
      dsimp only
      split
      · exact { h with
          socket := hsocket
          book := hbook.frame hrun rfl _
          received := hreceived }
      · exact h
    | some packet =>
      exact { h with
        socket := hsocket
        book := hbook.frame hrun rfl _
        received := congrArg (· + 1) hreceived }
  | received packet => exact h
  | pushing => exact h
  | leaving => exact h
  | stopped => exact h

theorem Sound.socketStep (h : s.Sound headFirst receiver) :
    s.socketStep.Sound headFirst receiver := by
  have hsocket := h.socket
  have hbook := h.book
  have hreceived := h.received
  obtain ⟨H, T, queue, hring⟩ := h.ring
  rw [FeedHandler.socketStep]
  cases hs : s.socket with
  | receiving => exact h
  | received packet =>
    have hrun : s.socket ≠ .stopped := by
      rw [hs]
      exact nofun
    rw [hs] at hsocket hreceived
    exact { h with
      ring := ⟨H, T, queue, hring.push packet.fits⟩
      socket := hsocket.2
      book := hbook.frame hrun (s.ring.consumer_push _) _
      popped := (s.ring.popped_push _).trans h.popped
      received := hreceived.trans (RingSystem.offered_push hsocket.1 _).symm }
  | pushing =>
    have hrun : s.socket ≠ .stopped := by
      rw [hs]
      exact nofun
    rw [hs] at hsocket hreceived
    obtain ⟨hpopped, hconsumer⟩ := s.ring.produce_other
    obtain ⟨H', queue', hring'⟩ := hring.produce
    have hafter : SocketSound s.ring.produce.producer s.running
        (afterPush s.ring.produce.producer) := by
      cases hp : s.ring.produce.producer with
      | idle => exact ⟨rfl, hsocket⟩
      | loaded r head => exact hsocket
      | copying r head i => exact hsocket
    have hbuffer : inBuffer (afterPush s.ring.produce.producer) = 0 := by
      cases s.ring.produce.producer <;> rfl
    exact { h with
      ring := ⟨H', T, queue', hring'⟩
      socket := hafter
      book := hbook.frame hrun hconsumer _
      popped := hpopped.trans h.popped
      received := by
        rw [hbuffer, s.ring.offered_produce]
        exact hreceived }
  | leaving =>
    have hrun : s.socket ≠ .stopped := by
      rw [hs]
      exact nofun
    rw [hs] at hsocket hreceived
    exact { h with
      socket := ⟨hsocket.1, rfl⟩
      book := hbook.frame hrun rfl _
      received := hreceived }
  | stopped => exact h

theorem Sound.bookStep (h : s.Sound headFirst receiver) :
    (s.bookStep headFirst).Sound headFirst receiver := by
  have hsocket := h.socket
  have hbook := h.book
  have hpopped := h.popped
  obtain ⟨H, T, queue, hring⟩ := h.ring
  rw [FeedHandler.bookStep]
  cases hb : s.book with
  | calling =>
    rw [hb] at hpopped
    exact { h with
      ring := ⟨H, T, queue, hring.pop⟩
      socket := s.ring.producer_pop ▸ hsocket
      book := True.intro
      popped := s.ring.popped_pop.trans hpopped
      received := s.ring.offered_pop.symm ▸ h.received }
  | popping =>
    rw [hb, inHand, List.append_nil] at hpopped
    obtain ⟨T', queue', hring'⟩ := hring.consume
    obtain ⟨hafter, hhand⟩ := afterPop_sound headFirst s.ring s.socket s.ringDropped
    exact { h with
      ring := ⟨H, T', queue', hring'⟩
      socket := (s.ring.producer_consume maxPacketSize).symm ▸ hsocket
      book := hafter
      popped := hpopped ▸ hhand
      received := (s.ring.offered_consume maxPacketSize).symm ▸ h.received }
  | processing datagram =>
    rw [hb] at hpopped hbook
    exact { h with
      book := hbook
      popped := by rw [hpopped, inHand, inHand, List.append_nil]
      receiver := by
        rw [h.receiver, UdpReceiver.receiveAll, UdpReceiver.receiveAll, List.foldl_append]
        rfl }
  | testing =>
    rw [hb] at hpopped hbook
    dsimp only
    by_cases hr : s.running = true
    · rw [if_pos hr]
      exact { h with
        book := hbook
        popped := hpopped }
    · rw [if_neg hr]
      rw [Bool.not_eq_true] at hr
      rw [hr] at hsocket
      exact { h with
        book := ⟨hbook, hsocket.stopped⟩
        popped := hpopped }
  | measuring =>
    rw [hb] at hpopped hbook
    exact { h with
      book := ⟨hbook.1, hbook.2, rfl⟩
      popped := hpopped }
  | measured cursor =>
    rw [hb] at hpopped hbook
    obtain ⟨hidle, hstopped, hcursor⟩ := hbook
    have hused : ((if headFirst then cursor else s.ring.ring.head) -
        if headFirst then s.ring.ring.tail else cursor) = s.ring.ring.head - s.ring.ring.tail := by
      cases headFirst with
      | true => exact congrArg (· - s.ring.ring.tail) hcursor
      | false => exact congrArg (s.ring.ring.head - ·) hcursor
    dsimp only
    rw [hused]
    split
    · next hzero =>
      exact { h with
        book := ⟨hstopped, (UInt64.sub_eq_iff_eq_add.1 hzero).trans (UInt64.zero_add _)⟩
        popped := hpopped }
    · exact { h with
        book := hidle
        popped := hpopped }
  | joining =>
    rw [hb] at hpopped hbook
    dsimp only
    have hreceived := h.received
    rw [hbook.1] at hsocket hreceived ⊢
    exact { h with
      socket := hsocket
      book := ⟨rfl, hbook.2, rfl⟩
      popped := hpopped
      received := hreceived }
  | done => exact h

theorem Sound.step (h : s.Sound headFirst receiver) (a : FeedAction) :
    (s.step headFirst a).Sound headFirst receiver := by
  cases a with
  | recv outcome => exact h.recv outcome
  | socket => exact h.socketStep
  | book => exact h.bookStep

theorem run_sound (headFirst : Bool) (buf : Vector UInt8 (2 ^ k.val)) (receiver : UdpReceiver)
    (schedule : List FeedAction) :
    (run headFirst buf receiver schedule).Sound headFirst receiver :=
  List.foldlRecOn schedule (FeedHandler.step headFirst)
    (motive := Sound headFirst receiver)
    (start_sound headFirst buf receiver) fun _ h a _ => h.step a

/-- A book thread that has left its loop has drained the ring. -/
theorem Sound.drained (h : s.Sound headFirst receiver) (hl : s.Left) :
    s.socket = .stopped ∧ s.ring.popped = s.ring.pushed ∧ s.processed = s.ring.popped := by
  obtain ⟨H, T, queue, hring⟩ := h.ring
  have hbook := h.book
  have hpopped := h.popped
  rcases hl with hb | hb
  · rw [hb] at hbook hpopped
    rw [inHand, List.append_nil] at hpopped
    exact ⟨hbook.1, hring.lossless.drained hbook.2, hpopped.symm⟩
  · rw [hb] at hbook hpopped
    rw [inHand, List.append_nil] at hpopped
    exact ⟨hbook.1, hring.lossless.drained hbook.2.1, hpopped.symm⟩

end FeedHandler

/-- When the book thread has left its loop, the socket thread has stopped, and the records pushed
were popped and processed, each once and in order. -/
theorem shutdown_loses_nothing {k : Fin 64} (headFirst : Bool) (buf : Vector UInt8 (2 ^ k.val))
    (receiver : UdpReceiver) (schedule : List FeedAction)
    (hl : (FeedHandler.run headFirst buf receiver schedule).Left) :
    let s := FeedHandler.run headFirst buf receiver schedule
    s.socket = .stopped ∧ s.running = false ∧ s.ring.producer = .idle ∧
      s.ring.popped = s.ring.pushed ∧ s.processed = s.ring.pushed ∧
      s.receiver = receiver.receiveAll s.ring.pushed := by
  intro s
  have h := FeedHandler.run_sound headFirst buf receiver schedule
  obtain ⟨hstopped, hpopped, hprocessed⟩ := h.drained hl
  have hsocket := h.socket
  rw [hstopped] at hsocket
  exact ⟨hstopped, hsocket.2, hsocket.1, hpopped, hprocessed.trans hpopped,
    (hprocessed.trans hpopped) ▸ h.receiver⟩

/-- The book thread finds the ring empty, and then a record is pushed and the flag cleared. -/
def lastPush : List FeedAction :=
  [.book, .book, .recv (some ⟨⟨1, fun _ => 7⟩, by decide, by decide⟩)] ++
    List.replicate 8 .socket ++ [.recv none, .socket] ++ List.replicate 20 .book

theorem lastPush_processed :
    let s := FeedHandler.run (k := 3) true (Vector.replicate 8 0) {} lastPush
    s.socket = .stopped ∧ s.running = false ∧ s.ring.producer = .idle ∧
      s.ring.popped = s.ring.pushed ∧ s.processed = s.ring.pushed ∧
      s.receiver = UdpReceiver.receiveAll {} s.ring.pushed := by
  apply shutdown_loses_nothing
  decide +kernel

example : (FeedHandler.run (k := 3) true (Vector.replicate 8 0) {} lastPush).processed = [[7]] := by
  decide +kernel

/-- After the join, every packet received is one that was processed or counted as dropped. -/
theorem packets_accounted {k : Fin 64} (headFirst : Bool) (buf : Vector UInt8 (2 ^ k.val))
    (receiver : UdpReceiver) (schedule : List FeedAction)
    (hd : (FeedHandler.run headFirst buf receiver schedule).book = .done) :
    let s := FeedHandler.run headFirst buf receiver schedule
    s.packetsReceived = s.processed.length + s.ringDropped := by
  intro s
  have h := FeedHandler.run_sound headFirst buf receiver schedule
  obtain ⟨hstopped, hidle, hpushed⟩ := h.drained (Or.inr hd)
  have hbook := h.book
  have hsocket := h.socket
  have hreceived := h.received
  rw [hd] at hbook
  rw [hstopped] at hsocket hreceived
  rw [RingSystem.offered, hsocket.1, ← hbook.2.2, ← hidle, ← hpushed] at hreceived
  exact hreceived

end Tickpipe
