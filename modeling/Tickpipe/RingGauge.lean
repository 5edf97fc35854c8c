import Tickpipe.ShutdownLiveness
import Tickpipe.FeedDelivery
import Tickpipe.Lib.Gauge

set_option autoImplicit true

namespace Tickpipe

namespace RingSystem
open SpscRing

variable {k : Fin 64} {s : RingSystem k} {outCap : UInt32}

def mark (s : RingSystem k) : Nat := s.ring.highWater.toNat

/-- The gauge is a record behind at most, and not behind while a record is copied; it leaves room
for a record of one byte. -/
structure Gauged (outCap : UInt32) (s : RingSystem k) : Prop where
  copying : ∀ r head i, s.producer = .copying r head i → s.used ≤ s.mark
  behind : s.used ≤ s.mark + (4 + outCap.toNat)
  room : s.mark = 0 ∨ s.mark + 5 ≤ 2 ^ k.val

/-- A step leaves the gauge or sets it to the bytes in use. -/
structure GaugeStep (outCap : UInt32) (s s' : RingSystem k) : Prop where
  moves : s'.mark = s.mark ∨ s.mark ≤ s.used ∧ s'.mark = s.used
  gauged : s'.Gauged outCap

theorem start_used (buf : Vector UInt8 (2 ^ k.val)) :
    used { ring := { buf := buf } : RingSystem k } = 0 :=
  used_eq_zero_iff.2 (UInt64.sub_self 0)

theorem start_gauged (outCap : UInt32) (buf : Vector UInt8 (2 ^ k.val)) :
    Gauged outCap { ring := { buf := buf } : RingSystem k } where
  copying r head i hp := by cases hp
  behind := (Nat.le_of_eq (start_used buf)).trans (Nat.zero_le _)
  room := .inl rfl

theorem Gauged.refl (h : s.Gauged outCap) : GaugeStep outCap s s := ⟨.inl rfl, h⟩

/-- The consumer takes bytes out and leaves the gauge alone. -/
theorem Gauged.drain {s' : RingSystem k} (h : s.Gauged outCap)
    (hproducer : s'.producer = s.producer) (hmark : s'.ring.highWater = s.ring.highWater)
    (hused : s'.used ≤ s.used) : GaugeStep outCap s s' := by
  have hsame : s'.mark = s.mark := congrArg UInt64.toNat hmark
  refine ⟨.inl hsame, ?_, ?_, ?_⟩
  · intro r head i hp
    rw [hsame]
    exact hused.trans (h.copying r head i (hproducer.symm.trans hp))
  · rw [hsame]
    exact hused.trans h.behind
  · rw [hsame]
    exact h.room

theorem Gauged.push (h : s.Gauged outCap) (r : Record) : GaugeStep outCap s (s.push r) := by
  rw [RingSystem.push]
  cases hp : s.producer with
  | idle => exact ⟨.inl rfl, fun r head i hp => (by cases hp), h.behind, h.room⟩
  | loaded r' head => exact h.refl
  | copying r' head i => exact h.refl

theorem Gauged.pop (h : s.Gauged outCap) : GaugeStep outCap s s.pop := by
  rw [RingSystem.pop]
  cases s.consumer with
  | idle => exact h.drain rfl rfl (Nat.le_refl _)
  | loaded tail => exact h.refl
  | readingLen tail head out => exact h.refl
  | readingData tail len out => exact h.refl

theorem toNat_max (x y : UInt64) : (max x y).toNat = max x.toNat y.toNat := by
  rw [show max x y = if x ≤ y then y else x from rfl]
  split
  · next hle => exact (Nat.max_eq_right (UInt64.le_iff_toNat_le.1 hle)).symm
  · next hlt =>
    have hle := UInt64.le_iff_toNat_le.1 (UInt64.le_of_lt (UInt64.not_le.1 hlt))
    exact (Nat.max_eq_left hle).symm

/-- A push that finds room sets the gauge to what it finds in use, if that is more. -/
theorem Sound.gauge_accept (hs : s.Sound outCap H T queue) (h : s.Gauged outCap)
    (hr : r.Fits outCap) (hroom : H + (4 + r.len.toNat) ≤ T + 2 ^ k.val) :
    GaugeStep outCap s { s with
      ring := { s.ring with highWater := max s.ring.highWater (s.ring.head - s.ring.tail) }
      producer := .copying r s.ring.head 0 } := by
  have hmax := toNat_max s.ring.highWater (s.ring.head - s.ring.tail)
  have hused : s.used = H - T := hs.used_toNat
  have hspan := hs.span
  have hpos := hr.pos
  have hkept := h.room
  refine ⟨?_, ?_, ?_, ?_⟩
  · rw [mark, mark, hmax]
    rcases Nat.le_total s.used s.mark with hle | hle
    · exact .inl (Nat.max_eq_left hle)
    · exact .inr ⟨hle, Nat.max_eq_right hle⟩
  · intro r head i _
    rw [mark, hmax]
    exact Nat.le_max_right _ _
  · rw [mark, hmax]
    exact (Nat.le_max_right _ _).trans (Nat.le_add_right _ _)
  · rw [mark, hmax]
    change max s.mark s.used = 0 ∨ max s.mark s.used + 5 ≤ 2 ^ k.val
    omega

/-- A published record is above the gauge until the next push. -/
theorem Sound.gauge_publish {head : UInt64} (hs : s.Sound outCap H T queue) (h : s.Gauged outCap)
    (hp : s.producer = .copying r head i) (hr : r.Fits outCap) (hge : ¬ i < 4 + r.len.toNat) :
    Gauged outCap { s with
      ring := { s.ring with head := head + need r.len }
      producer := .idle
      pushed := s.pushed ++ [r.bytes] } := by
  have hbelow := h.copying r head i hp
  have hused : s.used = H - T := hs.used_toNat
  have hnext := (hs.publish hp hge).used_toNat
  have hspan := hs.span
  have hcap := UInt32.le_iff_toNat_le.1 hr.cap
  refine ⟨fun r head i hp => (by cases hp), ?_, h.room⟩
  rw [used, hnext]
  change H + (4 + r.len.toNat) - T ≤ s.mark + (4 + outCap.toNat)
  omega

theorem Sound.gauge_produce (hs : s.Sound outCap H T queue) (h : s.Gauged outCap) :
    GaugeStep outCap s s.produce := by
  have hproducer := hs.producer
  rw [RingSystem.produce]
  cases hp : s.producer with
  | idle => exact h.refl
  | loaded r head =>
    rw [hp] at hproducer
    obtain ⟨rfl, hr⟩ := hproducer
    dsimp only
    split
    · exact ⟨.inl rfl, fun r head i hp => (by cases hp), h.behind, h.room⟩
    · next hfull => exact hs.gauge_accept h hr (Nat.not_lt.1 (mt (hs.room_iff hr).2 hfull))
  | copying r head i =>
    rw [hp] at hproducer
    dsimp only
    split
    · exact ⟨.inl rfl, fun _ _ _ _ => h.copying r head i hp, h.behind, h.room⟩
    · next hge => exact ⟨.inl rfl, hs.gauge_publish h hp hproducer.2.1 hge⟩

theorem Sound.consume_used_le (hs : s.Sound outCap H T queue) :
    (s.consume outCap).used ≤ s.used ∧ (s.consume outCap).ring.highWater = s.ring.highWater := by
  rw [RingSystem.consume]
  cases hc : s.consumer with
  | idle => exact ⟨Nat.le_refl _, rfl⟩
  | loaded tail =>
    dsimp only
    split
    · exact ⟨Nat.le_refl _, rfl⟩
    · exact ⟨Nat.le_refl _, rfl⟩
  | readingLen tail head out =>
    dsimp only
    split
    · exact ⟨Nat.le_refl _, rfl⟩
    · next hge =>
      rw [if_neg (hs.length_served hc hge)]
      exact ⟨Nat.le_refl _, rfl⟩
  | readingData tail len out =>
    dsimp only
    split
    · exact ⟨Nat.le_refl _, rfl⟩
    · exact ⟨(Nat.le_of_eq (hs.used_release hc)).trans (Nat.sub_le _ _), rfl⟩

theorem Sound.gauge_consume (hs : s.Sound outCap H T queue) (h : s.Gauged outCap) :
    GaugeStep outCap s (s.consume outCap) :=
  h.drain (s.producer_consume outCap) hs.consume_used_le.2 hs.consume_used_le.1

end RingSystem

namespace FeedHandler

variable {k : Fin 64} {s : FeedHandler k} {headFirst : Bool} {receiver : UdpReceiver}

/-- What the source reports after the join is what the ring shows. -/
def Reported (s : FeedHandler k) : Prop :=
  s.book = .done → s.socket = .stopped ∧ s.ringHighWater = s.ring.ring.highWater

theorem afterPop_ne_done (returned : List Datagram) (c : Consumer) :
    afterPop returned c ≠ .done := by
  cases c with
  | idle =>
    cases returned with
    | nil => exact fun h => by cases h
    | cons datagram returned => exact fun h => by cases h
  | loaded tail => exact fun h => by cases h
  | readingLen tail head out => exact fun h => by cases h
  | readingData tail len out => exact fun h => by cases h

theorem retry_ne_done {p : Prop} [Decidable p] {book : BookThread} (h : book ≠ .done) :
    (if p then book else .calling) ≠ .done := by
  split
  · exact h
  · exact fun h => by cases h

/-- The invariant under which the two threads keep the gauge. -/
structure Marked (headFirst : Bool) (receiver : UdpReceiver) (s : FeedHandler k) : Prop where
  sound : s.Sound headFirst receiver
  gauged : s.ring.Gauged maxPacketSize
  reported : s.Reported

theorem Marked.socketStep (h : s.Marked headFirst receiver) :
    RingSystem.GaugeStep maxPacketSize s.ring s.socketStep.ring ∧ s.socketStep.Reported := by
  obtain ⟨H, T, queue, hring⟩ := h.sound.ring
  have hreported := h.reported
  rw [FeedHandler.socketStep]
  cases hs : s.socket with
  | receiving => exact ⟨h.gauged.refl, hreported⟩
  | received packet =>
    refine ⟨h.gauged.push packet.toRecord, fun hdone => ?_⟩
    have hstopped := (hreported hdone).1
    rw [hs] at hstopped
    cases hstopped
  | pushing =>
    refine ⟨hring.gauge_produce h.gauged, fun hdone => ?_⟩
    have hstopped := (hreported hdone).1
    rw [hs] at hstopped
    cases hstopped
  | leaving => exact ⟨h.gauged.refl, fun hdone => ⟨rfl, (hreported hdone).2⟩⟩
  | stopped => exact ⟨h.gauged.refl, hreported⟩

theorem Marked.recv (h : s.Marked headFirst receiver) (outcome : Option RecvPacket) :
    (s.recv outcome).ring = s.ring ∧ (s.recv outcome).Reported := by
  have hreported := h.reported
  by_cases hs : s.socket = .receiving
  · rw [FeedHandler.recv.eq_def, hs]
    have hrun (hdone : s.book = .done) : SocketThread.receiving = .stopped :=
      hs.symm.trans (hreported hdone).1
    cases outcome with
    | none =>
      dsimp only
      split
      · exact ⟨rfl, fun hdone => by cases hrun hdone⟩
      · exact ⟨rfl, hreported⟩
    | some packet => exact ⟨rfl, fun hdone => by cases hrun hdone⟩
  · rw [(recv_busy hs outcome).1]
    exact ⟨rfl, hreported⟩

theorem Marked.bookStep (h : s.Marked headFirst receiver) :
    RingSystem.GaugeStep maxPacketSize s.ring (s.bookStep headFirst).ring ∧
      (s.bookStep headFirst).Reported := by
  obtain ⟨H, T, queue, hring⟩ := h.sound.ring
  rw [FeedHandler.bookStep]
  cases hb : s.book with
  | calling => exact ⟨h.gauged.pop, fun hdone => by cases hdone⟩
  | popping =>
    refine ⟨hring.gauge_consume h.gauged, fun hdone => ?_⟩
    exact absurd hdone (afterPop_ne_done _ _)
  | processing datagram => exact ⟨h.gauged.refl, fun hdone => by cases hdone⟩
  | testing =>
    refine ⟨h.gauged.refl, fun hdone => ?_⟩
    dsimp only at hdone
    split at hdone
    · cases hdone
    · cases hdone
  | measuring => exact ⟨h.gauged.refl, fun hdone => by cases hdone⟩
  | measured cursor =>
    refine ⟨h.gauged.refl, fun hdone => absurd hdone ?_⟩
    exact retry_ne_done fun hjoin => by cases hjoin
  | joining =>
    have hbook := h.sound.book
    rw [hb] at hbook
    dsimp only
    rw [hbook.1]
    exact ⟨h.gauged.refl, fun _ => ⟨rfl, rfl⟩⟩
  | done => exact ⟨h.gauged.refl, h.reported⟩

theorem Marked.step (h : s.Marked headFirst receiver) (a : FeedAction) :
    RingSystem.GaugeStep maxPacketSize s.ring (s.step headFirst a).ring ∧
      (s.step headFirst a).Marked headFirst receiver := by
  have hsound := h.sound.step a
  cases a with
  | recv outcome =>
    obtain ⟨hsame, hreported⟩ := h.recv outcome
    have hgauge : RingSystem.GaugeStep maxPacketSize s.ring (s.recv outcome).ring := by
      rw [hsame]
      exact h.gauged.refl
    exact ⟨hgauge, hsound, hgauge.gauged, hreported⟩
  | socket =>
    obtain ⟨hgauge, hreported⟩ := h.socketStep
    exact ⟨hgauge, hsound, hgauge.gauged, hreported⟩
  | book =>
    obtain ⟨hgauge, hreported⟩ := h.bookStep
    exact ⟨hgauge, hsound, hgauge.gauged, hreported⟩

theorem start_marked (headFirst : Bool) (buf : Vector UInt8 (2 ^ k.val)) (receiver : UdpReceiver) :
    (start buf receiver).Marked headFirst receiver where
  sound := start_sound headFirst buf receiver
  gauged := RingSystem.start_gauged maxPacketSize buf
  reported hdone := by cases hdone

/-- The ring's high-water mark is a gauge of the bytes in use. -/
theorem marked_gauge (k : Fin 64) (headFirst : Bool) (receiver : UdpReceiver) :
    Gauge (step headFirst) (Marked (k := k) headFirst receiver) (fun s => s.ring.used)
      (fun s => s.ring.mark) where
  keeps h := (h.step _).2
  moves h := (h.step _).1.moves

end FeedHandler

/-- The high-water mark that the receiver reports after the join: at some moment of the run exactly
so many bytes were in the ring, at none were there more by a record or over, and it leaves room
for a record in the ring. -/
theorem high_water_tells {k : Fin 64} (headFirst : Bool) (buf : Vector UInt8 (2 ^ k.val))
    (receiver : UdpReceiver) (schedule : List FeedAction)
    (hd : (FeedHandler.run headFirst buf receiver schedule).book = .done) :
    let mark := (FeedHandler.run headFirst buf receiver schedule).ringHighWater.toNat
    (∃ n, (FeedHandler.run headFirst buf receiver (schedule.take n)).ring.used = mark) ∧
      (∀ n, (FeedHandler.run headFirst buf receiver (schedule.take n)).ring.used ≤
        mark + (4 + maxPacketSize.toNat)) ∧
      (mark = 0 ∨ mark + 5 ≤ 2 ^ k.val) := by
  have hstart := FeedHandler.start_marked headFirst buf receiver
  have hgauge := FeedHandler.marked_gauge k headFirst receiver
  have hend := hgauge.run_keeps hstart schedule
  have hmark : (FeedHandler.run headFirst buf receiver schedule).ringHighWater.toNat =
      (FeedHandler.run headFirst buf receiver schedule).ring.mark :=
    congrArg UInt64.toNat (hend.reported hd).2
  obtain ⟨hattained, hbehind⟩ := hgauge.run_tells hstart (RingSystem.start_used buf).symm
    (fun s hs => hs.gauged.behind) schedule
  intro mark
  have hsame : mark = (FeedHandler.run headFirst buf receiver schedule).ring.mark := hmark
  rw [hsame]
  exact ⟨hattained, hbehind, hend.gauged.room⟩

theorem fullRing_high_water :
    let s := FeedHandler.run (k := 5) true (Vector.replicate 32 0) {} fullRing
    let mark := s.ringHighWater.toNat
    (∃ n, (FeedHandler.run (k := 5) true (Vector.replicate 32 0) {}
      (fullRing.take n)).ring.used = mark) ∧
      (∀ n, (FeedHandler.run (k := 5) true (Vector.replicate 32 0) {}
        (fullRing.take n)).ring.used ≤ mark + (4 + maxPacketSize.toNat)) ∧
      (mark = 0 ∨ mark + 5 ≤ 32) :=
  high_water_tells true _ {} fullRing (by decide +kernel)

/-- Two records are in the ring, and the mark shows the first alone. -/
example :
    let s := FeedHandler.run (k := 6) true (Vector.replicate 64 0) {}
      ([reaches ((onWire threeDatagrams).getD 0 [])] ++ List.replicate 40 .socket ++
        [reaches ((onWire threeDatagrams).getD 1 [])] ++ List.replicate 40 .socket)
    s.ring.used = 59 ∧ s.ring.mark = 27 := by
  decide +kernel

end Tickpipe
