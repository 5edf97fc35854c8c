import Tickpipe.SpscRing
import Tickpipe.Lib.Circular

set_option autoImplicit true

namespace Tickpipe
open Circular

namespace SpscRing

theorem capacity_toNat (k : Fin 64) : (capacity k).toNat = 2 ^ k.val := by
  have hk : (UInt64.ofNat k.val).toNat % 64 = k.val := by
    rw [UInt64.toNat_ofNat']
    omega
  have hlt : 2 ^ k.val < 2 ^ 64 := Nat.pow_lt_pow_right (by decide) k.isLt
  rw [capacity, UInt64.toNat_shiftLeft, hk, UInt64.toNat_one, Nat.one_shiftLeft,
    Nat.mod_eq_of_lt hlt]

theorem and_mask_toNat (k : Fin 64) (P : Nat) :
    (UInt64.ofNat P &&& mask k).toNat = P % 2 ^ k.val := by
  have hle : (1 : UInt64) ≤ capacity k := by
    rw [UInt64.le_iff_toNat_le, capacity_toNat]
    exact Nat.one_le_two_pow
  have hdvd : 2 ^ k.val ∣ 2 ^ 64 := Nat.pow_dvd_pow 2 (Nat.le_of_lt k.isLt)
  rw [UInt64.toNat_and, mask, UInt64.toNat_sub_of_le _ _ hle, capacity_toNat, UInt64.toNat_one,
    Nat.and_two_pow_sub_one_eq_mod, UInt64.toNat_ofNat', Nat.mod_mod_of_dvd _ hdvd]

/-- Byte `i` of a copy lands `i` cells behind the cursor, wrapping round. -/
theorem offset_eq (k : Fin 64) (P : Nat) (n : UInt32) (hi : i < n.toNat)
    (hn : n.toNat ≤ 2 ^ k.val) : offset k (UInt64.ofNat P) n i = (P + i) % 2 ^ k.val := by
  have ho := and_mask_toNat k P
  have hlt : P % 2 ^ k.val < 2 ^ k.val := Nat.mod_lt _ (Nat.two_pow_pos _)
  have hpow : 2 ^ k.val ≤ 2 ^ 63 := Nat.pow_le_pow_right (by decide) (by omega)
  have hn64 : n.toUInt64.toNat = n.toNat := UInt32.toNat_toUInt64 n
  have hsum : ((UInt64.ofNat P &&& mask k) + n.toUInt64).toNat = P % 2 ^ k.val + n.toNat := by
    rw [UInt64.toNat_add, ho, hn64]
    have := n.toNat_lt
    omega
  rw [← Nat.mod_add_mod, offset]
  by_cases hfit : (UInt64.ofNat P &&& mask k) + n.toUInt64 ≤ capacity k
  · have hle := UInt64.le_iff_toNat_le.1 hfit
    rw [hsum, capacity_toNat] at hle
    have hin : P % 2 ^ k.val + i < 2 ^ k.val := by omega
    rw [if_pos hfit, hn64, if_pos hi, ho, Nat.mod_eq_of_lt hin]
  · have hle := mt UInt64.le_iff_toNat_le.2 hfit
    rw [hsum, capacity_toNat] at hle
    have hfirst : (capacity k - (UInt64.ofNat P &&& mask k)).toNat =
        2 ^ k.val - P % 2 ^ k.val := by
      rw [UInt64.toNat_sub_of_le, capacity_toNat, ho]
      rw [UInt64.le_iff_toNat_le, capacity_toNat, ho]
      omega
    rw [if_neg hfit, hfirst, ho]
    by_cases hw : i < 2 ^ k.val - P % 2 ^ k.val
    · have hin : P % 2 ^ k.val + i < 2 ^ k.val := by omega
      rw [if_pos hw, Nat.mod_eq_of_lt hin]
    · -- past the end of the buffer the copy goes on at its start
      have hpast : 2 ^ k.val ≤ P % 2 ^ k.val + i := by omega
      have hin : P % 2 ^ k.val + i - 2 ^ k.val < 2 ^ k.val := by omega
      rw [if_neg hw, Nat.mod_eq_sub_mod hpast, Nat.mod_eq_of_lt hin]
      omega

theorem add_ofNat (P n : Nat) : UInt64.ofNat P + UInt64.ofNat n = UInt64.ofNat (P + n) :=
  (UInt64.ofNat_add P n).symm

/-- A length that leaves room for its prefix in 32 bits. -/
theorem need_eq {len : UInt32} (h : len.toNat < 2 ^ 32 - 4) :
    need len = UInt64.ofNat (4 + len.toNat) := by
  apply UInt64.toNat_inj.1
  have hsum : (4 + len).toNat = 4 + len.toNat := by
    rw [UInt32.toNat_add]
    have : (4 : UInt32).toNat = 4 := rfl
    omega
  rw [need, UInt32.toNat_toUInt64, hsum, UInt64.toNat_ofNat']
  omega

theorem store_load (s : SpscRing k) (ha : a < 2 ^ k.val) (b : UInt8) :
    (s.store a b).load = Function.update s.load a b := by
  funext i
  rw [load, store, Vector.getElem?_setIfInBounds]
  by_cases hi : a = i
  · subst hi
    rw [if_pos rfl, if_pos ha, Option.getD_some, Function.update_self]
  · rw [if_neg hi, Function.update_of_ne (fun h => hi h.symm), load]

end SpscRing

/-- A record as it stands in the ring: the length in four bytes, then the payload. -/
def frame (b : List UInt8) : List UInt8 := Bytes.leBytes 4 b.length ++ b

@[simp] theorem length_frame (b : List UInt8) : (frame b).length = 4 + b.length := by
  rw [frame, List.length_append, Bytes.length_leBytes]

@[simp] theorem Record.length_bytes (r : Record) : r.bytes.length = r.len.toNat := by
  rw [bytes, List.length_map, List.length_range]

theorem Record.getElem?_bytes (r : Record) (h : i < r.len.toNat) :
    r.bytes[i]? = some (r.data i) := by
  rw [bytes, List.getElem?_map, List.getElem?_range h, Option.map_some]

theorem getElem?_frame (r : Record) (h : i < 4 + r.len.toNat) :
    (frame r.bytes)[i]? = some (SpscRing.recordByte r i) := by
  rw [SpscRing.recordByte, frame, List.getElem?_append, Bytes.length_leBytes]
  by_cases hi : i < 4
  · rw [if_pos hi, if_pos hi, Bytes.getElem?_leBytes _ _ _ hi, r.length_bytes]
  · rw [if_neg hi, if_neg hi, r.getElem?_bytes (by omega)]

theorem take_frame_succ (r : Record) (h : i < 4 + r.len.toNat) :
    (frame r.bytes).take (i + 1) = (frame r.bytes).take i ++ [SpscRing.recordByte r i] := by
  rw [List.take_add_one, getElem?_frame r h, Option.toList_some]

/-- A length the ring can carry and the consumer takes. -/
structure Record.Fits (outCap : UInt32) (r : Record) : Prop where
  pos : 0 < r.len.toNat
  cap : r.len ≤ outCap
  room : r.len.toNat < 2 ^ 32 - 4

namespace RingSystem
open SpscRing

/-- What the producer has copied stands behind the head, and the rest has room there. -/
def ProducerSound (outCap : UInt32) (ring : SpscRing k) (H T : Nat) : Producer → Prop
  | .idle => True
  | .loaded r head => head = ring.head ∧ r.Fits outCap
  | .copying r head i => head = ring.head ∧ r.Fits outCap ∧
      i ≤ 4 + r.len.toNat ∧ H + (4 + r.len.toNat) ≤ T + 2 ^ k.val ∧
      Stores ring.load (2 ^ k.val) H ((frame r.bytes).take i)

/-- What the consumer has read is the beginning of the oldest record. -/
def ConsumerSound (ring : SpscRing k) (queue : List (List UInt8)) : Consumer → Prop
  | .idle => True
  | .loaded tail => tail = ring.tail
  | .readingLen tail _ out => tail = ring.tail ∧
      ∃ b rest, queue = b :: rest ∧ out <+: Bytes.leBytes 4 b.length
  | .readingData tail len out => tail = ring.tail ∧
      ∃ b rest, queue = b :: rest ∧ len.toNat = b.length ∧ out <+: b

/-- The ring between the cursors holds the queue of records pushed and not yet popped. -/
structure Sound (outCap : UInt32) (s : RingSystem k) (H T : Nat) (queue : List (List UInt8)) :
    Prop where
  head : s.ring.head = UInt64.ofNat H
  tail : s.ring.tail = UInt64.ofNat T
  pushed : s.pushed = s.popped ++ queue
  stored : Stores s.ring.load (2 ^ k.val) T (queue.flatMap frame)
  span : T + (queue.flatMap frame).length = H
  fits : H ≤ T + 2 ^ k.val
  sized : ∀ b ∈ queue, 0 < b.length ∧ b.length ≤ outCap.toNat
  bailed : s.bailed = false
  producer : ProducerSound outCap s.ring H T s.producer
  consumer : ConsumerSound s.ring queue s.consumer

theorem start_sound (outCap : UInt32) (buf : Vector UInt8 (2 ^ k.val)) :
    Sound outCap { ring := { buf := buf } : RingSystem k } 0 0 [] where
  head := rfl
  tail := rfl
  pushed := rfl
  stored := Stores.nil _ _ _
  span := rfl
  fits := Nat.zero_le _
  sized := nofun
  bailed := rfl
  producer := True.intro
  consumer := True.intro

variable {k : Fin 64} {s : RingSystem k} {outCap : UInt32} {r : Record}

theorem Sound.push (h : s.Sound outCap H T queue) (hr : r.Fits outCap) :
    (s.push r).Sound outCap H T queue := by
  rw [RingSystem.push]
  cases hp : s.producer with
  | idle => exact { h with producer := ⟨rfl, hr⟩ }
  | loaded r' head => exact h
  | copying r' head i => exact h

theorem Sound.pop (h : s.Sound outCap H T queue) : s.pop.Sound outCap H T queue := by
  rw [RingSystem.pop]
  cases hc : s.consumer with
  | idle => exact { h with consumer := rfl }
  | loaded tail => exact h
  | readingLen tail head out => exact h
  | readingData tail len out => exact h

theorem recordOffset_eq (r : Record) (hi : i < 4 + r.len.toNat)
    (hroom : 4 + r.len.toNat ≤ 2 ^ k.val) :
    recordOffset k (UInt64.ofNat H) r i = (H + i) % 2 ^ k.val := by
  rw [recordOffset]
  by_cases h4 : i < 4
  · rw [if_pos h4]
    exact offset_eq k H 4 h4 (by have : (4 : UInt32).toNat = 4 := rfl; omega)
  · have hadd : UInt64.ofNat H + 4 = UInt64.ofNat (H + 4) := add_ofNat H 4
    rw [if_neg h4, hadd, offset_eq k (H + 4) r.len (by omega) (by omega)]
    congr 1
    omega

theorem Sound.used_toNat (h : s.Sound outCap H T queue) :
    (s.ring.head - s.ring.tail).toNat = H - T := by
  have hpow : 2 ^ k.val ≤ 2 ^ 63 := Nat.pow_le_pow_right (by decide) (by omega)
  have hspan := h.span
  have hfits := h.fits
  rw [h.head, h.tail, ← UInt64.ofNat_sub (by omega), UInt64.toNat_ofNat']
  omega

theorem Sound.room_iff (h : s.Sound outCap H T queue) (hr : r.Fits outCap) :
    s.ring.head - s.ring.tail + need r.len > capacity k ↔
      T + 2 ^ k.val < H + (4 + r.len.toNat) := by
  have hpow : 2 ^ k.val ≤ 2 ^ 63 := Nat.pow_le_pow_right (by decide) (by omega)
  have hspan := h.span
  have hfits := h.fits
  have hroom := hr.room
  rw [gt_iff_lt, UInt64.lt_iff_toNat_lt, capacity_toNat, UInt64.toNat_add, h.used_toNat,
    need_eq hroom, UInt64.toNat_ofNat']
  omega

theorem ConsumerSound.append {x x' : SpscRing k} (h : ConsumerSound x queue c)
    (ht : x'.tail = x.tail) (more : List (List UInt8)) : ConsumerSound x' (queue ++ more) c := by
  cases c with
  | idle => exact True.intro
  | loaded tail => exact (show tail = x.tail from h).trans ht.symm
  | readingLen tail head out =>
    obtain ⟨htail, b, rest, rfl, hout⟩ := h
    exact ⟨htail.trans ht.symm, b, rest ++ more, rfl, hout⟩
  | readingData tail len out =>
    obtain ⟨htail, b, rest, rfl, hlen, hout⟩ := h
    exact ⟨htail.trans ht.symm, b, rest ++ more, rfl, hlen, hout⟩

/-- A byte stored behind the head lengthens what the producer has copied. -/
theorem Sound.copyByte {head : UInt64} (h : s.Sound outCap H T queue)
    (hp : s.producer = .copying r head i) (hlt : i < 4 + r.len.toNat) :
    Sound outCap { s with
      ring := s.ring.store (recordOffset k head r i) (recordByte r i)
      producer := .copying r head (i + 1) } H T queue := by
  have hprod := h.producer
  have hspan := h.span
  rw [hp] at hprod
  obtain ⟨rfl, hr, hi, hroom, hst⟩ := hprod
  have hoff := recordOffset_eq (k := k) (H := H) r hlt (by omega)
  rw [← h.head] at hoff
  have hcell : recordOffset k s.ring.head r i < 2 ^ k.val := by
    rw [hoff]
    exact Nat.mod_lt _ (Nat.two_pow_pos _)
  have hload := store_load s.ring hcell (recordByte r i)
  rw [hoff] at hload ⊢
  refine { h with stored := ?_, producer := ⟨rfl, hr, hlt, hroom, ?_⟩ }
  · rw [hload]
    exact h.stored.update (by omega) (by omega) _
  · have hlen : ((frame r.bytes).take i).length = i := by
      rw [List.length_take, length_frame, r.length_bytes, Nat.min_eq_left hi]
    rw [hload, take_frame_succ r hlt, stores_append_iff, stores_singleton_iff, hlen]
    exact ⟨hst.update (by omega) (by omega) _, Function.update_self _ _ _⟩

theorem Sound.publish {head : UInt64} (h : s.Sound outCap H T queue)
    (hp : s.producer = .copying r head i) (hge : ¬ i < 4 + r.len.toNat) :
    Sound outCap { s with
      ring := { s.ring with head := head + need r.len }
      producer := .idle
      pushed := s.pushed ++ [r.bytes] } (H + (4 + r.len.toNat)) T (queue ++ [r.bytes]) := by
  have hprod := h.producer
  have hspan := h.span
  rw [hp] at hprod
  obtain ⟨rfl, hr, hi, hroom, hst⟩ := hprod
  have hall : (frame r.bytes).take i = frame r.bytes := by
    apply List.take_of_length_le
    rw [length_frame, r.length_bytes]
    exact Nat.le_of_not_lt hge
  rw [hall] at hst
  have hflat : (queue ++ [r.bytes]).flatMap frame = queue.flatMap frame ++ frame r.bytes := by
    rw [List.flatMap_append, List.flatMap_singleton]
  refine ⟨?_, h.tail, ?_, ?_, ?_, hroom, ?_, h.bailed, True.intro,
    ConsumerSound.append h.consumer rfl _⟩
  · rw [h.head, need_eq hr.room, add_ofNat]
  · rw [h.pushed, List.append_assoc]
  · rw [hflat, stores_append_iff, hspan]
    exact ⟨h.stored, hst⟩
  · rw [hflat, List.length_append, length_frame, r.length_bytes]
    omega
  · intro b hb
    rcases List.mem_append.1 hb with hb | hb
    · exact h.sized b hb
    · rw [List.mem_singleton.1 hb, r.length_bytes]
      exact ⟨hr.pos, UInt32.le_iff_toNat_le.1 hr.cap⟩

theorem Sound.produce (h : s.Sound outCap H T queue) :
    ∃ H' queue', s.produce.Sound outCap H' T queue' := by
  rw [RingSystem.produce]
  cases hp : s.producer with
  | idle => exact ⟨H, queue, h⟩
  | loaded r head =>
    have hprod := h.producer
    rw [hp] at hprod
    obtain ⟨rfl, hr⟩ := hprod
    have hroom := h.room_iff hr
    dsimp only
    split
    · exact ⟨H, queue, { h with producer := True.intro }⟩
    · next hfull =>
      have hle := Nat.not_lt.1 (mt hroom.2 hfull)
      exact ⟨H, queue, { h with
        producer := ⟨rfl, hr, Nat.zero_le _, hle, Stores.nil _ _ _⟩ }⟩
  | copying r head i =>
    dsimp only
    split
    · next hlt => exact ⟨H, queue, h.copyByte hp hlt⟩
    · next hge => exact ⟨H + (4 + r.len.toNat), queue ++ [r.bytes], h.publish hp hge⟩

theorem ProducerSound.mono {x x' : SpscRing k} (h : ProducerSound outCap x H T p)
    (hh : x'.head = x.head) (hb : x'.load = x.load) (hT : T ≤ T') :
    ProducerSound outCap x' H T' p := by
  cases p with
  | idle => exact True.intro
  | loaded r head => exact ⟨h.1.trans hh.symm, h.2⟩
  | copying r head i =>
    obtain ⟨hhead, hr, hi, hroom, hst⟩ := h
    exact ⟨hhead.trans hh.symm, hr, hi, by omega, hb ▸ hst⟩

theorem prefix_snoc {l : List β} (h : out <+: l) (hb : l[out.length]? = some b) :
    out ++ [b] <+: l := by
  rw [List.prefix_iff_eq_take, List.length_append, List.length_singleton, List.take_add_one, hb,
    ← List.prefix_iff_eq_take.1 h]
  rfl

theorem prefix_full {l : List β} (h : out <+: l) (hlen : l.length ≤ out.length) : out = l :=
  h.eq_of_length (Nat.le_antisymm h.length_le hlen)

theorem Sound.queue_ne_nil (h : s.Sound outCap H T queue) (hne : s.ring.head ≠ s.ring.tail) :
    ∃ b rest, queue = b :: rest := by
  cases queue with
  | nil =>
    have hspan : T = H := h.span
    exact absurd (by rw [h.head, h.tail, hspan]) hne
  | cons b rest => exact ⟨b, rest, rfl⟩

theorem Sound.oldest (h : s.Sound outCap H T (b :: rest)) :
    0 < b.length ∧ b.length ≤ outCap.toNat ∧ 4 + b.length ≤ 2 ^ k.val ∧
    Stores s.ring.load (2 ^ k.val) T (Bytes.leBytes 4 b.length) ∧
    Stores s.ring.load (2 ^ k.val) (T + 4) b := by
  obtain ⟨hpos, hcap⟩ := h.sized b List.mem_cons_self
  have hspan := h.span
  have hfits := h.fits
  have hst := h.stored
  rw [List.flatMap_cons, List.length_append, length_frame] at hspan
  rw [List.flatMap_cons, stores_append_iff, frame, stores_append_iff, Bytes.length_leBytes] at hst
  exact ⟨hpos, hcap, by omega, hst.1⟩

/-- What the consumer has read of the length is a prefix of it, and one byte more is too. -/
theorem Sound.readLenByte {tail head : UInt64} (h : s.Sound outCap H T queue)
    (hc : s.consumer = .readingLen tail head out) (hlt : out.length < 4) :
    Sound outCap { s with
      consumer := .readingLen tail head
        (out ++ [s.ring.load (offset k tail 4 out.length)]) } H T queue := by
  have hcons := h.consumer
  rw [hc] at hcons
  obtain ⟨rfl, b, rest, rfl, hout⟩ := hcons
  obtain ⟨-, -, hroom, hlen, -⟩ := h.oldest
  have hoff := offset_eq k T 4 hlt (show 4 ≤ 2 ^ k.val by omega)
  have hb := Bytes.getElem?_leBytes 4 b.length out.length hlt
  rw [h.tail, hoff, hlen.load hb]
  exact { h with consumer := ⟨h.tail.symm, b, rest, rfl, prefix_snoc hout hb⟩ }

theorem Sound.length_read {tail head : UInt64} (h : s.Sound outCap H T queue)
    (hc : s.consumer = .readingLen tail head out) (hge : ¬ out.length < 4) :
    tail = s.ring.tail ∧ ∃ b rest, queue = b :: rest ∧
      (UInt32.ofNat (Bytes.ofLe out)).toNat = b.length := by
  have hcons := h.consumer
  rw [hc] at hcons
  obtain ⟨htail, b, rest, rfl, hout⟩ := hcons
  obtain ⟨-, hcap, -, -, -⟩ := h.oldest
  have hfull := prefix_full hout (by rw [Bytes.length_leBytes]; exact Nat.le_of_not_lt hge)
  have hlt := outCap.toNat_lt
  have hdec : Bytes.ofLe out = b.length := by
    rw [hfull]
    exact Bytes.ofLe_leBytes 4 b.length (by omega)
  refine ⟨htail, b, rest, rfl, ?_⟩
  rw [hdec, UInt32.toNat_ofNat']
  omega

theorem Sound.readDataByte {tail : UInt64} (h : s.Sound outCap H T queue)
    (hc : s.consumer = .readingData tail len out) (hlt : out.length < len.toNat) :
    Sound outCap { s with
      consumer := .readingData tail len
        (out ++ [s.ring.load (offset k (tail + 4) len out.length)]) } H T queue := by
  have hcons := h.consumer
  rw [hc] at hcons
  obtain ⟨rfl, b, rest, rfl, hlen, hout⟩ := hcons
  obtain ⟨-, -, hroom, -, hdata⟩ := h.oldest
  have hadd : s.ring.tail + 4 = UInt64.ofNat (T + 4) := by
    rw [h.tail]
    exact add_ofNat T 4
  have hoff := offset_eq k (T + 4) len hlt (by omega)
  have hb : b[out.length]? = some b[out.length] := List.getElem?_eq_getElem (hlen ▸ hlt)
  rw [hadd, hoff, hdata.load hb]
  exact { h with consumer := ⟨rfl, b, rest, rfl, hlen, prefix_snoc hout hb⟩ }

theorem Sound.release {tail : UInt64} (h : s.Sound outCap H T queue)
    (hc : s.consumer = .readingData tail len out) (hge : ¬ out.length < len.toNat) :
    ∃ T' queue', Sound outCap { s with
      ring := { s.ring with tail := tail + 4 + len.toUInt64 }
      consumer := .idle
      popped := s.popped ++ [out] } H T' queue' := by
  have hcons := h.consumer
  rw [hc] at hcons
  obtain ⟨rfl, b, rest, rfl, hlen, hout⟩ := hcons
  have hfull := prefix_full hout (by omega)
  have hspan := h.span
  have hfits := h.fits
  have hst := h.stored
  rw [List.flatMap_cons, List.length_append, length_frame] at hspan
  rw [List.flatMap_cons, stores_append_iff, length_frame] at hst
  refine ⟨T + (4 + b.length), rest, ?_⟩
  refine ⟨h.head, ?_, ?_, hst.2, by omega, by omega, ?_, h.bailed, ?_, True.intro⟩
  · have hadd : s.ring.tail + 4 = UInt64.ofNat (T + 4) := by
      rw [h.tail]
      exact add_ofNat T 4
    have hl : len.toUInt64 = UInt64.ofNat b.length := by
      rw [← hlen, ← UInt32.toNat_toUInt64, UInt64.ofNat_toNat]
    rw [hadd, hl, add_ofNat, Nat.add_assoc]
  · rw [h.pushed, hfull, List.append_assoc]
    rfl
  · exact fun b' hb' => h.sized b' (List.mem_cons_of_mem _ hb')
  · exact ProducerSound.mono h.producer rfl rfl (Nat.le_add_right _ _)

theorem Sound.consume (h : s.Sound outCap H T queue) :
    ∃ T' queue', (s.consume outCap).Sound outCap H T' queue' := by
  rw [RingSystem.consume]
  cases hc : s.consumer with
  | idle => exact ⟨T, queue, h⟩
  | loaded tail =>
    have hcons := h.consumer
    rw [hc] at hcons
    obtain rfl : tail = s.ring.tail := hcons
    dsimp only
    split
    · exact ⟨T, queue, { h with consumer := True.intro }⟩
    · next hne =>
      obtain ⟨b, rest, rfl⟩ := h.queue_ne_nil hne
      exact ⟨T, b :: rest, { h with consumer := ⟨rfl, b, rest, rfl, List.nil_prefix⟩ }⟩
  | readingLen tail head out =>
    dsimp only
    split
    · next hlt => exact ⟨T, queue, h.readLenByte hc hlt⟩
    · next hge =>
      obtain ⟨htail, b, rest, rfl, hnat⟩ := h.length_read hc hge
      obtain ⟨hpos, hcap, -, -, -⟩ := h.oldest
      split
      -- no record that was pushed has a length the consumer refuses
      · next hbad =>
        rcases hbad with hz | hbig
        · rw [hz] at hnat
          exact absurd hnat.symm (Nat.ne_of_gt hpos)
        · rw [gt_iff_lt, UInt32.lt_iff_toNat_lt, hnat] at hbig
          omega
      · exact ⟨T, b :: rest, { h with
          consumer := ⟨htail, b, rest, rfl, hnat, List.nil_prefix⟩ }⟩
  | readingData tail len out =>
    dsimp only
    split
    · next hlt => exact ⟨T, queue, h.readDataByte hc hlt⟩
    · next hge => exact h.release hc hge

theorem run_sound (outCap : UInt32) (buf : Vector UInt8 (2 ^ k.val)) (schedule : List RingAction)
    (hfits : ∀ r, .push r ∈ schedule → r.Fits outCap) :
    ∃ H T queue, (run outCap buf schedule).Sound outCap H T queue := by
  refine List.foldlRecOn schedule (step outCap)
    (motive := fun s : RingSystem k => ∃ H T queue, s.Sound outCap H T queue)
    ⟨0, 0, [], start_sound outCap buf⟩ ?_
  rintro s ⟨H, T, queue, h⟩ action ha
  cases action with
  | push r => exact ⟨H, T, queue, h.push (hfits r ha)⟩
  | produce =>
    obtain ⟨H', queue', h'⟩ := h.produce
    exact ⟨H', T, queue', h'⟩
  | pop => exact ⟨H, T, queue, h.pop⟩
  | consume =>
    obtain ⟨T', queue', h'⟩ := h.consume
    exact ⟨H, T', queue', h'⟩

/-- The ring is a lossless queue: what was popped is what was pushed, in order; the record being
copied stays clear of the records that wait; and nothing but the drop counter tells of a refusal. -/
structure Lossless (s : RingSystem k) : Prop where
  fifo : s.popped <+: s.pushed
  drained : s.ring.head = s.ring.tail → s.popped = s.pushed
  bounded : s.ring.head - s.ring.tail ≤ capacity k
  apart : ∀ r head i, s.producer = .copying r head i → ∀ j < 4 + r.len.toNat,
    ∀ m < (s.ring.head - s.ring.tail).toNat,
      recordOffset k head r j ≠ ((s.ring.tail + UInt64.ofNat m) &&& mask k).toNat
  bailed : s.bailed = false
  refused : ∀ outCap a, (s.step outCap a).ring.dropped ≠ s.ring.dropped →
    s.step outCap a = { s with
      ring := { s.ring with dropped := s.ring.dropped + 1 }
      producer := .idle }

/-- Only a refused push moves the drop counter, and it moves nothing else. -/
theorem refused_step (s : RingSystem k) (outCap : UInt32) (a : RingAction)
    (hd : (s.step outCap a).ring.dropped ≠ s.ring.dropped) : s.step outCap a = { s with
      ring := { s.ring with dropped := s.ring.dropped + 1 }
      producer := .idle } := by
  cases a with
  | push r =>
    rw [step, push] at hd
    split at hd <;> exact absurd rfl hd
  | produce =>
    rw [step, RingSystem.produce] at hd ⊢
    cases hp : s.producer with
    | idle =>
      rw [hp] at hd
      exact absurd rfl hd
    | loaded r head =>
      rw [hp] at hd
      dsimp only at hd ⊢
      split at hd
      · next hfull => rw [if_pos hfull]
      · exact absurd rfl hd
    | copying r head i =>
      rw [hp] at hd
      dsimp only at hd
      split at hd <;> exact absurd rfl hd
  | pop =>
    rw [step, pop] at hd
    split at hd <;> exact absurd rfl hd
  | consume =>
    rw [step, RingSystem.consume] at hd
    cases hc : s.consumer with
    | idle =>
      rw [hc] at hd
      exact absurd rfl hd
    | loaded tail =>
      rw [hc] at hd
      dsimp only at hd
      split at hd <;> exact absurd rfl hd
    | readingLen tail head out =>
      rw [hc] at hd
      dsimp only at hd
      split at hd
      · exact absurd rfl hd
      · split at hd <;> exact absurd rfl hd
    | readingData tail len out =>
      rw [hc] at hd
      dsimp only at hd
      split at hd <;> exact absurd rfl hd

theorem Sound.lossless (h : s.Sound outCap H T queue) : s.Lossless where
  fifo := h.pushed ▸ List.prefix_append _ _
  drained he := by
    have hspan := h.span
    have hfits := h.fits
    have hused := h.used_toNat
    rw [he, UInt64.sub_self, UInt64.toNat_zero] at hused
    cases queue with
    | nil => rw [h.pushed, List.append_nil]
    | cons b rest =>
      rw [List.flatMap_cons, List.length_append, length_frame] at hspan
      omega
  bounded := by
    rw [UInt64.le_iff_toNat_le, h.used_toNat, capacity_toNat]
    exact Nat.sub_le_iff_le_add'.2 h.fits
  apart r head i hp j hj m hm := by
    have hprod := h.producer
    have hspan := h.span
    rw [hp] at hprod
    obtain ⟨rfl, -, -, hroom, -⟩ := hprod
    rw [h.used_toNat] at hm
    rw [h.head, recordOffset_eq r hj (by omega), h.tail, add_ofNat, and_mask_toNat]
    exact (cell_ne (by omega) (by omega)).symm
  bailed := h.bailed
  refused := s.refused_step

end RingSystem

/-- The ring is lossless in every interleaving of its two threads, while the records are short
enough for the 32-bit sum of `push`. -/
theorem ring_lossless (k : Fin 64) (outCap : UInt32) (buf : Vector UInt8 (2 ^ k.val))
    (schedule : List RingAction)
    (hlen : ∀ r, .push r ∈ schedule → 0 < r.len.toNat ∧ r.len ≤ outCap)
    (hshort : ∀ r, .push r ∈ schedule → r.len.toNat < 2 ^ 32 - 4) :
    (RingSystem.run outCap buf schedule).Lossless := by
  obtain ⟨H, T, queue, h⟩ := RingSystem.run_sound outCap buf schedule fun r hr =>
    ⟨(hlen r hr).1, (hlen r hr).2, hshort r hr⟩
  exact h.lossless

/-- Two records of one byte; the second push begins while the first is being popped. -/
def twoPushes : List RingAction :=
  .push ⟨1, fun _ => 7⟩ :: List.replicate 7 .produce ++
    .pop :: .consume :: .push ⟨1, fun _ => 8⟩ :: List.replicate 7 .consume ++ [.produce]

theorem pushes_of_mem {P : Record → Prop} {schedule : List RingAction}
    (h : ∀ a ∈ schedule, match a with | .push r => P r | _ => True) :
    ∀ r, .push r ∈ schedule → P r :=
  fun r hr => h (.push r) hr

theorem twoPushes_lossless :
    (RingSystem.run (k := 3) 1 (Vector.replicate 8 0) twoPushes).Lossless := by
  apply ring_lossless
  · apply pushes_of_mem
    simp [twoPushes]
  · apply pushes_of_mem
    simp [twoPushes]

/-- A record of `2 ^ 32 - 1` bytes is pushed into eight bytes that hold another record. -/
def hugePush : List RingAction :=
  .push ⟨1, fun _ => 7⟩ :: List.replicate 7 .produce ++ [.push ⟨4294967295, fun _ => 0⟩, .produce]

theorem hugePush_overlaps :
    (∀ r, .push r ∈ hugePush → 0 < r.len.toNat ∧ r.len ≤ 4294967295) ∧
    ¬ (RingSystem.run (k := 3) 4294967295 (Vector.replicate 8 0) hugePush).Lossless := by
  refine ⟨?_, ?_⟩
  · apply pushes_of_mem
    simp [hugePush]
  · intro h
    -- the length of the huge record runs over the first byte of the record that waits
    exact h.apart ⟨4294967295, fun _ => 0⟩ 5 0 rfl 3 (by decide) 0 (by decide) (by decide)

end Tickpipe
