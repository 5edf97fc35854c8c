import Tickpipe.FileFraming
import Tickpipe.HighWater
import Tickpipe.Sender

set_option autoImplicit true

namespace Tickpipe

open UdpServer (session Call maxPayload maxMsgSize)

/-- A file, whose size is a 64-bit number. -/
structure File where
  bytes : List UInt8
  size_lt : bytes.length < 2 ^ 64

/-- Whenever `send_message` finds its datagram full, `sendto` sends it. -/
def FullFlushesSent (sendto : Nat → Bool) : UdpServer → List Call → Prop
  | _, [] => True
  | s, c :: calls =>
    (∀ m, c = .send m → s.isFull m = true → sendto s.attempts.length = true) ∧
      FullFlushesSent sendto (s.call sendto c) calls

def UdpServer.Flushes (s : UdpServer) : Call → Prop
  | .send m => s.isFull m = true
  | .flush => s.packetMsgs ≠ 0

/-- A datagram goes out only where the first one did. -/
def FirstSent (sendto : Nat → Bool) : UdpServer → List Call → Prop
  | _, [] => True
  | s, c :: calls =>
    (s.Flushes c → sendto s.attempts.length = true → sendto 0 = true) ∧
      FirstSent sendto (s.call sendto c) calls

theorem length_accepted_le (sendto : Nat → Bool) (calls : List Call) (k : Packer) :
    (k.run sendto calls).accepted.length ≤ k.accepted.length + (passed calls).length := by
  have h := (k.accepted_run_sublist sendto calls).length_le
  rw [List.length_append] at h
  exact h

/-- Every message is numbered exactly when no automatic flush fails. -/
theorem accepted_eq_iff (h : Refines s k) (sendto : Nat → Bool) (calls : List Call)
    (hfit : ∀ m ∈ passed calls, 2 + m.length ≤ maxPayload) :
    (k.run sendto calls).accepted = k.accepted ++ passed calls ↔
      FullFlushesSent sendto s calls := by
  induction calls generalizing s k with
  | nil => exact ⟨fun _ => trivial, fun _ => (List.append_nil _).symm⟩
  | cons c calls ih =>
    have hcall := h.call sendto c
    cases c with
    | flush =>
      have hstep : (k.call sendto .flush).accepted = k.accepted := k.accepted_flush _
      have hrest := ih hcall hfit
      rw [hstep] at hrest
      exact hrest.trans ⟨fun hf => ⟨nofun, hf⟩, fun hf => hf.2⟩
    | send m =>
      have hrest := ih hcall fun m' hm' => hfit m' (List.mem_cons_of_mem _ hm')
      have hstep := k.accepted_send (sendto k.log.length) (hfit m List.mem_cons_self)
      have hok : k.Room m ∨ sendto k.log.length = true ↔
          (s.isFull m = true → sendto s.attempts.length = true) := by
        rw [h.isFull m, h.attempts_length]
        by_cases hr : k.Room m
        · simp [hr]
        · simp [hr]
      by_cases hsent : s.isFull m = true → sendto s.attempts.length = true
      · rw [if_pos (hok.2 hsent)] at hstep
        have hpassed : k.accepted ++ passed (.send m :: calls) =
            (k.call sendto (.send m)).accepted ++ passed calls := by
          rw [Packer.call, hstep, List.append_assoc]
          rfl
        rw [hpassed]
        refine hrest.trans ⟨fun hf => ⟨fun m' hm' => ?_, hf⟩, fun hf => hf.2⟩
        obtain rfl : m = m' := by injection hm'
        exact hsent
      · rw [if_neg fun hr => hsent (hok.1 hr)] at hstep
        constructor
        · intro hacc
          have hle := length_accepted_le sendto calls (k.call sendto (.send m))
          have hlength := congrArg List.length hacc
          rw [Packer.call, hstep] at hle
          rw [passed_send, List.length_append, List.length_cons] at hlength
          exact absurd (hlength.symm.trans_le hle) (by omega)
        · intro hf
          exact absurd (hf.1 m rfl) hsent

theorem log_call (h : Refines s k) (sendto : Nat → Bool) (c : Call)
    (hfit : ∀ m ∈ passed [c], 2 + m.length ≤ maxPayload) :
    (s.Flushes c → (k.call sendto c).log = k.log ++ [(k.packet, sendto s.attempts.length)]) ∧
      (¬ s.Flushes c → (k.call sendto c).log = k.log) := by
  have hflush (hp : k.pending ≠ []) :
      (k.flush (sendto k.log.length)).log = k.log ++ [(k.packet, sendto s.attempts.length)] := by
    rw [Packer.flush, if_neg hp, h.attempts_length]
  cases c with
  | flush =>
    refine ⟨fun hf => hflush (mt h.packetMsgs_eq_zero.2 hf), fun hf => ?_⟩
    have hp : k.pending = [] := h.packetMsgs_eq_zero.1 (not_not.1 hf)
    rw [Packer.call, Packer.flush, if_pos hp]
  | send m =>
    have hm : 2 + m.length ≤ maxPayload := hfit m List.mem_cons_self
    rw [Packer.call, Packer.send, dif_pos hm]
    constructor
    · intro hf
      have hroom : ¬ k.Room m := (h.isFull m).1 hf
      have hp : k.pending ≠ [] := by
        intro hp
        apply hroom
        rw [Packer.Room, hp, framed_nil, List.length_nil, Nat.zero_add]
        exact hm
      rw [dif_neg hroom]
      split
      · exact hflush hp
      · exact hflush hp
    · intro hf
      have hroom : k.Room m := not_not.1 (mt (h.isFull m).2 hf)
      rw [dif_pos hroom]
      rfl

/-- Nothing goes out unless the first datagram does. -/
theorem firstSent_iff (h : Refines s k) (sendto : Nat → Bool) (calls : List Call)
    (hfit : ∀ m ∈ passed calls, 2 + m.length ≤ maxPayload) :
    (∀ x ∈ (k.run sendto calls).log, x.2 = true → sendto 0 = true) ↔
      (∀ x ∈ k.log, x.2 = true → sendto 0 = true) ∧ FirstSent sendto s calls := by
  induction calls generalizing s k with
  | nil => exact ⟨fun hk => ⟨hk, trivial⟩, fun hk => hk.1⟩
  | cons c calls ih =>
    have hpassed : passed (c :: calls) = passed [c] ++ passed calls := passed_append [c] calls
    rw [hpassed] at hfit
    obtain ⟨hflushes, hkeeps⟩ := log_call h sendto c fun m hm => hfit m (List.mem_append_left _ hm)
    have hrest := ih (h.call sendto c) fun m hm => hfit m (List.mem_append_right _ hm)
    refine hrest.trans ?_
    by_cases hf : s.Flushes c
    · rw [hflushes hf, List.forall_mem_append, List.forall_mem_singleton, and_assoc]
      exact and_congr_right fun _ => and_congr_left fun _ => ⟨fun hs _ => hs, fun hs => hs hf⟩
    · rw [hkeeps hf]
      exact and_congr_right fun _ => ⟨fun hs => ⟨fun hs' => absurd hs' hf, hs⟩, fun hs => hs.2⟩

theorem Packer.outcomes (sendto : Nat → Bool) (calls : List Call) {k : Packer}
    (h : k.log.map (·.2) = (List.range k.log.length).map sendto) :
    (k.run sendto calls).log.map (·.2) =
      (List.range (k.run sendto calls).log.length).map sendto := by
  induction calls generalizing k with
  | nil => exact h
  | cons c calls ih =>
    apply ih
    rcases k.log_cases sendto c with hc | hc
    · rw [hc, h]
    · rw [hc, List.map_append, h, List.length_append, List.length_singleton, List.range_succ,
        List.map_append]
      rfl

theorem UdpReceiver.lostIn_cons_encode (r : UdpReceiver) (p : Packet) (ps : List Packet) :
    r.lostIn ((p :: ps).map (·.encode session)) =
      r.gapBefore (UInt64.ofNat p.first) ++
        (r.receive (p.encode session)).lostIn (ps.map (·.encode session)) := by
  rw [List.map_cons, ← List.singleton_append, lostIn_append, lostIn_encode]
  rfl

/-- Between datagrams in order, the receiver counts every number it was not handed. -/
theorem mem_lostIn (r : UdpReceiver) (ps : List Packet) (hn : 1 ≤ n)
    (hr : r.expectedSeq = UInt64.ofNat n) (hps : ps.Pairwise fun p q => p.next ≤ q.first)
    (hfirst : ∀ p ∈ ps, 1 ≤ p.first ∧ p.first < 2 ^ 64) (hk : n ≤ k) (hq : q ∈ ps)
    (hkq : k < q.first)
    (hnot : ∀ p ∈ ps, k ∉ p.numbers) : k ∈ r.lostIn (ps.map (·.encode session)) := by
  induction ps generalizing r n with
  | nil => cases hq
  | cons p ps ih =>
    have hp := hfirst p List.mem_cons_self
    have hqlt := hfirst q hq
    have hexpected : r.expectedSeq.toNat = n := by
      rw [hr, UInt64.toNat_ofNat', Nat.mod_eq_of_lt (by omega)]
    rw [UdpReceiver.lostIn_cons_encode, List.mem_append]
    by_cases hlt : k < p.first
    · refine Or.inl (UdpReceiver.mem_gapBefore.2 ⟨?_, ?_, ?_⟩)
      · intro hzero
        rw [hzero] at hexpected
        have h0 : (0 : UInt64).toNat = 0 := rfl
        omega
      · rw [hexpected]
        exact hk
      · rw [UInt64.toNat_ofNat', Nat.mod_eq_of_lt hp.2]
        exact hlt
    · have hnext : p.next ≤ k := by
        by_contra hlt'
        exact hnot p List.mem_cons_self (Packet.mem_numbers.2 ⟨by omega, by omega⟩)
      have hmem : q ∈ ps := by
        rcases List.mem_cons.1 hq with rfl | hq
        · exact absurd hkq hlt
        · exact hq
      refine Or.inr (ih (r.receive (p.encode session)) ?_ (r.expectedSeq_encode session p)
        (List.pairwise_cons.1 hps).2 (fun p' hp' => hfirst p' (List.mem_cons_of_mem _ hp')) hnext
        hmem fun p' hp' => hnot p' (List.mem_cons_of_mem _ hp'))
      rw [Packet.next]
      omega

theorem mem_handed_received (directory : Option SymbolDirectory)
    (hbody : ∀ p ∈ ps, ∀ m ∈ p.msgs, m ≠ []) (x : UInt64) :
    x ∈ (received session directory ps).handed.map (·.1) ↔
      ∃ p ∈ ps, ∃ n ∈ p.numbers, UInt64.ofNat n = x := by
  have hhanded : (received session directory ps).handed.map (·.1) =
      ps.flatMap fun p => p.numbers.map UInt64.ofNat := by
    rw [received, UdpReceiver.handed_receiveAll, List.nil_append, List.map_flatMap]
    refine List.flatMap_congr fun p hp => ?_
    rw [readable_eq (hbody p hp), map_fst_number, Packet.numbers]
  rw [hhanded, List.mem_flatMap]
  simp only [List.mem_map]

theorem exists_handed_first (directory : Option SymbolDirectory)
    (hbody : ∀ p ∈ ps, ∀ m ∈ p.msgs, m ≠ []) (hp : p ∈ ps) (hne : p.msgs ≠ []) :
    ∃ y ∈ (received session directory ps).handed, y.1 = UInt64.ofNat p.first := by
  have hpos := List.length_pos_iff.2 hne
  have hnum : p.first ∈ p.numbers :=
    Packet.mem_numbers.2 ⟨Nat.le_refl _, by rw [Packet.next]; omega⟩
  exact List.mem_map.1 ((mem_handed_received directory hbody _).2 ⟨p, hp, p.first, hnum, rfl⟩)

theorem eq_of_ofNat_eq (hm : m < 2 ^ 64) (hn : n < 2 ^ 64)
    (h : UInt64.ofNat m = UInt64.ofNat n) : m = n := by
  have hnat := congrArg UInt64.toNat h
  rw [UInt64.toNat_ofNat', UInt64.toNat_ofNat', Nat.mod_eq_of_lt hm, Nat.mod_eq_of_lt hn] at hnat
  exact hnat

/-- A receiver counts every number it was not handed between two that it was. -/
theorem mem_countedLost (directory : Option SymbolDirectory) (ps : List Packet)
    (hps : ps.Pairwise fun p q => p.next ≤ q.first)
    (hbounds : ∀ p ∈ ps, 1 ≤ p.first ∧ p.next < 2 ^ 64) (hp : p ∈ ps) (hm : m ∈ p.numbers)
    (hmk : m < k) (hq : q ∈ ps) (hn : n ∈ q.numbers) (hkn : k < n)
    (hnot : ∀ p ∈ ps, k ∉ p.numbers) : k ∈ countedLost session directory ps := by
  have hfirst_le (p : Packet) : p.first ≤ p.next := Nat.le_add_right _ _
  have hmp := Packet.mem_numbers.1 hm
  have hnq := Packet.mem_numbers.1 hn
  have hkq : k < q.first := by
    by_contra hle
    exact hnot q hq (Packet.mem_numbers.2 ⟨by omega, by omega⟩)
  cases ps with
  | nil => cases hp
  | cons p₀ ps =>
    -- the receiver joins at the first datagram and counts from its end on
    have hp₀ : p₀.first ≤ m := by
      rcases List.mem_cons.1 hp with rfl | hp
      · exact hmp.1
      · exact (hfirst_le p₀).trans (((List.pairwise_cons.1 hps).1 p hp).trans hmp.1)
    have hnext : p₀.next ≤ k := by
      by_contra hlt
      exact hnot p₀ List.mem_cons_self (Packet.mem_numbers.2 ⟨by omega, by omega⟩)
    have hqps : q ∈ ps := by
      rcases List.mem_cons.1 hq with rfl | hq
      · have hle := hfirst_le q
        omega
      · exact hq
    have hb₀ := hbounds p₀ List.mem_cons_self
    rw [countedLost, UdpReceiver.lostIn_cons_encode]
    refine List.mem_append_right _ (mem_lostIn _ ps (hb₀.1.trans (hfirst_le p₀))
      (UdpReceiver.expectedSeq_encode _ session p₀) (List.pairwise_cons.1 hps).2
      (fun p hp => ?_) hnext hqps hkq fun p hp => hnot p (List.mem_cons_of_mem _ hp))
    have hb := hbounds p (List.mem_cons_of_mem _ hp)
    exact ⟨hb.1, (hfirst_le p).trans_lt hb.2⟩

/-- A receiver joins at its first datagram: nothing below the end of it is counted. -/
theorem le_of_mem_countedLost (directory : Option SymbolDirectory) (h : EndsAscend ps)
    (hn : ∀ p ∈ ps, n ≤ p.next) (hk : k ∈ countedLost session directory ps) : n ≤ k := by
  induction ps using List.reverseRecOn with
  | nil => cases hk
  | append_singleton ps p ih =>
    have hps := (endsAscend_append_singleton.1 h).1
    rw [countedLost_append_singleton, List.mem_append] at hk
    rcases hk with hk | hk
    · exact ih hps (fun q hq => hn q (List.mem_append_left _ hq)) hk
    · obtain ⟨hjoined, hle, -⟩ := UdpReceiver.mem_gapBefore.1 hk
      rw [(hps.tracks session directory).expected] at hle
      cases ps with
      | nil => exact absurd rfl hjoined
      | cons q ps =>
        have hq := hn q (List.mem_append_left _ List.mem_cons_self)
        exact hq.trans ((next_le_highWater List.mem_cons_self).trans hle)

theorem endsAscend_of_ascending (hps : ps.Pairwise fun p q => p.next ≤ q.first)
    (hbounds : ∀ p ∈ ps, 1 ≤ p.first ∧ p.next < 2 ^ 64) : EndsAscend ps :=
  ⟨fun p hp => (hbounds p hp).2, hps.imp fun {_ q} hle => hle.trans (Nat.le_add_right q.first _)⟩

theorem counted_of_ascending (directory : Option SymbolDirectory) (ps : List Packet)
    (hps : ps.Pairwise fun p q => p.next ≤ q.first)
    (hbounds : ∀ p ∈ ps, 1 ≤ p.first ∧ p.next < 2 ^ 64)
    (hbody : ∀ p ∈ ps, ∀ m ∈ p.msgs, m ≠ []) :
    (received session directory ps).messagesLost.toNat =
        (countedLost session directory ps).length ∧
      ∀ k < 2 ^ 64, UInt64.ofNat k ∉ (received session directory ps).handed.map (·.1) →
        (∃ x ∈ (received session directory ps).handed, x.1 < UInt64.ofNat k) →
        (∃ x ∈ (received session directory ps).handed, UInt64.ofNat k < x.1) →
        k ∈ countedLost session directory ps := by
  have hmem := mem_handed_received directory hbody
  have hends := endsAscend_of_ascending hps hbounds
  have hlt {p : Packet} (hp : p ∈ ps) {n : Nat} (hn : n ∈ p.numbers) : n < 2 ^ 64 :=
    (Packet.mem_numbers.1 hn).2.trans (hbounds p hp).2
  constructor
  · have t := hends.tracks session directory
    have hlength := t.length_le.trans_lt hends.highWater_lt
    rw [messagesLost_received, UInt64.toNat_ofNat', Nat.mod_eq_of_lt hlength]
  · rintro k hk hnot ⟨x, hx, hxk⟩ ⟨y, hy, hky⟩
    obtain ⟨p, hp, m, hm, hmx⟩ := (hmem x.1).1 (List.mem_map_of_mem hx)
    obtain ⟨q, hq, n, hn, hny⟩ := (hmem y.1).1 (List.mem_map_of_mem hy)
    rw [← hmx] at hxk
    rw [← hny] at hky
    have hmk := (UInt64.ofNat_lt_iff_lt (hlt hp hm) hk).1 hxk
    have hkn := (UInt64.ofNat_lt_iff_lt hk (hlt hq hn)).1 hky
    exact mem_countedLost directory ps hps hbounds hp hm hmk hq hn hkn
      fun p hp hn => hnot ((hmem _).2 ⟨p, hp, k, hn, rfl⟩)

/-- The k-th message of the file has the number k, and a receiver of any of the datagrams that went
out, from the first of them on or from a later one, counts every number that it missed since then
and that a later datagram shows to be missing. -/
structure LossSequenced (pause sendto : Nat → Bool) (file : File) : Prop where
  numbered : (UdpServer.replayFile pause sendto {} file.bytes).numbered =
    number 1 (readMessages file.bytes)
  counted : ∀ directory bufs,
    bufs.Sublist (UdpServer.replayFile pause sendto {} file.bytes).emitted →
      (UdpReceiver.receiveAll { directory } bufs).messagesLost.toNat =
          (UdpReceiver.lostIn { directory } bufs).length ∧
        ∀ k, 1 ≤ k → k ≤ (readMessages file.bytes).length →
          UInt64.ofNat k ∉ (UdpReceiver.receiveAll { directory } bufs).handed.map (·.1) →
          bufs.head? = (UdpServer.replayFile pause sendto {} file.bytes).emitted.head? ∨
            (∃ x ∈ (UdpReceiver.receiveAll { directory } bufs).handed, x.1 < UInt64.ofNat k) →
          (∃ x ∈ (UdpReceiver.receiveAll { directory } bufs).handed, UInt64.ofNat k < x.1) →
          k ∈ UdpReceiver.lostIn { directory } bufs

def File.calls (file : File) (pause : Nat → Bool) : List Call :=
  replayCalls pause 0 (readMessages file.bytes) ++ [.flush]

theorem refines_replayFile (pause sendto : Nat → Bool) (file : File) :
    ∃ k : Packer, Refines (UdpServer.replayFile pause sendto {} file.bytes) k ∧ k.Inv ∧
      k.log.map (·.2) = (List.range k.log.length).map sendto ∧
      (k.accepted = readMessages file.bytes ↔ FullFlushesSent sendto {} (file.calls pause)) ∧
      ((∀ x ∈ k.log, x.2 = true → sendto 0 = true) ↔ FirstSent sendto {} (file.calls pause)) := by
  have hpassed : passed (file.calls pause) = readMessages file.bytes := by
    rw [File.calls, passed_append, passed_replayCalls]
    exact List.append_nil _
  have hfit : ∀ m ∈ passed (file.calls pause), 2 + m.length ≤ maxPayload := by
    intro m hm
    rw [hpassed] at hm
    have hmax := (mem_readMessages hm).2
    rw [maxMsgSize] at hmax
    rw [maxPayload]
    omega
  refine ⟨Packer.run sendto {} (file.calls pause), ?_, Packer.inv_empty.run sendto _,
    Packer.outcomes sendto _ rfl, ?_, ?_⟩
  · rw [replayFile_eq]
    exact Refines.empty.run sendto _
  · have h := accepted_eq_iff Refines.empty sendto _ hfit
    rw [hpassed] at h
    exact h
  · refine (firstSent_iff Refines.empty sendto _ hfit).trans (and_iff_right fun x hx => ?_)
    cases hx

/-- The first datagram of the log starts at the first message, and so does the first one that went
out unless it follows one that did not. -/
theorem Packer.Inv.first_sent (h : Packer.Inv k) (hp : k.sent.head? = some p) :
    (k.log.head?.map (·.2) = some true → p.first = 1) ∧
      (k.log.head?.map (·.2) = some false → ∀ q ∈ k.sent, 2 ≤ q.first) := by
  have hconsecutive := h.consecutive
  have hnonempty := h.nonempty
  rw [Packer.sent] at hp ⊢
  cases hlog : k.log with
  | nil =>
    rw [hlog] at hp
    cases hp
  | cons x xs =>
    rw [hlog] at hconsecutive hp
    rw [List.map_cons] at hconsecutive
    rw [List.head?_cons, Option.map_some]
    constructor
    · intro hx
      rw [List.filter_cons_of_pos (Option.some.inj hx), List.map_cons, List.head?_cons] at hp
      rw [← Option.some.inj hp]
      exact hconsecutive.1
    · intro hx q hq
      rw [List.filter_cons_of_neg (by rw [Option.some.inj hx]; exact Bool.false_ne_true)] at hq
      have hmem := (List.filter_sublist.map Prod.fst).subset hq
      have hle := hconsecutive.2.le_first hmem
      have hne := hnonempty x (hlog ▸ List.mem_cons_self)
      have hpos := List.length_pos_iff.2 hne
      have hfirst := hconsecutive.1
      rw [Packet.next] at hle
      omega

section Replayed

variable {k : Packer} {file : File}

theorem accepted_of_numbered
    (href : Refines (UdpServer.replayFile pause sendto {} file.bytes) k)
    (h : (UdpServer.replayFile pause sendto {} file.bytes).numbered =
      number 1 (readMessages file.bytes)) : k.accepted = readMessages file.bytes := by
  rw [← map_snd_number 1 k.accepted, ← href.numbered, h, map_snd_number]

theorem sent_bounds (hinv : k.Inv) (hacc : k.accepted = readMessages file.bytes) :
    (∀ p ∈ k.sent, 1 ≤ p.first ∧ p.next < 2 ^ 64) ∧ ∀ p ∈ k.sent, ∀ m ∈ p.msgs, m ≠ [] := by
  have hlength : k.packed.length + k.pending.length = (readMessages file.bytes).length := by
    rw [← hacc, Packer.accepted, List.length_append]
  have hsize := length_readMessages_le file.bytes
  have hsize_lt := file.size_lt
  constructor
  · intro p hp
    have hb := hinv.bounds hp
    exact ⟨hb.1, by omega⟩
  · intro p hp m hm
    have hmem : m ∈ k.accepted := List.mem_append_left _ (k.mem_packed hp hm)
    rw [hacc] at hmem
    exact (mem_readMessages hmem).1

theorem head_outcome (hlog : k.log.map (·.2) = (List.range k.log.length).map sendto)
    (hsent : k.sent.head? = some p) : k.log.head?.map (·.2) = some (sendto 0) := by
  have hne : k.log.length ≠ 0 := by
    intro hz
    rw [Packer.sent, List.length_eq_zero_iff.1 hz] at hsent
    cases hsent
  obtain ⟨n, hn⟩ := Nat.exists_eq_succ_of_ne_zero hne
  rw [← List.head?_map, hlog, hn, List.range_succ_eq_map]
  rfl

/-- Where the first datagram fails and a later one does not, the first message is missing and never
counted: the receiver joins behind it. -/
theorem firstSent_of_counted (href : Refines (UdpServer.replayFile pause sendto {} file.bytes) k)
    (hinv : k.Inv) (hlog : k.log.map (·.2) = (List.range k.log.length).map sendto)
    (h : LossSequenced pause sendto file) : ∀ x ∈ k.log, x.2 = true → sendto 0 = true := by
  intro x hx hxsent
  by_contra hzero
  rw [Bool.not_eq_true] at hzero
  have hmem : x.1 ∈ k.sent := List.mem_map_of_mem (List.mem_filter.2 ⟨hx, hxsent⟩)
  obtain ⟨p, ps, hsent⟩ := List.exists_cons_of_ne_nil (List.ne_nil_of_mem hmem)
  have hhead : k.sent.head? = some p := by rw [hsent, List.head?_cons]
  have hlate := (hinv.first_sent hhead).2 (by rw [head_outcome hlog hhead, hzero])
  have hacc := accepted_of_numbered href h.numbered
  obtain ⟨hbounds, hbody⟩ := sent_bounds hinv hacc
  have hfirst_le (p : Packet) : p.first ≤ p.next := Nat.le_add_right _ _
  have hpos := List.length_pos_iff.2 (hinv.sent_nonempty hmem)
  have hone : 1 ≤ (readMessages file.bytes).length := by
    have hb := hinv.bounds hmem
    have hl := hlate _ hmem
    have hf := hfirst_le x.1
    rw [← hacc, Packer.accepted, List.length_append]
    omega
  have hlost : 1 ∈ countedLost session none k.sent := by
    have hcounted := (h.counted none _ (List.Sublist.refl _)).2 1 (Nat.le_refl 1) hone
    rw [href.emitted] at hcounted
    refine hcounted ?_ (Or.inl rfl) ?_
    · intro hin
      obtain ⟨q, hq, n, hn, hn1⟩ := (mem_handed_received none hbody _).1 hin
      have hnq := Packet.mem_numbers.1 hn
      have hl := hlate q hq
      have hnat := eq_of_ofNat_eq (hnq.2.trans (hbounds q hq).2) (by decide) hn1
      omega
    · obtain ⟨y, hy, hyfirst⟩ :=
        exists_handed_first none hbody hmem (hinv.sent_nonempty hmem)
      refine ⟨y, hy, ?_⟩
      have hl := hlate _ hmem
      have hlt := (hfirst_le x.1).trans_lt (hbounds _ hmem).2
      rw [hyfirst, UInt64.ofNat_lt_iff_lt (by decide) hlt]
      exact hl
  have hends := endsAscend_of_ascending hinv.ascending hbounds
  have hle := le_of_mem_countedLost none hends
    (fun q hq => (hlate q hq).trans (hfirst_le q)) hlost
  omega

theorem exists_handed_lt (directory : Option SymbolDirectory) (hinv : k.Inv)
    (hlog : k.log.map (·.2) = (List.range k.log.length).map sendto)
    (hfirst : ∀ x ∈ k.log, x.2 = true → sendto 0 = true)
    (hacc : k.accepted = readMessages file.bytes) (hps : ps.Sublist k.sent) (hn : 1 ≤ n)
    (hn' : n < 2 ^ 64)
    (hmissed : UInt64.ofNat n ∉ (received session directory ps).handed.map (·.1))
    (hlater : (received session directory ps).handed ≠ [])
    (hhead : (ps.map (·.encode session)).head? = (k.sent.map (·.encode session)).head?) :
    ∃ x ∈ (received session directory ps).handed, x.1 < UInt64.ofNat n := by
  obtain ⟨hbounds, hbody⟩ := sent_bounds hinv hacc
  have hfirst_lt {q : Packet} (hq : q ∈ k.sent) : q.first < 2 ^ 64 :=
    (Nat.le_add_right _ _).trans_lt (hbounds q hq).2
  cases ps with
  | nil => exact absurd rfl hlater
  | cons p ps =>
    have hp : p ∈ k.sent := hps.subset List.mem_cons_self
    obtain ⟨q, qs, hsent⟩ := List.exists_cons_of_ne_nil (List.ne_nil_of_mem hp)
    have hqhead : k.sent.head? = some q := by rw [hsent, List.head?_cons]
    have hq : q ∈ k.sent := List.mem_of_head? hqhead
    have hone : q.first = 1 := by
      obtain ⟨x, hx, rfl⟩ := List.mem_map.1 hq
      obtain ⟨hlogged, hok⟩ := List.mem_filter.1 hx
      exact (hinv.first_sent hqhead).1 (by rw [head_outcome hlog hqhead, hfirst x hlogged hok])
    have hpone : p.first = 1 := by
      rw [List.head?_map, List.head?_map, List.head?_cons, hqhead] at hhead
      have hread := congrArg (readBe64 · 10) (Option.some.inj hhead)
      simp only [Packet.readBe64_encode] at hread
      exact (eq_of_ofNat_eq (hfirst_lt hp) (hfirst_lt hq) hread).trans hone
    obtain ⟨y, hy, hyone⟩ := exists_handed_first directory
      (fun p' hp' => hbody p' (hps.subset hp')) List.mem_cons_self (hinv.sent_nonempty hp)
    rw [hpone] at hyone
    have hne : n ≠ 1 := by
      rintro rfl
      exact hmissed (hyone ▸ List.mem_map_of_mem hy)
    refine ⟨y, hy, ?_⟩
    rw [hyone, UInt64.ofNat_lt_iff_lt (by decide) hn']
    omega

end Replayed

/-- `replay_file` numbers every message exactly when no flush inside `send_message` fails, and what
is missing shows exactly when no datagram fails before the first one that goes out. -/
theorem loss_sequenced_iff (pause sendto : Nat → Bool) (file : File) :
    LossSequenced pause sendto file ↔
      FullFlushesSent sendto {} (file.calls pause) ∧ FirstSent sendto {} (file.calls pause) := by
  obtain ⟨k, href, hinv, hlog, hfull, hfirst⟩ := refines_replayFile pause sendto file
  rw [← hfull, ← hfirst]
  constructor
  · exact fun h => ⟨accepted_of_numbered href h.numbered, firstSent_of_counted href hinv hlog h⟩
  · rintro ⟨hacc, hsent⟩
    refine ⟨by rw [href.numbered, hacc], ?_⟩
    intro directory bufs hbufs
    rw [href.emitted] at hbufs ⊢
    obtain ⟨ps, hps, rfl⟩ := List.sublist_map_iff.1 hbufs
    obtain ⟨hbounds, hbody⟩ := sent_bounds hinv hacc
    have hcounted := counted_of_ascending directory ps (hinv.ascending.sublist hps)
      (fun p hp => hbounds p (hps.subset hp)) fun p hp => hbody p (hps.subset hp)
    refine ⟨hcounted.1, ?_⟩
    intro n hn hle hmissed hjoined hlater
    have hsize := length_readMessages_le file.bytes
    have hsize_lt := file.size_lt
    have hlt : n < 2 ^ 64 := by omega
    refine hcounted.2 n hlt hmissed ?_ hlater
    rcases hjoined with hhead | hbelow
    · obtain ⟨y, hy, -⟩ := hlater
      exact exists_handed_lt directory hinv hlog hsent hacc hps hn hlt hmissed
        (List.ne_nil_of_mem hy) hhead
    · exact hbelow

def threeLong : File where
  bytes := (List.replicate 3 ([3, 232] ++ List.replicate 1000 83)).flatten
  size_lt := by decide +kernel

/-- The flush for the second message fails: that message goes without a number, and the third one
gets the number 2. -/
theorem refused_message_unnumbered : ¬ ∀ pause sendto file, LossSequenced pause sendto file := by
  intro h
  have hnumbered := (h (fun _ => false) (fun n => n ≠ 0) threeLong).numbered
  have hlength := congrArg List.length hnumbered
  revert hlength
  decide +kernel

end Tickpipe
