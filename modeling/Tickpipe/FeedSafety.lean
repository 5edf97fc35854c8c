import Tickpipe.FeedReads
import Tickpipe.BookGrammar

set_option autoImplicit true

namespace Tickpipe

open Reads (Computes)

section Loads

theorem byte_slice (mem : List UInt8) (data : Nat) (h : i < len) :
    byte ((mem.drop data).take len) i = byte mem (data + i) := by
  rw [byte, byte, List.getD_eq_getElem?_getD, List.getD_eq_getElem?_getD,
    List.getElem?_take_of_lt h, List.getElem?_drop]

theorem computes_load (mem : List UInt8) (data : Nat) (h : i < len) :
    Computes data (data + len) (load mem (data + i)) (byte ((mem.drop data).take len) i) := by
  constructor
  case value => exact (byte_slice mem data h).symm
  case inside =>
    intro j hj
    obtain rfl := List.mem_singleton.1 hj
    exact ⟨Nat.le_add_right _ _, Nat.add_lt_add_left h _⟩

theorem computes_loadBe (mem : List UInt8) (data : Nat) (h : i + n ≤ len) :
    Computes data (data + len) (loadBe mem n (data + i))
      (readBe n ((mem.drop data).take len) i) := by
  induction n with
  | zero => exact .pure _
  | succ n ih =>
    rw [readBe, Nat.fold_succ]
    apply (ih (Nat.le_of_succ_le h)).bind
    rw [Nat.add_assoc]
    exact (computes_load mem data h).bind (.pure _)

theorem computes_loadBe32 (mem : List UInt8) (data : Nat) (h : i + 4 ≤ len) :
    Computes data (data + len) (loadBe32 mem (data + i))
      (readBe32 ((mem.drop data).take len) i) := by
  have hload (j : Nat) (hj : j < 4) : Computes data (data + len) (load mem (data + i + j))
      (byte ((mem.drop data).take len) (i + j)) := by
    rw [Nat.add_assoc]
    exact computes_load mem data (by omega)
  apply (hload 0 (by decide)).bind
  apply (hload 1 (by decide)).bind
  apply (hload 2 (by decide)).bind
  apply (hload 3 (by decide)).bind
  exact .pure _

theorem computes_loadBe16 (mem : List UInt8) (data : Nat) (h : i + 2 ≤ len) :
    Computes data (data + len) (loadBe16 mem (data + i))
      (readBe16 ((mem.drop data).take len) i) := by
  have hload (j : Nat) (hj : j < 2) : Computes data (data + len) (load mem (data + i + j))
      (byte ((mem.drop data).take len) (i + j)) := by
    rw [Nat.add_assoc]
    exact computes_load mem data (by omega)
  apply (hload 0 (by decide)).bind
  apply (hload 1 (by decide)).bind
  exact .pure _

theorem computes_loadStock (mem : List UInt8) (data : Nat) (h : i + 8 ≤ len) :
    Computes data (data + len) (loadStock mem (data + i))
      (readStock ((mem.drop data).take len) i) := by
  constructor
  case value =>
    apply Vector.ext
    intro j hj
    rw [loadStock, readStock, readStock, Vector.getElem_ofFn, Vector.getElem_ofFn,
      byte_slice mem data (by omega), Nat.add_assoc]
  case inside =>
    intro j hj
    have hrange := List.mem_range'_1.1 hj
    omega

theorem loadBe16_value (mem : List UInt8) (i : Nat) :
    (loadBe16 mem i).value = readBe16 mem i := rfl

theorem loadBe16_places (mem : List UInt8) (i : Nat) :
    (loadBe16 mem i).places = [i, i + 1] := rfl

theorem forall_loadBe16_places {mem : List UInt8} (h : i + 2 ≤ size) :
    ∀ j ∈ (loadBe16 mem i).places, j < size := by
  intro j hj
  rw [loadBe16_places] at hj
  rcases List.mem_cons.1 hj with rfl | hsecond
  · omega
  · obtain rfl := List.mem_singleton.1 hsecond
    omega

end Loads

section Decoders

theorem computes_decodeAt (mem : List UInt8) (data : Nat) {len : Nat}
    (hbook : (letter (byte ((mem.drop data).take len) 0), len) ∈ ItchParser.bookLengths)
    (out : Order) :
    Computes data (data + len)
      (ItchParser.decodeAt mem data (byte ((mem.drop data).take len) 0) out)
      (ItchParser.decode ((mem.drop data).take len) out) := by
  simp only [ItchParser.bookLengths, List.mem_cons, Prod.mk.injEq, List.not_mem_nil,
    or_false] at hbook
  rcases hbook with ⟨ht, rfl⟩ | ⟨ht, rfl⟩ | ⟨ht, rfl⟩ | ⟨ht, rfl⟩ | ⟨ht, rfl⟩ | ⟨ht, rfl⟩ |
    ⟨ht, rfl⟩ | ⟨ht, rfl⟩
  · simp only [ItchParser.decodeAt, ItchParser.decode, ht]
    apply (computes_loadBe mem data (by decide)).bind
    apply (computes_load mem data (by decide)).bind
    apply (computes_loadBe32 mem data (by decide)).bind
    apply (computes_loadStock mem data (by decide)).bind
    apply (computes_loadBe32 mem data (by decide)).bind
    exact .pure _
  · simp only [ItchParser.decodeAt, ItchParser.decode, ht]
    apply (computes_loadBe mem data (by decide)).bind
    apply (computes_load mem data (by decide)).bind
    apply (computes_loadBe32 mem data (by decide)).bind
    apply (computes_loadStock mem data (by decide)).bind
    apply (computes_loadBe32 mem data (by decide)).bind
    exact .pure _
  · simp only [ItchParser.decodeAt, ItchParser.decode, ht]
    apply (computes_loadBe mem data (by decide)).bind
    apply (computes_loadBe32 mem data (by decide)).bind
    apply (computes_loadBe mem data (by decide)).bind
    exact .pure _
  · simp only [ItchParser.decodeAt, ItchParser.decode, ht]
    apply (computes_loadBe mem data (by decide)).bind
    apply (computes_loadBe32 mem data (by decide)).bind
    apply (computes_loadBe mem data (by decide)).bind
    apply (computes_loadBe32 mem data (by decide)).bind
    apply (computes_load mem data (by decide)).bind
    exact .pure _
  · simp only [ItchParser.decodeAt, ItchParser.decode, ht]
    apply (computes_loadBe mem data (by decide)).bind
    apply (computes_loadBe32 mem data (by decide)).bind
    exact .pure _
  · simp only [ItchParser.decodeAt, ItchParser.decode, ht]
    apply (computes_loadBe mem data (by decide)).bind
    exact .pure _
  · simp only [ItchParser.decodeAt, ItchParser.decode, ht]
    apply (computes_loadBe mem data (by decide)).bind
    apply (computes_loadBe mem data (by decide)).bind
    apply (computes_loadBe32 mem data (by decide)).bind
    apply (computes_loadBe32 mem data (by decide)).bind
    exact .pure _
  · simp only [ItchParser.decodeAt, ItchParser.decode, ht]
    apply (computes_loadBe mem data (by decide)).bind
    apply (computes_load mem data (by decide)).bind
    apply (computes_loadBe32 mem data (by decide)).bind
    apply (computes_loadStock mem data (by decide)).bind
    apply (computes_loadBe32 mem data (by decide)).bind
    apply (computes_loadBe mem data (by decide)).bind
    exact .pure _

theorem computes_parseAt (mem : List UInt8) (data : Nat) {len : Nat}
    (hlen : data + len ≤ mem.length) (c : Counts) :
    Computes data (data + len) (ItchParser.parseAt c mem data len)
      (ItchParser.parse c ((mem.drop data).take len)) := by
  have hslice := length_slice hlen
  rw [ItchParser.parseAt, ItchParser.parse, hslice]
  split
  case isTrue => exact .pure _
  case isFalse hlong =>
    apply (computes_load mem data (by omega : 0 < len)).bind
    dsimp only
    split
    case isTrue => exact .pure _
    case isFalse =>
      split
      case isTrue => exact .pure _
      case isFalse hexpect =>
        split
        case isTrue => exact .pure _
        case isFalse hkind =>
          apply (computes_loadBe16 mem data (by omega)).bind
          apply (computes_loadBe mem data (by omega)).bind
          have hbook := (ItchParser.bookLengths_iff _ _).2 ⟨not_not.1 hkind, not_not.1 hexpect⟩
          apply (computes_decodeAt mem data hbook _).bind
          rw [readBe48]
          cases ItchParser.decode ((mem.drop data).take len) _ with
          | none => exact .pure _
          | some out => exact .pure _

theorem computes_feedAt (mem : List UInt8) (data : Nat) {len : Nat}
    (hlen : data + len ≤ mem.length) (d : SymbolDirectory) :
    Computes data (data + len) (d.feedAt mem data len) (d.feed ((mem.drop data).take len)) := by
  have hslice := length_slice hlen
  rw [SymbolDirectory.feedAt, SymbolDirectory.feed, hslice]
  split
  case isTrue hne =>
    rw [if_pos (.inl hne)]
    exact .pure _
  case isFalse heq =>
    apply (computes_load mem data (by omega : 0 < len)).bind
    split
    case isTrue hne =>
      rw [if_pos (.inr hne)]
      exact .pure _
    case isFalse hletter =>
      rw [if_neg (not_or.2 ⟨heq, hletter⟩)]
      apply (computes_loadBe16 mem data (by omega)).bind
      apply (computes_loadStock mem data (by omega)).bind
      dsimp only [SymbolDirectory.adopt]
      cases SymbolDirectory.settlePending _ d.pending with
      | some pending => exact .pure _
      | none => exact .pure _

theorem computes_filtersAt (mem : List UInt8) (data : Nat) {len : Nat} (d : SymbolDirectory) :
    Computes data (data + len) (d.filtersAt mem data len)
      (decide (len ≥ 3 ∧ d.isSubscribed (readBe16 ((mem.drop data).take len) 1) = false)) := by
  rw [SymbolDirectory.filtersAt]
  split
  case isTrue hlong =>
    apply (computes_loadBe16 mem data (by omega)).bind
    cases hs : d.isSubscribed (readBe16 ((mem.drop data).take len) 1) with
    | true =>
      rw [decide_eq_false (fun h => Bool.noConfusion h.2)]
      exact .pure _
    | false =>
      rw [decide_eq_true ⟨hlong, rfl⟩]
      exact .pure _
  case isFalse hshort =>
    rw [decide_eq_false (fun h => hshort h.1)]
    exact .pure _

def outcome (directory : Option SymbolDirectory) (c : Counts) (msg : Body) : Outcome :=
  match directory with
  | none => .parsed (ItchParser.parse c msg)
  | some d =>
    match d.feed msg with
    | some d => .learnt d
    | none =>
      if msg.length ≥ 3 ∧ d.isSubscribed (readBe16 msg 1) = false then .filtered
      else .parsed (ItchParser.parse c msg)

theorem computes_outcomeAt (mem : List UInt8) (data : Nat) {len : Nat}
    (hlen : data + len ≤ mem.length) (directory : Option SymbolDirectory) (c : Counts) :
    Computes data (data + len) (outcomeAt directory c mem data len)
      (outcome directory c ((mem.drop data).take len)) := by
  have hparse : Computes data (data + len)
      (do let result ← ItchParser.parseAt c mem data len; pure (Outcome.parsed result))
      (.parsed (ItchParser.parse c ((mem.drop data).take len))) :=
    (computes_parseAt mem data hlen c).bind (.pure _)
  cases directory with
  | none => exact hparse
  | some d =>
    apply (computes_feedAt mem data hlen d).bind
    rw [outcome]
    cases d.feed ((mem.drop data).take len) with
    | some d' => exact .pure _
    | none =>
      apply (computes_filtersAt mem data d).bind
      rw [length_slice hlen]
      dsimp only
      split
      case isTrue hf =>
        rw [if_pos (of_decide_eq_true hf)]
        exact .pure _
      case isFalse hf =>
        rw [if_neg (of_decide_eq_false (eq_false_of_ne_true hf))]
        exact hparse

end Decoders

theorem UdpReceiver.settle_outcome (r : UdpReceiver) (msg : Body) :
    r.settle (outcome r.directory r.counts msg) = r.handle msg := by
  obtain ⟨directory, counts, _, _, _, _, _, _, _, _, _, _⟩ := r
  have hparse (r : UdpReceiver) :
      r.settle (.parsed (ItchParser.parse r.counts msg)) = r.parse msg := by
    rw [UdpReceiver.parse]
    cases ItchParser.parse r.counts msg with
    | mk order counts => cases order <;> rfl
  rw [outcome.eq_def, UdpReceiver.handle]
  cases directory with
  | none => exact hparse _
  | some d =>
    dsimp only
    cases d.feed msg with
    | some d' => rfl
    | none =>
      dsimp only
      split
      case isTrue => rfl
      case isFalse => exact hparse _

theorem ItchReplay.settle_outcome (s : ItchReplay) (msg : Body) :
    s.settle msg.length (outcome s.directory s.counts msg) = s.handle msg := by
  obtain ⟨directory, counts, total, parsed, skipped, filtered, learnt, bytes, orders⟩ := s
  rw [outcome.eq_def, ItchReplay.handle]
  cases directory with
  | none =>
    dsimp only
    cases ItchParser.parse counts msg with
    | mk order counts => cases order <;> rfl
  | some d =>
    dsimp only
    cases d.feed msg with
    | some d' => rfl
    | none =>
      dsimp only
      split
      case isTrue => rfl
      case isFalse =>
        cases ItchParser.parse counts msg with
        | mk order counts => cases order <;> rfl

namespace Handed

/-- Messages one behind another, each behind its two bytes of length, that are read only inside. -/
def Consecutive (size : Nat) : (off : Nat) → List Handed → Prop
  | _, [] => True
  | off, m :: rest => m.start = off + 2 ∧ m.start + m.length ≤ size ∧
      (∀ i ∈ m.places, m.start ≤ i ∧ i < m.start + m.length) ∧
      Consecutive size (m.start + m.length) rest

theorem Consecutive.start_le (h : Consecutive size off messages) :
    ∀ m ∈ messages, off ≤ m.start := by
  induction messages generalizing off with
  | nil =>
    intro m hm
    cases hm
  | cons m rest ih =>
    obtain ⟨hstart, -, -, hrest⟩ := h
    intro m' hm'
    rcases List.mem_cons.1 hm' with rfl | hmem
    · omega
    · have hle := ih hrest m' hmem
      omega

/-- No two messages share a byte, and they come in the order in which they lie. -/
theorem Consecutive.pairwise (h : Consecutive size off messages) :
    messages.Pairwise fun m m' => m.start + m.length ≤ m'.start := by
  induction messages generalizing off with
  | nil => exact .nil
  | cons m rest ih => exact .cons h.2.2.2.start_le (ih h.2.2.2)

theorem Consecutive.inside (h : Consecutive size off messages) :
    ∀ m ∈ messages, m.start + m.length ≤ size ∧
      ∀ i ∈ m.places, m.start ≤ i ∧ i < m.start + m.length := by
  induction messages generalizing off with
  | nil =>
    intro m hm
    cases hm
  | cons m rest ih =>
    obtain ⟨-, hfits, hplaces, hrest⟩ := h
    intro m' hm'
    rcases List.mem_cons.1 hm' with rfl | hmem
    · exact ⟨hfits, hplaces⟩
    · exact ih hrest m' hmem

end Handed

namespace LoopTrace

/-- What a loop that begins at `off` may do to a buffer of `size` bytes. -/
structure Safe (size off : Nat) (t : LoopTrace) : Prop where
  framing : ∀ i ∈ t.framing, i < size
  exact : ∀ sum ∈ t.sums, sum.1.toNat + sum.2.toNat < 2 ^ 32
  consecutive : Handed.Consecutive size off t.handed

theorem append_empty (t : LoopTrace) : t.append {} = t := by
  rw [append, List.append_nil, List.append_nil, List.append_nil]

theorem safe_stop {t : LoopTrace} (hframing : ∀ i ∈ t.framing, i < size)
    (hexact : ∀ sum ∈ t.sums, sum.1.toNat + sum.2.toNat < 2 ^ 32) (hnone : t.handed = []) :
    t.Safe size off := by
  apply Safe.mk hframing hexact
  rw [hnone]
  trivial

theorem Safe.step {t rest : LoopTrace} {m : Handed} (hframing : ∀ i ∈ t.framing, i < size)
    (hexact : ∀ sum ∈ t.sums, sum.1.toNat + sum.2.toNat < 2 ^ 32) (hone : t.handed = [m])
    (hstart : m.start = off + 2) (hfits : m.start + m.length ≤ size)
    (hplaces : ∀ i ∈ m.places, m.start ≤ i ∧ i < m.start + m.length)
    (hrest : rest.Safe size (m.start + m.length)) : (t.append rest).Safe size off := by
  constructor
  case framing =>
    intro i hi
    rcases List.mem_append.1 hi with hleft | hright
    · exact hframing i hleft
    · exact hrest.framing i hright
  case exact =>
    intro sum hsum
    rcases List.mem_append.1 hsum with hleft | hright
    · exact hexact sum hleft
    · exact hrest.exact sum hright
  case consecutive =>
    rw [append, hone]
    exact ⟨hstart, hfits, hplaces, hrest.consecutive⟩

theorem Safe.last {t : LoopTrace} {m : Handed} (hframing : ∀ i ∈ t.framing, i < size)
    (hexact : ∀ sum ∈ t.sums, sum.1.toNat + sum.2.toNat < 2 ^ 32) (hone : t.handed = [m])
    (hstart : m.start = off + 2) (hfits : m.start + m.length ≤ size)
    (hplaces : ∀ i ∈ m.places, m.start ≤ i ∧ i < m.start + m.length) : t.Safe size off := by
  have hempty : ({} : LoopTrace).Safe size (m.start + m.length) :=
    safe_stop (List.forall_mem_nil _) (List.forall_mem_nil _) rfl
  have hstep := Safe.step hframing hexact hone hstart hfits hplaces hempty
  rw [append_empty] at hstep
  exact hstep

end LoopTrace

section Datagram

theorem toNat_add_of_le (off k : UInt32) (hoff : off.toNat ≤ 2048) (hk : k.toNat < 2 ^ 16) :
    (off + k).toNat = off.toNat + k.toNat ∧ off.toNat + k.toNat < 2 ^ 32 := by
  rw [UInt32.toNat_add]
  omega

/-- A message handed on is what the model hands on, and only its own bytes are read. -/
theorem UdpReceiver.settle_outcomeAt (r : UdpReceiver) (mem : Datagram) {data len : Nat}
    (hlen : data + len ≤ mem.length) (seq : UInt64) :
    { r.settle (outcomeAt r.directory r.counts mem data len).value with
        handed := r.handed ++ [(seq, (mem.drop data).take len)] } =
      r.handOn seq ((mem.drop data).take len) := by
  rw [(computes_outcomeAt mem data hlen r.directory r.counts).value, settle_outcome, handOn]

theorem UdpReceiver.unpackAt_spec (mem : Datagram) (hmem : mem.length ≤ 2048) (left : Nat)
    (seq : UInt64) (off : UInt32) (r : UdpReceiver) (hoff : off.toNat ≤ mem.length) :
    (unpackAt mem (UInt32.ofNat mem.length) left seq off r).1 = unpack mem left seq off.toNat r ∧
      (unpackAt mem (UInt32.ofNat mem.length) left seq off r).2.Safe mem.length off.toNat := by
  have hn : (UInt32.ofNat mem.length).toNat = mem.length := by
    rw [UInt32.toNat_ofNat']
    omega
  induction left generalizing seq off r with
  | zero => exact ⟨rfl, LoopTrace.safe_stop (List.forall_mem_nil _) (List.forall_mem_nil _) rfl⟩
  | succ left ih =>
    obtain ⟨hadd, hexact⟩ := toNat_add_of_le off 2 (Nat.le_trans hoff hmem) (by decide)
    rw [unpackAt, unpack]
    have hgt : off + 2 > UInt32.ofNat mem.length ↔ off.toNat + 2 > mem.length := by
      rw [gt_iff_lt, UInt32.lt_iff_toNat_lt, hn, hadd]
      rfl
    have hsum : ∀ sum ∈ [(off, (2 : UInt32))], sum.1.toNat + sum.2.toNat < 2 ^ 32 :=
      List.forall_mem_singleton.2 hexact
    by_cases hshort : off.toNat + 2 > mem.length
    · rw [if_pos (hgt.2 hshort), if_pos hshort]
      exact ⟨rfl, LoopTrace.safe_stop (List.forall_mem_nil _) hsum rfl⟩
    · rw [if_neg (mt hgt.1 hshort), if_neg hshort]
      have hframing : ∀ i ∈ (loadBe16 mem off.toNat).places, i < mem.length :=
        forall_loadBe16_places (Nat.le_of_not_gt hshort)
      have hlen := UInt16.toNat_toUInt32 (readBe16 mem off.toNat)
      have hlt := (readBe16 mem off.toNat).toNat_lt
      have hoff' : (off + 2).toNat = off.toNat + 2 := hadd
      obtain ⟨hadd', hexact'⟩ := toNat_add_of_le (off + 2)
        (readBe16 mem off.toNat).toUInt32 (by omega) (by omega)
      dsimp only
      rw [loadBe16_value]
      by_cases hzero : readBe16 mem off.toNat = 0
      · rw [if_pos hzero, if_pos (.inl (congrArg UInt16.toNat hzero))]
        exact ⟨rfl, LoopTrace.safe_stop hframing hsum rfl⟩
      · have hne : (readBe16 mem off.toNat).toNat ≠ 0 := fun h => hzero (UInt16.toNat_inj.1 h)
        have hsums : ∀ sum ∈ [(off, (2 : UInt32))] ++
            [(off + 2, (readBe16 mem off.toNat).toUInt32)],
            sum.1.toNat + sum.2.toNat < 2 ^ 32 :=
          List.forall_mem_append.2 ⟨hsum, List.forall_mem_singleton.2 hexact'⟩
        have hgt' : off + 2 + (readBe16 mem off.toNat).toUInt32 > UInt32.ofNat mem.length ↔
            off.toNat + 2 + (readBe16 mem off.toNat).toNat > mem.length := by
          rw [gt_iff_lt, UInt32.lt_iff_toNat_lt, hn, hadd', hoff', hlen]
        rw [if_neg hzero]
        by_cases hover : off.toNat + 2 + (readBe16 mem off.toNat).toNat > mem.length
        · rw [if_pos (hgt'.2 hover), if_pos (.inr hover)]
          exact ⟨rfl, LoopTrace.safe_stop hframing hsums rfl⟩
        · rw [if_neg (mt hgt'.1 hover), if_neg (not_or.2 ⟨hne, hover⟩), hlen, hoff']
          have hfits := Nat.le_of_not_gt hover
          have hinside := (computes_outcomeAt mem (off.toNat + 2) hfits r.directory r.counts).inside
          rw [settle_outcomeAt r mem hfits seq]
          have hend : (off + 2 + (readBe16 mem off.toNat).toUInt32).toNat =
              off.toNat + 2 + (readBe16 mem off.toNat).toNat := by
            rw [hadd', hoff', hlen]
          obtain ⟨hvalue, hsafe⟩ := ih (seq + 1) (off + 2 + (readBe16 mem off.toNat).toUInt32)
            (r.handOn seq ((mem.drop (off.toNat + 2)).take (readBe16 mem off.toNat).toNat))
            (hend ▸ hfits)
          rw [hend] at hvalue hsafe
          exact ⟨hvalue, .step hframing hsums rfl rfl hfits hinside hsafe⟩

theorem UdpReceiver.receiveAt_spec (r : UdpReceiver) (mem : Datagram) (hmem : mem.length ≤ 2048) :
    (r.receiveAt mem).1 = r.receive mem ∧ (r.receiveAt mem).2.Safe mem.length moldHeader := by
  have hlt : UInt32.ofNat mem.length < UInt32.ofNat moldHeader ↔ mem.length < moldHeader := by
    rw [UInt32.lt_iff_toNat_lt, UInt32.toNat_ofNat', UInt32.toNat_ofNat', moldHeader]
    omega
  rw [receiveAt, receive]
  by_cases hshort : mem.length < moldHeader
  · rw [if_pos (hlt.2 hshort), if_pos hshort]
    exact ⟨rfl, LoopTrace.safe_stop (List.forall_mem_nil _) (List.forall_mem_nil _) rfl⟩
  · rw [if_neg (mt hlt.1 hshort), if_neg hshort]
    have hheader : 20 ≤ mem.length := Nat.le_of_not_lt hshort
    have hseq := computes_loadBe mem 0 (by omega : 10 + 8 ≤ mem.length)
    have hwhole : (mem.drop 0).take mem.length = mem := List.take_length
    rw [hwhole, Nat.zero_add, Nat.zero_add] at hseq
    have hvalue : (loadBe mem 8 10).value = readBe64 mem 10 := hseq.value
    obtain ⟨hloop, hsafe⟩ := unpackAt_spec mem hmem (readBe16 mem 18).toNat (readBe64 mem 10)
      (UInt32.ofNat moldHeader) (r.sequence (readBe64 mem 10) (readBe16 mem 18)) hheader
    dsimp only
    rw [hvalue, loadBe16_value]
    refine ⟨hloop, ?_⟩
    constructor
    case framing =>
      intro i hi
      rcases List.mem_append.1 hi with hheader' | hrest
      · rcases List.mem_append.1 hheader' with hleft | hright
        · exact (hseq.inside i hleft).2
        · exact forall_loadBe16_places hheader i hright
      · exact hsafe.framing i hrest
    case exact => exact hsafe.exact
    case consecutive => exact hsafe.consecutive

end Datagram

section File

theorem ItchReplay.reachesParser_eq (s : ItchReplay) (msg : Body) :
    s.reachesParser msg = (outcome s.directory s.counts msg).reachesEnd := by
  rw [reachesParser, outcome.eq_def]
  cases s.directory with
  | none => rfl
  | some d =>
    dsimp only
    cases d.feed msg with
    | some d' => rfl
    | none =>
      by_cases hlong : msg.length ≥ 3
      · cases hsub : d.isSubscribed (readBe16 msg 1) with
        | true =>
          rw [decide_eq_true hlong, if_neg (fun h => Bool.noConfusion h.2)]
          rfl
        | false =>
          rw [decide_eq_true hlong, if_pos ⟨hlong, rfl⟩]
          rfl
      · rw [decide_eq_false hlong, if_neg (fun h => hlong h.1)]
        rfl

theorem ItchReplay.replayLoopAt_spec (maxMessages : Nat) (mem : List UInt8) (fuel p : Nat)
    (s : ItchReplay) :
    (replayLoopAt maxMessages mem fuel p s).1 = replayLoop maxMessages mem fuel p s ∧
      (replayLoopAt maxMessages mem fuel p s).2.Safe mem.length p := by
  induction fuel generalizing p s with
  | zero => exact ⟨rfl, LoopTrace.safe_stop (List.forall_mem_nil _) (List.forall_mem_nil _) rfl⟩
  | succ fuel ih =>
    rw [replayLoopAt, replayLoop]
    by_cases hroom : p + 2 ≤ mem.length
    · rw [if_pos hroom, if_pos hroom]
      have hframing : ∀ i ∈ (loadBe16 mem p).places, i < mem.length :=
        forall_loadBe16_places hroom
      have hsums : ∀ sum ∈ ([] : List (UInt32 × UInt32)),
          sum.1.toNat + sum.2.toNat < 2 ^ 32 := List.forall_mem_nil _
      dsimp only
      rw [loadBe16_value]
      by_cases hstop : (readBe16 mem p).toNat = 0 ∨ p + 2 + (readBe16 mem p).toNat > mem.length
      · rw [if_pos hstop, if_pos hstop]
        exact ⟨rfl, LoopTrace.safe_stop hframing hsums rfl⟩
      · rw [if_neg hstop, if_neg hstop]
        have hfits := Nat.le_of_not_gt (not_or.1 hstop).2
        have hcomputes := computes_outcomeAt mem (p + 2) hfits s.directory s.counts
        have hslice := length_slice hfits
        have hsettle := s.settle_outcome ((mem.drop (p + 2)).take (readBe16 mem p).toNat)
        rw [hslice] at hsettle
        rw [hcomputes.value, hsettle, ← reachesParser_eq]
        by_cases htest : maxMessages ≠ 0 ∧
            s.reachesParser ((mem.drop (p + 2)).take (readBe16 mem p).toNat) ∧
            (s.handle ((mem.drop (p + 2)).take (readBe16 mem p).toNat)).messagesTotal ≥
              maxMessages
        · rw [if_pos htest, if_pos htest]
          exact ⟨rfl, .last hframing hsums rfl rfl hfits hcomputes.inside⟩
        · rw [if_neg htest, if_neg htest]
          obtain ⟨hvalue, hsafe⟩ := ih (p + 2 + (readBe16 mem p).toNat)
            (s.handle ((mem.drop (p + 2)).take (readBe16 mem p).toNat))
          exact ⟨hvalue, .step hframing hsums rfl rfl hfits hcomputes.inside hsafe⟩
    · rw [if_neg hroom, if_neg hroom]
      exact ⟨rfl, LoopTrace.safe_stop (List.forall_mem_nil _) (List.forall_mem_nil _) rfl⟩

end File

/-- Exactly one of the four counters goes up. -/
inductive Counts.Ticks (c : Counts) : Counts → Prop where
  | parsed : Ticks c { c with parsed := c.parsed + 1 }
  | ignored : Ticks c { c with ignored := c.ignored + 1 }
  | malformed : Ticks c { c with malformed := c.malformed + 1 }
  | unknown : Ticks c { c with unknown := c.unknown + 1 }

/-- What a call of the parser returns and which counter it moves. -/
theorem ItchParser.parse_cases (c : Counts) (data : Body) :
    (∃ out, parse c data = (some out, { c with parsed := c.parsed + 1 })) ∨
      parse c data = (none, { c with ignored := c.ignored + 1 }) ∨
      parse c data = (none, { c with malformed := c.malformed + 1 }) ∨
      parse c data = (none, { c with unknown := c.unknown + 1 }) := by
  rw [parse]
  split
  · exact .inr (.inr (.inl rfl))
  · dsimp only
    split
    · exact .inr (.inr (.inr rfl))
    · split
      · exact .inr (.inr (.inl rfl))
      · split
        · exact .inr (.inl rfl)
        · cases decode data _ with
          | some out => exact .inl ⟨_, rfl⟩
          | none => exact .inr (.inl rfl)

theorem ItchParser.parse_ticks (c : Counts) (data : Body) : c.Ticks (parse c data).2 := by
  rcases parse_cases c data with ⟨out, h⟩ | h | h | h
  · exact h ▸ .parsed
  · exact h ▸ .ignored
  · exact h ▸ .malformed
  · exact h ▸ .unknown

/-- Whatever the bytes and the directory, the decoders do what they do without reading outside of
the datagram or file, nor outside of the message at hand. -/
theorem feed_decoders_safe :
    (∀ (r : UdpReceiver) (buf : Datagram), buf.length ≤ 2048 →
      (r.receiveAt buf).1 = r.receive buf ∧
        (r.receiveAt buf).2.Safe buf.length UdpReceiver.moldHeader ∧
        (r.receiveAt buf).2.handed.Pairwise fun m m' => m.start + m.length ≤ m'.start) ∧
      (∀ (maxMessages : Nat) (file : List UInt8) (s : ItchReplay),
        (ItchReplay.replayAllAt maxMessages file s).1 = ItchReplay.replayAll maxMessages file s ∧
          (ItchReplay.replayAllAt maxMessages file s).2.Safe file.length 0 ∧
          (ItchReplay.replayAllAt maxMessages file s).2.handed.Pairwise fun m m' =>
            m.start + m.length ≤ m'.start) ∧
      ∀ (c : Counts) (data : Body), c.Ticks (ItchParser.parse c data).2 := by
  refine ⟨?_, ?_, ItchParser.parse_ticks⟩
  · intro r buf hbuf
    obtain ⟨hvalue, hsafe⟩ := r.receiveAt_spec buf hbuf
    exact ⟨hvalue, hsafe, hsafe.consecutive.pairwise⟩
  · intro maxMessages file s
    obtain ⟨hvalue, hsafe⟩ := ItchReplay.replayLoopAt_spec maxMessages file file.length 0 s
    exact ⟨hvalue, hsafe, hsafe.consecutive.pairwise⟩

/-- A datagram of three messages: a delete, an Add, and one that is cut short. -/
def cutDatagram : Datagram :=
  List.replicate 19 0 ++ [3] ++ ([0, 19, 68] ++ List.replicate 18 7) ++
    ([0, 36, 65] ++ List.replicate 35 66) ++ [0, 40, 69, 0, 1]

theorem cutDatagram_safe :
    let handed := (({} : UdpReceiver).receiveAt cutDatagram).2.handed
    handed.map (fun m => (m.start, m.length)) = [(22, 19), (43, 36)] ∧
      (({} : UdpReceiver).receiveAt cutDatagram).2.Safe 84 20 ∧
      handed.Pairwise fun m m' => m.start + m.length ≤ m'.start := by
  obtain ⟨-, hsafe, hapart⟩ := feed_decoders_safe.1 {} cutDatagram (by decide)
  exact ⟨by decide +kernel, hsafe, hapart⟩

end Tickpipe
