import Tickpipe.ItchParser

set_option autoImplicit true

namespace Tickpipe
open Bytes (beBytes)

/-- What a book message carries behind its heading. The letter of a side is `B` for a buy, and an
execution is printable under the letter `Y`. -/
inductive BookPayload where
  | add (ref : UInt64) (side : UInt8) (shares : UInt32) (stock : Stock) (price : UInt32)
  | addMpid (ref : UInt64) (side : UInt8) (shares : UInt32) (stock : Stock) (price : UInt32)
  | executed (ref : UInt64) (shares : UInt32) (matchNumber : UInt64)
  | executedWithPrice (ref : UInt64) (shares : UInt32) (matchNumber : UInt64) (printable : UInt8)
      (price : UInt32)
  | cancel (ref : UInt64) (shares : UInt32)
  | delete (ref : UInt64)
  | replace (ref newRef : UInt64) (shares price : UInt32)
  | trade (ref : UInt64) (side : UInt8) (shares : UInt32) (stock : Stock) (price : UInt32)
      (matchNumber : UInt64)
deriving DecidableEq

structure BookMessage where
  locate : UInt16
  timestamp : BitVec 48
  payload : BookPayload

namespace BookPayload

def type : BookPayload → Char
  | .add .. => 'A'
  | .addMpid .. => 'F'
  | .executed .. => 'E'
  | .executedWithPrice .. => 'C'
  | .cancel .. => 'X'
  | .delete .. => 'D'
  | .replace .. => 'U'
  | .trade .. => 'P'

def length : BookPayload → Nat
  | .add .. => 36
  | .addMpid .. => 40
  | .executed .. => 31
  | .executedWithPrice .. => 36
  | .cancel .. => 23
  | .delete .. => 19
  | .replace .. => 35
  | .trade .. => 44

/-- The fields of each type under their offsets. -/
def fields : BookPayload → List (Nat × List UInt8)
  | .add ref side shares stock price | .addMpid ref side shares stock price =>
    [(11, beBytes 8 ref.toNat), (19, [side]), (20, beBytes 4 shares.toNat), (24, stock.toList),
      (32, beBytes 4 price.toNat)]
  | .executed ref shares matchNumber =>
    [(11, beBytes 8 ref.toNat), (19, beBytes 4 shares.toNat), (23, beBytes 8 matchNumber.toNat)]
  | .executedWithPrice ref shares matchNumber printable price =>
    [(11, beBytes 8 ref.toNat), (19, beBytes 4 shares.toNat), (23, beBytes 8 matchNumber.toNat),
      (31, [printable]), (32, beBytes 4 price.toNat)]
  | .cancel ref shares => [(11, beBytes 8 ref.toNat), (19, beBytes 4 shares.toNat)]
  | .delete ref => [(11, beBytes 8 ref.toNat)]
  | .replace ref newRef shares price =>
    [(11, beBytes 8 ref.toNat), (19, beBytes 8 newRef.toNat), (27, beBytes 4 shares.toNat),
      (31, beBytes 4 price.toNat)]
  | .trade ref side shares stock price matchNumber =>
    [(11, beBytes 8 ref.toNat), (19, [side]), (20, beBytes 4 shares.toNat), (24, stock.toList),
      (32, beBytes 4 price.toNat), (36, beBytes 8 matchNumber.toNat)]

def sideOf (side : UInt8) : Side := if letter side = 'B' then .buy else .sell

/-- The fields of the order that a payload sets. -/
def order (out : Order) : BookPayload → Order
  | .add ref side shares stock price | .addMpid ref side shares stock price =>
    { out with
      action := .add, orderRef := ref, side := sideOf side, quantity := shares, stock := stock,
      price := price }
  | .executed ref shares matchNumber =>
    { out with action := .execute, orderRef := ref, quantity := shares, matchNumber := matchNumber }
  | .executedWithPrice ref shares matchNumber printable price =>
    { out with
      action := .execute, orderRef := ref, quantity := shares, price := price,
      matchNumber := if letter printable = 'Y' then matchNumber else 0 }
  | .cancel ref shares => { out with action := .cancel, orderRef := ref, quantity := shares }
  | .delete ref => { out with action := .delete, orderRef := ref }
  | .replace ref newRef shares price =>
    { out with
      action := .replace, orderRef := ref, newOrderRef := newRef, quantity := shares,
      price := price }
  | .trade ref side shares stock price matchNumber =>
    { out with
      action := .trade, orderRef := ref, side := sideOf side, quantity := shares, stock := stock,
      price := price, matchNumber := matchNumber }

end BookPayload

namespace BookMessage

/-- A body in which a message is laid out. The bytes between its fields are arbitrary. -/
structure LaidOut (m : BookMessage) (data : Body) : Prop where
  length : data.length = m.payload.length
  type : letter (byte data 0) = m.payload.type
  locate : Holds data 1 (beBytes 2 m.locate.toNat)
  timestamp : Holds data 5 (beBytes 6 m.timestamp.toNat)
  fields : ∀ f ∈ m.payload.fields, Holds data f.1 f.2

/-- The order that carries a message and nothing else. -/
def order (m : BookMessage) : Order :=
  m.payload.order
    { stockLocate := m.locate, timestampNs := UInt64.ofNat m.timestamp.toNat, valid := 1 }

end BookMessage

/-- Fields that follow each other from an offset on. -/
def Contiguous : Nat → List (Nat × List UInt8) → Prop
  | _, [] => True
  | i, f :: fs => f.1 = i ∧ Contiguous (i + f.2.length) fs

theorem Contiguous.holds (h : Contiguous l.length fs) (r : List UInt8) :
    ∀ f ∈ fs, Holds (l ++ fs.flatMap Prod.snd ++ r) f.1 f.2 := by
  induction fs generalizing l with
  | nil => exact List.forall_mem_nil _
  | cons f fs ih =>
    obtain ⟨hf, hrest⟩ := h
    rw [← List.length_append] at hrest
    have hlist : l ++ (f :: fs).flatMap Prod.snd ++ r =
        (l ++ f.2) ++ fs.flatMap Prod.snd ++ r := by
      rw [List.flatMap_cons, List.append_assoc l f.2]
    rw [hlist, List.forall_mem_cons]
    refine ⟨⟨l, fs.flatMap Prod.snd ++ r, ?_, hf.symm⟩, ih hrest⟩
    rw [List.append_assoc]

theorem BookPayload.contiguous (p : BookPayload) : Contiguous 11 p.fields := by
  cases p <;> simp [BookPayload.fields, Contiguous]

namespace BookPayload

def used (p : BookPayload) : List UInt8 := p.fields.flatMap Prod.snd

/-- An attribution fills what the fields leave of an `F`; they leave nothing of the others. -/
theorem used_length (p : BookPayload) {attribution : List UInt8} (ha : attribution.length = 4) :
    11 + p.used.length + (attribution.take (p.length - (11 + p.used.length))).length =
        p.length := by
  rw [List.length_take, ha]
  cases p <;> simp [used, fields, length]

end BookPayload

namespace BookMessage

def heading (tracking : List UInt8) (m : BookMessage) : List UInt8 :=
  [UInt8.ofNat m.payload.type.toNat] ++ beBytes 2 m.locate.toNat ++ tracking ++
    beBytes 6 m.timestamp.toNat

/-- A body of a message, with what its unused bytes hold. -/
def body (tracking attribution : List UInt8) (m : BookMessage) : Body :=
  m.heading tracking ++ m.payload.used ++
    attribution.take (m.payload.length - (11 + m.payload.used.length))

theorem length_heading (m : BookMessage) (ht : tracking.length = 2) :
    (m.heading tracking).length = 11 := by
  rw [heading]
  simp only [List.length_append, List.length_singleton, Bytes.length_beBytes, ht]

/-- There is a body for every message, and for all that its unused bytes may hold. -/
theorem body_laidOut (m : BookMessage) (ht : tracking.length = 2) (ha : attribution.length = 4) :
    m.LaidOut (m.body tracking attribution) := by
  have hheading := m.length_heading ht
  have hcontiguous := m.payload.contiguous
  rw [← hheading] at hcontiguous
  let rest := m.payload.used ++
    attribution.take (m.payload.length - (11 + m.payload.used.length))
  have hbody : m.body tracking attribution = m.heading tracking ++ rest := List.append_assoc ..
  refine ⟨?_, ?_, ?_, ?_, hcontiguous.holds _⟩
  · rw [body, List.length_append, List.length_append, hheading]
    exact m.payload.used_length ha
  · have hbyte : byte (m.body tracking attribution) 0 = UInt8.ofNat m.payload.type.toNat := rfl
    rw [hbyte]
    cases m.payload <;> rfl
  · rw [hbody]
    exact ⟨[UInt8.ofNat m.payload.type.toNat], tracking ++ beBytes 6 m.timestamp.toNat ++ rest,
      by simp only [heading, List.append_assoc], rfl⟩
  · rw [hbody]
    refine ⟨[UInt8.ofNat m.payload.type.toNat] ++ beBytes 2 m.locate.toNat ++ tracking, rest, rfl,
      ?_⟩
    simp only [List.length_append, List.length_singleton, Bytes.length_beBytes, ht]

end BookMessage

namespace ItchParser

/-- The types that concern the book, each with its length. -/
def bookLengths : List (Char × Nat) :=
  [('A', 36), ('F', 40), ('E', 31), ('C', 36), ('X', 23), ('D', 19), ('U', 35), ('P', 44)]

theorem readStock_of_holds {stock : Stock} (h : Holds data i stock.toList) :
    readStock data i = stock := by
  apply Vector.ext
  intro j hj
  have hlen : j < stock.toList.length := stock.length_toList.symm ▸ hj
  rw [readStock, Vector.getElem_ofFn, h.byte_add hlen, byte, List.getD_eq_getElem _ _ hlen,
    Vector.getElem_toList]

theorem holds_readStock {data : Body} (h : i + 8 ≤ data.length) :
    Holds data i (readStock data i).toList := by
  have hslice := holds_slice h
  have hlen := length_slice h
  have hstock : (readStock data i).toList = (data.drop i).take 8 := by
    apply List.ext_getElem
    · rw [hlen, Vector.length_toList]
    · intro j hj _
      have hj8 : j < 8 := by
        rw [Vector.length_toList] at hj
        exact hj
      have hread : (readStock data i)[j] = byte data (i + j) := Vector.getElem_ofFn hj8
      rw [Vector.getElem_toList, hread, List.getElem_take, List.getElem_drop, byte,
        List.getD_eq_getElem _ _ (by omega)]
  rw [hstock]
  exact hslice

theorem bookLengths_iff (type : UInt8) (n : Nat) :
    (letter type, n) ∈ bookLengths ↔ isBookMessage type = true ∧ n = expectedLength type := by
  simp only [bookLengths, List.mem_cons, Prod.mk.injEq, List.not_mem_nil, or_false]
  constructor
  · rintro (h | h | h | h | h | h | h | h) <;>
      simp only [isBookMessage, expectedLength, h, and_self]
  · rintro ⟨hb, rfl⟩
    rw [isBookMessage] at hb
    split at hb <;> simp_all [expectedLength]

/-- A body of a book message: the type is one of the table and so is the length. -/
def IsBook (data : Body) : Prop := (letter (byte data 0), data.length) ∈ bookLengths

instance (data : Body) : Decidable (IsBook data) :=
  inferInstanceAs (Decidable (_ ∈ bookLengths))

theorem IsBook.long (h : IsBook data) : 19 ≤ data.length := by
  simp only [IsBook, bookLengths, List.mem_cons, Prod.mk.injEq, List.not_mem_nil, or_false] at h
  omega

theorem IsBook.parseInto (h : IsBook data) (hd : decode data
      { stockLocate := readBe16 data 1, timestampNs := readBe48 data 5 } = some order)
    (c : Counts) (out : Order) : parseInto c data out =
      (true, { order with valid := 1 }, { c with parsed := c.parsed + 1 }) := by
  obtain ⟨hb, hlen⟩ := (bookLengths_iff _ _).1 h
  have hlong := h.long
  have hexpect : expectedLength (byte data 0) ≠ 0 := by omega
  rw [ItchParser.parseInto, if_neg (by omega)]
  dsimp only
  rw [if_neg hexpect, if_neg (not_not.2 hlen), if_neg (not_not.2 hb), hd]

/-- Whatever is refused leaves the output alone. -/
theorem parseInto_refused (h : ¬ IsBook data) (c : Counts) (out : Order) :
    (parseInto c data out).1 = false ∧ (parseInto c data out).2.1 = out := by
  rw [IsBook, bookLengths_iff] at h
  rw [ItchParser.parseInto]
  dsimp only
  split
  · exact ⟨rfl, rfl⟩
  · split
    · exact ⟨rfl, rfl⟩
    · split
      · exact ⟨rfl, rfl⟩
      · split
        · exact ⟨rfl, rfl⟩
        · next hlen hb => exact absurd ⟨not_not.1 hb, not_not.1 hlen⟩ h

theorem BookPayload.type_length (p : BookPayload) : (p.type, p.length) ∈ bookLengths := by
  cases p <;> simp [BookPayload.type, BookPayload.length, bookLengths]

variable {m : BookMessage} {data : Body}

theorem isBook_of_laidOut (h : m.LaidOut data) : IsBook data := by
  rw [IsBook, h.type, h.length]
  exact BookPayload.type_length m.payload

/-- What a body of a book message says. -/
def reading (data : Body) : BookMessage where
  locate := readBe16 data 1
  timestamp := BitVec.ofNat 48 (readBe48 data 5).toNat
  payload :=
    let ref := readBe64 data 11
    match letter (byte data 0) with
    | 'A' => .add ref (byte data 19) (readBe32 data 20) (readStock data 24) (readBe32 data 32)
    | 'F' => .addMpid ref (byte data 19) (readBe32 data 20) (readStock data 24) (readBe32 data 32)
    | 'E' => .executed ref (readBe32 data 19) (readBe64 data 23)
    | 'C' => .executedWithPrice ref (readBe32 data 19) (readBe64 data 23) (byte data 31)
        (readBe32 data 32)
    | 'X' => .cancel ref (readBe32 data 19)
    | 'U' => .replace ref (readBe64 data 19) (readBe32 data 27) (readBe32 data 31)
    | 'P' => .trade ref (byte data 19) (readBe32 data 20) (readStock data 24) (readBe32 data 32)
        (readBe64 data 36)
    | 'D' => .delete ref
    | _ => .delete 0

theorem holds_readBe64 {p : List UInt8} (h : i + 8 ≤ p.length) :
    Holds p i (beBytes 8 (readBe64 p i).toNat) := holds_readBe (by decide) h

theorem readBe48_lt (p : List UInt8) (h : i + 6 ≤ p.length) : (readBe48 p i).toNat < 2 ^ 48 := by
  have hlt := Bytes.ofBe_lt ((p.drop i).take 6)
  have hread := (holds_slice h).readBe_eq
  rw [length_slice h] at hlt hread
  rw [readBe48, hread, UInt64.toNat_ofNat']
  omega

theorem payload_of_laidOut (h : m.LaidOut data) : (reading data).payload = m.payload := by
  obtain ⟨locate, timestamp, payload⟩ := m
  have htype := h.type
  have hfields := h.fields
  cases payload with
  | add ref side shares stock price =>
    simp only [BookPayload.fields, List.forall_mem_cons] at hfields
    obtain ⟨href, hside, hshares, hstock, hprice, -⟩ := hfields
    have hside : byte data 19 = side := hside.byte_add (j := 0) Nat.one_pos
    simp only [reading, htype, BookPayload.type, href.readBe64, hside, hshares.readBe32,
      readStock_of_holds hstock, hprice.readBe32]
  | addMpid ref side shares stock price =>
    simp only [BookPayload.fields, List.forall_mem_cons] at hfields
    obtain ⟨href, hside, hshares, hstock, hprice, -⟩ := hfields
    have hside : byte data 19 = side := hside.byte_add (j := 0) Nat.one_pos
    simp only [reading, htype, BookPayload.type, href.readBe64, hside, hshares.readBe32,
      readStock_of_holds hstock, hprice.readBe32]
  | executed ref shares matchNumber =>
    simp only [BookPayload.fields, List.forall_mem_cons] at hfields
    obtain ⟨href, hshares, hmatch, -⟩ := hfields
    simp only [reading, htype, BookPayload.type, href.readBe64,
      hshares.readBe32, hmatch.readBe64]
  | executedWithPrice ref shares matchNumber printable price =>
    simp only [BookPayload.fields, List.forall_mem_cons] at hfields
    obtain ⟨href, hshares, hmatch, hprintable, hprice, -⟩ := hfields
    have hprintable : byte data 31 = printable := hprintable.byte_add (j := 0) Nat.one_pos
    simp only [reading, htype, BookPayload.type, href.readBe64, hshares.readBe32,
      hmatch.readBe64, hprintable, hprice.readBe32]
  | cancel ref shares =>
    simp only [BookPayload.fields, List.forall_mem_cons] at hfields
    obtain ⟨href, hshares, -⟩ := hfields
    simp only [reading, htype, BookPayload.type, href.readBe64,
      hshares.readBe32]
  | delete ref =>
    simp only [BookPayload.fields, List.forall_mem_cons] at hfields
    obtain ⟨href, -⟩ := hfields
    simp only [reading, htype, BookPayload.type, href.readBe64]
  | replace ref newRef shares price =>
    simp only [BookPayload.fields, List.forall_mem_cons] at hfields
    obtain ⟨href, hnew, hshares, hprice, -⟩ := hfields
    simp only [reading, htype, BookPayload.type, href.readBe64,
      hnew.readBe64, hshares.readBe32, hprice.readBe32]
  | trade ref side shares stock price matchNumber =>
    simp only [BookPayload.fields, List.forall_mem_cons] at hfields
    obtain ⟨href, hside, hshares, hstock, hprice, hmatch, -⟩ := hfields
    have hside : byte data 19 = side := hside.byte_add (j := 0) Nat.one_pos
    simp only [reading, htype, BookPayload.type, href.readBe64, hside, hshares.readBe32,
      readStock_of_holds hstock, hprice.readBe32, hmatch.readBe64]

theorem reading_of_laidOut (h : m.LaidOut data) : reading data = m := by
  obtain ⟨locate, timestamp, payload⟩ := m
  have hpayload : (reading data).payload = payload := payload_of_laidOut h
  have hlocate : (reading data).locate = locate := h.locate.readBe16
  have hread : readBe48 data 5 = UInt64.ofNat timestamp.toNat := h.timestamp.readBe timestamp.isLt
  have hlt : timestamp.toNat < 2 ^ 64 := Nat.lt_trans timestamp.isLt (by decide)
  have htimestamp : (reading data).timestamp = timestamp := by
    rw [reading, hread, UInt64.toNat_ofNat', Nat.mod_eq_of_lt hlt, BitVec.ofNat_toNat,
      BitVec.setWidth_eq]
  rw [← hpayload, ← hlocate, ← htimestamp]

theorem IsBook.decode (h : IsBook data) (out : Order) :
    ItchParser.decode data out = some ((reading data).payload.order out) := by
  simp only [IsBook, bookLengths, List.mem_cons, Prod.mk.injEq, List.not_mem_nil, or_false] at h
  rcases h with ⟨ht, -⟩ | ⟨ht, -⟩ | ⟨ht, -⟩ | ⟨ht, -⟩ | ⟨ht, -⟩ | ⟨ht, -⟩ | ⟨ht, -⟩ | ⟨ht, -⟩ <;>
    simp only [ItchParser.decode, reading, ht, BookPayload.order, BookPayload.sideOf, readSide,
      ite_not]

theorem IsBook.payload (h : IsBook data) :
    data.length = (reading data).payload.length ∧
      letter (byte data 0) = (reading data).payload.type ∧
      ∀ f ∈ (reading data).payload.fields, Holds data f.1 f.2 := by
  simp only [IsBook, bookLengths, List.mem_cons, Prod.mk.injEq, List.not_mem_nil, or_false] at h
  rcases h with ⟨ht, hl⟩ | ⟨ht, hl⟩ | ⟨ht, hl⟩ | ⟨ht, hl⟩ | ⟨ht, hl⟩ | ⟨ht, hl⟩ | ⟨ht, hl⟩ |
    ⟨ht, hl⟩
  · simp only [reading, ht, BookPayload.length, BookPayload.type, BookPayload.fields,
      List.forall_mem_cons]
    exact ⟨hl, True.intro, holds_readBe64 (by omega), holds_byte (by omega),
      holds_readBe32 (by omega),
      holds_readStock (by omega), holds_readBe32 (by omega), List.forall_mem_nil _⟩
  · simp only [reading, ht, BookPayload.length, BookPayload.type, BookPayload.fields,
      List.forall_mem_cons]
    exact ⟨hl, True.intro, holds_readBe64 (by omega), holds_byte (by omega),
      holds_readBe32 (by omega),
      holds_readStock (by omega), holds_readBe32 (by omega), List.forall_mem_nil _⟩
  · simp only [reading, ht, BookPayload.length, BookPayload.type, BookPayload.fields,
      List.forall_mem_cons]
    exact ⟨hl, True.intro, holds_readBe64 (by omega), holds_readBe32 (by omega),
      holds_readBe64 (by omega),
      List.forall_mem_nil _⟩
  · simp only [reading, ht, BookPayload.length, BookPayload.type, BookPayload.fields,
      List.forall_mem_cons]
    exact ⟨hl, True.intro, holds_readBe64 (by omega), holds_readBe32 (by omega),
      holds_readBe64 (by omega),
      holds_byte (by omega), holds_readBe32 (by omega), List.forall_mem_nil _⟩
  · simp only [reading, ht, BookPayload.length, BookPayload.type, BookPayload.fields,
      List.forall_mem_cons]
    exact ⟨hl, True.intro, holds_readBe64 (by omega), holds_readBe32 (by omega),
      List.forall_mem_nil _⟩
  · simp only [reading, ht, BookPayload.length, BookPayload.type, BookPayload.fields,
      List.forall_mem_cons]
    exact ⟨hl, True.intro, holds_readBe64 (by omega), List.forall_mem_nil _⟩
  · simp only [reading, ht, BookPayload.length, BookPayload.type, BookPayload.fields,
      List.forall_mem_cons]
    exact ⟨hl, True.intro, holds_readBe64 (by omega), holds_readBe64 (by omega),
      holds_readBe32 (by omega),
      holds_readBe32 (by omega), List.forall_mem_nil _⟩
  · simp only [reading, ht, BookPayload.length, BookPayload.type, BookPayload.fields,
      List.forall_mem_cons]
    exact ⟨hl, True.intro, holds_readBe64 (by omega), holds_byte (by omega),
      holds_readBe32 (by omega),
      holds_readStock (by omega), holds_readBe32 (by omega), holds_readBe64 (by omega),
      List.forall_mem_nil _⟩

/-- Every body of a book message is the layout of what it says. -/
theorem IsBook.laidOut (h : IsBook data) : (reading data).LaidOut data := by
  have hlong := h.long
  obtain ⟨hlength, htype, hfields⟩ := h.payload
  refine ⟨hlength, htype, holds_readBe16 (by omega), ?_, hfields⟩
  have hlt := readBe48_lt data (i := 5) (by omega)
  have hts : (reading data).timestamp.toNat = (readBe48 data 5).toNat := by
    rw [reading, BitVec.toNat_ofNat, Nat.mod_eq_of_lt hlt]
  rw [hts]
  exact holds_readBe (by decide) (by omega)

/-- A body that is laid out is parsed into the message and nothing else. -/
theorem parseInto_of_laidOut (h : m.LaidOut data) (c : Counts) (out : Order) :
    parseInto c data out = (true, m.order, { c with parsed := c.parsed + 1 }) := by
  have htimestamp : readBe48 data 5 = UInt64.ofNat m.timestamp.toNat :=
    h.timestamp.readBe m.timestamp.isLt
  have hbook := isBook_of_laidOut h
  rw [hbook.parseInto (hbook.decode _) c out, h.locate.readBe16, htimestamp,
    payload_of_laidOut h, BookMessage.order]
  cases m.payload <;> rfl

theorem parse_eq (c : Counts) (data : Body) (out : Order) :
    parse c data =
      (if (parseInto c data out).1 then some (parseInto c data out).2.1 else none,
        (parseInto c data out).2.2) := by
  rw [parse, ItchParser.parseInto]
  dsimp only
  split
  · rfl
  · split
    · rfl
    · split
      · rfl
      · split
        · rfl
        · cases decode data _ <;> rfl

theorem parse_of_laidOut (h : m.LaidOut data) (c : Counts) :
    parse c data = (some m.order, { c with parsed := c.parsed + 1 }) := by
  rw [parse_eq c data {}, parseInto_of_laidOut h]
  rfl

theorem parse_refused (h : ¬ IsBook data) (c : Counts) : (parse c data).1 = none := by
  rw [parse_eq c data {}, (parseInto_refused h c {}).1]
  rfl

end ItchParser

/-- The parser accepts the bodies in which one of the eight book messages is laid out, and no
others. -/
theorem parse_grammar (c : Counts) (data : Body) (out : Order) :
    let parsed := ItchParser.parseInto c data out
    (∀ m : BookMessage, m.LaidOut data →
      parsed.1 = true ∧ parsed.2.1 = m.order ∧
        parsed.2.2 = { c with parsed := c.parsed + 1 }) ∧
    (parsed.1 = true →
      (letter (byte data 0), data.length) ∈ ItchParser.bookLengths ∧
        ∃ m : BookMessage, m.LaidOut data) ∧
    (parsed.1 = false → parsed.2.1 = out) := by
  intro parsed
  refine ⟨?_, ?_, ?_⟩
  · intro m hm
    have h := ItchParser.parseInto_of_laidOut hm c out
    exact ⟨congrArg Prod.fst h, congrArg (·.2.1) h, congrArg (·.2.2) h⟩
  · intro ht
    by_cases h : ItchParser.IsBook data
    · exact ⟨h, ItchParser.reading data, h.laidOut⟩
    · exact absurd ht (Bool.eq_false_iff.1 (ItchParser.parseInto_refused h c out).1)
  · intro hf
    by_cases h : ItchParser.IsBook data
    · rw [show parsed = _ from ItchParser.parseInto_of_laidOut h.laidOut c out] at hf
      cases hf
    · exact (ItchParser.parseInto_refused h c out).2

end Tickpipe
