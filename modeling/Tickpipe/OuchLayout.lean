import Tickpipe.Ouch
import Tickpipe.Lib.Bytes

set_option autoImplicit true

namespace Tickpipe

open Stores (Store Memory memcpy)

section Writers

theorem byte_of_shift (v : UInt32) (s : UInt32) (hs : s.toNat < 32) :
    (v >>> s &&& 0xFF).toUInt8 = UInt8.ofNat (v.toNat / 2 ^ s.toNat) := by
  have hmask : (0xFF : UInt32).toNat = 2 ^ 8 - 1 := rfl
  apply UInt8.toNat_inj.1
  rw [UInt32.toNat_toUInt8, UInt32.toNat_and, hmask, Nat.and_two_pow_sub_one_eq_mod,
    UInt32.toNat_shiftRight, Nat.mod_eq_of_lt hs, Nat.shiftRight_eq_div_pow, UInt8.toNat_ofNat',
    Nat.mod_mod]

theorem writeU32_eq (p : Nat) (v : UInt32) :
    writeU32 p v = memcpy p (Bytes.beBytes 4 v.toNat) := by
  have h0 : (v &&& 0xFF).toUInt8 = UInt8.ofNat v.toNat := by
    have hshift : v >>> 0 = v := by
      apply UInt32.toNat_inj.1
      rw [UInt32.toNat_shiftRight]
      rfl
    have hbyte := byte_of_shift v 0 (by decide)
    rw [hshift] at hbyte
    exact hbyte.trans (congrArg UInt8.ofNat (Nat.div_one _))
  have hbytes : Bytes.beBytes 4 v.toNat =
      [UInt8.ofNat (v.toNat / 2 ^ 24), UInt8.ofNat (v.toNat / 2 ^ 16),
        UInt8.ofNat (v.toNat / 2 ^ 8), UInt8.ofNat v.toNat] := by
    have h16 : v.toNat / 2 ^ 8 / 256 = v.toNat / 2 ^ 16 := Nat.div_div_eq_div_mul ..
    have h24 : v.toNat / 2 ^ 16 / 256 = v.toNat / 2 ^ 24 := Nat.div_div_eq_div_mul ..
    rw [← h24, ← h16]
    rfl
  rw [writeU32, byte_of_shift v 24 (by decide), byte_of_shift v 16 (by decide),
    byte_of_shift v 8 (by decide), h0, hbytes]
  rfl

theorem writeU64_eq (p : Nat) (v : UInt64) :
    writeU64 p v = memcpy p (Bytes.beBytes 8 v.toNat) := by
  have hhigh : (v >>> 32).toUInt32.toNat = v.toNat / 256 ^ 4 := by
    have hlt := v.toNat_lt
    have hshift : (v >>> 32).toNat = v.toNat / 2 ^ 32 := by
      rw [UInt64.toNat_shiftRight]
      exact Nat.shiftRight_eq_div_pow v.toNat 32
    rw [UInt64.toNat_toUInt32, hshift]
    omega
  have hlow : (v &&& 0xFFFFFFFF).toUInt32.toNat = v.toNat % 256 ^ 4 := by
    have hmask : (0xFFFFFFFF : UInt64).toNat = 2 ^ 32 - 1 := rfl
    rw [UInt64.toNat_toUInt32, UInt64.toNat_and, hmask, Nat.and_two_pow_sub_one_eq_mod,
      Nat.mod_mod]
    rfl
  rw [writeU64, writeU32_eq, writeU32_eq, hhigh, hlow, Bytes.beBytes_mod,
    Bytes.beBytes_add 4 4 v.toNat, Stores.memcpy_append, Bytes.length_beBytes]

end Writers

namespace OuchMessage

/-- The bytes of a response, field behind field. -/
def body : OuchMessage → List UInt8
  | .accepted timestamp orderRef side quantity price stock =>
    [OuchMsgType.orderAccepted.toUInt8] ++ Bytes.beBytes 8 timestamp.toNat ++
      Bytes.beBytes 8 orderRef.toNat ++ [side.toUInt64.toUInt8] ++
      Bytes.beBytes 4 quantity.toNat ++ Bytes.beBytes 4 price.toNat ++ stock.toList
  | .rejected timestamp orderRef reason =>
    [OuchMsgType.orderRejected.toUInt8] ++ Bytes.beBytes 8 timestamp.toNat ++
      Bytes.beBytes 8 orderRef.toNat ++ [reason] ++ [0]
  | .executed timestamp orderRef executedQty executionPrice matchId =>
    [OuchMsgType.orderExecuted.toUInt8] ++ Bytes.beBytes 8 timestamp.toNat ++
      Bytes.beBytes 8 orderRef.toNat ++ Bytes.beBytes 4 executedQty.toNat ++
      Bytes.beBytes 4 executionPrice.toNat ++ Bytes.beBytes 8 matchId.toNat ++ [0]

def bodyLength : OuchMessage → Nat
  | .accepted .. => 34
  | .rejected .. => 19
  | .executed .. => 34

theorem length_body (m : OuchMessage) : m.body.length = m.bodyLength := by
  cases m with
  | accepted =>
    simp only [body, List.length_append, Bytes.length_beBytes, Vector.length_toList]
    rfl
  | rejected => simp only [body, List.length_append, Bytes.length_beBytes]; rfl
  | executed => simp only [body, List.length_append, Bytes.length_beBytes]; rfl

theorem u64_append_inj {v w : UInt64} {l l' : List UInt8}
    (h : Bytes.beBytes 8 v.toNat ++ l = Bytes.beBytes 8 w.toNat ++ l') : v = w ∧ l = l' := by
  obtain ⟨hv, hl⟩ := Bytes.beBytes_append_inj v.toNat_lt w.toNat_lt h
  exact ⟨UInt64.toNat_inj.1 hv, hl⟩

theorem u32_append_inj {v w : UInt32} {l l' : List UInt8}
    (h : Bytes.beBytes 4 v.toNat ++ l = Bytes.beBytes 4 w.toNat ++ l') : v = w ∧ l = l' := by
  obtain ⟨hv, hl⟩ := Bytes.beBytes_append_inj v.toNat_lt w.toNat_lt h
  exact ⟨UInt32.toNat_inj.1 hv, hl⟩

theorem body_inj {m m' : OuchMessage} (h : m.body = m'.body) : m = m' := by
  cases m with
  | accepted timestamp orderRef side quantity price stock =>
    cases m' with
    | accepted timestamp' orderRef' side' quantity' price' stock' =>
      simp only [body, List.append_assoc, List.cons_append, List.nil_append] at h
      obtain ⟨-, hbody⟩ := List.cons.inj h
      obtain ⟨rfl, hrest₁⟩ := u64_append_inj hbody
      obtain ⟨rfl, hrest₂⟩ := u64_append_inj hrest₁
      obtain ⟨hside, hrest₃⟩ := List.cons.inj hrest₂
      obtain ⟨rfl, hrest₄⟩ := u32_append_inj hrest₃
      obtain ⟨rfl, hrest₅⟩ := u32_append_inj hrest₄
      obtain rfl := Vector.toList_inj.1 hrest₅
      obtain rfl : side = side' := by
        cases side <;> cases side' <;> first | rfl | cases hside
      rfl
    | rejected => cases h
    | executed => cases h
  | rejected timestamp orderRef reason =>
    cases m' with
    | accepted => cases h
    | rejected timestamp' orderRef' reason' =>
      simp only [body, List.append_assoc, List.cons_append, List.nil_append] at h
      obtain ⟨-, hbody⟩ := List.cons.inj h
      obtain ⟨rfl, hrest₁⟩ := u64_append_inj hbody
      obtain ⟨rfl, hrest₂⟩ := u64_append_inj hrest₁
      obtain ⟨rfl, -⟩ := List.cons.inj hrest₂
      rfl
    | executed => cases h
  | executed timestamp orderRef executedQty executionPrice matchId =>
    cases m' with
    | accepted => cases h
    | rejected => cases h
    | executed timestamp' orderRef' executedQty' executionPrice' matchId' =>
      simp only [body, List.append_assoc, List.cons_append, List.nil_append] at h
      obtain ⟨-, hbody⟩ := List.cons.inj h
      obtain ⟨rfl, hrest₁⟩ := u64_append_inj hbody
      obtain ⟨rfl, hrest₂⟩ := u64_append_inj hrest₁
      obtain ⟨rfl, hrest₃⟩ := u32_append_inj hrest₂
      obtain ⟨rfl, hrest₄⟩ := u32_append_inj hrest₃
      obtain ⟨rfl, -⟩ := u64_append_inj hrest₄
      rfl

end OuchMessage

namespace OuchCall

def msgLen : OuchCall → UInt32
  | .accepted .. => 32
  | .rejected .. => 19
  | .executed .. => 34

theorem run_null (call : OuchCall) (bufLen : UInt32) : call.run true bufLen = (0, []) := by
  cases call with
  | accepted => rfl
  | rejected => rfl
  | executed => rfl

theorem run_of_lt {call : OuchCall} (h : bufLen < call.msgLen) :
    call.run isNull bufLen = (0, []) := by
  have hshort : (isNull || decide (bufLen < call.msgLen)) = true := by
    rw [decide_eq_true h, Bool.or_true]
  cases call with
  | accepted => exact if_pos hshort
  | rejected => exact if_pos hshort
  | executed => exact if_pos hshort

theorem run_of_le {call : OuchCall} (h : call.msgLen ≤ bufLen) :
    call.run false bufLen = (call.msgLen, memcpy 0 call.message.body) := by
  have hroom : ¬(false || decide (bufLen < call.msgLen)) = true := by
    rw [Bool.false_or, decide_eq_true_eq]
    exact UInt32.not_lt.2 h
  cases call with
  | accepted order timestamp =>
    apply (if_neg hroom).trans
    rw [writeU64_eq, writeU64_eq, writeU32_eq, writeU32_eq]
    simp only [message, OuchMessage.body, Stores.memcpy_append, List.length_append,
      Bytes.length_beBytes]
    rfl
  | rejected order reason timestamp =>
    apply (if_neg hroom).trans
    rw [writeU64_eq, writeU64_eq]
    simp only [message, OuchMessage.body, Stores.memcpy_append, List.length_append,
      Bytes.length_beBytes]
    rfl
  | executed order result matchId timestamp =>
    apply (if_neg hroom).trans
    rw [writeU64_eq, writeU64_eq, writeU32_eq, writeU32_eq, writeU64_eq]
    simp only [message, OuchMessage.body, Stores.memcpy_append, List.length_append,
      Bytes.length_beBytes]
    rfl

theorem run_cases (call : OuchCall) (isNull : Bool) (bufLen : UInt32) :
    call.run isNull bufLen = (0, []) ∨ isNull = false ∧ call.msgLen ≤ bufLen ∧
      call.run isNull bufLen = (call.msgLen, memcpy 0 call.message.body) := by
  cases isNull with
  | true => exact .inl (run_null call bufLen)
  | false =>
    by_cases h : call.msgLen ≤ bufLen
    · exact .inr ⟨rfl, h, run_of_le h⟩
    · exact .inl (run_of_lt (UInt32.not_le.1 h))

theorem msgLen_ne_zero (call : OuchCall) : call.msgLen ≠ 0 := by
  cases call with
  | accepted => exact (by decide : (32 : UInt32) ≠ 0)
  | rejected => exact (by decide : (19 : UInt32) ≠ 0)
  | executed => exact (by decide : (34 : UInt32) ≠ 0)

theorem msgLen_le_bodyLength (call : OuchCall) :
    call.msgLen.toNat ≤ call.message.bodyLength := by
  cases call with
  | accepted => exact Nat.le_add_left 32 2
  | rejected => exact Nat.le_refl 19
  | executed => exact Nat.le_refl 34

/-- The bytes that a caller sends on: as many of its buffer as the call returned. -/
def sent (call : OuchCall) (memory : Memory) (bufLen : UInt32) : List UInt8 :=
  Stores.contents (call.run false bufLen).1.toNat
    (Stores.perform memory (call.run false bufLen).2)

/-- A call stays inside the length it returns, which is inside the buffer, and what it leaves there
tells the fields passed in. -/
structure Delivers (call : OuchCall) (isNull : Bool) (bufLen : UInt32) : Prop where
  bounded : (call.run isNull bufLen).1 ≤ bufLen
  inside : ∀ store ∈ (call.run isNull bufLen).2, store.1 < (call.run isNull bufLen).1.toNat
  untouched : (call.run isNull bufLen).1 = 0 → (call.run isNull bufLen).2 = []
  lossless : 0 < (call.run isNull bufLen).1 → ∀ memory memory' (call' : OuchCall) bufLen',
    (call'.run false bufLen').1 = (call.run isNull bufLen).1 →
    call'.sent memory' bufLen' = call.sent memory bufLen → call'.message = call.message

theorem delivers_of_refused {call : OuchCall} (h : call.run isNull bufLen = (0, [])) :
    call.Delivers isNull bufLen := by
  have hzero := congrArg Prod.fst h
  have hnone := congrArg Prod.snd h
  constructor
  case bounded => exact hzero ▸ UInt32.zero_le
  case inside =>
    intro store hstore
    rw [hnone] at hstore
    cases hstore
  case untouched => exact fun _ => hnone
  case lossless =>
    intro hpos
    rw [hzero] at hpos
    exact absurd hpos (by decide)

/-- A buffer of the declared length holds the first bytes of the body. -/
theorem sent_eq {call : OuchCall} (h : call.msgLen ≤ bufLen) (memory : Memory) :
    call.sent memory bufLen = call.message.body.take call.msgLen.toNat := by
  have hlen : call.msgLen.toNat ≤ call.message.body.length := by
    rw [OuchMessage.length_body]
    exact call.msgLen_le_bodyLength
  rw [sent, run_of_le h]
  exact Stores.contents_memcpy memory hlen

/-- A whole response has the length of no other function's. -/
theorem bodyLength_of_msgLen {call call' : OuchCall}
    (hwhole : call.msgLen.toNat = call.message.bodyLength) (hlen : call'.msgLen = call.msgLen) :
    call'.message.bodyLength = call.msgLen.toNat := by
  have hnat := congrArg UInt32.toNat hlen
  cases call with
  | accepted => cases hwhole
  | rejected =>
    cases call' with
    | accepted => cases hnat
    | rejected => rfl
    | executed => cases hnat
  | executed =>
    cases call' with
    | accepted => cases hnat
    | rejected => cases hnat
    | executed => rfl

/-- The functions whose declared length is that of their body. -/
theorem delivers_of_whole {call : OuchCall} (hle : call.msgLen ≤ bufLen)
    (hwhole : call.msgLen.toNat = call.message.bodyLength) : call.Delivers false bufLen := by
  have hrun := run_of_le hle
  have hfst := congrArg Prod.fst hrun
  have hsnd := congrArg Prod.snd hrun
  constructor
  case bounded => exact hfst ▸ hle
  case inside =>
    rintro ⟨i, b⟩ hstore
    rw [hsnd] at hstore
    obtain ⟨-, hlt⟩ := (Stores.mem_memcpy 0 i _).1 ⟨b, hstore⟩
    rw [Nat.zero_add, OuchMessage.length_body, ← hwhole] at hlt
    exact hfst ▸ hlt
  case untouched =>
    intro hzero
    rw [hfst] at hzero
    exact absurd hzero call.msgLen_ne_zero
  case lossless =>
    intro _ memory memory' call' bufLen' hn hsent
    rw [hfst] at hn
    rcases run_cases call' false bufLen' with hnone | ⟨-, hle', hrun'⟩
    · rw [hnone] at hn
      exact absurd hn.symm call.msgLen_ne_zero
    · have hlen : call'.msgLen = call.msgLen := by
        rw [hrun'] at hn
        exact hn
      have hwhole' := bodyLength_of_msgLen hwhole hlen
      have htake := OuchMessage.length_body call.message
      have htake' := OuchMessage.length_body call'.message
      rw [sent_eq hle, sent_eq hle', hlen, List.take_of_length_le (by omega),
        List.take_of_length_le (by omega)] at hsent
      exact OuchMessage.body_inj hsent

/-- The stock reaches two bytes past the declared length. -/
theorem not_delivers_accepted (h : 32 ≤ bufLen) (order : Order) (timestamp : UInt64) :
    ¬(accepted order timestamp).Delivers false bufLen := by
  intro hdelivers
  have hrun : (accepted order timestamp).run false bufLen = _ := run_of_le h
  have hbody := OuchMessage.length_body (accepted order timestamp).message
  obtain ⟨b, hstore⟩ := (Stores.mem_memcpy 0 33 (accepted order timestamp).message.body).2
    ⟨Nat.zero_le _, by rw [hbody]; exact Nat.le_refl 34⟩
  have hinside := hdelivers.inside (33, b)
  rw [hrun] at hinside
  exact absurd (hinside hstore) (by decide : ¬33 < 32)

end OuchCall

/-- A call delivers its response unless it is a `write_accepted` that finds room. -/
theorem ouch_delivers_iff (call : OuchCall) (isNull : Bool) (bufLen : UInt32) :
    call.Delivers isNull bufLen ↔
      ∀ order timestamp, call = .accepted order timestamp → isNull = true ∨ bufLen < 32 := by
  constructor
  · rintro hdelivers order timestamp rfl
    cases isNull with
    | true => exact .inl rfl
    | false =>
      apply Or.inr
      apply UInt32.not_le.1
      intro hle
      exact OuchCall.not_delivers_accepted hle order timestamp hdelivers
  · intro h
    rcases OuchCall.run_cases call isNull bufLen with hnone | ⟨rfl, hle, -⟩
    · exact OuchCall.delivers_of_refused hnone
    · cases call with
      | accepted order timestamp =>
        rcases h order timestamp rfl with hnull | hlt
        · cases hnull
        · exact absurd hle (UInt32.not_le.2 hlt)
      | rejected => exact OuchCall.delivers_of_whole hle rfl
      | executed => exact OuchCall.delivers_of_whole hle rfl

def appleOrder : Order :=
  { orderRef := 42, price := 1500000, quantity := 100, side := .buy, valid := 1,
    stock := #v[65, 65, 80, 76, 32, 32, 32, 32] }

/-- A buffer of exactly the length returned is overrun, and a symbol that differs in its eighth
letter reads the same there. -/
theorem accepted_overruns :
    ((OuchCall.accepted appleOrder 7).run false 32).1 = 32 ∧
      (33, 32) ∈ ((OuchCall.accepted appleOrder 7).run false 32).2 ∧
      ¬(OuchCall.accepted appleOrder 7).Delivers false 32 ∧
      ∃ stock, stock ≠ appleOrder.stock ∧
        (OuchCall.accepted { appleOrder with stock := stock } 7).sent (fun _ => 0) 32 =
          (OuchCall.accepted appleOrder 7).sent (fun _ => 0) 32 := by
  refine ⟨rfl, by decide, OuchCall.not_delivers_accepted (by decide) _ _,
    #v[65, 65, 80, 76, 32, 32, 32, 87], by decide, ?_⟩
  decide +kernel

end Tickpipe
