import Tickpipe.Lib.Bytes
import Mathlib.Data.List.Basic
import Mathlib.Data.List.GetD

set_option autoImplicit true

namespace Tickpipe

abbrev Datagram := List UInt8

def byte (p : List UInt8) (i : Nat) : UInt8 := p.getD i 0

/-- The `n` bytes from offset `i` on, as `be48` and `be64` read them. -/
def readBe (n : Nat) (p : List UInt8) (i : Nat) : UInt64 :=
  n.fold (fun j _ v => v <<< 8 ||| (byte p (i + j)).toUInt64) 0

def readBe48 (p : List UInt8) (i : Nat) : UInt64 := readBe 6 p i

def readBe64 (p : List UInt8) (i : Nat) : UInt64 := readBe 8 p i

def readBe32 (p : List UInt8) (i : Nat) : UInt32 :=
  (byte p i).toUInt32 <<< 24 ||| (byte p (i + 1)).toUInt32 <<< 16 |||
    (byte p (i + 2)).toUInt32 <<< 8 ||| (byte p (i + 3)).toUInt32

def readBe16 (p : List UInt8) (i : Nat) : UInt16 :=
  (byte p i).toUInt16 <<< 8 ||| (byte p (i + 1)).toUInt16

def writeBe16 (v : UInt16) : List UInt8 := [(v >>> 8).toUInt8, v.toUInt8]

/-- The loop of `write_be64`, which fills its buffer from the last byte to the first. -/
def writeBeLoop : Nat → UInt64 → List UInt8 → List UInt8
  | 0, _, out => out
  | n + 1, v, out => writeBeLoop n (v >>> 8) ((v &&& 0xFF).toUInt8 :: out)

def writeBe64 (v : UInt64) : List UInt8 := writeBeLoop 8 v []

theorem byte_append_right (l l' : List UInt8) (i : Nat) :
    byte (l ++ l') (l.length + i) = byte l' i := by
  rw [byte, List.getD_append_right _ _ _ _ (Nat.le_add_right _ _), Nat.add_sub_cancel_left, byte]

/-- A shift by a byte makes room for the next one. -/
theorem shift_or_byte (v : UInt64) (b : UInt8) :
    v <<< 8 ||| b.toUInt64 = v * 256 + b.toUInt64 := by
  apply UInt64.toNat_inj.1
  have hb := b.toNat_lt
  have h256 : (256 : UInt64).toNat = 256 := rfl
  have hs : (v <<< 8).toNat = 2 ^ 8 * (v.toNat % 2 ^ 56) := by
    rw [UInt64.toNat_shiftLeft, Nat.shiftLeft_eq]
    have hm : v.toNat * 256 % 2 ^ 64 = 256 * (v.toNat % 2 ^ 56) := by omega
    exact hm
  rw [UInt64.toNat_or, hs, UInt8.toNat_toUInt64, ← Nat.two_pow_add_eq_or_of_lt hb,
    UInt64.toNat_add, UInt64.toNat_mul, UInt8.toNat_toUInt64, h256]
  omega

theorem readBe_eq (n : Nat) (l l' l'' : List UInt8) (h : l'.length = n) :
    readBe n (l ++ l' ++ l'') l.length = UInt64.ofNat (Bytes.ofBe l') := by
  induction n generalizing l' l'' with
  | zero =>
    obtain rfl := List.length_eq_zero_iff.1 h
    rfl
  | succ n ih =>
    rcases List.eq_nil_or_concat l' with rfl | ⟨m, b, rfl⟩
    · cases h
    · rw [List.concat_eq_append] at h ⊢
      have hm : m.length = n := by
        rw [List.length_append] at h
        exact Nat.succ.inj h
      have hread := ih m ([b] ++ l'') hm
      rw [readBe] at hread
      have hlist : l ++ (m ++ [b]) ++ l'' = l ++ m ++ ([b] ++ l'') := by
        simp only [List.append_assoc]
      have hbyte : byte (l ++ m ++ ([b] ++ l'')) (l.length + n) = b := by
        have hl : l.length + n = (l ++ m).length + 0 := by
          rw [List.length_append, hm, Nat.add_zero]
        rw [hl, byte_append_right]
        rfl
      rw [readBe, Nat.fold_succ, hlist, hread, hbyte, shift_or_byte,
        Bytes.ofBe_append_singleton, UInt64.ofNat_add, UInt64.ofNat_mul,
        ← UInt8.toNat_toUInt64 b, UInt64.ofNat_toNat]
      rfl

theorem writeBeLoop_eq (n : Nat) (v : UInt64) (out : List UInt8) :
    writeBeLoop n v out = Bytes.beBytes n v.toNat ++ out := by
  induction n generalizing v out with
  | zero => rfl
  | succ n ih =>
    have hb : (v &&& 0xFF).toUInt8 = UInt8.ofNat v.toNat := by
      apply UInt8.toNat_inj.1
      have h : (0xFF : UInt64).toNat = 2 ^ 8 - 1 := rfl
      rw [UInt64.toNat_toUInt8, UInt64.toNat_and, h, Nat.and_two_pow_sub_one_eq_mod,
        UInt8.toNat_ofNat', Nat.mod_mod]
    have hs : (v >>> 8).toNat = v.toNat / 256 := by
      rw [UInt64.toNat_shiftRight]
      exact Nat.shiftRight_eq_div_pow v.toNat 8
    rw [writeBeLoop, ih, hs, hb, Bytes.beBytes_succ, List.append_assoc]
    rfl

@[simp] theorem length_writeBe64 (v : UInt64) : (writeBe64 v).length = 8 := by
  rw [writeBe64, writeBeLoop_eq, List.append_nil, Bytes.length_beBytes]

theorem readBe64_write (l : List UInt8) (v : UInt64) (l' : List UInt8) :
    readBe64 (l ++ writeBe64 v ++ l') l.length = v := by
  rw [readBe64, readBe_eq 8 _ _ _ (length_writeBe64 v), writeBe64, writeBeLoop_eq, List.append_nil,
    Bytes.ofBe_beBytes 8 _ v.toNat_lt, UInt64.ofNat_toNat]

theorem be16_split (v : UInt16) :
    (v >>> 8).toUInt8.toUInt16 <<< 8 ||| v.toUInt8.toUInt16 = v := by
  apply UInt16.toNat_inj.1
  have hlt := v.toNat_lt
  have hhigh : (v >>> 8).toNat = v.toNat / 256 := by
    rw [UInt16.toNat_shiftRight]
    exact Nat.shiftRight_eq_div_pow v.toNat 8
  have hs : ((v >>> 8).toUInt8.toUInt16 <<< 8).toNat = 2 ^ 8 * (v.toNat / 256) := by
    have h8 : (8 : UInt16).toNat % 16 = 8 := rfl
    rw [UInt16.toNat_shiftLeft, UInt8.toNat_toUInt16, UInt16.toNat_toUInt8, hhigh, h8,
      Nat.shiftLeft_eq]
    omega
  have hl : v.toUInt8.toUInt16.toNat = v.toNat % 256 := by
    rw [UInt8.toNat_toUInt16, UInt16.toNat_toUInt8]
  rw [UInt16.toNat_or, hs, hl, ← Nat.two_pow_add_eq_or_of_lt (Nat.mod_lt _ (by decide))]
  exact Nat.div_add_mod v.toNat 256

theorem readBe16_write (l : List UInt8) (v : UInt16) (l' : List UInt8) :
    readBe16 (l ++ writeBe16 v ++ l') l.length = v := by
  have h (i : Nat) : byte (l ++ writeBe16 v ++ l') (l.length + i) = byte (writeBe16 v ++ l') i := by
    rw [List.append_assoc, byte_append_right]
  rw [readBe16, ← Nat.add_zero l.length, h, Nat.add_zero, h]
  exact be16_split v

/-- Some bytes stand in a message from an offset on. -/
def Holds (p : List UInt8) (i : Nat) (bytes : List UInt8) : Prop :=
  ∃ l r, p = l ++ bytes ++ r ∧ l.length = i

theorem Holds.byte_add (h : Holds p i bytes) (hj : j < bytes.length) :
    byte p (i + j) = byte bytes j := by
  obtain ⟨l, r, rfl, rfl⟩ := h
  rw [List.append_assoc, byte_append_right, byte, List.getD_append _ _ _ _ hj, byte]

theorem holds_slice {p : List UInt8} (h : i + n ≤ p.length) : Holds p i ((p.drop i).take n) := by
  refine ⟨p.take i, p.drop (i + n), ?_, ?_⟩
  · rw [List.append_assoc, ← List.drop_drop, List.take_append_drop, List.take_append_drop]
  · exact List.length_take_of_le (Nat.le_of_add_right_le h)

theorem length_slice {p : List UInt8} (h : i + n ≤ p.length) : ((p.drop i).take n).length = n := by
  rw [List.length_take, List.length_drop]
  omega

theorem Holds.readBe_eq (h : Holds p i bytes) :
    readBe bytes.length p i = UInt64.ofNat (Bytes.ofBe bytes) := by
  obtain ⟨l, r, rfl, rfl⟩ := h
  exact Tickpipe.readBe_eq _ l bytes r rfl

/-- A number of `n` bytes is read where it stands. -/
theorem Holds.readBe (h : Holds p i (Bytes.beBytes n v)) (hv : v < 256 ^ n) :
    readBe n p i = UInt64.ofNat v := by
  have hread := h.readBe_eq
  rw [Bytes.length_beBytes, Bytes.ofBe_beBytes n v hv] at hread
  exact hread

theorem Holds.readBe64 (h : Holds p i (Bytes.beBytes 8 v.toNat)) : readBe64 p i = v :=
  (h.readBe v.toNat_lt).trans UInt64.ofNat_toNat

/-- What is read stands there. -/
theorem holds_readBe (hn : n ≤ 8) {p : List UInt8} (h : i + n ≤ p.length) :
    Holds p i (Bytes.beBytes n (readBe n p i).toNat) := by
  have hslice := holds_slice h
  have hlen := length_slice h
  have hread := hslice.readBe_eq
  have hlt := Bytes.ofBe_lt ((p.drop i).take n)
  have hpow : 256 ^ n ≤ 2 ^ 64 := by
    calc 256 ^ n
      _ ≤ 256 ^ 8 := Nat.pow_le_pow_right (by decide) hn
      _ = 2 ^ 64 := rfl
  rw [hlen] at hread hlt
  have hbytes := Bytes.beBytes_ofBe ((p.drop i).take n)
  rw [hlen] at hbytes
  rw [hread, UInt64.toNat_ofNat', Nat.mod_eq_of_lt (Nat.lt_of_lt_of_le hlt hpow), hbytes]
  exact hslice

/-- Bytes shifted to their places make up the number. -/
theorem be32_eq (a b c d : UInt8) :
    a.toUInt32 <<< 24 ||| b.toUInt32 <<< 16 ||| c.toUInt32 <<< 8 ||| d.toUInt32 =
      UInt32.ofNat (Bytes.ofBe [a, b, c, d]) := by
  have ha := a.toNat_lt
  have hb := b.toNat_lt
  have hc := c.toNat_lt
  have hd := d.toNat_lt
  have hshift (x : UInt8) (s : UInt32) (hs : s.toNat ≤ 24) :
      (x.toUInt32 <<< s).toNat = 2 ^ s.toNat * x.toNat := by
    have hx := x.toNat_lt
    have hpow : 2 ^ s.toNat ≤ 2 ^ 24 := Nat.pow_le_pow_right (by decide) hs
    have hlt : x.toNat * 2 ^ s.toNat < 2 ^ 32 := by
      calc x.toNat * 2 ^ s.toNat
        _ < 2 ^ 8 * 2 ^ s.toNat := Nat.mul_lt_mul_of_pos_right hx (Nat.two_pow_pos _)
        _ ≤ 2 ^ 8 * 2 ^ 24 := Nat.mul_le_mul_left _ hpow
    have hmod : s.toNat % 32 = s.toNat := Nat.mod_eq_of_lt (by omega)
    rw [UInt32.toNat_shiftLeft, UInt8.toNat_toUInt32, hmod, Nat.shiftLeft_eq, Nat.mod_eq_of_lt hlt,
      Nat.mul_comm]
  have hof : Bytes.ofBe [a, b, c, d] =
      2 ^ 24 * a.toNat + 2 ^ 16 * b.toNat + 2 ^ 8 * c.toNat + d.toNat := by
    have hfold : Bytes.ofBe [a, b, c, d] =
        (((0 * 256 + a.toNat) * 256 + b.toNat) * 256 + c.toNat) * 256 + d.toNat := rfl
    omega
  have h24 : (a.toUInt32 <<< 24).toNat = 2 ^ 24 * a.toNat := hshift a 24 (by decide)
  have h16 : (b.toUInt32 <<< 16).toNat = 2 ^ 16 * b.toNat := hshift b 16 (by decide)
  have h8 : (c.toUInt32 <<< 8).toNat = 2 ^ 8 * c.toNat := hshift c 8 (by decide)
  -- each byte fills the zeros behind the ones before it
  have hab : 2 ^ 24 * a.toNat ||| 2 ^ 16 * b.toNat = 2 ^ 16 * (2 ^ 8 * a.toNat + b.toNat) := by
    rw [← Nat.two_pow_add_eq_or_of_lt (by omega)]
    omega
  have habc : 2 ^ 16 * (2 ^ 8 * a.toNat + b.toNat) ||| 2 ^ 8 * c.toNat =
      2 ^ 8 * (2 ^ 16 * a.toNat + 2 ^ 8 * b.toNat + c.toNat) := by
    rw [← Nat.two_pow_add_eq_or_of_lt (by omega)]
    omega
  apply UInt32.toNat_inj.1
  rw [UInt32.toNat_or, UInt32.toNat_or, UInt32.toNat_or, h24, h16, h8, UInt8.toNat_toUInt32, hab,
    habc, ← Nat.two_pow_add_eq_or_of_lt hd, UInt32.toNat_ofNat', hof]
  omega

theorem be16_eq (a b : UInt8) :
    a.toUInt16 <<< 8 ||| b.toUInt16 = UInt16.ofNat (Bytes.ofBe [a, b]) := by
  have ha := a.toNat_lt
  have hb := b.toNat_lt
  have hof : Bytes.ofBe [a, b] = 2 ^ 8 * a.toNat + b.toNat := by
    have hfold : Bytes.ofBe [a, b] = (0 * 256 + a.toNat) * 256 + b.toNat := rfl
    omega
  have h8 : (a.toUInt16 <<< 8).toNat = 2 ^ 8 * a.toNat := by
    have hmod : (8 : UInt16).toNat % 16 = 8 := rfl
    rw [UInt16.toNat_shiftLeft, UInt8.toNat_toUInt16, hmod, Nat.shiftLeft_eq]
    omega
  apply UInt16.toNat_inj.1
  rw [UInt16.toNat_or, h8, UInt8.toNat_toUInt16, ← Nat.two_pow_add_eq_or_of_lt hb,
    UInt16.toNat_ofNat', hof]
  omega

theorem Holds.readBe32_eq (h : Holds p i bytes) (hlen : bytes.length = 4) :
    readBe32 p i = UInt32.ofNat (Bytes.ofBe bytes) := by
  have hbyte (j : Nat) (hj : j < 4) : byte p (i + j) = byte bytes j := h.byte_add (hlen ▸ hj)
  have h0 : byte p i = byte bytes 0 := hbyte 0 (by decide)
  have hlist : [byte bytes 0, byte bytes 1, byte bytes 2, byte bytes 3] = bytes := by
    obtain ⟨a, b, c, d, rfl⟩ := List.length_eq_four.1 hlen
    rfl
  rw [readBe32, h0, hbyte 1 (by decide), hbyte 2 (by decide), hbyte 3 (by decide), be32_eq, hlist]

theorem Holds.readBe16_eq (h : Holds p i bytes) (hlen : bytes.length = 2) :
    readBe16 p i = UInt16.ofNat (Bytes.ofBe bytes) := by
  have hbyte (j : Nat) (hj : j < 2) : byte p (i + j) = byte bytes j := h.byte_add (hlen ▸ hj)
  have h0 : byte p i = byte bytes 0 := hbyte 0 (by decide)
  have hlist : [byte bytes 0, byte bytes 1] = bytes := by
    obtain ⟨a, b, rfl⟩ := List.length_eq_two.1 hlen
    rfl
  rw [readBe16, h0, hbyte 1 (by decide), be16_eq, hlist]

theorem Holds.readBe32 (h : Holds p i (Bytes.beBytes 4 v.toNat)) : readBe32 p i = v := by
  rw [h.readBe32_eq (Bytes.length_beBytes ..), Bytes.ofBe_beBytes 4 _ v.toNat_lt,
    UInt32.ofNat_toNat]

theorem Holds.readBe16 (h : Holds p i (Bytes.beBytes 2 v.toNat)) : readBe16 p i = v := by
  rw [h.readBe16_eq (Bytes.length_beBytes ..), Bytes.ofBe_beBytes 2 _ v.toNat_lt,
    UInt16.ofNat_toNat]

theorem holds_readBe32 {p : List UInt8} (h : i + 4 ≤ p.length) :
    Holds p i (Bytes.beBytes 4 (readBe32 p i).toNat) := by
  have hslice := holds_slice h
  have hlen := length_slice h
  have hlt : Bytes.ofBe ((p.drop i).take 4) < 2 ^ 32 := by
    calc Bytes.ofBe ((p.drop i).take 4)
      _ < 256 ^ ((p.drop i).take 4).length := Bytes.ofBe_lt _
      _ = 256 ^ 4 := by rw [hlen]
  have hbytes := Bytes.beBytes_ofBe ((p.drop i).take 4)
  rw [hlen] at hbytes
  rw [hslice.readBe32_eq hlen, UInt32.toNat_ofNat', Nat.mod_eq_of_lt hlt, hbytes]
  exact hslice

theorem holds_readBe16 {p : List UInt8} (h : i + 2 ≤ p.length) :
    Holds p i (Bytes.beBytes 2 (readBe16 p i).toNat) := by
  have hslice := holds_slice h
  have hlen := length_slice h
  have hlt : Bytes.ofBe ((p.drop i).take 2) < 2 ^ 16 := by
    calc Bytes.ofBe ((p.drop i).take 2)
      _ < 256 ^ ((p.drop i).take 2).length := Bytes.ofBe_lt _
      _ = 256 ^ 2 := by rw [hlen]
  have hbytes := Bytes.beBytes_ofBe ((p.drop i).take 2)
  rw [hlen] at hbytes
  rw [hslice.readBe16_eq hlen, UInt16.toNat_ofNat', Nat.mod_eq_of_lt hlt, hbytes]
  exact hslice

theorem holds_byte {p : List UInt8} (h : i + 1 ≤ p.length) : Holds p i [byte p i] := by
  have hslice := holds_slice h
  have hone : (p.drop i).take 1 = [byte p i] := by
    rw [List.take_one, List.head?_drop, List.getElem?_eq_getElem h, Option.toList_some, byte,
      List.getD_eq_getElem _ _ h]
  rw [hone] at hslice
  exact hslice

end Tickpipe
