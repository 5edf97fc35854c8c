import Mathlib.Algebra.Group.Nat.Defs
import Mathlib.Data.Nat.Basic

set_option autoImplicit true

namespace Bytes

/-- The byte of weight `256 ^ i`. -/
def byteAt (v i : Nat) : UInt8 := UInt8.ofNat (v / 256 ^ i)

def leBytes : Nat → Nat → List UInt8
  | 0, _ => []
  | n + 1, v => UInt8.ofNat v :: leBytes n (v / 256)

def ofLe : List UInt8 → Nat
  | [] => 0
  | b :: l => b.toNat + 256 * ofLe l

@[simp] theorem length_leBytes (n v : Nat) : (leBytes n v).length = n := by
  induction n generalizing v with
  | zero => rfl
  | succ n ih => rw [leBytes, List.length_cons, ih]

theorem getElem?_leBytes (n v i : Nat) (h : i < n) : (leBytes n v)[i]? = some (byteAt v i) := by
  induction n generalizing v i with
  | zero => exact absurd h (Nat.not_lt_zero i)
  | succ n ih =>
    cases i with
    | zero => rw [leBytes, List.getElem?_cons_zero, byteAt, Nat.pow_zero, Nat.div_one]
    | succ i =>
      rw [leBytes, List.getElem?_cons_succ, ih _ _ (Nat.lt_of_succ_lt_succ h), byteAt, byteAt,
        Nat.div_div_eq_div_mul, Nat.pow_succ, Nat.mul_comm]

theorem ofLe_leBytes (n v : Nat) (h : v < 256 ^ n) : ofLe (leBytes n v) = v := by
  induction n generalizing v with
  | zero => exact (Nat.lt_one_iff.1 h).symm
  | succ n ih =>
    have hv : v / 256 < 256 ^ n := Nat.div_lt_of_lt_mul (by rwa [Nat.pow_succ, Nat.mul_comm] at h)
    rw [leBytes, ofLe, ih _ hv, UInt8.toNat_ofNat']
    exact Nat.mod_add_div v 256

theorem ofLe_lt (l : List UInt8) : ofLe l < 256 ^ l.length := by
  induction l with
  | nil => exact Nat.one_pos
  | cons b l ih =>
    have hb := b.toNat_lt
    rw [ofLe, List.length_cons, Nat.pow_succ]
    omega

theorem leBytes_ofLe (l : List UInt8) : leBytes l.length (ofLe l) = l := by
  induction l with
  | nil => rfl
  | cons b l ih =>
    have hb := b.toNat_lt
    have hhead : UInt8.ofNat (ofLe (b :: l)) = b := by
      apply UInt8.toNat_inj.1
      rw [UInt8.toNat_ofNat', ofLe]
      omega
    have htail : ofLe (b :: l) / 256 = ofLe l := by
      rw [ofLe]
      omega
    rw [List.length_cons, leBytes, hhead, htail, ih]

/-- Only what fits is encoded. -/
theorem leBytes_mod (n v : Nat) : leBytes n (v % 256 ^ n) = leBytes n v := by
  induction n generalizing v with
  | zero => rfl
  | succ n ih =>
    have hhead : UInt8.ofNat (v % 256 ^ (n + 1)) = UInt8.ofNat v := by
      apply UInt8.toNat_inj.1
      rw [UInt8.toNat_ofNat', UInt8.toNat_ofNat']
      exact Nat.mod_mod_of_dvd v ⟨256 ^ n, Nat.pow_succ'⟩
    have htail : v % 256 ^ (n + 1) / 256 = v / 256 % 256 ^ n := by
      rw [Nat.pow_succ, Nat.mul_comm, Nat.mod_mul_right_div_self]
    rw [leBytes, hhead, htail, ih, leBytes]

def beBytes (n v : Nat) : List UInt8 := (leBytes n v).reverse

def ofBe (l : List UInt8) : Nat := l.foldl (fun v b => v * 256 + b.toNat) 0

@[simp] theorem length_beBytes (n v : Nat) : (beBytes n v).length = n := by
  rw [beBytes, List.length_reverse, length_leBytes]

theorem beBytes_succ (n v : Nat) : beBytes (n + 1) v = beBytes n (v / 256) ++ [UInt8.ofNat v] := by
  rw [beBytes, leBytes, List.reverse_cons, beBytes]

theorem beBytes_mod (n v : Nat) : beBytes n (v % 256 ^ n) = beBytes n v := by
  rw [beBytes, leBytes_mod, beBytes]

/-- The bytes of a number are those of its upper and those of its lower part. -/
theorem beBytes_add (m n v : Nat) :
    beBytes (m + n) v = beBytes m (v / 256 ^ n) ++ beBytes n v := by
  induction n generalizing v with
  | zero =>
    rw [Nat.pow_zero, Nat.div_one]
    exact (List.append_nil _).symm
  | succ n ih =>
    rw [← Nat.add_assoc, beBytes_succ, ih, beBytes_succ, Nat.div_div_eq_div_mul, Nat.pow_succ',
      List.append_assoc]

theorem ofBe_append_singleton (l : List UInt8) (b : UInt8) :
    ofBe (l ++ [b]) = ofBe l * 256 + b.toNat := by
  rw [ofBe, List.foldl_append, ofBe, List.foldl_cons, List.foldl_nil]

theorem ofBe_reverse (l : List UInt8) : ofBe l.reverse = ofLe l := by
  induction l with
  | nil => rfl
  | cons b l ih =>
    rw [List.reverse_cons, ofBe_append_singleton, ih, ofLe]
    omega

theorem ofBe_beBytes (n v : Nat) (h : v < 256 ^ n) : ofBe (beBytes n v) = v := by
  rw [beBytes, ofBe_reverse, ofLe_leBytes n v h]

/-- Numbers that fit are told apart by their bytes, whatever follows. -/
theorem beBytes_append_inj (hv : v < 256 ^ n) (hw : w < 256 ^ n) {l l' : List UInt8}
    (h : beBytes n v ++ l = beBytes n w ++ l') : v = w ∧ l = l' := by
  have hlen : (beBytes n v).length = (beBytes n w).length := by
    rw [length_beBytes, length_beBytes]
  obtain ⟨hbytes, htail⟩ := List.append_inj h hlen
  have hof := congrArg ofBe hbytes
  rw [ofBe_beBytes n v hv, ofBe_beBytes n w hw] at hof
  exact ⟨hof, htail⟩

theorem ofBe_eq (l : List UInt8) : ofBe l = ofLe l.reverse := by
  rw [← ofBe_reverse, List.reverse_reverse]

theorem ofBe_lt (l : List UInt8) : ofBe l < 256 ^ l.length := by
  rw [ofBe_eq, ← List.length_reverse]
  exact ofLe_lt l.reverse

theorem beBytes_ofBe (l : List UInt8) : beBytes l.length (ofBe l) = l := by
  rw [ofBe_eq, beBytes, ← List.length_reverse, leBytes_ofLe, List.reverse_reverse]

end Bytes
