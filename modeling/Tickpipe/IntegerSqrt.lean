import Tickpipe.Microstructure
import Mathlib.Data.Nat.Sqrt
import Mathlib.Tactic.Ring
import Mathlib.Tactic.Linarith

set_option autoImplicit true

namespace Tickpipe

/-- What the loop of `isqrt128` does to its 128-bit words, beside reading `v`. -/
inductive WordOp where
  | shiftLeft (x n : Nat)
  | or (x y : Nat)
  | sub (x y : Nat)

namespace WordOp

/-- No bit is shifted out, falls on another or is borrowed. -/
def Lossless : WordOp → Prop
  | shiftLeft x n => x <<< n < 2 ^ 128
  | or x y => x &&& y = 0
  | sub x y => y ≤ x

end WordOp

namespace Microstructure

open Checked (unsigned unsigned_of_fits)

def isqrtOps (v : Nat) : (n rem root : Nat) → List WordOp
  | 0, _, _ => []
  | i + 1, rem, root =>
    let pair := (v >>> (i * 2)) &&& 3
    let root' := root <<< 1
    let rem' := rem <<< 2 ||| pair
    let ops := [.shiftLeft root 1, .shiftLeft rem 2, .or (rem <<< 2) pair]
    if rem' > root' then
      ops ++ [.or root' 1, .sub rem' (root' ||| 1), .or root' 2] ++
        isqrtOps v i (rem' - (root' ||| 1)) (root' ||| 2)
    else ops ++ isqrtOps v i rem' root'

section Bits

theorem shiftRight_pair (v i : Nat) :
    v >>> (2 * i) = 4 * (v >>> (2 * (i + 1))) + ((v >>> (i * 2)) &&& 3) := by
  have hmod : (v >>> (i * 2)) &&& 3 = v >>> (2 * i) % 4 := by
    rw [Nat.mul_comm i 2]
    exact Nat.and_two_pow_sub_one_eq_mod (v >>> (2 * i)) 2
  have hdiv : v >>> (2 * (i + 1)) = v >>> (2 * i) / 4 := by
    rw [Nat.mul_succ, Nat.shiftRight_add]
    exact Nat.shiftRight_eq_div_pow _ 2
  rw [hmod, hdiv, Nat.div_add_mod]

theorem pair_lt (x : Nat) : x &&& 3 < 4 := by
  have h := Nat.and_two_pow_sub_one_eq_mod x 2
  exact h ▸ Nat.mod_lt x (by decide)

theorem shiftLeft_one (r : Nat) : (2 * r) <<< 1 = 4 * r := by
  rw [Nat.shiftLeft_eq]
  omega

theorem shiftLeft_two (x : Nat) : x <<< 2 = 4 * x := by
  rw [Nat.shiftLeft_eq]
  omega

theorem four_mul_or (x : Nat) (h : b < 4) : 4 * x ||| b = 4 * x + b := by
  have hadd := Nat.shiftLeft_add_eq_or_of_lt (i := 2) h x
  rw [shiftLeft_two] at hadd
  exact hadd.symm

theorem four_mul_and (x : Nat) (h : b < 4) : 4 * x &&& b = 0 := by
  have hb : b &&& 3 = b := by
    rw [Nat.and_two_pow_sub_one_eq_mod b 2]
    exact Nat.mod_eq_of_lt h
  have hx : 4 * x &&& 3 = 0 := by
    rw [Nat.and_two_pow_sub_one_eq_mod (4 * x) 2]
    exact Nat.mul_mod_right 4 x
  rw [← hb, Nat.and_comm b 3, ← Nat.and_assoc, hx, Nat.zero_and]

end Bits

theorem root_lt {r v : Nat} (h : r * r ≤ v) (hv : v < 2 ^ 128) : r < 2 ^ 64 := by
  by_contra hge
  have hsq := Nat.mul_le_mul (not_lt.1 hge) (not_lt.1 hge)
  omega

/-- With `n` pairs of bits to come, `r` is the root of the bits taken in, and `rem` what its square
leaves of them. -/
structure PartialRoot (v n rem r : Nat) : Prop where
  sum : rem + r * r = v >>> (2 * n)
  rem_le : rem ≤ 2 * r

namespace PartialRoot

variable {v n i rem r : Nat}

theorem lt (h : PartialRoot v n rem r) (hv : v < 2 ^ 128) : r < 2 ^ 64 := by
  have hle := Nat.shiftRight_le v (2 * n)
  have hsum := h.sum
  exact root_lt (by omega) hv

section Next

variable (h : PartialRoot v (i + 1) rem r)
include h

/-- The next bit of the root is set. -/
theorem next_set (hb : 4 * rem + ((v >>> (i * 2)) &&& 3) > 4 * r) :
    PartialRoot v i (4 * rem + ((v >>> (i * 2)) &&& 3) - (4 * r + 1)) (2 * r + 1) := by
  have hpair := shiftRight_pair v i
  have hlt := pair_lt (v >>> (i * 2))
  have hsum := h.sum
  have hrem := h.rem_le
  have hsq : (2 * r + 1) * (2 * r + 1) = 4 * (r * r) + 4 * r + 1 := by ring
  constructor
  · omega
  · omega

theorem next_clear (hb : ¬ 4 * rem + ((v >>> (i * 2)) &&& 3) > 4 * r) :
    PartialRoot v i (4 * rem + ((v >>> (i * 2)) &&& 3)) (2 * r) := by
  have hpair := shiftRight_pair v i
  have hsum := h.sum
  have hsq : 2 * r * (2 * r) = 4 * (r * r) := by ring
  constructor
  · omega
  · omega

end Next

theorem eq_sqrt (h : PartialRoot v 0 rem r) : r = v.sqrt := by
  have hsum := h.sum
  have hrem := h.rem_le
  rw [Nat.mul_zero, Nat.shiftRight_zero] at hsum
  rw [Nat.eq_sqrt, Nat.succ_mul_succ]
  omega

theorem start (hv : v < 2 ^ 128) : PartialRoot v 64 0 0 := by
  have htop : v >>> (2 * 64) = 0 := by
    rw [Nat.shiftRight_eq_div_pow]
    exact Nat.div_eq_of_lt hv
  exact ⟨htop.symm, Nat.le_refl _⟩

end PartialRoot

section Loop

variable {v : Nat} (hv : v < 2 ^ 128)
include hv

/-- The loop keeps the partial root, doubled, and ends with the whole one. -/
theorem isqrtLoop_eq (n : Nat) {rem r : Nat} (h : PartialRoot v n rem r) :
    isqrtLoop v n rem (2 * r) = pure (2 * v.sqrt) := by
  induction n generalizing rem r with
  | zero => rw [isqrtLoop, h.eq_sqrt]
  | succ i ih =>
    have hr := h.lt hv
    have hrem := h.rem_le
    have hpair := pair_lt (v >>> (i * 2))
    rw [isqrtLoop, shiftLeft_one, shiftLeft_two, unsigned_of_fits rfl (by omega),
      Checked.pure_bind, unsigned_of_fits rfl (by omega), Checked.pure_bind]
    dsimp only
    rw [four_mul_or rem hpair, four_mul_or r (by decide), four_mul_or r (by decide)]
    by_cases hb : 4 * rem + ((v >>> (i * 2)) &&& 3) > 4 * r
    · have hsub : ((4 * rem + ((v >>> (i * 2)) &&& 3) : Nat) : Int) - (4 * r + 1 : Nat) =
          (4 * rem + ((v >>> (i * 2)) &&& 3) - (4 * r + 1) : Nat) := by omega
      have hdouble : 4 * r + 2 = 2 * (2 * r + 1) := by ring
      rw [if_pos hb, unsigned_of_fits hsub (by omega), Checked.pure_bind, hdouble]
      exact ih (h.next_set hb)
    · have hdouble : 4 * r = 2 * (2 * r) := by ring
      rw [if_neg hb, hdouble]
      exact ih (h.next_clear hb)

theorem isqrtOps_lossless (n : Nat) {rem r : Nat} (h : PartialRoot v n rem r) :
    ∀ op ∈ isqrtOps v n rem (2 * r), op.Lossless := by
  induction n generalizing rem r with
  | zero => exact List.forall_mem_nil _
  | succ i ih =>
    have hr := h.lt hv
    have hrem := h.rem_le
    have hpair := pair_lt (v >>> (i * 2))
    have hhead : ∀ op ∈ [WordOp.shiftLeft (2 * r) 1, .shiftLeft rem 2,
        .or (4 * rem) ((v >>> (i * 2)) &&& 3)], op.Lossless := by
      rw [List.forall_mem_cons, List.forall_mem_cons, List.forall_mem_singleton,
        WordOp.Lossless, WordOp.Lossless, shiftLeft_one, shiftLeft_two]
      exact ⟨by omega, by omega, four_mul_and rem hpair⟩
    rw [isqrtOps, shiftLeft_one, shiftLeft_two]
    rw [four_mul_or rem hpair, four_mul_or r (by decide), four_mul_or r (by decide)]
    by_cases hb : 4 * rem + ((v >>> (i * 2)) &&& 3) > 4 * r
    · have hdouble : 4 * r + 2 = 2 * (2 * r + 1) := by ring
      have hset : ∀ op ∈ [WordOp.or (4 * r) 1,
          .sub (4 * rem + ((v >>> (i * 2)) &&& 3)) (4 * r + 1), .or (4 * r) 2], op.Lossless := by
        rw [List.forall_mem_cons, List.forall_mem_cons, List.forall_mem_singleton]
        exact ⟨four_mul_and r (by decide), hb, four_mul_and r (by decide)⟩
      rw [if_pos hb, hdouble, List.forall_mem_append, List.forall_mem_append]
      exact ⟨⟨hhead, hset⟩, ih (h.next_set hb)⟩
    · have hdouble : 4 * r = 2 * (2 * r) := by ring
      rw [if_neg hb, hdouble, List.forall_mem_append]
      exact ⟨hhead, ih (h.next_clear hb)⟩

end Loop

/-- The root is exact, and no operation on the way to it wraps. -/
theorem isqrt128_eq (hv : v < 2 ^ 128) : isqrt128 v = pure v.sqrt := by
  rw [isqrt128]
  by_cases h0 : v = 0
  · rw [if_pos h0, h0]
    rfl
  · have hlt := root_lt (Nat.sqrt_le v) hv
    have hhalf : (2 * v.sqrt) >>> 1 = v.sqrt := by
      rw [Nat.shiftRight_eq_div_pow]
      omega
    have hloop := isqrtLoop_eq hv 64 (PartialRoot.start hv)
    rw [Nat.mul_zero] at hloop
    rw [if_neg h0, hloop, Checked.pure_bind, hhalf]
    exact unsigned_of_fits rfl hlt

/-- The root is the exact one of 64 bits, and no operation of the loop loses a bit. -/
theorem isqrt128_exact (hv : v < 2 ^ 128) : ∃ r, isqrt128 v = pure r ∧
    r * r ≤ v ∧ v < (r + 1) * (r + 1) ∧ r < 2 ^ 64 ∧ ∀ op ∈ isqrtOps v 64 0 0, op.Lossless := by
  have hlossless := isqrtOps_lossless hv 64 (PartialRoot.start hv)
  rw [Nat.mul_zero] at hlossless
  exact ⟨v.sqrt, isqrt128_eq hv, Nat.sqrt_le v, Nat.lt_succ_sqrt v, root_lt (Nat.sqrt_le v) hv,
    hlossless⟩

theorem isqrt128_largest : ∃ r, isqrt128 (2 ^ 128 - 1) = pure r ∧
    r * r ≤ 2 ^ 128 - 1 ∧ 2 ^ 128 - 1 < (r + 1) * (r + 1) ∧ r < 2 ^ 64 ∧
      ∀ op ∈ isqrtOps (2 ^ 128 - 1) 64 0 0, op.Lossless :=
  isqrt128_exact (by decide)

end Microstructure

end Tickpipe
