import Tickpipe.OpDigest
import Tickpipe.Lib.DifferOnce

set_option autoImplicit true

namespace Tickpipe

/-- The bytes of a word, least significant first. -/
def wordBytes (v : UInt64) : List UInt64 :=
  (List.range 8).map fun i => (v >>> UInt64.ofNat (i * 8)) &&& 0xFF

def fnvStep (digest b : UInt64) : UInt64 := (digest ^^^ b) * fnvPrime

theorem fold_eq_foldl (digest v : UInt64) : fold digest v = (wordBytes v).foldl fnvStep digest := by
  rw [fold, wordBytes, List.foldl_map]
  rfl

/-- The inverse of the prime modulo `2 ^ 64`. -/
def fnvInverse : UInt64 := 0xce965057aff6957b

theorem fnvPrime_mul_inverse : fnvPrime * fnvInverse = 1 := by decide

theorem mul_fnvPrime_injective : Function.Injective fun x : UInt64 => x * fnvPrime := by
  intro x y h
  have hinverse (x : UInt64) : x * fnvPrime * fnvInverse = x := by
    rw [UInt64.mul_assoc, fnvPrime_mul_inverse, UInt64.mul_one]
  rw [← hinverse x, ← hinverse y]
  exact congrArg (· * fnvInverse) h

theorem fnvStep_injective (b : UInt64) : Function.Injective fun digest => fnvStep digest b := by
  intro x y h
  exact (UInt64.xor_left_inj b).1 (mul_fnvPrime_injective h)

theorem fnvStep_ne (h : b ≠ b') (digest : UInt64) : fnvStep digest b ≠ fnvStep digest b' := by
  intro he
  exact h ((UInt64.xor_right_inj digest).1 (mul_fnvPrime_injective he))

theorem fold_injective (v : UInt64) : Function.Injective fun digest => fold digest v := by
  intro x y h
  dsimp only at h
  rw [fold_eq_foldl, fold_eq_foldl] at h
  exact DifferOnce.foldl_injective fnvStep_injective (wordBytes v) h

/-- The words differ in one byte. -/
def OneByteApart (v v' : UInt64) : Prop := DifferOnce Eq Ne (wordBytes v) (wordBytes v')

instance : DecidableRel OneByteApart := fun v v' =>
  inferInstanceAs (Decidable (DifferOnce Eq Ne (wordBytes v) (wordBytes v')))

theorem fold_ne (h : OneByteApart v v') (digest : UInt64) : fold digest v ≠ fold digest v' := by
  rw [fold_eq_foldl, fold_eq_foldl]
  apply h.foldl_ne fnvStep_injective
  · rintro b _ rfl _
    rfl
  · exact fun b b' => fnvStep_ne

namespace ResolvedOp

/-- The operations agree on every field that is folded. -/
def SameFolded (op op' : ResolvedOp) : Prop := op.words = op'.words

/-- They differ in one byte of one of these fields. -/
def OneByteApart (op op' : ResolvedOp) : Prop :=
  DifferOnce Eq Tickpipe.OneByteApart op.words op'.words

instance : DecidableRel SameFolded := fun op op' =>
  inferInstanceAs (Decidable (op.words = op'.words))

instance : DecidableRel OneByteApart := fun op op' =>
  inferInstanceAs (Decidable (DifferOnce Eq Tickpipe.OneByteApart op.words op'.words))

end ResolvedOp

namespace BookState

theorem foldOp_injective (op : ResolvedOp) : Function.Injective fun digest => foldOp digest op := by
  intro x y h
  dsimp only at h
  rw [foldOp_words, foldOp_words] at h
  exact DifferOnce.foldl_injective fold_injective op.words h

theorem foldOp_ne (h : ResolvedOp.OneByteApart op op') (digest : UInt64) :
    foldOp digest op ≠ foldOp digest op' := by
  rw [foldOp_words, foldOp_words]
  apply h.foldl_ne fold_injective
  · rintro v _ rfl _
    rfl
  · exact fun v v' => fold_ne

theorem digest_new (slots : Vector RestingOrder (2 ^ k)) (msgs : List Order) :
    (Mealy.after resolve (new slots) msgs).digest =
      ((new slots).opsOf msgs).foldl foldOp fnvOffset := by
  rw [digest_run _ (new_valid slots), foldl_foldOp]
  rfl

/-- Operations that differ in one byte of one field end in different digests. -/
theorem digest_catches_one_byte (slots : Vector RestingOrder (2 ^ k))
    (slots' : Vector RestingOrder (2 ^ k')) (msgs msgs' : List Order)
    (h : DifferOnce ResolvedOp.SameFolded ResolvedOp.OneByteApart
      ((new slots).opsOf msgs) ((new slots').opsOf msgs')) :
    (Mealy.after resolve (new slots) msgs).digest ≠
      (Mealy.after resolve (new slots') msgs').digest := by
  rw [digest_new, digest_new]
  apply h.foldl_ne foldOp_injective
  · intro op op' hop digest
    rw [foldOp_words, foldOp_words, hop]
  · exact fun op op' => foldOp_ne

/-- A buy, and the cancel of some of it. -/
def addThenCancel (quantity : UInt32) : List Order :=
  [{ action := .add, orderRef := 1, side := .buy, quantity := 10, price := 100 },
   { action := .cancel, orderRef := 1, quantity := quantity }]

theorem otherCancel_digest :
    (Mealy.after resolve (new (Vector.replicate (2 ^ 1) default)) (addThenCancel 4)).digest ≠
      (Mealy.after resolve (new (Vector.replicate (2 ^ 2) default)) (addThenCancel 6)).digest := by
  apply digest_catches_one_byte
  decide +kernel

end BookState

end Tickpipe
