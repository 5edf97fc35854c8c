import Mathlib.Algebra.Group.Nat.Defs
import Mathlib.Data.List.FinRange
import Mathlib.Data.Fin.Basic
import Mathlib.Order.Bounds.Defs

set_option autoImplicit true

namespace Bitmap

/-- The number of leading zero bits, as `__builtin_clzll` counts them. -/
def clz (w : UInt64) : Nat := w.toBitVec.clz.toNat

/-- The number of trailing zero bits, as `__builtin_ctzll` counts them. -/
def ctz (w : UInt64) : Nat := w.toBitVec.ctz.toNat

def bit (w : UInt64) (i : Nat) : Bool := w.toBitVec.getLsbD i

theorem bit_clz (h : w ≠ 0) : bit w (63 - clz w) = true := by
  apply BitVec.getLsbD_true_clz_of_ne_zero (by decide)
  intro hz
  exact h (UInt64.toBitVec_inj.1 hz)

theorem bit_above_clz (h : 63 - clz w < i) : bit w i = false := by
  have hlt : w.toBitVec.toNat < 2 ^ (64 - clz w) := BitVec.toNat_lt_two_pow_sub_clz
  apply Nat.testBit_lt_two_pow
  exact Nat.lt_of_lt_of_le hlt (Nat.pow_le_pow_right (by decide) (by omega))

theorem clz_lt (h : w ≠ 0) : clz w < 64 := by
  have hz : w.toBitVec ≠ 0#64 := fun hz => h (UInt64.toBitVec_inj.1 hz)
  exact BitVec.lt_def.1 (BitVec.clz_lt_iff_ne_zero.2 hz)

theorem ctz_lt (h : w ≠ 0) : ctz w < 64 := by
  have hz : w.toBitVec ≠ 0#64 := fun hz => h (UInt64.toBitVec_inj.1 hz)
  exact BitVec.lt_def.1 (BitVec.ctz_lt_iff_ne_zero.2 hz)

theorem bit_ctz (h : w ≠ 0) : bit w (ctz w) = true := by
  apply BitVec.getLsbD_true_ctz_of_ne_zero
  intro hz
  exact h (UInt64.toBitVec_inj.1 hz)

theorem bit_below_ctz (h : i < ctz w) : bit w i = false :=
  BitVec.getLsbD_false_of_lt_ctz h

theorem bit_zero (i : Nat) : bit 0 i = false := BitVec.getLsbD_zero

def single (i : Fin 64) : UInt64 := 1 <<< UInt64.ofNat i

theorem bit_single (i : Fin 64) (j : Nat) : bit (single i) j = decide (j = i.val) := by
  have hone (d : Nat) : (1 : UInt64).toBitVec.getLsbD d = decide (d = 0) := by
    rw [UInt64.toBitVec_one, BitVec.getLsbD_one, decide_eq_true (by decide), Bool.true_and]
  have hi : (UInt64.ofNat i.val).toBitVec.toNat % 64 = i.val := by
    rw [UInt64.toBitVec_ofNat', BitVec.toNat_ofNat]
    omega
  rw [bit, single, UInt64.toBitVec_shiftLeft, BitVec.shiftLeft_eq', BitVec.getLsbD_shiftLeft,
    BitVec.toNat_umod, show (64 : BitVec 64).toNat = 64 from rfl, hi, hone, Bool.eq_iff_iff]
  simp only [Bool.and_eq_true, Bool.not_eq_true', decide_eq_true_eq, decide_eq_false_iff_not]
  omega

theorem bit_or (v w : UInt64) (j : Nat) : bit (v ||| w) j = (bit v j || bit w j) :=
  BitVec.getLsbD_or

theorem bit_and_not (v w : UInt64) (hj : j < 64) : bit (v &&& ~~~w) j = (bit v j && !bit w j) := by
  rw [bit, UInt64.toBitVec_and, UInt64.toBitVec_not, BitVec.getLsbD_and, BitVec.getLsbD_not,
    decide_eq_true hj, Bool.true_and]
  rfl

end Bitmap

/-- A bitmap of `64 * W` slots in `W` words, the least slot in the lowest bit of word zero. -/
abbrev Bitmap (W : Nat) := Vector UInt64 W

namespace Bitmap

variable {W : Nat}

def empty : Bitmap W := Vector.replicate W 0

def word (slot : Fin (64 * W)) : Fin W := ⟨slot.val >>> 6, by
  rw [Nat.shiftRight_eq_div_pow]
  exact Nat.div_lt_of_lt_mul slot.isLt⟩

def place (slot : Fin (64 * W)) : Fin 64 := ⟨slot.val &&& 63, by
  rw [Nat.and_two_pow_sub_one_eq_mod slot.val 6]
  exact Nat.mod_lt _ (by decide)⟩

def test (bits : Bitmap W) (slot : Fin (64 * W)) : Bool := bit bits[word slot] (place slot)

def set (bits : Bitmap W) (slot : Fin (64 * W)) : Bitmap W :=
  Vector.set bits (word slot) (bits[word slot] ||| single (place slot))

def clear (bits : Bitmap W) (slot : Fin (64 * W)) : Bitmap W :=
  Vector.set bits (word slot) (bits[word slot] &&& ~~~single (place slot))

def slotAt (w : Fin W) (i : Fin 64) : Fin (64 * W) := ⟨(w.val <<< 6) + i.val, by
  rw [Nat.shiftLeft_eq]
  omega⟩

def topOf (bits : Bitmap W) (w : Fin W) : Option (Fin (64 * W)) :=
  if bits[w] ≠ 0 then some (slotAt w ⟨63 - clz bits[w], by omega⟩) else none

def bottomOf (bits : Bitmap W) (w : Fin W) : Option (Fin (64 * W)) :=
  if h : bits[w] ≠ 0 then some (slotAt w ⟨ctz bits[w], ctz_lt h⟩) else none

/-- The highest slot that is set, words searched from the last to the first. -/
def top (bits : Bitmap W) : Option (Fin (64 * W)) :=
  (List.finRange W).reverse.findSome? bits.topOf

/-- The lowest slot that is set, words searched from the first to the last. -/
def bottom (bits : Bitmap W) : Option (Fin (64 * W)) := (List.finRange W).findSome? bits.bottomOf

theorem slot_eq (slot : Fin (64 * W)) : slot.val = 64 * (word slot).val + (place slot).val := by
  have hw : (word slot).val = slot.val / 64 := Nat.shiftRight_eq_div_pow slot.val 6
  have hp : (place slot).val = slot.val % 64 := Nat.and_two_pow_sub_one_eq_mod slot.val 6
  rw [hw, hp]
  exact (Nat.div_add_mod slot.val 64).symm

theorem slotAt_val (w : Fin W) (i : Fin 64) : (slotAt w i).val = 64 * w.val + i.val := by
  have h : w.val <<< 6 = w.val * 2 ^ 6 := Nat.shiftLeft_eq _ _
  have hs : (slotAt w i).val = w.val <<< 6 + i.val := rfl
  omega

theorem word_slotAt (w : Fin W) (i : Fin 64) : word (slotAt w i) = w := by
  have h := slot_eq (slotAt w i)
  rw [slotAt_val] at h
  omega

theorem place_slotAt (w : Fin W) (i : Fin 64) : place (slotAt w i) = i := by
  have h := slot_eq (slotAt w i)
  rw [slotAt_val, word_slotAt] at h
  omega

theorem slot_ext {s t : Fin (64 * W)} (hw : word s = word t) (hp : place s = place t) : s = t := by
  apply Fin.ext
  rw [slot_eq, slot_eq t, hw, hp]

theorem test_slotAt (bits : Bitmap W) (w : Fin W) (i : Fin 64) :
    test bits (slotAt w i) = bit bits[w] i := by
  simp only [test, word_slotAt, place_slotAt]

@[simp] theorem test_empty (slot : Fin (64 * W)) : test empty slot = false := by
  rw [test, empty, Fin.getElem_fin, Vector.getElem_replicate, bit_zero]

theorem test_set (bits : Bitmap W) (s t : Fin (64 * W)) :
    test (set bits s) t = (test bits t || decide (t = s)) := by
  rw [test, set, Fin.getElem_fin, Vector.getElem_set]
  by_cases hw : word s = word t
  · rw [if_pos (congrArg Fin.val hw), bit_or, bit_single]
    simp only [test, hw]
    congr 2
    exact propext ⟨fun hp => slot_ext hw.symm (Fin.ext hp), fun h => by rw [h]⟩
  · have hne : t ≠ s := fun h => hw (congrArg word h.symm)
    rw [if_neg (fun h => hw (Fin.ext h)), decide_eq_false hne, Bool.or_false]
    rfl

theorem test_clear (bits : Bitmap W) (s t : Fin (64 * W)) :
    test (clear bits s) t = (test bits t && !decide (t = s)) := by
  rw [test, clear, Fin.getElem_fin, Vector.getElem_set]
  by_cases hw : word s = word t
  · rw [if_pos (congrArg Fin.val hw), bit_and_not _ _ (place t).isLt, bit_single]
    simp only [test, hw]
    congr 3
    exact propext ⟨fun hp => slot_ext hw.symm (Fin.ext hp), fun h => by rw [h]⟩
  · have hne : t ≠ s := fun h => hw (congrArg word h.symm)
    rw [if_neg (fun h => hw (Fin.ext h)), decide_eq_false hne, Bool.not_false, Bool.and_true]
    rfl

theorem test_zero_word (bits : Bitmap W) (t : Fin (64 * W)) (h : bits[word t] = 0) :
    test bits t = false := by
  rw [test, h, bit_zero]

theorem topOf_eq_none (h : topOf bits w = none) : (bits : Bitmap W)[w] = 0 := by
  rw [topOf] at h
  by_contra hz
  rw [if_pos hz] at h
  cases h

theorem bottomOf_eq_none (h : bottomOf bits w = none) : (bits : Bitmap W)[w] = 0 := by
  rw [bottomOf] at h
  by_contra hz
  rw [dif_pos hz] at h
  cases h

theorem top_eq_none {bits : Bitmap W} (h : bits.top = none) (t : Fin (64 * W)) :
    bits.test t = false := by
  apply test_zero_word
  apply topOf_eq_none
  exact List.findSome?_eq_none_iff.1 h _ (List.mem_reverse.2 (List.mem_finRange _))

theorem bottom_eq_none {bits : Bitmap W} (h : bits.bottom = none) (t : Fin (64 * W)) :
    bits.test t = false := by
  apply test_zero_word
  apply bottomOf_eq_none
  exact List.findSome?_eq_none_iff.1 h _ (List.mem_finRange _)

/-- No slot above the top one is set. -/
theorem top_eq_some {bits : Bitmap W} (h : bits.top = some s) :
    bits.test s = true ∧ ∀ t, bits.test t = true → t ≤ s := by
  obtain ⟨l, w, l', hl, hw, hn⟩ := List.findSome?_eq_some_iff.1 h
  rw [topOf] at hw
  by_cases hz : bits[w] ≠ 0
  · rw [if_pos hz] at hw
    have hs := Option.some.inj hw
    refine ⟨?_, ?_⟩
    · rw [← hs, test_slotAt]
      exact bit_clz hz
    · intro t ht
      have hwt : word t ≤ w := by
        have hm : word t ∈ l ++ w :: l' := hl ▸ List.mem_reverse.2 (List.mem_finRange _)
        rcases List.mem_append.1 hm with hm | hm
        · rw [test_zero_word bits t (topOf_eq_none (hn _ hm))] at ht
          cases ht
        · have hp : (l ++ w :: l').Pairwise (· > ·) :=
            hl ▸ List.pairwise_reverse.2 (List.pairwise_lt_finRange W)
          rcases List.mem_cons.1 hm with hm | hm
          · exact hm.le
          · exact ((List.pairwise_cons.1 (List.pairwise_append.1 hp).2.1).1 _ hm).le
      have hle : word t = w → (place t).val ≤ 63 - clz bits[w] := by
        rintro rfl
        by_contra hlt
        rw [test, bit_above_clz (Nat.lt_of_not_le hlt)] at ht
        cases ht
      rw [← hs, Fin.le_def, slot_eq t, slotAt_val]
      have hp := (place t).isLt
      rcases Nat.lt_or_ge (word t).val w.val with hlt | hge
      · omega
      · have he : word t = w := Fin.ext (Nat.le_antisymm hwt hge)
        have := hle he
        rw [he]
        dsimp only
        omega
  · rw [if_neg hz] at hw
    cases hw

/-- No slot below the bottom one is set. -/
theorem bottom_eq_some {bits : Bitmap W} (h : bits.bottom = some s) :
    bits.test s = true ∧ ∀ t, bits.test t = true → s ≤ t := by
  obtain ⟨l, w, l', hl, hw, hn⟩ := List.findSome?_eq_some_iff.1 h
  rw [bottomOf] at hw
  by_cases hz : bits[w] ≠ 0
  · rw [dif_pos hz] at hw
    have hs := Option.some.inj hw
    refine ⟨?_, ?_⟩
    · rw [← hs, test_slotAt]
      exact bit_ctz hz
    · intro t ht
      have hwt : w ≤ word t := by
        have hm : word t ∈ l ++ w :: l' := hl ▸ List.mem_finRange _
        rcases List.mem_append.1 hm with hm | hm
        · rw [test_zero_word bits t (bottomOf_eq_none (hn _ hm))] at ht
          cases ht
        · have hp : (l ++ w :: l').Pairwise (· < ·) := hl ▸ List.pairwise_lt_finRange W
          rcases List.mem_cons.1 hm with hm | hm
          · exact hm.ge
          · exact ((List.pairwise_cons.1 (List.pairwise_append.1 hp).2.1).1 _ hm).le
      have hle : word t = w → ctz bits[w] ≤ (place t).val := by
        rintro rfl
        by_contra hlt
        rw [test, bit_below_ctz (Nat.lt_of_not_le hlt)] at ht
        cases ht
      rw [← hs, Fin.le_def, slot_eq t, slotAt_val]
      have hp := ctz_lt hz
      rcases Nat.lt_or_ge w.val (word t).val with hlt | hge
      · dsimp only
        omega
      · have he : word t = w := Fin.ext (Nat.le_antisymm hge hwt)
        have := hle he
        rw [he]
        dsimp only
        omega
  · rw [dif_neg hz] at hw
    cases hw

theorem top_eq_some_iff {bits : Bitmap W} :
    bits.top = some s ↔ IsGreatest {t | bits.test t = true} s := by
  constructor
  · intro h
    obtain ⟨hs, hle⟩ := top_eq_some h
    exact ⟨hs, fun t ht => hle t ht⟩
  · rintro ⟨hs, hub⟩
    cases h : bits.top with
    | none =>
      have hclear := top_eq_none h s
      exact absurd (hclear.symm.trans hs) Bool.false_ne_true
    | some t =>
      obtain ⟨ht, hle⟩ := top_eq_some h
      exact congrArg some (le_antisymm (hub ht) (hle s hs))

theorem bottom_eq_some_iff {bits : Bitmap W} :
    bits.bottom = some s ↔ IsLeast {t | bits.test t = true} s := by
  constructor
  · intro h
    obtain ⟨hs, hle⟩ := bottom_eq_some h
    exact ⟨hs, fun t ht => hle t ht⟩
  · rintro ⟨hs, hlb⟩
    cases h : bits.bottom with
    | none =>
      have hclear := bottom_eq_none h s
      exact absurd (hclear.symm.trans hs) Bool.false_ne_true
    | some t =>
      obtain ⟨ht, hle⟩ := bottom_eq_some h
      exact congrArg some (le_antisymm (hle s hs) (hlb ht))

theorem top_eq_none_iff {bits : Bitmap W} : bits.top = none ↔ ∀ t, ¬ bits.test t = true := by
  constructor
  · intro h t
    rw [top_eq_none h t]
    exact Bool.false_ne_true
  · intro h
    cases ht : bits.top with
    | none => rfl
    | some t => exact absurd (top_eq_some ht).1 (h t)

theorem bottom_eq_none_iff {bits : Bitmap W} : bits.bottom = none ↔ ∀ t, ¬ bits.test t = true := by
  constructor
  · intro h t
    rw [bottom_eq_none h t]
    exact Bool.false_ne_true
  · intro h
    cases ht : bits.bottom with
    | none => rfl
    | some t => exact absurd (bottom_eq_some ht).1 (h t)

end Bitmap
