import Tickpipe.Lib.Framing
import Mathlib.Data.List.Forall2
import Mathlib.Data.List.Flatten
import Mathlib.Algebra.Ring.Nat

set_option autoImplicit true

/-! Lists laid out block after block, with nothing between two blocks. -/

namespace Blocks

section Layout

variable {α : Type u} {β : Type v} {γ : Type w} {f : α → List γ} {g : β → List γ}

/-- Blocks of the same lengths can be told apart. -/
theorem forall₂_of_flatMap {xs : List α} {ys : List β}
    (hlen : List.Forall₂ (fun x y => (f x).length = (g y).length) xs ys)
    (h : xs.flatMap f = ys.flatMap g) : List.Forall₂ (fun x y => f x = g y) xs ys := by
  induction hlen with
  | nil => exact .nil
  | cons hxy _ ih =>
    rw [List.flatMap_cons, List.flatMap_cons] at h
    obtain ⟨hhead, htail⟩ := List.append_inj h hxy
    exact .cons hhead (ih htail)

theorem length_eq_of_forall₂ {xs : List α} {ys : List β}
    (hlen : List.Forall₂ (fun x y => (f x).length = (g y).length) xs ys) :
    (xs.flatMap f).length = (ys.flatMap g).length := by
  induction hlen with
  | nil => rfl
  | cons hxy _ ih =>
    rw [List.flatMap_cons, List.flatMap_cons, List.length_append, List.length_append, hxy, ih]

theorem length_flatMap (hf : ∀ x, (f x).length = n) (xs : List α) :
    (xs.flatMap f).length = n * xs.length := by
  induction xs with
  | nil => rfl
  | cons x xs ih =>
    rw [List.flatMap_cons, List.length_append, hf, ih, List.length_cons, Nat.mul_succ,
      Nat.add_comm]

/-- Blocks of one fixed length can be told apart. -/
theorem forall₂_of_fixed (hn : 0 < n) (hf : ∀ x, (f x).length = n) {xs ys : List α}
    (h : xs.flatMap f = ys.flatMap f) : List.Forall₂ (fun x y => f x = f y) xs ys := by
  have hlen : xs.length = ys.length := by
    have hmul := congrArg List.length h
    rw [length_flatMap hf, length_flatMap hf] at hmul
    exact Nat.eq_of_mul_eq_mul_left hn hmul
  apply forall₂_of_flatMap ?_ h
  rw [List.forall₂_iff_zip]
  exact ⟨hlen, fun _ => (hf _).trans (hf _).symm⟩

end Layout

section Reading

variable {α : Type u}

/-- The next block of `n` items, if there are as many. -/
def next (n : Nat) (l : List α) : Option (List α × List α) :=
  if n ≤ l.length then some (l.take n, l.drop n) else none

/-- The complete blocks of `n` items that a list begins with. -/
def blocks (n : Nat) (l : List α) : List (List α) := Framing.pieces (next n) l.length l

theorem consumes_next (hn : 0 < n) : Framing.Consumes ((next n : List α → _)) := by
  intro l b rest h
  rw [next] at h
  split at h
  case isTrue hlen =>
    obtain ⟨-, rfl⟩ := Prod.mk.inj (Option.some.inj h)
    rw [List.length_drop]
    omega
  case isFalse => cases h

theorem blocks_of_le (hn : 0 < n) {l : List α} (h : n ≤ l.length) :
    blocks n l = l.take n :: blocks n (l.drop n) := by
  have hnext : next n l = some (l.take n, l.drop n) := if_pos h
  have hfuel := Framing.pieces_of_length_le (consumes_next hn) (Nat.le_succ l.length)
  have hlt := consumes_next hn _ _ _ hnext
  rw [blocks, ← hfuel, Framing.pieces_succ_some hnext,
    Framing.pieces_of_length_le (consumes_next hn) (Nat.le_of_lt hlt), blocks]

theorem blocks_of_lt (hn : 0 < n) {l : List α} (h : l.length < n) : blocks n l = [] := by
  have hnext : next n l = none := if_neg (Nat.not_le.2 h)
  have hfuel := Framing.pieces_of_length_le (consumes_next hn) (Nat.le_succ l.length)
  rw [blocks, ← hfuel, Framing.pieces_succ_none hnext]

theorem getElem?_blocks (hn : 0 < n) (l : List α) (i : Nat) :
    (blocks n l)[i]? = if n * i + n ≤ l.length then some ((l.drop (n * i)).take n) else none := by
  induction i generalizing l with
  | zero =>
    rw [Nat.mul_zero, Nat.zero_add]
    by_cases h : n ≤ l.length
    · rw [blocks_of_le hn h, if_pos h]
      rfl
    · rw [blocks_of_lt hn (Nat.lt_of_not_le h), if_neg h]
      rfl
  | succ i ih =>
    by_cases h : n ≤ l.length
    · rw [blocks_of_le hn h, List.getElem?_cons_succ, ih, List.length_drop, List.drop_drop,
        Nat.mul_succ, Nat.add_comm n]
      apply if_congr _ rfl rfl
      omega
    · rw [blocks_of_lt hn (Nat.lt_of_not_le h), if_neg (by rw [Nat.mul_succ]; omega)]
      rfl

theorem length_blocks (hn : 0 < n) (l : List α) : (blocks n l).length = l.length / n := by
  apply Nat.le_antisymm
  · rw [← Nat.not_lt]
    intro hlt
    have hget := getElem?_blocks hn l (l.length / n)
    rw [if_neg, List.getElem?_eq_none_iff] at hget
    · omega
    · have := Nat.lt_mul_div_succ l.length hn
      rw [Nat.mul_succ] at this
      omega
  · rw [← Nat.not_lt]
    intro hlt
    have hget := getElem?_blocks hn l (blocks n l).length
    rw [if_pos, List.getElem?_eq_none (Nat.le_refl _)] at hget
    · cases hget
    · have := Nat.mul_le_of_le_div _ _ _ (Nat.succ_le_of_lt hlt)
      rw [Nat.mul_comm, Nat.mul_succ] at this
      exact this

/-- A block appended behind complete ones is read as it is. -/
theorem blocks_append (hn : 0 < n) {l b : List α} (h : n ∣ l.length) (hb : b.length = n) :
    blocks n (l ++ b) = blocks n l ++ [b] := by
  obtain ⟨k, hk⟩ := h
  induction k generalizing l with
  | zero =>
    obtain rfl : l = [] := List.length_eq_zero_iff.1 hk
    rw [List.nil_append, blocks_of_le hn (Nat.le_of_eq hb.symm),
      List.take_of_length_le (Nat.le_of_eq hb), List.drop_of_length_le (Nat.le_of_eq hb)]
    rfl
  | succ k ih =>
    rw [Nat.mul_succ] at hk
    have hle : n ≤ l.length := hk ▸ Nat.le_add_left _ _
    have hle' : n ≤ (l ++ b).length := by
      rw [List.length_append]
      omega
    have hrest : (l.drop n).length = n * k := by
      rw [List.length_drop, hk, Nat.add_sub_cancel]
    rw [blocks_of_le hn hle', blocks_of_le hn hle, List.take_append_of_le_length hle,
      List.drop_append_of_le_length hle, ih hrest, List.cons_append]

theorem blocks_take (hn : 0 < n) (l : List α) (m : Nat) :
    blocks n (l.take m) = (blocks n l).take (m / n) := by
  apply List.ext_getElem?
  intro i
  have hdiv : i < m / n ↔ n * i + n ≤ m := by
    rw [← Nat.succ_le_iff, Nat.le_div_iff_mul_le hn, Nat.mul_comm, Nat.mul_succ]
  rw [getElem?_blocks hn, List.length_take, List.getElem?_take, getElem?_blocks hn]
  by_cases hm : n * i + n ≤ m
  · rw [if_pos (hdiv.2 hm)]
    have hblock : ((l.take m).drop (n * i)).take n = (l.drop (n * i)).take n := by
      rw [List.drop_take, List.take_take, Nat.min_eq_left (by omega)]
    rw [hblock]
    apply if_congr _ rfl rfl
    omega
  · rw [if_neg (fun h => hm (hdiv.1 h)), if_neg (by omega)]

end Reading

end Blocks
