import Mathlib.Data.Nat.ModEq
import Mathlib.Logic.Function.Basic

set_option autoImplicit true

/-! Lists laid out in a memory of `N` cells that wraps round at its end. -/

namespace Circular

/-- The list stands in memory from position `pos` on. -/
def Stores (mem : Nat → β) (N pos : Nat) (l : List β) : Prop :=
  ∀ i (h : i < l.length), mem ((pos + i) % N) = l[i]

theorem Stores.nil (mem : Nat → β) (N pos : Nat) : Stores mem N pos [] := nofun

theorem Stores.load {l : List β} (h : Stores mem N pos l) (hi : l[i]? = some b) :
    mem ((pos + i) % N) = b := by
  obtain ⟨hlt, hb⟩ := List.getElem?_eq_some_iff.1 hi
  rw [h i hlt, hb]

theorem stores_append_iff {mem : Nat → β} {l l' : List β} : Stores mem N pos (l ++ l') ↔
    Stores mem N pos l ∧ Stores mem N (pos + l.length) l' := by
  constructor
  · intro h
    refine ⟨?_, ?_⟩
    · intro i hi
      rw [h i (by rw [List.length_append]; omega), List.getElem_append_left]
    · intro i hi
      rw [Nat.add_assoc, h (l.length + i) (by rw [List.length_append]; omega),
        List.getElem_append_right (Nat.le_add_right _ _)]
      simp only [Nat.add_sub_cancel_left]
  · rintro ⟨h, h'⟩ i hi
    by_cases hlt : i < l.length
    · rw [h i hlt, List.getElem_append_left]
    · have hi' : i - l.length < l'.length := by rw [List.length_append] at hi; omega
      have heq : pos + i = pos + l.length + (i - l.length) := by omega
      rw [heq, h' _ hi', List.getElem_append_right (Nat.le_of_not_lt hlt)]

theorem stores_singleton_iff {mem : Nat → β} : Stores mem N pos [b] ↔ mem (pos % N) = b := by
  constructor
  · exact fun h => h 0 Nat.zero_lt_one
  · intro h i hi
    obtain rfl := Nat.lt_one_iff.1 hi
    exact h

/-- Distinct positions less than a full turn apart are distinct cells. -/
theorem cell_ne {p q N : Nat} (hlt : p < q) (hN : q < p + N) : p % N ≠ q % N := by
  intro h
  have hdvd := (Nat.modEq_iff_dvd' (Nat.le_of_lt hlt)).1 h
  have hle := Nat.le_of_dvd (by omega) hdvd
  omega

/-- A write behind the list, less than a full turn from its start, leaves it alone. -/
theorem Stores.update {l : List β} (h : Stores mem N pos l) (hp : pos + l.length ≤ q)
    (hq : q < pos + N) (b : β) : Stores (Function.update mem (q % N) b) N pos l := by
  intro i hi
  rw [Function.update_of_ne (cell_ne (by omega) (by omega)), h i hi]

end Circular
