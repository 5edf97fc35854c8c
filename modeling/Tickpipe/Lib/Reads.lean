import Mathlib.Data.List.Range

set_option autoImplicit true

/-! Computations that read a memory, with the places they read. -/

structure Reads (α : Type u) where
  value : α
  places : List Nat

namespace Reads

instance : Monad Reads where
  pure x := ⟨x, []⟩
  bind t f := ⟨(f t.value).value, t.places ++ (f t.value).places⟩

/-- `t` gives `x` and reads only places from `lo` to before `hi`. -/
structure Computes (lo hi : Nat) (t : Reads α) (x : α) : Prop where
  value : t.value = x
  inside : ∀ i ∈ t.places, lo ≤ i ∧ i < hi

theorem Computes.pure (x : α) : Computes lo hi (Pure.pure x) x := by
  constructor
  case value => rfl
  case inside =>
    intro i hi
    cases hi

theorem Computes.bind {f : α → Reads β} (ht : Computes lo hi t x) (hf : Computes lo hi (f x) y) :
    Computes lo hi (t >>= f) y := by
  have hx := ht.value
  subst hx
  constructor
  case value => exact hf.value
  case inside =>
    intro i hi
    rcases List.mem_append.1 hi with hleft | hright
    · exact ht.inside i hleft
    · exact hf.inside i hright

end Reads
