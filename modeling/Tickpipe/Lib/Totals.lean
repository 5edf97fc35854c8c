import Tickpipe.Lib.FixedArray
import Mathlib.Algebra.BigOperators.Finprod
import Mathlib.Algebra.BigOperators.Group.Finset.Piecewise

set_option autoImplicit true

/-! Totals of a measure over the keys of a finite type. -/

namespace Totals

variable {ι κ : Type*}

theorem finsum_update_add [Finite ι] [DecidableEq ι] (f : ι → Nat) (i : ι) (n : Nat) :
    finsum (Function.update f i n) + f i = finsum f + n := by
  obtain ⟨_⟩ := nonempty_fintype ι
  have hall := Finset.add_sum_erase Finset.univ f (Finset.mem_univ i)
  rw [Finset.erase_eq] at hall
  rw [finsum_eq_sum_of_fintype, finsum_eq_sum_of_fintype,
    Finset.sum_update_of_mem (Finset.mem_univ i), ← hall]
  omega

/-- A total over keys, taken over the places where the keys with a value are found. -/
theorem sum_eq_finsum [Finite κ] (s : Finset ι) (key : ι → κ) (g : ι → Nat) (f : κ → Nat)
    (hinj : Set.InjOn key s) (hkey : ∀ i ∈ s, g i = f (key i))
    (hzero : ∀ c, (∀ i ∈ s, key i ≠ c) → f c = 0) : ∑ i ∈ s, g i = finsum f := by
  obtain ⟨_⟩ := nonempty_fintype κ
  rw [finsum_eq_sum_of_fintype]
  apply Finset.sum_of_injOn key hinj
  · exact fun i _ => Finset.mem_coe.2 (Finset.mem_univ _)
  · intro c _ hc
    apply hzero
    intro i hi he
    exact hc ⟨i, hi, he⟩
  · exact hkey

theorem sum_set_add {α : Type*} {x : α} (l : List α) (f : α → Nat) {i : Nat} (h : l[i]? = some x)
    (y : α) : ((l.set i y).map f).sum + f x = (l.map f).sum + f y := by
  induction l generalizing i with
  | nil => cases h
  | cons z l ih =>
    cases i with
    | zero =>
      cases h
      simp only [List.set_cons_zero, List.map_cons, List.sum_cons]
      omega
    | succ i =>
      have htail := ih h
      simp only [List.set_cons_succ, List.map_cons, List.sum_cons]
      omega

/-- Writing one element moves a total over an array by what was changed. -/
theorem sum_put (v : Vector α n) (i : Fin n) (x : α) (f : α → Nat) :
    ∑ j, f ((v.put i x).get j) + f (v.get i) = ∑ j, f (v.get j) + f x := by
  have hrest : ∑ j ∈ Finset.univ.erase i, f ((v.put i x).get j) =
      ∑ j ∈ Finset.univ.erase i, f (v.get j) := by
    apply Finset.sum_congr rfl
    intro j hj
    rw [Vector.get_put_ne v (Finset.ne_of_mem_erase hj)]
  have hold := Finset.add_sum_erase Finset.univ (fun j => f (v.get j)) (Finset.mem_univ i)
  have hnew := Finset.add_sum_erase Finset.univ (fun j => f ((v.put i x).get j))
    (Finset.mem_univ i)
  rw [hrest, Vector.get_put_self] at hnew
  omega

end Totals
