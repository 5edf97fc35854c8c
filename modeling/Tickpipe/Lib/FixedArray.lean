import Mathlib.Data.Nat.Notation

set_option autoImplicit true

/-! Arrays of a fixed size, read and written at indices that are in bounds by their type. -/

namespace Vector

def put (v : Vector α n) (i : Fin n) (x : α) : Vector α n := v.set i x i.isLt

@[simp] theorem get_put_self (v : Vector α n) (i : Fin n) (x : α) : (v.put i x).get i = x :=
  getElem_set_self i.isLt

theorem get_put_ne (v : Vector α n) {i j : Fin n} (h : j ≠ i) (x : α) :
    (v.put i x).get j = v.get j :=
  getElem_set_ne i.isLt j.isLt fun he => h (Fin.ext he.symm)

theorem get_put (v : Vector α n) (i j : Fin n) (x : α) :
    (v.put i x).get j = if j = i then x else v.get j := by
  by_cases h : j = i
  · subst h
    rw [if_pos rfl, get_put_self]
  · rw [if_neg h, get_put_ne v h]

end Vector
