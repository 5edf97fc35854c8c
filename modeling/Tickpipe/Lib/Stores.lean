import Mathlib.Logic.Function.Basic
import Mathlib.Data.List.Basic

set_option autoImplicit true

/-! The stores a program makes into a buffer, one after another. -/

namespace Stores

/-- A byte stored at an offset. -/
abbrev Store := Nat × UInt8

abbrev Memory := Nat → UInt8

/-- Bytes stored from an offset on. -/
def memcpy : Nat → List UInt8 → List Store
  | _, [] => []
  | i, b :: l => (i, b) :: memcpy (i + 1) l

def perform (memory : Memory) (stores : List Store) : Memory :=
  stores.foldl (fun memory store => Function.update memory store.1 store.2) memory

def contents (n : Nat) (memory : Memory) : List UInt8 := (List.range n).map memory

theorem memcpy_append (i : Nat) (l l' : List UInt8) :
    memcpy i (l ++ l') = memcpy i l ++ memcpy (i + l.length) l' := by
  induction l generalizing i with
  | nil => rfl
  | cons b l ih =>
    rw [List.cons_append, memcpy, ih, memcpy, List.cons_append, List.length_cons,
      Nat.add_right_comm, Nat.add_assoc]

theorem mem_memcpy (i j : Nat) (l : List UInt8) :
    (∃ b, (j, b) ∈ memcpy i l) ↔ i ≤ j ∧ j < i + l.length := by
  induction l generalizing i with
  | nil =>
    constructor
    · rintro ⟨b, hb⟩
      cases hb
    · intro h
      exact absurd h.2 (Nat.not_lt.2 h.1)
  | cons b l ih =>
    have hcons : (∃ c, (j, c) ∈ memcpy i (b :: l)) ↔ j = i ∨ ∃ c, (j, c) ∈ memcpy (i + 1) l := by
      constructor
      · rintro ⟨c, hc⟩
        rw [memcpy, List.mem_cons] at hc
        rcases hc with hhead | htail
        · exact .inl (Prod.mk.inj hhead).1
        · exact .inr ⟨c, htail⟩
      · rintro (rfl | ⟨c, hc⟩)
        · exact ⟨b, .head _⟩
        · exact ⟨c, .tail _ hc⟩
    rw [hcons, ih, List.length_cons]
    omega

theorem perform_of_forall_ne (memory : Memory) {stores : List Store}
    (h : ∀ store ∈ stores, j ≠ store.1) : perform memory stores j = memory j := by
  induction stores generalizing memory with
  | nil => rfl
  | cons store stores ih =>
    have hrest := ih (Function.update memory store.1 store.2) fun _ hs => h _ (.tail _ hs)
    rw [Function.update_of_ne (h store (.head _))] at hrest
    exact hrest

theorem perform_memcpy (memory : Memory) (i : Nat) (l : List UInt8) (h : k < l.length) :
    perform memory (memcpy i l) (i + k) = l[k] := by
  induction l generalizing memory i k with
  | nil => cases h
  | cons b l ih =>
    cases k with
    | zero =>
      have hrest : perform (Function.update memory i b) (memcpy (i + 1) l) i =
          Function.update memory i b i := by
        apply perform_of_forall_ne
        rintro ⟨j, c⟩ hstore rfl
        have hle := ((mem_memcpy _ _ _).1 ⟨c, hstore⟩).1
        exact Nat.not_succ_le_self _ hle
      rw [Function.update_self] at hrest
      exact hrest
    | succ k =>
      have hrest := ih (Function.update memory i b) (i + 1) (Nat.lt_of_succ_lt_succ h)
      rw [Nat.add_right_comm, Nat.add_assoc] at hrest
      exact hrest

theorem contents_memcpy (memory : Memory) {l : List UInt8} (h : n ≤ l.length) :
    contents n (perform memory (memcpy 0 l)) = l.take n := by
  apply List.ext_getElem
  · rw [contents, List.length_map, List.length_range, List.length_take_of_le h]
  · intro k hk _
    rw [contents, List.length_map, List.length_range] at hk
    have hread := perform_memcpy memory 0 l (Nat.lt_of_lt_of_le hk h)
    rw [Nat.zero_add] at hread
    simp only [contents, List.getElem_map, List.getElem_range, hread, List.getElem_take]

end Stores
