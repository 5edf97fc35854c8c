import Mathlib.Algebra.Ring.Nat
import Mathlib.Order.RelClasses
import Mathlib.Data.List.Pairwise
import Mathlib.Data.List.Perm.Basic
import Mathlib.Logic.Function.Basic

set_option autoImplicit true

/-- A finite map kept as the list of its entries, in strictly ascending order of key. -/
structure OrdMap (κ : Type u) (lt : κ → κ → Prop) (ν : Type v) where
  entries : List (κ × ν)
  sorted : entries.Pairwise fun a b => lt a.1 b.1

namespace OrdMap

variable {κ : Type u} {ν : Type v} {lt : κ → κ → Prop}

def empty : OrdMap κ lt ν := ⟨[], .nil⟩

def first? (m : OrdMap κ lt ν) : Option (κ × ν) := m.entries.head?

variable [DecidableEq κ]

def find (k : κ) : List (κ × ν) → Option ν
  | [] => none
  | e :: l => if e.1 = k then some e.2 else find k l

def put (lt : κ → κ → Prop) [DecidableRel lt] (k : κ) (v : ν) : List (κ × ν) → List (κ × ν)
  | [] => [(k, v)]
  | e :: l =>
    if e.1 = k then (k, v) :: l
    else if lt k e.1 then (k, v) :: e :: l
    else e :: put lt k v l

def drop (k : κ) : List (κ × ν) → List (κ × ν)
  | [] => []
  | e :: l => if e.1 = k then l else e :: drop k l

theorem find_put_self [DecidableRel lt] (k : κ) (v : ν) (l : List (κ × ν)) :
    find k (put lt k v l) = some v := by
  induction l with
  | nil => exact if_pos rfl
  | cons e l ih =>
    rw [put]
    split
    · exact if_pos rfl
    · next hne =>
      split
      · exact if_pos rfl
      · rw [find, if_neg hne, ih]

theorem find_put_ne [DecidableRel lt] (h : j ≠ k) (v : ν) (l : List (κ × ν)) :
    find j (put lt k v l) = find j l := by
  induction l with
  | nil => exact if_neg h.symm
  | cons e l ih =>
    rw [put]
    split
    · next he =>
      rw [find, if_neg h.symm, find, if_neg]
      exact fun hj => h (hj.symm.trans he)
    · split
      · rw [find, if_neg h.symm]
      · rw [find, find, ih]

theorem find_drop_ne (h : j ≠ k) (l : List (κ × ν)) : find j (drop k l) = find j l := by
  induction l with
  | nil => rfl
  | cons e l ih =>
    rw [drop]
    split
    · next he =>
      rw [find, if_neg]
      exact fun hj => h (hj.symm.trans he)
    · rw [find, find, ih]

theorem find_eq_none (h : ∀ e ∈ l, e.1 ≠ k) : find k (l : List (κ × ν)) = none := by
  induction l with
  | nil => rfl
  | cons e l ih =>
    rw [find, if_neg (h e List.mem_cons_self)]
    exact ih fun e he => h e (List.mem_cons_of_mem _ he)

theorem mem_of_find {l : List (κ × ν)} (h : find k l = some v) : (k, v) ∈ l := by
  induction l with
  | nil => cases h
  | cons e l ih =>
    rw [find] at h
    split at h
    · next he =>
      cases h
      rw [← he]
      exact List.mem_cons_self
    · exact List.mem_cons_of_mem _ (ih h)

theorem mem_put [DecidableRel lt] {l : List (κ × ν)} (h : e ∈ put lt k v l) :
    e = (k, v) ∨ e ∈ l := by
  induction l with
  | nil => exact .inl (List.mem_singleton.1 h)
  | cons a l ih =>
    rw [put] at h
    split at h
    · rcases List.mem_cons.1 h with h | h
      · exact .inl h
      · exact .inr (List.mem_cons_of_mem _ h)
    · split at h
      · exact List.mem_cons.1 h
      · rcases List.mem_cons.1 h with h | h
        · exact .inr (h ▸ List.mem_cons_self)
        · exact (ih h).imp_right (List.mem_cons_of_mem _)

theorem drop_sublist (k : κ) (l : List (κ × ν)) : (drop k l).Sublist l := by
  induction l with
  | nil => exact .slnil
  | cons e l ih =>
    rw [drop]
    split
    · exact List.sublist_cons_self _ _
    · exact ih.cons_cons _

theorem find_of_mem [IsStrictTotalOrder κ lt] {l : List (κ × ν)}
    (hs : l.Pairwise fun a b => lt a.1 b.1) (h : (k, v) ∈ l) : find k l = some v := by
  induction l with
  | nil => cases h
  | cons e l ih =>
    obtain ⟨he, hs⟩ := List.pairwise_cons.1 hs
    rcases List.mem_cons.1 h with rfl | h
    · exact if_pos rfl
    · rw [find, if_neg]
      · exact ih hs h
      · intro hk
        have hlt := he _ h
        rw [hk] at hlt
        exact irrefl_of lt k hlt

theorem find_drop_self [IsStrictTotalOrder κ lt] {l : List (κ × ν)}
    (hs : l.Pairwise fun a b => lt a.1 b.1) :
    find k (drop k l) = none := by
  induction l with
  | nil => rfl
  | cons e l ih =>
    obtain ⟨he, hs⟩ := List.pairwise_cons.1 hs
    rw [drop]
    split
    · next hk =>
      apply find_eq_none
      intro a ha hak
      have hlt := he a ha
      rw [hk, hak] at hlt
      exact irrefl_of lt k hlt
    · next hk => rw [find, if_neg hk, ih hs]

theorem sorted_put [DecidableRel lt] [IsStrictTotalOrder κ lt] {l : List (κ × ν)}
    (hs : l.Pairwise fun a b => lt a.1 b.1) :
    (put lt k v l).Pairwise fun a b => lt a.1 b.1 := by
  induction l with
  | nil => exact List.pairwise_singleton _ _
  | cons e l ih =>
    obtain ⟨he, hl⟩ := List.pairwise_cons.1 hs
    rw [put]
    split
    · next hk =>
      subst hk
      exact List.pairwise_cons.2 ⟨he, hl⟩
    · next hne =>
      split
      · next hlt =>
        refine List.pairwise_cons.2 ⟨?_, hs⟩
        intro a ha
        rcases List.mem_cons.1 ha with rfl | ha
        · exact hlt
        · exact trans_of lt hlt (he a ha)
      · next hnlt =>
        refine List.pairwise_cons.2 ⟨?_, ih hl⟩
        intro a ha
        rcases mem_put ha with rfl | ha
        · rcases trichotomous_of lt e.1 k with h | h | h
          · exact h
          · exact absurd h hne
          · exact absurd h hnlt
        · exact he a ha

def get? (m : OrdMap κ lt ν) (k : κ) : Option ν := find k m.entries

/-- Store a value, replacing the one its key may have. -/
def insert [DecidableRel lt] [IsStrictTotalOrder κ lt] (m : OrdMap κ lt ν) (k : κ) (v : ν) :
    OrdMap κ lt ν :=
  ⟨put lt k v m.entries, sorted_put m.sorted⟩

def erase (m : OrdMap κ lt ν) (k : κ) : OrdMap κ lt ν :=
  ⟨drop k m.entries, m.sorted.sublist (drop_sublist k m.entries)⟩

theorem get?_erase_ne (m : OrdMap κ lt ν) (h : j ≠ k) : (m.erase k).get? j = m.get? j :=
  find_drop_ne h m.entries

variable [IsStrictTotalOrder κ lt]

@[simp] theorem get?_insert_self [DecidableRel lt] (m : OrdMap κ lt ν) (k : κ) (v : ν) :
    (m.insert k v).get? k = some v :=
  find_put_self k v m.entries

theorem get?_insert_ne [DecidableRel lt] (m : OrdMap κ lt ν) (h : j ≠ k) (v : ν) :
    (m.insert k v).get? j = m.get? j :=
  find_put_ne h v m.entries

@[simp] theorem get?_erase_self (m : OrdMap κ lt ν) (k : κ) : (m.erase k).get? k = none :=
  find_drop_self m.sorted

theorem mem_entries_iff (m : OrdMap κ lt ν) : (k, v) ∈ m.entries ↔ m.get? k = some v :=
  ⟨find_of_mem m.sorted, mem_of_find⟩

/-- Writing what is there already changes nothing. -/
theorem put_of_find [DecidableRel lt] {l : List (κ × ν)}
    (hs : l.Pairwise fun a b => lt a.1 b.1) (h : find k l = some v) : put lt k v l = l := by
  induction l with
  | nil => cases h
  | cons e l ih =>
    obtain ⟨hhead, htail⟩ := List.pairwise_cons.1 hs
    rw [find] at h
    rw [put]
    by_cases he : e.1 = k
    · rw [if_pos he] at h ⊢
      rw [← Option.some.inj h, ← he]
    · rw [if_neg he] at h
      have hlt : lt e.1 k := hhead (k, v) (mem_of_find h)
      rw [if_neg he, if_neg (asymm_of lt hlt), ih htail h]

theorem insert_of_get? [DecidableRel lt] (m : OrdMap κ lt ν) (h : m.get? k = some v) :
    m.insert k v = m := by
  cases m with
  | mk entries sorted => simp only [insert, put_of_find sorted h]

theorem first?_eq_some_iff (m : OrdMap κ lt ν) : m.first? = some (k, v) ↔
    m.get? k = some v ∧ ∀ j w, m.get? j = some w → j = k ∨ lt k j := by
  rw [first?]
  have hmem (j : κ) (w : ν) := m.mem_entries_iff (k := j) (v := w)
  have hs := m.sorted
  cases he : m.entries with
  | nil =>
    simp only [he, List.not_mem_nil, false_iff] at hmem
    exact ⟨nofun, fun h => absurd h.1 (hmem k v)⟩
  | cons e l =>
    rw [he] at hs
    obtain ⟨hlt, -⟩ := List.pairwise_cons.1 hs
    rw [List.head?_cons, Option.some.injEq]
    constructor
    · rintro rfl
      refine ⟨(hmem k v).1 (by rw [he]; exact List.mem_cons_self), ?_⟩
      intro j w hj
      have hj := (hmem j w).2 hj
      rw [he] at hj
      rcases List.mem_cons.1 hj with hj | hj
      · exact .inl (congrArg Prod.fst hj)
      · exact .inr (hlt _ hj)
    · rintro ⟨hk, hmin⟩
      have hk := (hmem k v).2 hk
      rw [he] at hk
      rcases List.mem_cons.1 hk with hk | hk
      · exact hk.symm
      · rcases hmin e.1 e.2 ((hmem _ _).1 (by rw [he]; exact List.mem_cons_self)) with h | h
        · have hke := hlt _ hk
          rw [h] at hke
          exact absurd hke (irrefl_of lt k)
        · exact absurd (trans_of lt h (hlt _ hk)) (irrefl_of lt k)

theorem first?_eq_none_iff (m : OrdMap κ lt ν) : m.first? = none ↔ ∀ k, m.get? k = none := by
  rw [first?, List.head?_eq_none_iff]
  constructor
  · intro h k
    rw [get?, h]
    rfl
  · intro h
    rw [List.eq_nil_iff_forall_not_mem]
    intro e he
    have hg := (m.mem_entries_iff (k := e.1) (v := e.2)).1 he
    rw [h] at hg
    cases hg

def total (f : ν → Nat) (m : OrdMap κ lt ν) : Nat := (m.entries.map fun e => f e.2).sum

theorem sum_put [DecidableRel lt] (f : ν → Nat) (k : κ) (v : ν) {l : List (κ × ν)}
    (hs : l.Pairwise fun a b => lt a.1 b.1) :
    ((put lt k v l).map fun e => f e.2).sum + (find k l).elim 0 f =
      (l.map fun e => f e.2).sum + f v := by
  induction l with
  | nil => simp [put, find]
  | cons e l ih =>
    obtain ⟨hhead, htail⟩ := List.pairwise_cons.1 hs
    rw [put, find]
    by_cases he : e.1 = k
    · simp only [he, ↓reduceIte, List.map_cons, List.sum_cons, Option.elim_some]
      omega
    · rw [if_neg he, if_neg he]
      by_cases hlt : lt k e.1
      · have hnone : find k l = none := by
          apply find_eq_none
          rintro e' he' rfl
          exact asymm_of lt hlt (hhead e' he')
        rw [if_pos hlt, hnone]
        simp only [List.map_cons, List.sum_cons, Option.elim_none]
        omega
      · have htotal := ih htail
        rw [if_neg hlt]
        simp only [List.map_cons, List.sum_cons]
        omega

omit [IsStrictTotalOrder κ lt] in
theorem sum_drop (f : ν → Nat) (k : κ) (l : List (κ × ν)) :
    ((drop k l).map fun e => f e.2).sum + (find k l).elim 0 f = (l.map fun e => f e.2).sum := by
  induction l with
  | nil => rfl
  | cons e l ih =>
    rw [drop, find]
    by_cases he : e.1 = k
    · simp only [he, ↓reduceIte, List.map_cons, List.sum_cons, Option.elim_some]
      omega
    · simp only [he, ↓reduceIte, List.map_cons, List.sum_cons]
      omega

theorem total_insert [DecidableRel lt] (f : ν → Nat) (m : OrdMap κ lt ν) (k : κ) (v : ν) :
    (m.insert k v).total f + (m.get? k).elim 0 f = m.total f + f v :=
  sum_put f k v m.sorted

omit [IsStrictTotalOrder κ lt] in
theorem total_erase (f : ν → Nat) (m : OrdMap κ lt ν) (k : κ) :
    (m.erase k).total f + (m.get? k).elim 0 f = m.total f :=
  sum_drop f k m.entries

end OrdMap
