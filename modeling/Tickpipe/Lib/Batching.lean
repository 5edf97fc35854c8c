import Mathlib.Data.List.Basic
import Mathlib.Algebra.BigOperators.Group.List.Basic
import Mathlib.Algebra.Ring.Nat

set_option autoImplicit true

/-! Items packed in order into batches of bounded weight, a new batch only when one is full. -/

variable {α : Type u}

/-- The number of batches closed, and the items of the open one. -/
structure Batcher (α : Type u) where
  closed : Nat := 0
  pending : List α := []

namespace Batcher

def cut (b : Batcher α) : Batcher α :=
  if b.pending = [] then b else { closed := b.closed + 1 }

variable (weight : α → Nat) (cap : Nat)

def Room (b : Batcher α) (a : α) : Prop := (b.pending.map weight).sum + weight a ≤ cap

instance (b : Batcher α) (a : α) : Decidable (b.Room weight cap a) :=
  inferInstanceAs (Decidable (_ ≤ _))

def put (b : Batcher α) (a : α) : Batcher α :=
  if b.Room weight cap a then { b with pending := b.pending ++ [a] }
  else { b.cut with pending := [a] }

/-- An item, or a cut where there is none. -/
def step (b : Batcher α) : Option α → Batcher α
  | some a => b.put weight cap a
  | none => b.cut

def run (b : Batcher α) (l : List (Option α)) : Batcher α := l.foldl (step weight cap) b

/-- Fewer batches are closed, or as many and no more is left in the open one. -/
def Ahead (b b' : Batcher α) : Prop :=
  b.closed < b'.closed ∨ (b.closed = b'.closed ∧ b.pending <:+ b'.pending)

variable {weight cap} {b b' : Batcher α}

theorem Ahead.refl (b : Batcher α) : Ahead b b := .inr ⟨rfl, List.suffix_rfl⟩

theorem closed_cut (b : Batcher α) :
    b.cut.closed = if b.pending = [] then b.closed else b.closed + 1 := by
  rw [cut]
  split
  · rfl
  · rfl

theorem pending_cut (b : Batcher α) : b.cut.pending = [] := by
  rw [cut]
  split
  · assumption
  · rfl

theorem closed_le_cut (b : Batcher α) : b.closed ≤ b.cut.closed := by
  rw [closed_cut]
  split
  · exact Nat.le_refl _
  · exact Nat.le_succ _

theorem closed_cut_le (b : Batcher α) : b.cut.closed ≤ b.closed + 1 := by
  rw [closed_cut]
  split
  · exact Nat.le_succ _
  · exact Nat.le_refl _

theorem Ahead.closed_le (h : Ahead b b') : b.closed ≤ b'.closed := by
  obtain hlt | ⟨heq, -⟩ := h
  · exact Nat.le_of_lt hlt
  · exact Nat.le_of_eq heq

/-- A suffix of what is in an open batch closes no later. -/
theorem cut_le_of_suffix (heq : b.closed = b'.closed) (hs : b.pending <:+ b'.pending) :
    b.cut.closed ≤ b'.cut.closed := by
  rw [closed_cut, closed_cut, heq]
  split
  · split
    · exact Nat.le_refl _
    · exact Nat.le_succ _
  · next hne =>
    have hne' : b'.pending ≠ [] := by
      intro h
      rw [h] at hs
      exact hne (List.suffix_nil.1 hs)
    exact Nat.le_of_eq (if_neg hne').symm

theorem Ahead.cut (h : Ahead b b') : Ahead b.cut b'.cut := by
  have hpending : b.cut.pending <:+ b'.cut.pending := by
    rw [pending_cut]
    exact List.nil_suffix
  have hle : b.cut.closed ≤ b'.cut.closed := by
    obtain hlt | ⟨heq, hs⟩ := h
    · have hb := b.closed_cut_le
      have hb' := b'.closed_le_cut
      omega
    · exact cut_le_of_suffix heq hs
  obtain hlt | heq := Nat.lt_or_eq_of_le hle
  · exact .inl hlt
  · exact .inr ⟨heq, hpending⟩

/-- The one that is behind may cut its batch short. -/
theorem Ahead.cut_right (h : Ahead b b') : Ahead b b'.cut := by
  obtain hlt | ⟨heq, hs⟩ := h
  · have hb' := b'.closed_le_cut
    left
    omega
  · by_cases he : b'.pending = []
    · rw [Batcher.cut, if_pos he]
      exact .inr ⟨heq, hs⟩
    · left
      rw [closed_cut, if_neg he]
      omega

theorem closed_put (b : Batcher α) (a : α) : (b.put weight cap a).closed =
    if b.Room weight cap a then b.closed else b.cut.closed := by
  rw [put]
  split
  · rfl
  · rfl

theorem pending_put (b : Batcher α) (a : α) : (b.put weight cap a).pending =
    if b.Room weight cap a then b.pending ++ [a] else [a] := by
  rw [put]
  split
  · rfl
  · rfl

theorem Room.of_suffix (hs : b.pending <:+ b'.pending) (h : b'.Room weight cap a) :
    b.Room weight cap a := by
  obtain ⟨l, hl⟩ := hs
  rw [Room, ← hl, List.map_append, List.sum_append] at h
  rw [Room]
  omega

theorem Ahead.put (h : Ahead b b') (a : α) : Ahead (b.put weight cap a) (b'.put weight cap a) := by
  have hlast : [a] <:+ (b'.put weight cap a).pending := by
    rw [pending_put]
    split
    · exact List.suffix_append _ _
    · exact List.suffix_rfl
  have hcut := b.closed_cut_le
  have hcut' := b'.closed_le_cut
  rw [Ahead, closed_put, closed_put, pending_put]
  obtain hlt | ⟨heq, hs⟩ := h
  case inl =>
    -- the lead is lost at most to a batch that begins with this item
    split
    · left
      split <;> omega
    · obtain hle | hle := Nat.lt_or_eq_of_le (show b.cut.closed ≤
          if b'.Room weight cap a then b'.closed else b'.cut.closed by split <;> omega)
      · exact .inl hle
      · exact .inr ⟨hle, hlast⟩
  case inr =>
    by_cases hr' : b'.Room weight cap a
    · rw [if_pos hr', if_pos (hr'.of_suffix hs), if_pos (hr'.of_suffix hs), pending_put, if_pos hr']
      refine .inr ⟨heq, ?_⟩
      obtain ⟨l, hl⟩ := hs
      exact ⟨l, by rw [← List.append_assoc, hl]⟩
    · rw [if_neg hr']
      have hle := cut_le_of_suffix heq hs
      by_cases hr : b.Room weight cap a
      · rw [if_pos hr, if_pos hr]
        -- the other one would have had room as well, had it been empty
        have hne : b'.pending ≠ [] := by
          intro he
          rw [he] at hs
          rw [Room, List.suffix_nil.1 hs] at hr
          rw [Room, he] at hr'
          exact hr' hr
        left
        rw [closed_cut, if_neg hne]
        omega
      · rw [if_neg hr, if_neg hr]
        obtain hle | hle := Nat.lt_or_eq_of_le hle
        · exact .inl hle
        · exact .inr ⟨hle, hlast⟩

/-- The same items, with more cuts. -/
inductive Interrupted : List (Option α) → List (Option α) → Prop
  | nil : Interrupted [] []
  | cons (x : Option α) : Interrupted l l' → Interrupted (x :: l) (x :: l')
  | cut : Interrupted l l' → Interrupted l (none :: l')

/-- Cutting a batch short never saves a batch. -/
theorem Ahead.run (hl : Interrupted l l') (h : Ahead b b') :
    Ahead (b.run weight cap l) (b'.run weight cap l') := by
  induction hl generalizing b b' with
  | nil => exact h
  | cons x _ ih =>
    cases x with
    | some a => exact ih (h.put a)
    | none => exact ih h.cut
  | cut _ ih => exact ih h.cut_right

theorem run_append (b : Batcher α) (l l' : List (Option α)) :
    b.run weight cap (l ++ l') = (b.run weight cap l).run weight cap l' :=
  List.foldl_append

/-- Items that fit together go into one batch. -/
theorem run_fits (b : Batcher α) (as : List α)
    (h : (b.pending.map weight).sum + (as.map weight).sum ≤ cap) :
    b.run weight cap (as.map some) = { b with pending := b.pending ++ as } := by
  induction as generalizing b with
  | nil => rw [List.append_nil]; rfl
  | cons a as ih =>
    rw [List.map_cons, List.sum_cons] at h
    have hroom : b.Room weight cap a := by
      rw [Room]
      omega
    have hstep : b.step weight cap (some a) = { b with pending := b.pending ++ [a] } :=
      if_pos hroom
    have hrest := ih { b with pending := b.pending ++ [a] } (by
      rw [List.map_append, List.sum_append, List.map_singleton, List.sum_singleton]
      omega)
    rw [List.append_assoc] at hrest
    exact (congrArg (run weight cap · (as.map some)) hstep).trans hrest

/-- Each batch of a list, and a cut behind it. -/
def separated (batches : List (List α)) : List (Option α) :=
  batches.flatMap fun as => as.map some ++ [none]

theorem closed_separated (b : Batcher α) (hb : b.pending = []) {batches : List (List α)}
    (h : ∀ as ∈ batches, (as.map weight).sum ≤ cap) :
    (b.run weight cap (separated batches)).closed ≤ b.closed + batches.length ∧
      (b.run weight cap (separated batches)).pending = [] := by
  induction batches generalizing b with
  | nil => exact ⟨Nat.le_refl _, hb⟩
  | cons as batches ih =>
    have hfits : b.run weight cap (as.map some) = { b with pending := b.pending ++ as } := by
      apply run_fits
      rw [hb, List.map_nil, List.sum_nil, Nat.zero_add]
      exact h as List.mem_cons_self
    have hcut := ({ b with pending := b.pending ++ as } : Batcher α).closed_cut_le
    obtain ⟨hle, hpending⟩ := ih ({ b with pending := b.pending ++ as } : Batcher α).cut
      (pending_cut _) fun as' has' => h as' (List.mem_cons_of_mem as has')
    rw [separated, List.flatMap_cons, run_append, run_append, hfits]
    refine ⟨?_, hpending⟩
    rw [List.length_cons]
    exact Nat.le_trans hle (by dsimp only at hcut; omega)

theorem interrupted_refl (l : List (Option α)) : Interrupted l l := by
  induction l with
  | nil => exact .nil
  | cons x l ih => exact .cons x ih

theorem Interrupted.append (h : Interrupted l l') (h' : Interrupted m m') :
    Interrupted (l ++ m) (l' ++ m') := by
  induction h with
  | nil => exact h'
  | cons x _ ih => exact .cons x ih
  | cut _ ih => exact .cut ih

theorem interrupted_separated (batches : List (List α)) :
    Interrupted (batches.flatten.map some) (separated batches) := by
  induction batches with
  | nil => exact .nil
  | cons as batches ih =>
    rw [List.flatten_cons, List.map_append, separated, List.flatMap_cons, List.append_assoc]
    exact (interrupted_refl _).append (.cut ih)

/-- No way to cut a list into batches that fit takes fewer batches. -/
theorem closed_le_length {batches : List (List α)}
    (h : ∀ as ∈ batches, (as.map weight).sum ≤ cap) :
    (run weight cap {} (batches.flatten.map some ++ [none])).closed ≤ batches.length := by
  have hahead : Ahead (run weight cap {} (batches.flatten.map some)).cut
      (run weight cap {} (separated batches)).cut :=
    ((Ahead.refl {}).run (interrupted_separated batches)).cut
  obtain ⟨hle, hpending⟩ := closed_separated {} rfl h
  have hclosed := hahead.closed_le
  rw [closed_cut (run weight cap {} (separated batches)), if_pos hpending] at hclosed
  rw [run_append]
  exact Nat.le_trans hclosed (by rwa [Nat.zero_add] at hle)

end Batcher
