import Mathlib.Data.List.Basic

set_option autoImplicit true

/-! Streams cut into pieces by a reader that takes one piece off the front. -/

namespace Framing

/-- The pieces that `next` takes off a stream, up to the first time it takes none. -/
def pieces (next : List α → Option (β × List α)) : (fuel : Nat) → List α → List β
  | 0, _ => []
  | fuel + 1, l =>
    match next l with
    | none => []
    | some (b, rest) => b :: pieces next fuel rest

def Consumes (next : List α → Option (β × List α)) : Prop :=
  ∀ l b rest, next l = some (b, rest) → rest.length < l.length

variable {next next' : List α → Option (β × List α)}

theorem pieces_succ_none (h : next l = none) : pieces next (fuel + 1) l = [] := by
  rw [pieces, h]

theorem pieces_succ_some (h : next l = some (b, rest)) :
    pieces next (fuel + 1) l = b :: pieces next fuel rest := by
  rw [pieces, h]

theorem exists_of_mem_pieces (h : b ∈ pieces next fuel l) : ∃ l rest, next l = some (b, rest) := by
  induction fuel generalizing l with
  | zero => cases h
  | succ fuel ih =>
    cases hl : next l with
    | none =>
      rw [pieces_succ_none hl] at h
      cases h
    | some x =>
      rw [pieces_succ_some hl] at h
      rcases List.mem_cons.1 h with rfl | h
      · exact ⟨l, x.2, hl⟩
      · exact ih h

/-- The length of the stream is fuel enough. -/
theorem pieces_of_length_le (hnext : Consumes next) (h : l.length ≤ fuel) :
    pieces next fuel l = pieces next l.length l := by
  suffices key : ∀ n m (l : List α), l.length ≤ n → l.length ≤ m →
      pieces next n l = pieces next m l from key _ _ _ h (Nat.le_refl _)
  intro n
  induction n with
  | zero =>
    intro m l hn _
    obtain rfl := List.length_eq_zero_iff.1 (Nat.le_zero.1 hn)
    cases m with
    | zero => rfl
    | succ m =>
      cases hl : next ([] : List α) with
      | none => exact (pieces_succ_none hl).symm
      | some x => exact absurd (hnext _ _ _ hl) (Nat.not_lt_zero _)
  | succ n ih =>
    intro m l hn hm
    cases hl : next l with
    | none =>
      cases m with
      | zero => exact pieces_succ_none hl
      | succ m => rw [pieces_succ_none hl, pieces_succ_none hl]
    | some x =>
      have hlt := hnext l x.1 x.2 hl
      cases m with
      | zero => omega
      | succ m =>
        rw [pieces_succ_some hl, pieces_succ_some hl, ih m x.2 (by omega) (by omega)]

/-- Where every piece takes at least `c` off the stream, this bounds their number. -/
theorem mul_length_pieces_le (h : ∀ l b rest, next l = some (b, rest) → c + rest.length ≤ l.length)
    (fuel : Nat) (l : List α) : c * (pieces next fuel l).length ≤ l.length := by
  induction fuel generalizing l with
  | zero => exact Nat.zero_le _
  | succ fuel ih =>
    cases hl : next l with
    | none =>
      rw [pieces_succ_none hl]
      exact Nat.zero_le _
    | some x =>
      have hx := h l x.1 x.2 hl
      have hrest := ih x.2
      rw [pieces_succ_some hl, List.length_cons, Nat.mul_succ]
      omega

/-- A stricter reader takes the same pieces as long as it refuses none of them. -/
theorem pieces_eq_of_refuses_none {P : β → Prop} (hnone : ∀ l, next l = none → next' l = none)
    (hsome : ∀ l b rest, next l = some (b, rest) → P b → next' l = some (b, rest))
    (hall : ∀ b ∈ pieces next fuel l, P b) : pieces next' fuel l = pieces next fuel l := by
  induction fuel generalizing l with
  | zero => rfl
  | succ fuel ih =>
    cases hl : next l with
    | none => rw [pieces_succ_none hl, pieces_succ_none (hnone l hl)]
    | some x =>
      rw [pieces_succ_some hl] at hall ⊢
      have hb := hall x.1 List.mem_cons_self
      rw [pieces_succ_some (hsome l x.1 x.2 hl hb),
        ih fun b hmem => hall b (List.mem_cons_of_mem _ hmem)]

end Framing
