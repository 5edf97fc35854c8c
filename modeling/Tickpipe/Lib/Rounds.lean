import Mathlib.Data.Nat.Basic

set_option autoImplicit true

namespace Tickpipe

/-- The rule of the helpful action: no fair action raises the rank, the helpful action lowers it,
and while the rank stands the same action stays helpful. -/
structure Ranked (step : σ → α → σ) (fair : α → Prop) (Inv : σ → Prop) (rank : σ → Nat)
    (helper : σ → α) : Prop where
  keeps : ∀ {s a}, Inv s → fair a → Inv (step s a)
  stands : ∀ {s a}, Inv s → fair a → rank (step s a) < rank s ∨
    rank (step s a) = rank s ∧ helper (step s a) = helper s
  lowers : ∀ {s}, Inv s → 0 < rank s → rank (step s (helper s)) < rank s

namespace Ranked

variable {step : σ → α → σ} {fair : α → Prop} {Inv : σ → Prop} {rank : σ → Nat} {helper : σ → α}

theorem run_keeps (h : Ranked step fair Inv rank helper) (hs : Inv s) (actions : List α)
    (hfair : ∀ a ∈ actions, fair a) : Inv (actions.foldl step s) :=
  List.foldlRecOn actions step (motive := Inv) hs fun _ hs a ha => h.keeps hs (hfair a ha)

theorem run_le (h : Ranked step fair Inv rank helper) (hs : Inv s) (actions : List α)
    (hfair : ∀ a ∈ actions, fair a) : rank (actions.foldl step s) ≤ rank s := by
  induction actions generalizing s with
  | nil => exact Nat.le_refl _
  | cons a actions ih =>
    have ha := hfair a List.mem_cons_self
    have hrest := ih (h.keeps hs ha) fun b hb => hfair b (List.mem_cons_of_mem _ hb)
    rcases h.stands hs ha with hlt | ⟨heq, -⟩
    · exact Nat.le_trans hrest (Nat.le_of_lt hlt)
    · exact Nat.le_trans hrest (Nat.le_of_eq heq)

/-- A round of fair actions, the helpful one among them, lowers the rank. -/
theorem round_lt (h : Ranked step fair Inv rank helper) (hs : Inv s) (actions : List α)
    (hfair : ∀ a ∈ actions, fair a) (hmem : helper s ∈ actions) (hpos : 0 < rank s) :
    rank (actions.foldl step s) < rank s := by
  induction actions generalizing s with
  | nil => cases hmem
  | cons a actions ih =>
    have ha := hfair a List.mem_cons_self
    have hrest : ∀ b ∈ actions, fair b := fun b hb => hfair b (List.mem_cons_of_mem _ hb)
    have hs' := h.keeps hs ha
    rcases h.stands hs ha with hlt | ⟨heq, hsame⟩
    · exact Nat.lt_of_le_of_lt (h.run_le hs' actions hrest) hlt
    · rcases List.mem_cons.1 hmem with hnow | hlater
      · exact absurd (hnow ▸ heq) (Nat.ne_of_lt (h.lowers hs hpos))
      · rw [← hsame] at hlater
        exact heq ▸ ih hs' hrest hlater (heq ▸ hpos)

/-- As many rounds as the rank bring it to zero. -/
theorem rounds_zero (h : Ranked step fair Inv rank helper) (hs : Inv s) (rounds : List (List α))
    (hfair : ∀ round ∈ rounds, ∀ a ∈ round, fair a)
    (hmem : ∀ round ∈ rounds, ∀ s, Inv s → helper s ∈ round) (hlen : rank s ≤ rounds.length) :
    rank (rounds.flatten.foldl step s) = 0 := by
  induction rounds generalizing s with
  | nil => exact Nat.le_zero.1 hlen
  | cons round rounds ih =>
    have hround := hfair round List.mem_cons_self
    rw [List.flatten_cons, List.foldl_append]
    apply ih (h.run_keeps hs round hround)
    · exact fun r hr => hfair r (List.mem_cons_of_mem _ hr)
    · exact fun r hr => hmem r (List.mem_cons_of_mem _ hr)
    · rw [List.length_cons] at hlen
      by_cases hpos : 0 < rank s
      · have hlt := h.round_lt hs round hround (hmem round List.mem_cons_self s hs) hpos
        omega
      · have hle := h.run_le hs round hround
        omega

end Ranked

end Tickpipe
