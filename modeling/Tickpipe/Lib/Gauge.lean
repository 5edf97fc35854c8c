import Mathlib.Data.Nat.Basic

set_option autoImplicit true

/-! A gauge that a system sets to its level now and then, and never lowers. -/

/-- No step lowers the gauge, and one that moves it sets it to the level before the step. -/
structure Gauge (step : σ → α → σ) (Inv : σ → Prop) (level gauge : σ → Nat) : Prop where
  keeps : ∀ {s a}, Inv s → Inv (step s a)
  moves : ∀ {s a}, Inv s → gauge (step s a) = gauge s ∨
    gauge s ≤ level s ∧ gauge (step s a) = level s

namespace Gauge

variable {step : σ → α → σ} {Inv : σ → Prop} {level gauge : σ → Nat}

theorem le_step (h : Gauge step Inv level gauge) (hs : Inv s) (a : α) :
    gauge s ≤ gauge (step s a) := by
  rcases h.moves (a := a) hs with hsame | ⟨hle, hset⟩
  · exact Nat.le_of_eq hsame.symm
  · exact Nat.le_trans hle (Nat.le_of_eq hset.symm)

theorem run_keeps (h : Gauge step Inv level gauge) (hs : Inv s) (actions : List α) :
    Inv (actions.foldl step s) :=
  List.foldlRecOn actions step (motive := Inv) hs fun _ hs _ _ => h.keeps hs

/-- Whatever a run shows was shown at one of its moments, or at its start. -/
theorem run_attained (h : Gauge step Inv level gauge) (hs : Inv s) (actions : List α) :
    gauge (actions.foldl step s) = gauge s ∨
      ∃ n, level ((actions.take n).foldl step s) = gauge (actions.foldl step s) := by
  induction actions generalizing s with
  | nil => exact .inl rfl
  | cons a actions ih =>
    rcases ih (h.keeps (a := a) hs) with hsame | ⟨n, hn⟩
    · rw [List.foldl_cons, hsame]
      rcases h.moves (a := a) hs with hkept | ⟨-, hset⟩
      · exact .inl hkept
      · exact .inr ⟨0, hset.symm⟩
    · exact .inr ⟨n + 1, hn⟩

theorem take_le (h : Gauge step Inv level gauge) (hs : Inv s) (actions : List α) (n : Nat) :
    gauge ((actions.take n).foldl step s) ≤ gauge (actions.foldl step s) := by
  induction actions generalizing s n with
  | nil =>
    exact Nat.le_of_eq (congrArg (fun actions => gauge (actions.foldl step s)) List.take_nil)
  | cons a actions ih =>
    cases n with
    | zero =>
      have hrest := ih (h.keeps (a := a) hs) 0
      exact Nat.le_trans (h.le_step hs a) hrest
    | succ n => exact ih (h.keeps hs) n

/-- Where no level is more than `slack` above the gauge, the last reading tells the greatest level
of the run, `slack` below at most. -/
theorem run_tells (h : Gauge step Inv level gauge) (hs : Inv s) (hstart : gauge s = level s)
    (hslack : ∀ s, Inv s → level s ≤ gauge s + slack) (actions : List α) :
    (∃ n, level ((actions.take n).foldl step s) = gauge (actions.foldl step s)) ∧
      ∀ n, level ((actions.take n).foldl step s) ≤ gauge (actions.foldl step s) + slack := by
  constructor
  · rcases h.run_attained hs actions with hsame | hattained
    · exact ⟨0, (hsame.trans hstart).symm⟩
    · exact hattained
  · intro n
    have hlevel := hslack _ (h.run_keeps hs (actions.take n))
    exact Nat.le_trans hlevel (Nat.add_le_add_right (h.take_le hs actions n) slack)

end Gauge
