import Mathlib.Data.List.Basic
import Mathlib.Order.Bounds.Basic

set_option autoImplicit true

/-! Machines that answer each input with an output. -/

namespace Mealy

def outputs (step : σ → ι → ω × σ) (s : σ) : List ι → List ω
  | [] => []
  | i :: is => (step s i).1 :: outputs step (step s i).2 is

@[simp] theorem length_outputs (step : σ → ι → ω × σ) (s : σ) (is : List ι) :
    (outputs step s is).length = is.length := by
  induction is generalizing s with
  | nil => rfl
  | cons i is ih => exact congrArg (· + 1) (ih (step s i).2)

def after (step : σ → ι → ω × σ) (s : σ) : List ι → σ
  | [] => s
  | i :: is => after step (step s i).2 is

/-- The property holds in every state of the run, the last one included. -/
def Always (P : σ → Prop) (step : σ → ι → ω × σ) (s : σ) : List ι → Prop
  | [] => P s
  | i :: is => P s ∧ Always P step (step s i).2 is

instance decidableAlways (P : σ → Prop) [DecidablePred P] (step : σ → ι → ω × σ) :
    (s : σ) → (is : List ι) → Decidable (Always P step s is)
  | s, [] => inferInstanceAs (Decidable (P s))
  | s, i :: is =>
    have := decidableAlways P step (step s i).2 is
    inferInstanceAs (Decidable (_ ∧ _))

theorem Always.head (h : Always P step s is) : P s := by
  cases is with
  | nil => exact h
  | cons i is => exact h.1

variable {step : σ → ι → ω × σ} {spec : τ → ι → ω × τ}

theorem after_append (step : σ → ι → ω × σ) (s : σ) (is js : List ι) :
    after step s (is ++ js) = after step (after step s is) js := by
  induction is generalizing s with
  | nil => rfl
  | cons i is ih => exact ih (step s i).2

/-- What the steps of a run add up to. -/
def total (f : σ → ι → Nat) (step : σ → ι → ω × σ) (s : σ) : List ι → Nat
  | [] => 0
  | i :: is => f s i + total f step (step s i).2 is

/-- The property holds at every step of the run, of the state before it and its input. -/
def EachStep (P : σ → ι → Prop) (step : σ → ι → ω × σ) (s : σ) : List ι → Prop
  | [] => True
  | i :: is => P s i ∧ EachStep P step (step s i).2 is

instance decidableEachStep (P : σ → ι → Prop) [∀ s i, Decidable (P s i)] (step : σ → ι → ω × σ) :
    (s : σ) → (is : List ι) → Decidable (EachStep P step s is)
  | _, [] => inferInstanceAs (Decidable True)
  | s, i :: is =>
    have := decidableEachStep P step (step s i).2 is
    inferInstanceAs (Decidable (_ ∧ _))

/-- What every step gains and loses, a run gains and loses in total. -/
theorem total_balance {I : σ → Prop} {m : σ → Nat} {lost gained : σ → ι → Nat}
    (hinv : ∀ s i, I s → I (step s i).2)
    (hstep : ∀ s i, I s → m (step s i).2 + lost s i = m s + gained s i) (h : I s) (is : List ι) :
    m (after step s is) + total lost step s is = m s + total gained step s is := by
  induction is generalizing s with
  | nil => rfl
  | cons i is ih =>
    have hhead := hstep s i h
    have htail := ih (hinv s i h)
    rw [after, total, total]
    omega

theorem total_add (f g : σ → ι → Nat) (step : σ → ι → ω × σ) (s : σ) (is : List ι) :
    total (fun s i => f s i + g s i) step s is = total f step s is + total g step s is := by
  induction is generalizing s with
  | nil => rfl
  | cons i is ih =>
    rw [total, ih, total, total]
    omega

theorem total_mul (c : Nat) (f : σ → ι → Nat) (step : σ → ι → ω × σ) (s : σ) (is : List ι) :
    total (fun s i => c * f s i) step s is = c * total f step s is := by
  induction is generalizing s with
  | nil => rfl
  | cons i is ih => rw [total, ih, total, Nat.mul_add]

theorem total_eq_zero_iff (f : σ → ι → Nat) (s : σ) (is : List ι) :
    total f step s is = 0 ↔ EachStep (fun s i => f s i = 0) step s is := by
  induction is generalizing s with
  | nil => exact Iff.intro (fun _ => True.intro) (fun _ => rfl)
  | cons i is ih =>
    rw [total, EachStep, Nat.add_eq_zero_iff, ih]

/-- Properties that agree wherever an invariant holds agree at each step of a run. -/
theorem eachStep_iff {I : σ → Prop} {P Q : σ → ι → Prop} (hinv : ∀ s i, I s → I (step s i).2)
    (hPQ : ∀ s i, I s → (P s i ↔ Q s i)) (h : I s) (is : List ι) :
    EachStep P step s is ↔ EachStep Q step s is := by
  induction is generalizing s with
  | nil => exact Iff.rfl
  | cons i is ih =>
    rw [EachStep, EachStep, hPQ s i h, ih (hinv s i h)]

/-- A counter that each step raises holds what was added to it. -/
theorem total_counter {c : σ → Nat} {f : σ → ι → Nat}
    (hstep : ∀ s i, c (step s i).2 = c s + f s i) (s : σ) (is : List ι) :
    c (after step s is) = c s + total f step s is := by
  induction is generalizing s with
  | nil => rfl
  | cons i is ih =>
    rw [after, ih, hstep, total, Nat.add_assoc]

/-- A list that each step thins out and appends to is thinned out of all that was appended. -/
theorem after_sublist {f : σ → List α} {g : ι → List α}
    (hstep : ∀ s i, (f (step s i).2).Sublist (f s ++ g i)) (s : σ) (is : List ι) :
    (f (after step s is)).Sublist (f s ++ is.flatMap g) := by
  induction is generalizing s with
  | nil =>
    rw [List.flatMap_nil, List.append_nil]
    exact List.Sublist.refl _
  | cons i is ih =>
    rw [List.flatMap_cons, ← List.append_assoc]
    exact (ih (step s i).2).trans ((hstep s i).append_right _)

/-- A peak that follows a measure is the greatest value that the measure has had. -/
theorem peak_isGreatest {m peak : σ → Nat}
    (hstep : ∀ s i, m s ≤ peak s → peak (step s i).2 = max (peak s) (m (step s i).2))
    (h : peak s = m s) (is : List ι) :
    IsGreatest {n | ∃ j, m (after step s (is.take j)) = n} (peak (after step s is)) := by
  suffices hrun : ∀ (is : List ι) (s : σ), m s ≤ peak s →
      (∀ j, m (after step s (is.take j)) ≤ peak (after step s is)) ∧
        peak s ≤ peak (after step s is) ∧
        (peak (after step s is) = peak s ∨
          ∃ j, m (after step s (is.take j)) = peak (after step s is)) by
    obtain ⟨hle, -, heq | hmem⟩ := hrun is s (Nat.le_of_eq h.symm)
    · refine ⟨⟨0, ?_⟩, ?_⟩
      · rw [heq, h]
        rfl
      · rintro n ⟨j, rfl⟩
        exact hle j
    · refine ⟨hmem, ?_⟩
      rintro n ⟨j, rfl⟩
      exact hle j
  intro is
  induction is with
  | nil =>
    intro s hs
    refine ⟨fun j => ?_, Nat.le_refl _, .inl rfl⟩
    rw [List.take_nil]
    exact hs
  | cons i is ih =>
    intro s hs
    have hpeak := hstep s i hs
    obtain ⟨hle, hmono, hlast⟩ := ih (step s i).2 (by omega)
    rw [after]
    refine ⟨fun j => ?_, by omega, ?_⟩
    · cases j with
      | zero =>
        rw [List.take_zero, after]
        omega
      | succ j => exact hle j
    · obtain heq | ⟨j, hj⟩ := hlast
      · by_cases hup : m (step s i).2 ≤ peak s
        · left
          omega
        · right
          refine ⟨1, ?_⟩
          rw [List.take_succ_cons, List.take_zero, after, after]
          omega
      · exact .inr ⟨j + 1, hj⟩

theorem EachStep.append {P : σ → ι → Prop} (h : EachStep P step s is)
    (h' : EachStep P step (after step s is) js) : EachStep P step s (is ++ js) := by
  induction is generalizing s with
  | nil => exact h'
  | cons i is ih => exact ⟨h.1, ih h.2 h'⟩

theorem EachStep.of_forall {P : σ → ι → Prop} (h : ∀ s, ∀ i ∈ is, P s i) :
    EachStep P step s is := by
  induction is generalizing s with
  | nil => trivial
  | cons i is ih =>
    exact ⟨h s i List.mem_cons_self, ih fun s' j hj => h s' j (List.mem_cons_of_mem i hj)⟩

theorem EachStep.imp {P Q : σ → ι → Prop} (h : EachStep P step s is) (hPQ : ∀ s i, P s i → Q s i) :
    EachStep Q step s is := by
  induction is generalizing s with
  | nil => trivial
  | cons i is ih => exact ⟨hPQ s i h.1, ih h.2⟩

theorem EachStep.total_le {f : σ → ι → Nat} (h : EachStep P step s is)
    (hf : ∀ s i, P s i → f s i ≤ b) : total f step s is ≤ is.length * b := by
  induction is generalizing s with
  | nil => exact Nat.zero_le _
  | cons i is ih =>
    have hhead := hf s i h.1
    have htail := ih h.2
    rw [total, List.length_cons, Nat.succ_mul]
    omega

theorem EachStep.take (h : EachStep P step s is) (n : Nat) : EachStep P step s (is.take n) := by
  induction is generalizing s n with
  | nil =>
    rw [List.take_nil]
    trivial
  | cons i is ih =>
    obtain ⟨hi, his⟩ := h
    cases n with
    | zero => trivial
    | succ n => exact ⟨hi, ih his n⟩

/-- Machines that answer alike, step by step, answer a run alike; the relation may look at the
inputs that are still to come. -/
theorem simulation {R : σ → τ → List ι → Prop}
    (hstep : ∀ s t i is, R s t (i :: is) →
      (step s i).1 = (spec t i).1 ∧ R (step s i).2 (spec t i).2 is)
    (h : R s t is) :
    outputs step s is = outputs spec t is ∧ R (after step s is) (after spec t is) [] := by
  induction is generalizing s t with
  | nil => exact ⟨rfl, h⟩
  | cons i is ih =>
    obtain ⟨ho, h'⟩ := hstep s t i is h
    obtain ⟨hos, ha⟩ := ih h'
    rw [outputs, outputs, ho, hos]
    exact ⟨rfl, ha⟩

section Skip

variable (skip : κ → ι → Bool) (next : κ → ι → κ)

/-- The inputs that are not skipped; `k` remembers the inputs before them. -/
def kept : κ → List ι → List ι
  | _, [] => []
  | k, i :: is => if skip k i then kept (next k i) is else i :: kept (next k i) is

theorem kept_take_prefix (k : κ) (is : List ι) (n : Nat) :
    kept skip next k (is.take n) <+: kept skip next k is := by
  induction is generalizing k n with
  | nil =>
    cases n with
    | zero => exact List.nil_prefix
    | succ n => exact List.nil_prefix
  | cons i is ih =>
    cases n with
    | zero => exact List.nil_prefix
    | succ n =>
      rw [List.take_succ_cons, kept, kept]
      split
      · exact ih (next k i) n
      · exact List.cons_prefix_cons.2 ⟨rfl, ih (next k i) n⟩

theorem kept_append (k : κ) (is js : List ι) :
    kept skip next k (is ++ js) = kept skip next k is ++ kept skip next (is.foldl next k) js := by
  induction is generalizing k with
  | nil => rfl
  | cons i is ih =>
    rw [List.cons_append, kept, kept, ih, List.foldl_cons]
    split
    · rfl
    · rfl

variable {skip next} {f : σ → ρ} {I : κ → σ → Prop}

/-- A run may skip the inputs that leave alone what is observed of the state. -/
theorem after_kept (hstep : ∀ s s' i, f s = f s' → f (step s i).2 = f (step s' i).2)
    (hinv : ∀ k s i, I k s → I (next k i) (step s i).2)
    (hskip : ∀ k s i, I k s → skip k i = true → f (step s i).2 = f s)
    (h : I k s) (hf : f s = f s') (is : List ι) :
    f (after step s is) = f (after step s' (kept skip next k is)) := by
  induction is generalizing k s s' with
  | nil => exact hf
  | cons i is ih =>
    have hnext := hinv k s i h
    rw [kept]
    split
    · next hi => exact ih hnext ((hskip k s i h hi).trans hf)
    · exact ih hnext (hstep s s' i hf)

end Skip

/-- `step` runs behind `spec`: the inputs `pending` are taken in but not yet served, and `r` is
the next output. When each step serves the oldest pending input, the outputs are those of `spec`
delayed by the pending inputs and `r`. -/
theorem delayed (step : σ → ι → ω × σ) (spec : τ → ι → ω × τ)
    {R : σ → τ → List ι → List ι → ω → Prop}
    (hstep : ∀ s t i pending j rest r, R s t (i :: pending) (j :: rest) r →
      (step s j).1 = r ∧ R (step s j).2 (spec t i).2 (pending ++ [j]) rest (spec t i).1)
    (hR : R s t (i :: pending) is r) :
    outputs step s is = (r :: outputs spec t (i :: pending ++ is)).take is.length ∧
    ∃ r', R (after step s is) (after spec t ((i :: pending ++ is).take is.length))
      ((i :: pending ++ is).drop is.length) [] r' := by
  induction is generalizing s t i pending r with
  | nil =>
    refine ⟨rfl, r, ?_⟩
    rw [List.append_nil]
    exact hR
  | cons j is ih =>
    obtain ⟨hr, hR'⟩ := hstep _ _ _ _ _ _ _ hR
    have hmove : pending ++ [j] ++ is = pending ++ j :: is := List.append_assoc _ _ _
    cases hp : pending ++ [j] with
    | nil => exact absurd hp (List.append_ne_nil_of_right_ne_nil _ (List.cons_ne_nil _ _))
    | cons k pending' =>
      rw [hp] at hR' hmove
      obtain ⟨ho, r', ha⟩ := ih hR'
      rw [hmove] at ho ha
      refine ⟨?_, r', ha⟩
      rw [outputs, hr, ho]
      rfl

/-- A property that each step behind lends to the input served there holds at the steps of
`spec`. -/
theorem delayed_each (step : σ → ι → ω × σ) (spec : τ → ι → ω × τ) {P : σ → ι → Prop}
    {Q : τ → ι → Prop} {R : σ → τ → List ι → List ι → ω → Prop}
    (hstep : ∀ s t i pending j rest r, R s t (i :: pending) (j :: rest) r →
      R (step s j).2 (spec t i).2 (pending ++ [j]) rest (spec t i).1)
    (hPQ : ∀ s t i pending j rest r, R s t (i :: pending) (j :: rest) r → P s j → Q t i)
    (hR : R s t (i :: pending) is r) (h : EachStep P step s is) :
    EachStep Q spec t ((i :: pending ++ is).take is.length) := by
  induction is generalizing s t i pending r with
  | nil => trivial
  | cons j is ih =>
    obtain ⟨hj, his⟩ := h
    have hR' := hstep _ _ _ _ _ _ _ hR
    have hmove : pending ++ [j] ++ is = pending ++ j :: is := List.append_assoc _ _ _
    cases hp : pending ++ [j] with
    | nil => exact absurd hp (List.append_ne_nil_of_right_ne_nil _ (List.cons_ne_nil _ _))
    | cons k pending' =>
      rw [hp] at hR' hmove
      have hrest := ih hR' his
      rw [hmove] at hrest
      exact ⟨hPQ _ _ _ _ _ _ _ hR hj, hrest⟩

end Mealy
