import Tickpipe.Lib.Mealy
import Mathlib.Logic.Function.Basic

set_option autoImplicit true

/-! One copy of a machine for each key; an input goes to the copy of its key. -/

namespace Keyed

open Mealy (outputs after)

variable {κ : Type u} {ι : Type v} {σ : Type w} {ω : Type x} [DecidableEq κ] {key : ι → κ}

/-- The outputs that answer the inputs of one key. -/
def outputsAt (key : ι → κ) (k : κ) (step : σ → ι → ω × σ) (s : σ)
    (is : List ι) : List ω :=
  ((is.zip (outputs step s is)).filter fun x => key x.1 = k).map (·.2)

def inputsAt (key : ι → κ) (k : κ) (is : List ι) : List ι :=
  is.filter fun i => key i = k

theorem outputsAt_cons_self {step : σ → ι → ω × σ} (h : key i = k) :
    outputsAt key k step s (i :: is) = (step s i).1 :: outputsAt key k step (step s i).2 is := by
  rw [outputsAt, outputs, List.zip_cons_cons, List.filter_cons_of_pos (by simpa using h)]
  rfl

theorem outputsAt_cons_ne {step : σ → ι → ω × σ} (h : key i ≠ k) :
    outputsAt key k step s (i :: is) = outputsAt key k step (step s i).2 is := by
  rw [outputsAt, outputs, List.zip_cons_cons, List.filter_cons_of_neg (by simpa using h)]
  rfl

theorem outputsAt_append {step : σ → ι → ω × σ} (is js : List ι) :
    outputsAt key k step s (is ++ js) =
      outputsAt key k step s is ++ outputsAt key k step (after step s is) js := by
  induction is generalizing s with
  | nil => rfl
  | cons i is ih =>
    rw [List.cons_append]
    by_cases h : key i = k
    · rw [outputsAt_cons_self h, outputsAt_cons_self h, ih]
      rfl
    · rw [outputsAt_cons_ne h, outputsAt_cons_ne h, ih]
      rfl

theorem outputsAt_of_none {step : σ → ι → ω × σ} (h : ∀ i ∈ is, key i ≠ k) :
    outputsAt key k step s is = [] := by
  induction is generalizing s with
  | nil => rfl
  | cons i is ih =>
    rw [outputsAt_cons_ne (h i List.mem_cons_self),
      ih fun j hj => h j (List.mem_cons_of_mem _ hj)]

theorem outputsAt_of_all {step : σ → ι → ω × σ} (h : ∀ i ∈ is, key i = k) :
    outputsAt key k step s is = outputs step s is := by
  induction is generalizing s with
  | nil => rfl
  | cons i is ih =>
    rw [outputsAt_cons_self (h i List.mem_cons_self), outputs,
      ih fun j hj => h j (List.mem_cons_of_mem _ hj)]

theorem key_of_mem_inputsAt (h : i ∈ inputsAt key k is) : key i = k :=
  of_decide_eq_true (List.mem_filter.1 h).2

/-- A machine that only sees the inputs of one key answers them as the machine that sees all,
when the inputs of other keys leave the relation between the two alone; the relation may look at
the inputs that are still to come. -/
theorem outputsAt_purged {step : σ → ι → ω × σ} {spec : τ → ι → ω × τ}
    {R : σ → τ → List ι → Prop}
    (hself : ∀ s t i is, R s t (i :: is) → key i = k →
      (step s i).1 = (spec t i).1 ∧ R (step s i).2 (spec t i).2 is)
    (hother : ∀ s t i is, R s t (i :: is) → key i ≠ k → R (step s i).2 t is) (h : R s t is) :
    outputsAt key k step s is = outputs spec t (inputsAt key k is) ∧
      R (after step s is) (after spec t (inputsAt key k is)) [] := by
  induction is generalizing s t with
  | nil => exact ⟨rfl, h⟩
  | cons i is ih =>
    by_cases hi : key i = k
    · obtain ⟨ho, h'⟩ := hself s t i is h hi
      obtain ⟨hos, ha⟩ := ih h'
      rw [inputsAt, List.filter_cons_of_pos (by simpa using hi), outputsAt_cons_self hi, ho, hos]
      exact ⟨rfl, ha⟩
    · have h' := hother s t i is h hi
      rw [inputsAt, List.filter_cons_of_neg (by simpa using hi), outputsAt_cons_ne hi]
      exact ih h'

/-- The whole family as one machine. -/
def step (key : ι → κ) (own : σ → ι → ω × σ) (s : κ → σ) (i : ι) : ω × (κ → σ) :=
  ((own (s (key i)) i).1, Function.update s (key i) (own (s (key i)) i).2)

variable {own : σ → ι → ω × σ}

theorem step_snd_self (s : κ → σ) (h : key i = k) :
    (step key own s i).2 k = (own (s k) i).2 := by
  subst h
  exact Function.update_self _ _ _

theorem step_snd_ne (s : κ → σ) (h : key i ≠ k) : (step key own s i).2 k = s k :=
  Function.update_of_ne (Ne.symm h) _ _

/-- What the family does for a key is what the key's own copy does with the inputs of the key. -/
theorem projects (s : κ → σ) (is : List ι) (k : κ) :
    outputsAt key k (step key own) s is = outputs own (s k) (inputsAt key k is) ∧
      after (step key own) s is k = after own (s k) (inputsAt key k is) := by
  induction is generalizing s with
  | nil => exact ⟨rfl, rfl⟩
  | cons i is ih =>
    obtain ⟨ho, ha⟩ := ih (step key own s i).2
    by_cases h : key i = k
    · rw [inputsAt, List.filter_cons_of_pos (by simpa using h), outputsAt_cons_self h, ho, after,
        ha, step_snd_self s h]
      subst h
      exact ⟨rfl, rfl⟩
    · rw [inputsAt, List.filter_cons_of_neg (by simpa using h), outputsAt_cons_ne h, ho, after, ha,
        step_snd_ne s h]
      exact ⟨rfl, rfl⟩

end Keyed
