import Mathlib.Data.List.Forall2
import Mathlib.Logic.Function.Basic

set_option autoImplicit true

/-! Lists that differ in one place, and folds that tell them apart. -/

/-- The lists differ in one place as `D` says; in every other place `R` relates them. -/
inductive DifferOnce (R D : α → α → Prop) : List α → List α → Prop where
  | here : D x x' → List.Forall₂ R xs xs' → DifferOnce R D (x :: xs) (x' :: xs')
  | later : R x x' → DifferOnce R D xs xs' → DifferOnce R D (x :: xs) (x' :: xs')

namespace DifferOnce

variable {f : σ → α → σ} {R D : α → α → Prop}

theorem not_nil (xs' : List α) : ¬ DifferOnce R D [] xs' := by
  intro h
  cases h

theorem not_nil_right (xs : List α) : ¬ DifferOnce R D xs [] := by
  intro h
  cases h

theorem cons_iff : DifferOnce R D (x :: xs) (x' :: xs') ↔
    D x x' ∧ List.Forall₂ R xs xs' ∨ R x x' ∧ DifferOnce R D xs xs' := by
  constructor
  · intro h
    cases h with
    | here hx hxs => exact .inl ⟨hx, hxs⟩
    | later hx hxs => exact .inr ⟨hx, hxs⟩
  · rintro (⟨hx, hxs⟩ | ⟨hx, hxs⟩)
    · exact .here hx hxs
    · exact .later hx hxs

instance decidable [DecidableRel R] [DecidableRel D] :
    (xs xs' : List α) → Decidable (DifferOnce R D xs xs')
  | [], xs' => isFalse (not_nil xs')
  | x :: xs, [] => isFalse (not_nil_right (x :: xs))
  | _ :: xs, _ :: xs' =>
    have := decidable xs xs'
    decidable_of_iff' _ cons_iff

/-- Steps that keep states apart keep them apart over a list. -/
theorem foldl_injective (hf : ∀ x, Function.Injective fun s => f s x) (xs : List α) :
    Function.Injective fun s => xs.foldl f s := by
  induction xs with
  | nil => exact Function.injective_id
  | cons x xs ih => exact ih.comp (hf x)

theorem foldl_congr (hR : ∀ x x', R x x' → ∀ s, f s x = f s x') (h : List.Forall₂ R xs xs')
    (s : σ) : xs.foldl f s = xs'.foldl f s := by
  induction h generalizing s with
  | nil => rfl
  | cons hx _ ih =>
    rw [List.foldl_cons, List.foldl_cons, hR _ _ hx]
    exact ih _

/-- A fold tells the lists apart when a step tells the two elements apart and keeps apart any two
states. -/
theorem foldl_ne (hf : ∀ x, Function.Injective fun s => f s x)
    (hR : ∀ x x', R x x' → ∀ s, f s x = f s x') (hD : ∀ x x', D x x' → ∀ s, f s x ≠ f s x')
    (h : DifferOnce R D xs xs') (s : σ) : xs.foldl f s ≠ xs'.foldl f s := by
  induction h generalizing s with
  | @here x x' xs xs' hx hxs =>
    rw [List.foldl_cons, List.foldl_cons, ← foldl_congr hR hxs]
    exact (foldl_injective hf xs).ne (hD x x' hx s)
  | @later x x' xs xs' hx _ ih =>
    rw [List.foldl_cons, List.foldl_cons, hR x x' hx]
    exact ih (f s x')

end DifferOnce
