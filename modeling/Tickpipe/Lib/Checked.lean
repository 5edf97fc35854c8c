import Mathlib.Algebra.Ring.Int.Defs
import Mathlib.Algebra.Ring.Nat

set_option autoImplicit true

/-! Fixed-width arithmetic that wraps, and tells whether it did. -/

/-- A value, and whether it is what unbounded arithmetic gives. -/
@[ext] structure Checked (α : Type u) where
  value : α
  exact : Bool

namespace Checked

instance : Monad Checked where
  pure x := ⟨x, true⟩
  bind c f := ⟨(f c.value).value, c.exact && (f c.value).exact⟩

/-- A signed number of `w` bits. -/
def signed (w : Nat) (x : Int) : Checked Int := ⟨x.bmod (2 ^ w), -2 ^ w ≤ 2 * x ∧ 2 * x < 2 ^ w⟩

/-- An unsigned number of `w` bits. -/
def unsigned (w : Nat) (x : Int) : Checked Nat := ⟨(x % 2 ^ w).toNat, 0 ≤ x ∧ x < 2 ^ w⟩

/-- A division that truncates, by a divisor that is not zero. -/
def quotient (a b : Int) : Checked Int := ⟨a.tdiv b, b ≠ 0⟩

@[simp] theorem exact_pure (x : α) : (pure x : Checked α).exact = true := rfl

@[simp] theorem value_pure (x : α) : (pure x : Checked α).value = x := rfl

@[simp] theorem pure_bind (x : α) (f : α → Checked β) : pure x >>= f = f x := rfl

theorem bind_assoc (c : Checked α) (f : α → Checked β) (g : β → Checked γ) :
    c >>= f >>= g = c >>= fun x => f x >>= g :=
  Checked.ext rfl (Bool.and_assoc _ _ _)

theorem exact_bind_pure (c : Checked α) (f : α → β) :
    (c >>= fun x => pure (f x)).exact = c.exact :=
  Bool.and_true c.exact

/-- Exact or not, the value has the property. -/
def Yields (c : Checked α) (P : α → Prop) : Prop := P c.value

theorem Yields.imp {c : Checked α} {P Q : α → Prop} (h : c.Yields P) (hPQ : ∀ x, P x → Q x) :
    c.Yields Q :=
  hPQ c.value h

theorem Yields.bind {c : Checked α} {f : α → Checked β} {P : β → Prop}
    (h : ∀ x, (f x).Yields P) : (c >>= f).Yields P :=
  h c.value

theorem Yields.next {c : Checked α} {f : α → Checked β} {P : α → Prop} {Q : β → Prop}
    (h : c.Yields P) (hf : ∀ x, P x → (f x).Yields Q) : (c >>= f).Yields Q :=
  hf c.value h

theorem Yields.pure {P : α → Prop} (h : P x) : (pure x : Checked α).Yields P := h

section Agree

variable {r : α → ρ} {t : β → τ}

/-- Two computations, exact or not, come to values that look the same to `r`. -/
def Agree (r : α → ρ) (c c' : Checked α) : Prop := r c.value = r c'.value

theorem Agree.pure (h : r x = r x') : Agree r (pure x) (pure x') := h

theorem Agree.bind {c : Checked α} {f f' : α → Checked β} (h : ∀ x, Agree t (f x) (f' x)) :
    Agree t (c >>= f) (c >>= f') :=
  h c.value

theorem Agree.next {c c' : Checked α} {f f' : α → Checked β} (h : Agree r c c')
    (hf : ∀ x x', r x = r x' → Agree t (f x) (f' x')) : Agree t (c >>= f) (c' >>= f') :=
  hf c.value c'.value h

theorem Agree.ite {p p' : Prop} [Decidable p] [Decidable p'] {a a' b b' : Checked α} (hp : p ↔ p')
    (ha : Agree r a a') (hb : Agree r b b') :
    Agree r (if p then a else b) (if p' then a' else b') := by
  by_cases h : p
  · rw [if_pos h, if_pos (hp.1 h)]
    exact ha
  · rw [if_neg h, if_neg (h ∘ hp.2)]
    exact hb

end Agree

theorem pure_inj : (pure x : Checked α) = pure y ↔ x = y :=
  ⟨fun h => congrArg value h, fun h => h ▸ rfl⟩

theorem exact_iff (c : Checked α) : c.exact = true ↔ ∃ x, c = pure x := by
  constructor
  · intro h
    exact ⟨c.value, Checked.ext rfl h⟩
  · rintro ⟨x, rfl⟩
    rfl

/-- A sequence of operations is exact when each of them is. -/
theorem bind_eq_pure_iff {c : Checked α} {f : α → Checked β} {y : β} :
    c >>= f = pure y ↔ ∃ x, c = pure x ∧ f x = pure y := by
  constructor
  · intro h
    have hexact : (c.exact && (f c.value).exact) = true := congrArg (·.exact) h
    have hvalue : (f c.value).value = y := congrArg (·.value) h
    rw [Bool.and_eq_true] at hexact
    exact ⟨c.value, Checked.ext rfl hexact.1, Checked.ext hvalue hexact.2⟩
  · rintro ⟨x, rfl, hf⟩
    exact hf

theorem signed_eq_pure_iff {w : Nat} {x y : Int} :
    signed w x = pure y ↔ (-2 ^ w ≤ 2 * x ∧ 2 * x < 2 ^ w) ∧ x = y := by
  have hvalue (h : -2 ^ w ≤ 2 * x ∧ 2 * x < 2 ^ w) : x.bmod (2 ^ w) = x := by
    apply Int.bmod_eq_of_le_mul_two
    · rw [Int.natCast_pow, Int.mul_comm]
      exact h.1
    · rw [Int.natCast_pow, Int.mul_comm]
      exact h.2
  constructor
  · intro h
    have hfits := of_decide_eq_true (congrArg (·.exact) h)
    exact ⟨hfits, (hvalue hfits).symm.trans (congrArg (·.value) h)⟩
  · rintro ⟨hfits, rfl⟩
    exact Checked.ext (hvalue hfits) (decide_eq_true hfits)

theorem signed_of_fits (h : -2 ^ w ≤ 2 * x) (h' : 2 * x < 2 ^ w) : signed w x = pure x :=
  signed_eq_pure_iff.2 ⟨⟨h, h'⟩, rfl⟩

theorem ite_signed {c : Prop} [Decidable c] (h : c → -2 ^ w ≤ 2 * x ∧ 2 * x < 2 ^ w) :
    (if c then signed w x else pure y) = pure (if c then x else y) := by
  split
  · next hc => exact signed_of_fits (h hc).1 (h hc).2
  · rfl

theorem unsigned_eq_pure_iff {w : Nat} {x : Int} {y : Nat} :
    unsigned w x = pure y ↔ (0 ≤ x ∧ x < 2 ^ w) ∧ x = y := by
  have hvalue (h : 0 ≤ x ∧ x < 2 ^ w) : (x % 2 ^ w).toNat = x.toNat := by
    rw [Int.emod_eq_of_lt h.1 h.2]
  constructor
  · intro h
    have hfits := of_decide_eq_true (congrArg (·.exact) h)
    have hy : x.toNat = y := (hvalue hfits).symm.trans (congrArg (·.value) h)
    exact ⟨hfits, by rw [← hy, Int.toNat_of_nonneg hfits.1]⟩
  · rintro ⟨hfits, rfl⟩
    exact Checked.ext ((hvalue hfits).trans (Int.toNat_natCast y)) (decide_eq_true hfits)

theorem unsigned_of_fits {w n : Nat} {x : Int} (hx : x = n) (h : n < 2 ^ w) :
    unsigned w x = pure n := by
  subst hx
  exact unsigned_eq_pure_iff.2 ⟨⟨Int.natCast_nonneg n, by exact_mod_cast h⟩, rfl⟩

theorem quotient_eq_pure_iff {a b q : Int} : quotient a b = pure q ↔ b ≠ 0 ∧ a.tdiv b = q := by
  constructor
  · intro h
    exact ⟨of_decide_eq_true (congrArg (·.exact) h), congrArg (·.value) h⟩
  · rintro ⟨hb, rfl⟩
    exact Checked.ext rfl (decide_eq_true hb)

theorem quotient_of_ne (h : b ≠ 0) : quotient a b = pure (a.tdiv b) :=
  quotient_eq_pure_iff.2 ⟨h, rfl⟩

end Checked
