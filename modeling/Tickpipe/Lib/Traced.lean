import Mathlib.Control.Monad.Writer

set_option autoImplicit true

/-! Computations that write down what they do, and arrays whose every access is written down. -/

/-- A computation with the events that it writes down, in order. -/
abbrev Traced (ε : Type u) := Writer (List ε)

namespace Traced

def value (t : Traced ε α) : α := t.run.1

def log (t : Traced ε α) : List ε := t.run.2

/-- `t` gives `x`, and every event that it writes down has the property. -/
structure Gives (P : ε → Prop) (t : Traced ε α) (x : α) : Prop where
  value : t.value = x
  log : ∀ e ∈ t.log, P e

variable {P : ε → Prop}

theorem Gives.pure (x : α) : Gives P (Pure.pure x) x := ⟨rfl, List.forall_mem_nil _⟩

theorem Gives.bind {t : Traced ε α} {f : α → Traced ε β} (ht : Gives P t x)
    (hf : Gives P (f x) y) : Gives P (t >>= f) y := by
  have hx := ht.value
  subst hx
  exact ⟨hf.value, List.forall_mem_append.2 ⟨ht.log, hf.log⟩⟩

theorem Gives.tell (h : P e) : Gives P (MonadWriter.tell [e] : Traced ε PUnit) ⟨⟩ :=
  ⟨rfl, List.forall_mem_singleton.2 h⟩

/-- A loop over a list keeps step with a loop of another machine. -/
theorem Gives.foldlM {f : β → α → Traced ε β} {g : γ → α → γ} (r : γ → β) (I : γ → Prop)
    (hstep : ∀ c a, I c → Gives P (f (r c) a) (r (g c a)) ∧ I (g c a)) (h : I c) (l : List α) :
    Gives P (l.foldlM f (r c)) (r (l.foldl g c)) ∧ I (l.foldl g c) := by
  induction l generalizing c with
  | nil => exact ⟨.pure _, h⟩
  | cons a l ih =>
    obtain ⟨hhead, hinv⟩ := hstep c a h
    obtain ⟨htail, hlast⟩ := ih hinv
    exact ⟨hhead.bind htail, hlast⟩

section Arrays

/-- A cell; outside of the array the source is undefined, and the default is read here. -/
def cell [Inhabited α] (a : Vector α n) (i : Int) : α :=
  if h : 0 ≤ i ∧ i < n then a[i.toNat] else default

/-- Write a cell; a write outside of the array is lost here. -/
def setCell (a : Vector α n) (i : Int) (x : α) : Vector α n :=
  if h : 0 ≤ i ∧ i < n then a.set i.toNat x else a

theorem cell_natCast [Inhabited α] (a : Vector α n) (hi : i < n) : cell a i = a[i] :=
  dif_pos ⟨Int.natCast_nonneg i, Int.ofNat_lt.2 hi⟩

theorem setCell_natCast (a : Vector α n) (hi : i < n) (x : α) : setCell a i x = a.set i x :=
  dif_pos ⟨Int.natCast_nonneg i, Int.ofNat_lt.2 hi⟩

variable (mark : Int → ε)

def load [Inhabited α] (a : Vector α n) (i : Int) : Traced ε α := do
  MonadWriter.tell [mark i]
  pure (cell a i)

def store (a : Vector α n) (i : Int) (x : α) : Traced ε (Vector α n) := do
  MonadWriter.tell [mark i]
  pure (setCell a i x)

variable {mark}

theorem Gives.load [Inhabited α] {a : Vector α n} (hi : i < n) (h : P (mark i)) :
    Gives P (load mark a i) a[i] := by
  rw [← cell_natCast a hi]
  exact (Gives.tell h).bind (.pure _)

theorem Gives.store {a : Vector α n} (hi : i < n) (h : P (mark i)) (x : α) :
    Gives P (store mark a i x) (a.set i x) := by
  rw [← setCell_natCast a hi]
  exact (Gives.tell h).bind (.pure _)

end Arrays

end Traced
