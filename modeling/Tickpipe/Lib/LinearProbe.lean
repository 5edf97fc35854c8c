import Mathlib.Data.Finset.Card
import Mathlib.Data.Int.ModEq
import Mathlib.Logic.Function.Basic

set_option autoImplicit true

namespace LinearProbe

/-- What a probe sees of one cell of the table. -/
inductive Cell (κ : Type u) where
  | empty
  | tombstone
  | full (key : κ)
deriving DecidableEq

/-- The cell at distance `d` from the home cell `h`, walking cyclically over `n` cells. -/
def cellAt (n h d : Nat) : Nat := (h + d) % n

theorem cellAt_lt (hn : 0 < n) : cellAt n h d < n := Nat.mod_lt _ hn

theorem cellAt_inj (hd : d < n) (he : e < n) (h : cellAt n a d = cellAt n a e) : d = e := by
  have hm : (a + d) ≡ (a + e) [MOD n] := h
  have hde : d % n = e % n := Nat.ModEq.add_left_cancel' a hm
  rwa [Nat.mod_eq_of_lt hd, Nat.mod_eq_of_lt he] at hde

theorem exists_dist (hi : i < n) (h : Nat) : ∃ d < n, cellAt n h d = i := by
  have hn : 0 < n := Nat.zero_lt_of_lt hi
  refine ⟨(i + (n - h % n)) % n, Nat.mod_lt _ hn, ?_⟩
  have hh : h % n < n := Nat.mod_lt _ hn
  have hr : (h % n + (i + (n - h % n))) % n = i := by
    rw [show h % n + (i + (n - h % n)) = i + n by omega, Nat.add_mod_right,
      Nat.mod_eq_of_lt hi]
  rw [cellAt, Nat.add_mod_mod, ← Nat.mod_add_mod, hr]

/-- Where a probe for a key ends, with the distance walked. -/
inductive Outcome where
  | hit (d : Nat)
  | vacant (d : Nat)
  | exhausted
deriving DecidableEq

variable {κ : Type u} {t : Nat → Cell κ} {home : κ → Nat} {n : Nat} {k : κ}

/-- Walk from distance `d`, at most `fuel` cells, until the key or an empty cell is met. -/
def probe [DecidableEq κ] (t : Nat → Cell κ) (n h : Nat) (k : κ) : Nat → Nat → Outcome
  | 0, _ => .exhausted
  | fuel + 1, d =>
    match t (cellAt n h d) with
    | .empty => .vacant d
    | .tombstone => probe t n h k fuel (d + 1)
    | .full k' => if k' = k then .hit d else probe t n h k fuel (d + 1)

/-- A probe for `k` walks over a cell that is neither empty nor holds `k`. -/
def Passes (t : Nat → Cell κ) (n h : Nat) (k : κ) (d : Nat) : Prop :=
  t (cellAt n h d) ≠ .empty ∧ t (cellAt n h d) ≠ .full k

/-- What each outcome of a probe says of the cells walked. -/
def Explains (t : Nat → Cell κ) (n h : Nat) (k : κ) (fuel d : Nat) : Outcome → Prop
  | .hit e => d ≤ e ∧ e < d + fuel ∧ t (cellAt n h e) = .full k ∧
      ∀ c, d ≤ c → c < e → Passes t n h k c
  | .vacant e => d ≤ e ∧ e < d + fuel ∧ t (cellAt n h e) = .empty ∧
      ∀ c, d ≤ c → c < e → Passes t n h k c
  | .exhausted => ∀ c, d ≤ c → c < d + fuel → Passes t n h k c

theorem Explains.cons (hp : Passes t n h k d) (he : Explains t n h k fuel (d + 1) o) :
    Explains t n h k (fuel + 1) d o := by
  have hc (c : Nat) (hdc : d ≤ c) (hq : d + 1 ≤ c → Passes t n h k c) :
      Passes t n h k c := by
    rcases Nat.eq_or_lt_of_le hdc with rfl | hlt
    · exact hp
    · exact hq hlt
  cases o with
  | hit e =>
    obtain ⟨hde, hlt, hk, hpass⟩ := he
    exact ⟨by omega, by omega, hk, fun c hdc hce => hc c hdc (fun hd => hpass c hd hce)⟩
  | vacant e =>
    obtain ⟨hde, hlt, hk, hpass⟩ := he
    exact ⟨by omega, by omega, hk, fun c hdc hce => hc c hdc (fun hd => hpass c hd hce)⟩
  | exhausted => exact fun c hdc hlt => hc c hdc (fun hd => he c hd (by omega))

theorem probe_explains [DecidableEq κ] (t : Nat → Cell κ) (n h : Nat) (k : κ) (fuel d : Nat) :
    Explains t n h k fuel d (probe t n h k fuel d) := by
  induction fuel generalizing d with
  | zero => exact fun c hdc hlt => absurd hlt (by omega)
  | succ fuel ih =>
    rw [probe]
    cases hcell : t (cellAt n h d) with
    | empty => exact ⟨Nat.le_refl _, by omega, hcell, fun c hdc hlt => absurd hlt (by omega)⟩
    | tombstone =>
      refine Explains.cons ⟨?_, ?_⟩ (ih (d + 1)) <;> rw [hcell] <;> exact nofun
    | full k' =>
      by_cases hk : k' = k
      · subst hk
        simp only [↓reduceIte]
        exact ⟨Nat.le_refl _, by omega, hcell, fun c hdc hlt => absurd hlt (by omega)⟩
      · simp only [if_neg hk]
        refine Explains.cons ⟨?_, ?_⟩ (ih (d + 1)) <;> rw [hcell]
        · exact nofun
        · exact fun he => hk (Cell.full.inj he)

/-- No key is held twice, and no empty cell lies between a key's home and its cell. -/
structure Chained (n : Nat) (home : κ → Nat) (t : Nat → Cell κ) : Prop where
  unique : ∀ i j k, i < n → j < n → t i = .full k → t j = .full k → i = j
  reach : ∀ k d, d < n → t (cellAt n (home k) d) = .full k →
    ∀ e, e < d → t (cellAt n (home k) e) ≠ .empty

theorem Chained.nothing (home : κ → Nat) (ht : ∀ i, i < n → t i = .empty) (hn : 0 < n) :
    Chained n home t where
  unique i j k hi hj hik hjk := by rw [ht i hi] at hik; cases hik
  reach k d hd hk := by rw [ht _ (cellAt_lt hn)] at hk; cases hk

/-- In a chained table the bounded probe finds the cell that holds the key. -/
theorem Chained.probe_hit [DecidableEq κ] (ht : Chained n home t) (hi : i < n)
    (hk : t i = .full k) :
    ∃ d, d < n ∧ cellAt n (home k) d = i ∧ probe t n (home k) k n 0 = .hit d := by
  obtain ⟨d, hd, hdi⟩ := exists_dist hi (home k)
  refine ⟨d, hd, hdi, ?_⟩
  have hkd : t (cellAt n (home k) d) = .full k := by rw [hdi, hk]
  have hx := probe_explains t n (home k) k n 0
  cases hp : probe t n (home k) k n 0 with
  | hit e =>
    rw [hp] at hx
    obtain ⟨-, he, hke, -⟩ := hx
    have hn : 0 < n := Nat.zero_lt_of_lt hi
    have hcell := ht.unique _ _ k (cellAt_lt hn) (cellAt_lt hn) hke hkd
    rw [cellAt_inj (by omega) hd hcell]
  | vacant e =>
    rw [hp] at hx
    obtain ⟨-, he, hempty, hpass⟩ := hx
    rcases Nat.lt_trichotomy e d with hlt | heq | hgt
    · exact absurd hempty (ht.reach k d hd hkd e hlt)
    · subst heq; rw [hkd] at hempty; cases hempty
    · exact absurd hkd (hpass d (Nat.zero_le _) hgt).2
  | exhausted =>
    rw [hp] at hx
    exact absurd hkd (hx d (Nat.zero_le _) (by omega)).2

theorem hit_holds [DecidableEq κ] (hp : probe t n h k n 0 = .hit d) :
    d < n ∧ t (cellAt n h d) = .full k := by
  have hx := probe_explains t n h k n 0
  rw [hp] at hx
  exact ⟨by have := hx.2.1; omega, hx.2.2.1⟩

/-- A probe that does not hit shows that the key is nowhere in the table. -/
theorem Chained.absent [DecidableEq κ] (ht : Chained n home t)
    (hp : ∀ d, probe t n (home k) k n 0 ≠ .hit d) :
    ∀ i, i < n → t i ≠ .full k := by
  intro i hi hk
  obtain ⟨d, -, -, hd⟩ := ht.probe_hit hi hk
  exact hp d hd

/-- A key that is not in the table exhausts the probe exactly when no cell is empty. -/
theorem probe_exhausted_iff [DecidableEq κ] (hk : ∀ i, i < n → t i ≠ .full k) :
    probe t n h k n 0 = .exhausted ↔ ∀ i, i < n → t i ≠ .empty := by
  have hx := probe_explains t n h k n 0
  constructor
  · intro hp i hi
    rw [hp] at hx
    obtain ⟨d, hd, rfl⟩ := exists_dist hi h
    exact (hx d (Nat.zero_le _) (by omega)).1
  · intro hne
    cases hp : probe t n h k n 0 with
    | hit d => exact absurd (hit_holds hp).2 (hk _ (cellAt_lt (by have := (hit_holds hp).1; omega)))
    | vacant d =>
      rw [hp] at hx
      obtain ⟨-, hd, hempty, -⟩ := hx
      exact absurd hempty (hne _ (cellAt_lt (by omega)))
    | exhausted => rfl

theorem Chained.erase (ht : Chained n home t) (i : Nat) :
    Chained n home (Function.update t i .tombstone) where
  unique a b k' ha hb hak hbk := by
    by_cases hai : a = i
    · subst hai; rw [Function.update_self] at hak; cases hak
    by_cases hbi : b = i
    · subst hbi; rw [Function.update_self] at hbk; cases hbk
    rw [Function.update_of_ne hai] at hak
    rw [Function.update_of_ne hbi] at hbk
    exact ht.unique a b k' ha hb hak hbk
  reach k' d hd hk' e he := by
    by_cases hei : cellAt n (home k') e = i
    · subst hei; rw [Function.update_self]; exact nofun
    by_cases hdi : cellAt n (home k') d = i
    · subst hdi; rw [Function.update_self] at hk'; cases hk'
    rw [Function.update_of_ne hdi] at hk'
    rw [Function.update_of_ne hei]
    exact ht.reach k' d hd hk' e he

/-- A new key may be stored in any cell its probe reaches. -/
theorem Chained.fill (ht : Chained n home t) (hk : ∀ i, i < n → t i ≠ .full k)
    (hd : d < n)
    (hpass : ∀ e, e < d → t (cellAt n (home k) e) ≠ .empty) :
    Chained n home (Function.update t (cellAt n (home k) d) (.full k)) where
  unique a b k' ha hb hak hbk := by
    by_cases hai : a = cellAt n (home k) d <;> by_cases hbi : b = cellAt n (home k) d
    · rw [hai, hbi]
    · rw [hai, Function.update_self] at hak
      rw [Function.update_of_ne hbi, ← Cell.full.inj hak] at hbk
      exact absurd hbk (hk b hb)
    · rw [hbi, Function.update_self] at hbk
      rw [Function.update_of_ne hai, ← Cell.full.inj hbk] at hak
      exact absurd hak (hk a ha)
    · rw [Function.update_of_ne hai] at hak
      rw [Function.update_of_ne hbi] at hbk
      exact ht.unique a b k' ha hb hak hbk
  reach k' c hc hk' e he := by
    by_cases hei : cellAt n (home k') e = cellAt n (home k) d
    · rw [hei, Function.update_self]; exact nofun
    rw [Function.update_of_ne hei]
    by_cases hci : cellAt n (home k') c = cellAt n (home k) d
    · rw [hci, Function.update_self] at hk'
      cases hk'
      have hcd := cellAt_inj hc hd hci
      exact hpass e (by omega)
    · rw [Function.update_of_ne hci] at hk'
      exact ht.reach k' c hc hk' e he

def Cell.isFull : Cell κ → Bool
  | .full _ => true
  | _ => false

@[simp] theorem Cell.isFull_full : (Cell.full k).isFull = true := rfl

@[simp] theorem Cell.isFull_tombstone : (Cell.tombstone : Cell κ).isFull = false := rfl

theorem Cell.isFull_iff {c : Cell κ} : c.isFull = true ↔ ∃ k, c = .full k := by
  cases c with
  | empty => simp only [isFull, Bool.false_eq_true, reduceCtorEq, exists_false]
  | tombstone => simp only [isFull, Bool.false_eq_true, reduceCtorEq, exists_false]
  | full k => simp only [isFull, full.injEq, exists_eq']

def occupied (n : Nat) (t : Nat → Cell κ) : Nat :=
  ((Finset.range n).filter fun i => (t i).isFull = true).card

theorem occupied_le : occupied n t ≤ n := by
  have h := Finset.card_filter_le (Finset.range n) fun i => (t i).isFull = true
  rwa [Finset.card_range] at h

theorem occupied_nothing (ht : ∀ i, i < n → t i = .empty) : occupied n t = 0 := by
  rw [occupied, Finset.card_eq_zero, Finset.filter_eq_empty_iff]
  intro i hi
  rw [ht i (Finset.mem_range.1 hi)]
  exact nofun

theorem occupied_fill (hi : i < n) (hcell : (t i).isFull = false) :
    occupied n (Function.update t i (.full k)) = occupied n t + 1 := by
  have hset : (Finset.range n).filter (fun j => (Function.update t i (.full k) j).isFull = true) =
      insert i ((Finset.range n).filter fun j => (t j).isFull = true) := by
    ext j
    by_cases hj : j = i
    · subst hj
      simp only [Finset.mem_filter, Finset.mem_range, Function.update_self, Finset.mem_insert,
        hi, true_and, true_or, Cell.isFull_full]
    · simp [hj]
  rw [occupied, hset, Finset.card_insert_of_notMem (by simp [hcell]), occupied]

theorem occupied_erase (hi : i < n) (hcell : (t i).isFull = true) :
    occupied n (Function.update t i .tombstone) + 1 = occupied n t := by
  have hset : (Finset.range n).filter (fun j => (Function.update t i .tombstone j).isFull = true) =
      ((Finset.range n).filter fun j => (t j).isFull = true).erase i := by
    ext j
    by_cases hj : j = i
    · subst hj
      simp only [Finset.mem_filter, Function.update_self, Cell.isFull_tombstone, Finset.mem_erase,
        Bool.false_eq_true, and_false, ne_eq, not_true_eq_false, false_and]
    · simp [hj]
  rw [occupied, hset, Finset.card_erase_add_one (by simp [hi, hcell]), occupied]

/-- A table without room for one more key has no cell that is empty or a tombstone. -/
theorem occupied_eq_iff : occupied n t = n ↔ ∀ i, i < n → (t i).isFull = true := by
  rw [occupied]
  conv => lhs; rhs; rw [← Finset.card_range n]
  rw [Finset.card_filter_eq_iff]
  simp only [Finset.mem_range]

end LinearProbe
