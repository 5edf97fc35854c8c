import Tickpipe.SoftwareEngine

set_option autoImplicit true

namespace Tickpipe

def Level.shares (q : Level) : Nat := (q.map (·.2.toNat)).sum

theorem Level.alter_eq_none_iff {f : UInt32 → Option UInt32} (q : Level) :
    Level.alter f ref q = none ↔ ref ∉ q.map Prod.fst := by
  induction q with
  | nil => simp only [alter, List.map_nil, List.not_mem_nil, not_false_eq_true]
  | cons e q ih =>
    obtain ⟨r, n⟩ := e
    rw [alter, List.map_cons, List.mem_cons, not_or]
    by_cases hr : r = ref
    · rw [if_pos hr]
      constructor
      · intro h
        split at h <;> cases h
      · exact fun h => absurd hr.symm h.1
    · rw [if_neg hr, Option.map_eq_none_iff, ih]
      exact ⟨fun h => ⟨fun he => hr he.symm, h⟩, fun h => h.2⟩

namespace Ladder

variable {lt : UInt32 → UInt32 → Prop} {book : Ladder lt}

def Tight (book : Ladder lt) : Prop := ∀ price, book.get? price ≠ some []

theorem Tight.get?_eq (h : book.Tight) (price : UInt32) :
    book.get? price = if book.queue price = [] then none else some (book.queue price) := by
  rw [queue]
  cases hg : book.get? price with
  | none => rfl
  | some q =>
    rw [Option.getD_some, if_neg]
    rintro rfl
    exact h price hg

variable [DecidableRel lt] [IsStrictTotalOrder UInt32 lt]

@[simp] theorem queue_pushBack_self (book : Ladder lt) (price : UInt32) (e : UInt64 × UInt32) :
    (book.pushBack price e).queue price = book.queue price ++ [e] := by
  rw [pushBack, queue, OrdMap.get?_insert_self, Option.getD_some]

theorem queue_pushBack_ne (book : Ladder lt) (h : p ≠ price) (e : UInt64 × UInt32) :
    (book.pushBack price e).queue p = book.queue p := by
  rw [pushBack, queue, OrdMap.get?_insert_ne _ h, queue]

theorem Tight.pushBack (h : book.Tight) (price : UInt32) (e : UInt64 × UInt32) :
    (book.pushBack price e).Tight := by
  intro p
  rw [Ladder.pushBack]
  by_cases hp : p = price
  · subst hp
    rw [OrdMap.get?_insert_self]
    intro he
    exact List.append_ne_nil_of_right_ne_nil _ (List.cons_ne_nil _ _) (Option.some.inj he)
  · rw [OrdMap.get?_insert_ne _ hp]
    exact h p

@[simp] theorem queue_settle_self (book : Ladder lt) (price : UInt32) (q : Level) :
    (book.settle price q).queue price = q := by
  rw [settle]
  split
  · next hq => rw [queue, OrdMap.get?_erase_self, hq, Option.getD_none]
  · rw [queue, OrdMap.get?_insert_self, Option.getD_some]

theorem queue_settle_ne (book : Ladder lt) (h : p ≠ price) (q : Level) :
    (book.settle price q).queue p = book.queue p := by
  rw [settle]
  split
  · rw [queue, OrdMap.get?_erase_ne _ h, queue]
  · rw [queue, OrdMap.get?_insert_ne _ h, queue]

theorem Tight.settle (h : book.Tight) (price : UInt32) (q : Level) :
    (book.settle price q).Tight := by
  intro p
  rw [Ladder.settle]
  by_cases hp : p = price
  · subst hp
    split
    · rw [OrdMap.get?_erase_self]
      intro hn
      cases hn
    · next hq =>
      rw [OrdMap.get?_insert_self]
      exact fun he => hq (Option.some.inj he)
  · split
    · rw [OrdMap.get?_erase_ne _ hp]
      exact h p
    · rw [OrdMap.get?_insert_ne _ hp]
      exact h p

theorem alterAt_eq (f : UInt32 → Option UInt32) (book : Ladder lt) (price : UInt32)
    (ref : UInt64) : book.alterAt f price ref =
      (Level.alter f ref (book.queue price)).map (book.settle price) := by
  rw [alterAt, queue]
  cases book.get? price <;> rfl

theorem pushBack_eq_settle (book : Ladder lt) (price : UInt32) (e : UInt64 × UInt32) :
    book.pushBack price e = book.settle price (book.queue price ++ [e]) :=
  (if_neg (List.append_ne_nil_of_right_ne_nil _ (List.cons_ne_nil _ _))).symm

/-- What a scan of all levels finds. -/
theorem scanEntries_spec (f : UInt32 → Option UInt32) (ref : UInt64)
    (l : List (UInt32 × Level)) :
    match scanEntries f ref l with
    | some (price, q') => ∃ q, (price, q) ∈ l ∧ Level.alter f ref q = some q'
    | none => ∀ e ∈ l, Level.alter f ref e.2 = none := by
  induction l with
  | nil => exact nofun
  | cons e l ih =>
    obtain ⟨price, q⟩ := e
    rw [scanEntries]
    cases ha : Level.alter f ref q with
    | some q' => exact ⟨q, List.mem_cons_self, ha⟩
    | none =>
      dsimp only
      cases hs : scanEntries f ref l with
      | some r =>
        rw [hs] at ih
        obtain ⟨q, hq, hr⟩ := ih
        exact ⟨q, List.mem_cons_of_mem _ hq, hr⟩
      | none =>
        rw [hs] at ih
        exact List.forall_mem_cons.2 ⟨ha, ih⟩

/-- A reference queued at one price only is found there by a scan. -/
theorem scan_of_mem (f : UInt32 → Option UInt32) (hm : ref ∈ (book.queue price).map Prod.fst)
    (hu : ∀ p, p ≠ price → ref ∉ (book.queue p).map Prod.fst) :
    book.scan f ref = (Level.alter f ref (book.queue price)).map (book.settle price) := by
  have hspec := scanEntries_spec f ref book.entries
  rw [scan]
  cases hs : scanEntries f ref book.entries with
  | some r =>
    obtain ⟨p, q'⟩ := r
    rw [hs] at hspec
    obtain ⟨q, hq, ha⟩ := hspec
    have hqueue : book.queue p = q := by
      rw [queue, (book.mem_entries_iff).1 hq, Option.getD_some]
    by_cases hp : p = price
    · subst hp
      rw [hqueue, ha]
      rfl
    · have hnone := (Level.alter_eq_none_iff (f := f) _).2 (hu p hp)
      rw [hqueue, ha] at hnone
      cases hnone
  | none =>
    rw [hs] at hspec
    rw [queue] at hm ⊢
    cases hg : book.get? price with
    | none => rw [hg] at hm; cases hm
    | some q =>
      have hq := hspec _ ((book.mem_entries_iff).2 hg)
      rw [Option.getD_some, hq]
      rfl

theorem scan_of_not_mem (f : UInt32 → Option UInt32)
    (hn : ∀ p, ref ∉ (book.queue p).map Prod.fst) : book.scan f ref = none := by
  have hspec := scanEntries_spec f ref book.entries
  rw [scan]
  cases hs : scanEntries f ref book.entries with
  | some r =>
    obtain ⟨p, q'⟩ := r
    rw [hs] at hspec
    obtain ⟨q, hq, ha⟩ := hspec
    have hqueue : book.queue p = q := by
      rw [queue, (book.mem_entries_iff).1 hq, Option.getD_some]
    have hnone := (Level.alter_eq_none_iff (f := f) _).2 (hn p)
    rw [hqueue, ha] at hnone
    cases hnone
  | none => rfl

end Ladder

end Tickpipe
