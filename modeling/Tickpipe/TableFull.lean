import Tickpipe.BookMap

set_option autoImplicit true

namespace Tickpipe
namespace BookState

variable {k : Nat} {b : BookState k}

def AllOccupied (b : BookState k) : Prop := ∀ i : Fin (2 ^ k), b.state.get i = .occupied

instance (b : BookState k) : Decidable b.AllOccupied :=
  inferInstanceAs (Decidable (∀ i : Fin (2 ^ k), b.state.get i = .occupied))

theorem Valid.live_le (hb : b.Valid) : b.stats.live ≤ b.capacity := by
  rw [hb.live]
  exact LinearProbe.occupied_le

theorem Valid.live_eq_iff (hb : b.Valid) : b.stats.live = b.capacity ↔ b.AllOccupied := by
  rw [hb.live, capacity, LinearProbe.occupied_eq_iff]
  constructor
  · intro hf i
    obtain ⟨ref, hr⟩ := LinearProbe.Cell.isFull_iff.1 (hf i i.isLt)
    exact ((cells_full_iff b i ref).1 hr).1
  · intro ho i hi
    exact LinearProbe.Cell.isFull_iff.2 ⟨_, (cells_full_iff b ⟨i, hi⟩ _).2 ⟨ho ⟨i, hi⟩, rfl⟩⟩

theorem Valid.add_isSome_iff (hb : b.Valid) (ha : msg.action = .add)
    (hl : b.lookup msg.orderRef = none) : (b.resolve msg).1.isSome ↔ b.HasEmpty := by
  have hroom : b.room msg ↔ b.HasEmpty := by
    simp only [room, OrderMap.hasRoom, ha, hl, Option.isSome_none, Bool.or_false, decide_eq_true_eq]
  rw [hb.resolve_emit, OrderMap.emit, ha, ← hroom]
  dsimp only
  split
  · next h => simp only [Option.isSome_some, h]
  · next h => simp only [Option.isSome_none, h, Bool.false_eq_true]

/-- The two operations of a replace that found room. -/
def ReplacedBoth (msg : Order) (out : Option (List ResolvedOp)) : Prop :=
  ∃ del add, out = some [del, add] ∧ del.action = .delete ∧ del.orderRef = msg.orderRef ∧
    add.action = .add ∧ add.orderRef = msg.newOrderRef

theorem Valid.replace_both_iff (hb : b.Valid) (ha : msg.action = .replace)
    (hl : b.lookup msg.orderRef ≠ none) :
    ReplacedBoth msg (b.resolve msg).1 ↔
      b.HasEmpty ∨ (msg.newOrderRef ≠ msg.orderRef ∧ b.lookup msg.newOrderRef ≠ none) := by
  obtain ⟨ro, hro⟩ := Option.ne_none_iff_exists'.1 hl
  obtain ⟨-, -, -, href⟩ := (hb.lookup_iff msg.orderRef ro).1 hro
  have hnew : OrderMap.remove b.lookup msg.orderRef msg.newOrderRef ≠ none ↔
      msg.newOrderRef ≠ msg.orderRef ∧ b.lookup msg.newOrderRef ≠ none := by
    rw [OrderMap.remove]
    by_cases hn : msg.newOrderRef = msg.orderRef
    · simp only [hn, Function.update_self, ne_eq, not_true_eq_false, false_and]
    · simp only [Function.update_of_ne hn, ne_eq, hn, not_false_eq_true, true_and]
  have hroom : b.room msg ↔
      b.HasEmpty ∨ (msg.newOrderRef ≠ msg.orderRef ∧ b.lookup msg.newOrderRef ≠ none) := by
    rw [← hnew]
    simp only [room, OrderMap.hasRoom, ha, hro, Option.isNone_some, Bool.false_or, Bool.or_eq_true,
      decide_eq_true_eq, Option.isSome_iff_ne_none]
  rw [hb.resolve_emit, OrderMap.emit, ha, ← hroom]
  dsimp only
  rw [hro]
  cases b.room msg with
  | false =>
    constructor
    · rintro ⟨del, add, he, -⟩
      cases he
    · intro hn
      cases hn
  | true => exact ⟨fun _ => rfl, fun _ => ⟨_, _, rfl, rfl, href, rfl, rfl⟩⟩

/-- The table refuses an order only when it is full: a new reference is added exactly when there
is a free place, and a replaced order always comes back under its new reference. -/
def ServesMessage (b : BookState k) (msg : Order) : Prop :=
  (msg.action = .add → b.lookup msg.orderRef = none →
    ((b.resolve msg).1.isSome ↔ b.stats.live < b.capacity)) ∧
  (msg.action = .replace → b.lookup msg.orderRef ≠ none → ReplacedBoth msg (b.resolve msg).1)

/-- `insert` bails out at the probe bound without looking at the tombstone it passed, so only an
empty slot counts as room. -/
def SeesRoom (b : BookState k) (msg : Order) : Prop :=
  (msg.action = .add → b.lookup msg.orderRef = none → b.HasEmpty ∨ b.AllOccupied) ∧
  (msg.action = .replace → b.lookup msg.orderRef ≠ none →
    b.HasEmpty ∨ (msg.newOrderRef ≠ msg.orderRef ∧ b.lookup msg.newOrderRef ≠ none))

theorem not_hasEmpty_of_allOccupied (h : b.AllOccupied) : ¬ b.HasEmpty := by
  rintro ⟨i, hi⟩
  rw [h i] at hi
  cases hi

theorem Valid.add_served_iff (hb : b.Valid) (ha : msg.action = .add)
    (hl : b.lookup msg.orderRef = none) :
    ((b.resolve msg).1.isSome ↔ b.stats.live < b.capacity) ↔ b.HasEmpty ∨ b.AllOccupied := by
  have hlt : b.stats.live < b.capacity ↔ ¬ b.AllOccupied := by
    rw [← hb.live_eq_iff, Nat.lt_iff_le_and_ne]
    exact and_iff_right hb.live_le
  rw [hb.add_isSome_iff ha hl, hlt]
  have hne := not_hasEmpty_of_allOccupied (b := b)
  constructor
  · intro h
    by_cases ho : b.AllOccupied
    · exact .inr ho
    · exact .inl (h.2 ho)
  · rintro (he | ho)
    · exact ⟨fun _ ho => hne ho he, fun _ => he⟩
    · exact ⟨fun he => absurd he (hne ho), fun hn => absurd ho hn⟩

end BookState

/-- After any calls, a message is served as a table that is full only when full would serve it
if and only if an empty slot is left, or none is needed. -/
theorem table_serves_iff_seesRoom (slots : Vector RestingOrder (2 ^ k)) (calls : List BookCall)
    (msg : Order) :
    (BookCall.run slots calls).1.ServesMessage msg ↔ (BookCall.run slots calls).1.SeesRoom msg := by
  obtain ⟨hv, -⟩ := BookCall.run_tracks slots calls
  apply and_congr
  · constructor
    · exact fun h ha hl => (hv.add_served_iff ha hl).1 (h ha hl)
    · exact fun h ha hl => (hv.add_served_iff ha hl).2 (h ha hl)
  · constructor
    · exact fun h ha hl => (hv.replace_both_iff ha hl).1 (h ha hl)
    · exact fun h ha hl => (hv.replace_both_iff ha hl).2 (h ha hl)

/-- Two slots, both used and erased: nothing is live, yet a new order is refused. In a full table
a replace loses its order, although removing the old one freed a place. -/
theorem tombstones_refuse_order :
    let add (ref : UInt64) : Order :=
      { orderRef := ref, quantity := 100, price := 10000, side := .buy, action := .add }
    let delete (ref : UInt64) : Order := { orderRef := ref, action := .delete }
    let replace (ref new : UInt64) : Order :=
      { orderRef := ref, newOrderRef := new, quantity := 100, price := 10000, action := .replace }
    let table (msgs : List Order) : BookState 1 :=
      (BookCall.run (Vector.replicate 2 {}) (msgs.map .resolve)).1
    ¬ (table [add 1, add 2, delete 1, delete 2]).ServesMessage (add 3) ∧
      ¬ (table [add 1, add 2]).ServesMessage (replace 1 3) := by
  intro add delete replace table
  constructor
  · intro h
    have hadd := h.1 rfl (by decide)
    revert hadd
    decide
  · intro h
    obtain ⟨del, new, he, -⟩ := h.2 rfl (by decide)
    have hlen : ((table [add 1, add 2]).resolve (replace 1 3)).1.map List.length = some 2 := by
      rw [he]
      rfl
    revert hlen
    decide

end Tickpipe
