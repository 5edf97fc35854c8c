import Tickpipe.PriceTimePriority
import Tickpipe.Lib.Totals

set_option autoImplicit true

namespace Tickpipe

open Mealy (outputs after total EachStep)

namespace Ladder

variable {lt : UInt32 → UInt32 → Prop}

def shares (book : Ladder lt) : Nat := book.total Level.shares

theorem elim_get? (book : Ladder lt) (price : UInt32) :
    (book.get? price).elim 0 Level.shares = (book.queue price).shares := by
  rw [queue]
  cases book.get? price with
  | none => rfl
  | some q => rfl

variable [DecidableRel lt] [IsStrictTotalOrder UInt32 lt]

/-- Putting a queue back moves the shares of its side by what was changed in it. -/
theorem shares_settle (book : Ladder lt) (price : UInt32) (q : Level) :
    (book.settle price q).shares + (book.queue price).shares = book.shares + q.shares := by
  rw [settle, ← elim_get?]
  split
  · next hq =>
    rw [hq]
    exact OrdMap.total_erase Level.shares book price
  · exact OrdMap.total_insert Level.shares book price q

theorem shares_pushBack (book : Ladder lt) (price : UInt32) (ref : UInt64) (n : UInt32) :
    (book.pushBack price (ref, n)).shares = book.shares + n.toNat := by
  have hsettle := book.shares_settle price (book.queue price ++ [(ref, n)])
  have hqueue : Level.shares (book.queue price ++ [(ref, n)]) =
      (book.queue price).shares + n.toNat := by
    rw [Level.shares, List.map_append, List.sum_append]
    rfl
  rw [pushBack_eq_settle]
  omega

end Ladder

namespace SoftwareEngine

variable {e : SoftwareEngine} {order : Order}

def restingShares (e : SoftwareEngine) : Nat := e.bids.shares + e.asks.shares

/-- What is left of the resting order that an incoming one hits, if it hits one. -/
def hit? (e : SoftwareEngine) (order : Order) : Option UInt32 :=
  if order.side = .buy then
    match e.asks.first? with
    | some (price, (_, n) :: _) => if price ≤ order.price then some n else none
    | _ => none
  else
    match e.bids.first? with
    | some (price, (_, n) :: _) => if price ≥ order.price then some n else none
    | _ => none

/-- The shares of an incoming order that neither match nor rest. -/
def discardedShares (e : SoftwareEngine) (order : Order) : Nat :=
  (e.hit? order).elim 0 fun n => order.quantity.toNat - n.toNat

/-- The incoming order is not larger than the resting one it hits. -/
def MatchesWhole (e : SoftwareEngine) (order : Order) : Prop :=
  ∀ n ∈ e.hit? order, order.quantity ≤ n

instance (e : SoftwareEngine) (order : Order) : Decidable (e.MatchesWhole order) :=
  inferInstanceAs (Decidable (∀ n ∈ e.hit? order, order.quantity ≤ n))

def hitShares (e : SoftwareEngine) (order : Order) : Nat :=
  if (e.hit? order).isSome then order.quantity.toNat else 0

/-- What a hit leaves of the head and takes from it make up the head. -/
theorem shares_hitHead {lt : UInt32 → UInt32 → Prop} [DecidableRel lt]
    [IsStrictTotalOrder UInt32 lt] {book : Ladder lt}
    (hf : book.first? = some (price, (ref, n) :: q))
    (quantity : UInt32) :
    (hitHead book price ref n quantity q).shares + (min quantity n).toNat = book.shares := by
  have hqueue : book.queue price = (ref, n) :: q := by
    rw [Ladder.queue, (book.first?_eq_some_iff.1 hf).1]
    rfl
  have hle : min quantity n ≤ n := by
    rw [UInt32.le_iff_toNat_le, UInt32.toNat_min]
    exact Nat.min_le_right _ _
  have hsub := UInt32.toNat_sub_of_le _ _ hle
  have hle' := UInt32.le_iff_toNat_le.1 hle
  have hsettle := book.shares_settle price
    (if n - min quantity n = 0 then q else (ref, n - min quantity n) :: q)
  have hleft : Level.shares (if n - min quantity n = 0 then q else (ref, n - min quantity n) :: q) =
      (n - min quantity n).toNat + Level.shares q := by
    split
    · next hz => rw [hz, UInt32.toNat_zero, Nat.zero_add]
    · rfl
  have hhead : Level.shares ((ref, n) :: q) = n.toNat + Level.shares q := rfl
  rw [hqueue, hleft, hhead] at hsettle
  rw [hitHead]
  omega

theorem restingShares_bid (e : SoftwareEngine) (price : UInt32) (ref : UInt64) (n : UInt32) :
    restingShares { e.counted with bids := e.bids.pushBack price (ref, n) } =
      e.restingShares + n.toNat := by
  simp only [restingShares, Ladder.shares_pushBack, counted]
  omega

theorem restingShares_ask (e : SoftwareEngine) (price : UInt32) (ref : UInt64) (n : UInt32) :
    restingShares { e.counted with asks := e.asks.pushBack price (ref, n) } =
      e.restingShares + n.toNat := by
  simp only [restingShares, Ladder.shares_pushBack, counted]
  omega

/-- An order rests whole or trades with the one it hits. -/
theorem submit_cases (e : SoftwareEngine) (order : Order) :
    (e.hit? order = none ∧ (e.submit order).1.matched = false ∧
      (e.submit order).2.restingShares = e.restingShares + order.quantity.toNat) ∨
    ∃ n, e.hit? order = some n ∧ (e.submit order).1.matched = true ∧
      (e.submit order).1.quantity = min order.quantity n ∧
      (e.submit order).2.restingShares + (min order.quantity n).toNat = e.restingShares := by
  rw [hit?]
  by_cases hs : order.side = .buy
  · have hrest := e.restingShares_bid order.price order.orderRef order.quantity
    rw [if_pos hs, submit, if_pos hs, tryMatchBuy]
    dsimp only
    cases hf : e.asks.first? with
    | none => exact .inl ⟨rfl, rfl, hrest⟩
    | some head =>
      obtain ⟨price, q⟩ := head
      cases q with
      | nil => exact .inl ⟨rfl, rfl, hrest⟩
      | cons entry q =>
        obtain ⟨ref, n⟩ := entry
        dsimp only
        by_cases hp : price ≤ order.price
        · have hbook := shares_hitHead hf order.quantity
          rw [if_pos hp, if_pos hp]
          refine .inr ⟨n, rfl, rfl, rfl, ?_⟩
          simp only [restingShares, countTrade]
          omega
        · rw [if_neg hp, if_neg hp]
          exact .inl ⟨rfl, rfl, hrest⟩
  · have hrest := e.restingShares_ask order.price order.orderRef order.quantity
    rw [if_neg hs, submit, if_neg hs, tryMatchSell]
    dsimp only
    cases hf : e.bids.first? with
    | none => exact .inl ⟨rfl, rfl, hrest⟩
    | some head =>
      obtain ⟨price, q⟩ := head
      cases q with
      | nil => exact .inl ⟨rfl, rfl, hrest⟩
      | cons entry q =>
        obtain ⟨ref, n⟩ := entry
        dsimp only
        by_cases hp : price ≥ order.price
        · have hbook := shares_hitHead hf order.quantity
          rw [if_pos hp, if_pos hp]
          refine .inr ⟨n, rfl, rfl, rfl, ?_⟩
          simp only [restingShares, countTrade]
          omega
        · rw [if_neg hp, if_neg hp]
          exact .inl ⟨rfl, rfl, hrest⟩

theorem submit_shares (e : SoftwareEngine) (order : Order) :
    (e.submit order).2.restingShares +
        (2 * sharesMatched [(e.submit order).1] + e.discardedShares order) =
      e.restingShares + order.quantity.toNat := by
  rw [sharesMatched, List.map_singleton, List.sum_singleton, discardedShares]
  rcases e.submit_cases order with ⟨hh, hm, hr⟩ | ⟨n, hh, hm, hq, hr⟩
  · rw [hh, hm, hr]
    rfl
  · have hmin : (min order.quantity n).toNat = min order.quantity.toNat n.toNat :=
      UInt32.toNat_min _ _
    rw [hh, hm, hq, Option.elim_some, if_pos rfl]
    omega

theorem discardedShares_eq_zero_iff : e.discardedShares order = 0 ↔ e.MatchesWhole order := by
  rw [discardedShares, MatchesWhole]
  cases e.hit? order with
  | none =>
    constructor
    · intro _ n hn
      cases hn
    · intro _
      rfl
  | some n =>
    rw [Option.elim_some, Nat.sub_eq_zero_iff_le, ← UInt32.le_iff_toNat_le]
    constructor
    · intro h m hm
      cases hm
      exact h
    · intro h
      exact h n rfl

theorem hitShares_eq (h : e.MatchesWhole order) :
    sharesMatched [(e.submit order).1] = e.hitShares order := by
  rw [sharesMatched, List.map_singleton, List.sum_singleton, hitShares]
  rcases e.submit_cases order with ⟨hh, hm, -⟩ | ⟨n, hh, hm, hq, -⟩
  · rw [hh, hm]
    rfl
  · have hle := UInt32.le_iff_toNat_le.1 (h n hh)
    rw [hh, hm, hq, if_pos rfl, UInt32.toNat_min, Nat.min_eq_left hle]
    rfl

theorem sharesMatched_outputs (e : SoftwareEngine) (orders : List Order) :
    sharesMatched (outputs submit e orders) =
      total (fun e order => sharesMatched [(e.submit order).1]) submit e orders := by
  induction orders generalizing e with
  | nil => rfl
  | cons order orders ih =>
    rw [total, ← ih, outputs, sharesMatched, sharesMatched, sharesMatched, List.map_cons,
      List.sum_cons, List.map_singleton, List.sum_singleton]

theorem total_quantity (e : SoftwareEngine) (orders : List Order) :
    total (fun _ order => order.quantity.toNat) submit e orders =
      (orders.map (·.quantity.toNat)).sum := by
  induction orders generalizing e with
  | nil => rfl
  | cons order orders ih => rw [total, ih, List.map_cons, List.sum_cons]

theorem total_hitShares (h : EachStep MatchesWhole submit e orders) :
    total (fun e order => sharesMatched [(e.submit order).1]) submit e orders =
      total hitShares submit e orders := by
  induction orders generalizing e with
  | nil => rfl
  | cons order orders ih => rw [total, total, hitShares_eq h.1, ih h.2]

theorem run_shares (orders : List Order) :
    (after submit {} orders).restingShares +
        (2 * sharesMatched (outputs submit {} orders) + total discardedShares submit {} orders) =
      (orders.map (·.quantity.toNat)).sum := by
  have hbalance := Mealy.total_balance (I := fun _ => True) (m := restingShares)
    (fun _ _ h => h) (fun e order _ => e.submit_shares order) (s := {}) True.intro orders
  have hstart : ({} : SoftwareEngine).restingShares = 0 := rfl
  rw [Mealy.total_add, Mealy.total_mul, ← sharesMatched_outputs, total_quantity, hstart,
    Nat.zero_add] at hbalance
  exact hbalance

end SoftwareEngine

open SoftwareEngine in
/-- The submitted shares are what rests and twice what was traded exactly when no order is larger
than the one it hits and the shares that hit fit in the counter. -/
theorem matching_conserves_iff (orders : List Order) :
    let e := after submit {} orders
    (orders.map (·.quantity.toNat)).sum = e.restingShares + 2 * e.sharesTraded.toNat ↔
      EachStep MatchesWhole submit {} orders ∧ total hitShares submit {} orders < 2 ^ 64 := by
  intro e
  have hrun : e.restingShares + (2 * sharesMatched (outputs submit {} orders) +
      total discardedShares submit {} orders) = (orders.map (·.quantity.toNat)).sum :=
    run_shares orders
  have htraded : e.sharesTraded.toNat = sharesMatched (outputs submit {} orders) % 2 ^ 64 := by
    have hcount := sharesTraded_run {} orders
    rw [UInt64.zero_add] at hcount
    rw [hcount, UInt64.toNat_ofNat']
  have hfits : total discardedShares submit {} orders = 0 ↔
      EachStep MatchesWhole submit {} orders := by
    rw [Mealy.total_eq_zero_iff]
    exact Mealy.eachStep_iff (I := fun _ => True) (fun _ _ h => h)
      (fun e order _ => discardedShares_eq_zero_iff) True.intro orders
  have hle := Nat.mod_le (sharesMatched (outputs submit {} orders)) (2 ^ 64)
  rw [← hrun, htraded]
  constructor
  · intro h
    have hzero : total discardedShares submit {} orders = 0 := by omega
    have hall := hfits.1 hzero
    refine ⟨hall, ?_⟩
    rw [← total_hitShares hall, ← sharesMatched_outputs]
    omega
  · rintro ⟨hall, hlt⟩
    rw [← total_hitShares hall, ← sharesMatched_outputs] at hlt
    rw [hfits.2 hall, Nat.mod_eq_of_lt hlt]
    rfl

/-- A buy of a hundred shares hits an offer of forty; the other sixty are gone. -/
theorem remainder_discarded :
    let sell : Order := { orderRef := 1, quantity := 40, price := 100, side := .sell }
    let buy : Order := { orderRef := 2, quantity := 100, price := 100, side := .buy }
    let orders := [sell, buy]
    let e := after SoftwareEngine.submit {} orders
    e.restingShares = 0 ∧ e.sharesTraded = 40 ∧
      (orders.map (·.quantity.toNat)).sum ≠ e.restingShares + 2 * e.sharesTraded.toNat := by
  decide +kernel

end Tickpipe
