import Tickpipe.Exchange
import Tickpipe.Ladder
import Mathlib.Algebra.Ring.Nat

set_option autoImplicit true

namespace Tickpipe

open Priority (best amend queueAt Indexes)

namespace Ladder

variable {lt : UInt32 → UInt32 → Prop} {book : Ladder lt} {l : List Resting}

/-- A side of the book holds the resting orders of a side of the exchange. -/
abbrev Queues (book : Ladder lt) (l : List Resting) : Prop :=
  Indexes Resting.price Resting.entry book l

theorem Queues.queue_eq (h : book.Queues l) (price : UInt32) :
    book.queue price = queueAt Resting.price Resting.entry l price := by
  rw [queue, h price]
  split
  · next hnil => exact hnil.symm
  · rfl

theorem Queues.tight (h : book.Queues l) : book.Tight := by
  intro price hnil
  rw [h price] at hnil
  split at hnil
  · cases hnil
  · next hne => exact hne (Option.some.inj hnil)

variable [DecidableRel lt] [IsStrictTotalOrder UInt32 lt]

theorem Queues.settle (h : book.Queues l)
    (hself : queueAt Resting.price Resting.entry l' price = q)
    (hne : ∀ p, p ≠ price → queueAt Resting.price Resting.entry l' p =
      queueAt Resting.price Resting.entry l p) : (book.settle price q).Queues l' := by
  intro p
  have htight := h.tight.settle price q
  rw [htight.get?_eq]
  by_cases hp : p = price
  · subst hp
    rw [queue_settle_self, hself]
  · rw [queue_settle_ne book hp, h.queue_eq, hne p hp]

theorem Queues.pushBack (h : book.Queues l) (r : Resting) :
    (book.pushBack r.price r.entry).Queues (l ++ [r]) := by
  rw [pushBack_eq_settle, h.queue_eq]
  apply h.settle
  · rw [Priority.queueAt_append, queueAt, queueAt, Priority.filter_key_pos rfl]
    rfl
  · intro p hp
    rw [Priority.queueAt_append, queueAt, queueAt, Priority.filter_key_neg (Ne.symm hp)]
    exact List.append_nil _

/-- The head of the first level is the order that trades first, and hitting it fills that order. -/
theorem Queues.hitHead (h : book.Queues l) (hl : l.Pairwise (·.arrival < ·.arrival))
    (hb : Priority.best lt Resting.price l = some r) (quantity : UInt32) :
    ∃ q, book.first? = some (r.price, r.entry :: q) ∧
      Queues (SoftwareEngine.hitHead book r.price r.order.orderRef r.left quantity q)
        (amend Resting.arrival r.arrival (Resting.take quantity) l) := by
  obtain ⟨rest, hr⟩ := Priority.head_of_best hb
  have hprice (a b : Resting) (ht : Resting.take quantity a = some b) : b.price = a.price :=
    congrArg Order.price (Resting.take_order ht).1
  refine ⟨rest.map Resting.entry, ?_, ?_⟩
  · rw [h.first?, hb, Option.map_some, queueAt, hr, List.map_cons]
  · apply h.settle
    · rw [Priority.queueAt_amend_self hprice hl hr, List.map_append, Resting.take, shrunk]
      split
      · rfl
      · rfl
    · intro p hp
      exact Priority.queueAt_amend_ne hprice hl (Priority.mem_of_best hb) hp

theorem Queues.first?_eq_none (h : book.Queues l) (hb : Priority.best lt Resting.price l = none) :
    book.first? = none := by
  rw [h.first?, hb]
  rfl

end Ladder

namespace SoftwareEngine

/-- The books of the engine hold the resting orders of the exchange. -/
structure Implements (e : SoftwareEngine) (x : Exchange) : Prop where
  bids : e.bids.Queues x.buys
  asks : e.asks.Queues x.sells

def bestOpposite (e : SoftwareEngine) (order : Order) : Option (UInt32 × Level) :=
  if order.side = .buy then e.asks.first? else e.bids.first?

variable {e : SoftwareEngine} {x : Exchange}

theorem Implements.submit (h : e.Implements x) (hx : x.Sound history) (order : Order) :
    (e.submit order).1 = (x.submit order).1 ∧
      (e.submit order).2.Implements (x.submit order).2 := by
  rw [Exchange.submit, Exchange.serve, Exchange.first?]
  by_cases hs : order.side = .buy
  · rw [if_pos hs]
    cases hb : best (· < ·) Resting.price x.sells with
    | none =>
      have hf := h.asks.first?_eq_none hb
      rw [submit_buy_rest hs]
      · refine ⟨rfl, ?_, ?_⟩
        · rw [Exchange.rest, if_pos hs]
          exact h.bids.pushBack (x.arriving order)
        · rw [Exchange.rest, if_pos hs]
          exact h.asks
      · intro price q he
        rw [hf] at he
        cases he
    | some r =>
      obtain ⟨q, hf, hfill⟩ := h.asks.hitHead hx.sells.sorted hb order.quantity
      dsimp only
      have hacc := @Exchange.acceptable_buy r.price _ hs
      by_cases hp : r.price ≤ order.price
      · rw [submit_buy_hit hs hf hp, if_pos (hacc.2 hp), Exchange.trade, if_pos hs, Exchange.fill,
          if_pos hs]
        exact ⟨rfl, h.bids, hfill⟩
      · rw [if_neg (mt hacc.1 hp), submit_buy_rest hs, Exchange.rest, if_pos hs]
        · exact ⟨rfl, h.bids.pushBack (x.arriving order), h.asks⟩
        · intro price q' he
          rw [hf] at he
          rw [← (Prod.mk.inj (Option.some.inj he)).1]
          exact hp
  · rw [if_neg hs]
    cases hb : best (· > ·) Resting.price x.buys with
    | none =>
      have hf := h.bids.first?_eq_none hb
      rw [submit_sell_rest hs]
      · refine ⟨rfl, ?_, ?_⟩
        · rw [Exchange.rest, if_neg hs]
          exact h.bids
        · rw [Exchange.rest, if_neg hs]
          exact h.asks.pushBack (x.arriving order)
      · intro price q he
        rw [hf] at he
        cases he
    | some r =>
      obtain ⟨q, hf, hfill⟩ := h.bids.hitHead hx.buys.sorted hb order.quantity
      dsimp only
      have hacc := @Exchange.acceptable_sell r.price _ hs
      by_cases hp : r.price ≥ order.price
      · rw [submit_sell_hit hs hf hp, if_pos (hacc.2 hp), Exchange.trade, if_neg hs, Exchange.fill,
          if_neg hs]
        exact ⟨rfl, hfill, h.asks⟩
      · rw [if_neg (mt hacc.1 hp), submit_sell_rest hs, Exchange.rest, if_neg hs]
        · exact ⟨rfl, h.bids, h.asks.pushBack (x.arriving order)⟩
        · intro price q' he
          rw [hf] at he
          rw [← (Prod.mk.inj (Option.some.inj he)).1]
          exact hp

theorem Implements.run (h : e.Implements x) (hx : x.Sound history) (orders : List Order) :
    Mealy.outputs SoftwareEngine.submit e orders = Mealy.outputs Exchange.submit x orders ∧
      (Mealy.after SoftwareEngine.submit e orders).Implements
        (Mealy.after Exchange.submit x orders) := by
  induction orders generalizing e x history with
  | nil => exact ⟨rfl, h⟩
  | cons order orders ih =>
    obtain ⟨hout, hnext⟩ := h.submit hx order
    obtain ⟨houts, hlast⟩ := ih hnext (hx.submit order)
    refine ⟨?_, hlast⟩
    rw [Mealy.outputs, Mealy.outputs, hout, houts]

theorem Implements.start : Implements {} {} where
  bids := Priority.indexes_empty
  asks := Priority.indexes_empty

theorem Implements.bestOpposite (h : e.Implements x) (order : Order) :
    e.bestOpposite order = (x.first? order).map fun r =>
      (r.price, queueAt Resting.price Resting.entry (x.opposing order) r.price) := by
  rw [SoftwareEngine.bestOpposite, Exchange.first?, Exchange.opposing]
  by_cases hs : order.side = .buy
  · rw [if_pos hs, if_pos hs, if_pos hs]
    exact Indexes.first? h.asks
  · rw [if_neg hs, if_neg hs, if_neg hs]
    exact Indexes.first? h.bids

/-- The best bid is below the best ask. -/
theorem Implements.uncrossed (h : e.Implements x) (hx : x.Sound history)
    (hbid : e.bids.first? = some (bid, q)) (hask : e.asks.first? = some (ask, q')) :
    bid < ask := by
  have hb := (e.bids.first?_eq_some_iff.1 hbid).1
  have ha := (e.asks.first?_eq_some_iff.1 hask).1
  obtain ⟨-, b, hmb, rfl⟩ := h.bids.exists_of_get? hb
  obtain ⟨-, s, hms, rfl⟩ := h.asks.exists_of_get? ha
  exact hx.uncrossed b hmb s hms

theorem submit_counts (e : SoftwareEngine) (order : Order) :
    (e.submit order).2.matchesMade =
      e.matchesMade + (if (e.submit order).1.matched then 1 else 0) ∧
    (e.submit order).2.sharesTraded = e.sharesTraded + UInt64.ofNat
      (if (e.submit order).1.matched then (e.submit order).1.quantity.toNat else 0) := by
  have hzero : e.sharesTraded = e.sharesTraded + UInt64.ofNat 0 := (UInt64.add_zero _).symm
  have hquantity (n : UInt32) : n.toUInt64 = UInt64.ofNat n.toNat := by
    rw [← UInt32.toNat_toUInt64, UInt64.ofNat_toNat]
  rw [submit, tryMatchBuy, tryMatchSell]
  dsimp only
  split
  · split
    · split
      · exact ⟨rfl, congrArg (e.sharesTraded + ·) (hquantity _)⟩
      · exact ⟨rfl, hzero⟩
    · exact ⟨rfl, hzero⟩
  · split
    · split
      · exact ⟨rfl, congrArg (e.sharesTraded + ·) (hquantity _)⟩
      · exact ⟨rfl, hzero⟩
    · exact ⟨rfl, hzero⟩

def sharesMatched (results : List MatchResult) : Nat :=
  (results.map fun r => if r.matched then r.quantity.toNat else 0).sum

theorem sharesTraded_run (e : SoftwareEngine) (orders : List Order) :
    (Mealy.after submit e orders).sharesTraded =
      e.sharesTraded + UInt64.ofNat (sharesMatched (Mealy.outputs submit e orders)) := by
  induction orders generalizing e with
  | nil => exact (UInt64.add_zero _).symm
  | cons order orders ih =>
    rw [Mealy.after, ih, (e.submit_counts order).2, UInt64.add_assoc, ← UInt64.ofNat_add]
    rfl

theorem matchesMade_run (e : SoftwareEngine) (orders : List Order) :
    (Mealy.after submit e orders).matchesMade =
      e.matchesMade + (Mealy.outputs submit e orders).countP (·.matched) := by
  induction orders generalizing e with
  | nil => rfl
  | cons order orders ih =>
    rw [Mealy.after, ih, (e.submit_counts order).1, Mealy.outputs, List.countP_cons]
    omega

end SoftwareEngine

namespace Exchange

/-- The resting order is the earliest still resting at its price opposite an incoming one. -/
structure Earliest (x : Exchange) (history : List Order) (order : Order) (r : Resting) : Prop where
  resting : r ∈ x.opposing order
  submitted : history[r.arrival]? = some r.order
  left_le : r.left ≤ r.order.quantity
  earliest : ∀ s ∈ x.opposing order, s.price = r.price → r.arrival ≤ s.arrival

theorem Sound.earliest {x : Exchange} (hx : x.Sound history) (hf : x.first? order = some r) :
    x.Earliest history order r := by
  have hside {lt : UInt32 → UInt32 → Prop} [DecidableRel lt] [IsStrictTotalOrder UInt32 lt]
      (l : List Resting) (hl : Filed history l) (hb : best lt Resting.price l = some r) :
      r ∈ l ∧ ∀ s ∈ l, s.price = r.price → r.arrival ≤ s.arrival := by
    obtain ⟨rest, hr⟩ := Priority.head_of_best hb
    refine ⟨Priority.mem_of_best hb, ?_⟩
    intro s hs hp
    have hmem : s ∈ l.filter (Resting.price · = r.price) :=
      List.mem_filter.2 ⟨hs, decide_eq_true hp⟩
    have hsorted := hl.sorted.filter (Resting.price · = r.price)
    rw [hr] at hmem hsorted
    rcases List.mem_cons.1 hmem with rfl | hmem
    · exact Nat.le_refl _
    · exact Nat.le_of_lt ((List.pairwise_cons.1 hsorted).1 s hmem)
  rw [first?] at hf
  by_cases hs : order.side = .buy
  · rw [if_pos hs] at hf
    obtain ⟨hmem, hfirst⟩ := hside x.sells hx.sells hf
    obtain ⟨ho, hle⟩ := hx.sells.placed r hmem
    exact ⟨by rwa [opposing, if_pos hs], ho, hle, by rwa [opposing, if_pos hs]⟩
  · rw [if_neg hs] at hf
    obtain ⟨hmem, hfirst⟩ := hside x.buys hx.buys hf
    obtain ⟨ho, hle⟩ := hx.buys.placed r hmem
    exact ⟨by rwa [opposing, if_neg hs], ho, hle, by rwa [opposing, if_neg hs]⟩

theorem trade_matched (order : Order) (r : Resting) : (trade order r).matched = true := by
  rw [trade]
  split
  · rfl
  · rfl

theorem submit_matched_iff (x : Exchange) (order : Order) :
    (x.submit order).1.matched = true ↔
      ∃ r, x.first? order = some r ∧ Acceptable order r.price := by
  rw [submit, serve]
  cases hf : x.first? order with
  | none =>
    constructor
    · intro h
      cases h
    · rintro ⟨r, hr, -⟩
      cases hr
  | some r =>
    dsimp only
    by_cases ha : Acceptable order r.price
    · rw [if_pos ha]
      exact ⟨fun _ => ⟨r, rfl, ha⟩, fun _ => trade_matched order r⟩
    · rw [if_neg ha]
      constructor
      · intro h
        cases h
      · rintro ⟨s, hs, hacc⟩
        cases hs
        exact absurd hacc ha

theorem submit_of_acceptable {x : Exchange} (hf : x.first? order = some r)
    (ha : Acceptable order r.price) : (x.submit order).1 = trade order r := by
  rw [submit, serve, hf]
  dsimp only
  rw [if_pos ha]

end Exchange

/-- After any submissions: no level is empty and the book is not crossed; an order matches exactly
when the best opposite price suits it, and then against the earliest order still resting there;
the two counters add up in 64 bits. -/
theorem price_time_priority (orders : List Order) :
    let e := Mealy.after SoftwareEngine.submit {} orders
    let x := Mealy.after Exchange.submit {} orders
    let results := Mealy.outputs SoftwareEngine.submit {} orders
    e.bids.Tight ∧ e.asks.Tight ∧
    (∀ bid q ask q', e.bids.first? = some (bid, q) → e.asks.first? = some (ask, q') → bid < ask) ∧
    results = Mealy.outputs Exchange.submit {} orders ∧ e.Implements x ∧
    (∀ order, (e.submit order).1.matched = true ↔
      ∃ price q, e.bestOpposite order = some (price, q) ∧ Exchange.Acceptable order price) ∧
    (∀ order, (e.submit order).1.matched = true → ∃ r q, x.Earliest orders order r ∧
      e.bestOpposite order = some (r.price, q) ∧ (e.submit order).1 = Exchange.trade order r) ∧
    e.sharesTraded = UInt64.ofNat (SoftwareEngine.sharesMatched results) ∧
    UInt64.ofNat e.matchesMade = UInt64.ofNat (results.countP (·.matched)) := by
  intro e x results
  have hx : x.Sound orders := Exchange.Sound.start.run orders
  obtain ⟨houts, he⟩ := SoftwareEngine.Implements.start.run Exchange.Sound.start orders
  have hout (order : Order) : (e.submit order).1 = (x.submit order).1 := (he.submit hx order).1
  refine ⟨he.bids.tight, he.asks.tight, fun _ _ _ _ hb ha => he.uncrossed hx hb ha, houts, he,
    ?_, ?_, ?_, ?_⟩
  · intro order
    rw [hout, x.submit_matched_iff, he.bestOpposite]
    constructor
    · rintro ⟨r, hf, ha⟩
      rw [hf]
      exact ⟨r.price, _, rfl, ha⟩
    · rintro ⟨price, q, hbest, ha⟩
      obtain ⟨r, hf, hr⟩ := Option.map_eq_some_iff.1 hbest
      rw [← (Prod.mk.inj hr).1] at ha
      exact ⟨r, hf, ha⟩
  · intro order hm
    rw [hout] at hm ⊢
    obtain ⟨r, hf, ha⟩ := (x.submit_matched_iff order).1 hm
    have hbest := he.bestOpposite order
    rw [hf] at hbest
    exact ⟨r, _, hx.earliest hf, hbest, Exchange.submit_of_acceptable hf ha⟩
  · exact (SoftwareEngine.sharesTraded_run {} orders).trans (UInt64.zero_add _)
  · exact congrArg UInt64.ofNat ((SoftwareEngine.matchesMade_run {} orders).trans (Nat.zero_add _))

/-- A sell and a buy of as many shares as an order can have. -/
def largestTrade : List Order :=
  [{ orderRef := 1, side := .sell, quantity := 4294967295, price := 1, valid := 1 },
   { orderRef := 2, side := .buy, quantity := 4294967295, price := 1, valid := 1 }]

theorem sharesMatched_largestTrades (n : Nat) (e : SoftwareEngine)
    (hb : e.bids = OrdMap.empty) (ha : e.asks = OrdMap.empty) :
    SoftwareEngine.sharesMatched (Mealy.outputs SoftwareEngine.submit e
      (List.replicate n largestTrade).flatten) = n * 4294967295 := by
  induction n generalizing e with
  | zero => rw [Nat.zero_mul]; rfl
  | succ n ih =>
    obtain ⟨bids, asks, processed, made, traded, orphans, last⟩ := e
    dsimp only at hb ha
    subst hb ha
    rw [List.replicate_succ, List.flatten_cons, Nat.succ_mul, Nat.add_comm]
    have hrest := ih (Mealy.after SoftwareEngine.submit
      ⟨OrdMap.empty, OrdMap.empty, processed, made, traded, orphans, last⟩ largestTrade) rfl rfl
    rw [← hrest]
    exact Nat.zero_add (4294967295 + _)

/-- More than `2 ^ 64` shares in `2 ^ 32 + 2` trades are not what the 64-bit counter shows. -/
theorem sharesTraded_wraps :
    let orders := (List.replicate (2 ^ 32 + 2) largestTrade).flatten
    (Mealy.after SoftwareEngine.submit {} orders).sharesTraded.toNat ≠
      SoftwareEngine.sharesMatched (Mealy.outputs SoftwareEngine.submit {} orders) := by
  intro orders
  have hsum : SoftwareEngine.sharesMatched (Mealy.outputs SoftwareEngine.submit {} orders) =
      (2 ^ 32 + 2) * 4294967295 := sharesMatched_largestTrades (2 ^ 32 + 2) {} rfl rfl
  have hlt := (Mealy.after SoftwareEngine.submit {} orders).sharesTraded.toNat_lt
  rw [hsum]
  omega

end Tickpipe
