import Tickpipe.Order
import Tickpipe.SoftwareEngine
import Tickpipe.Lib.Priority
import Tickpipe.Lib.Mealy

set_option autoImplicit true

namespace Tickpipe

open Priority (best amend)

/-- An order that rests: when it was submitted, as how many-th, and what is left of it. -/
structure Resting where
  order : Order
  arrival : Nat
  left : UInt32

namespace Resting

def price (r : Resting) : UInt32 := r.order.price

def entry (r : Resting) : UInt64 × UInt32 := (r.order.orderRef, r.left)

/-- Take at most `quantity` shares; an order with none left is gone. -/
def take (quantity : UInt32) (r : Resting) : Option Resting :=
  (shrunk quantity r.left).map fun left => { r with left := left }

theorem take_order (h : take quantity r = some r') :
    r'.order = r.order ∧ r'.arrival = r.arrival := by
  obtain ⟨left, -, rfl⟩ := Option.map_eq_some_iff.1 h
  exact ⟨rfl, rfl⟩

theorem take_le (h : take quantity r = some r') : r'.left ≤ r.left := by
  obtain ⟨left, hl, rfl⟩ := Option.map_eq_some_iff.1 h
  rw [shrunk] at hl
  split at hl
  · cases hl
  · cases hl
    have hmin : (min quantity r.left).toNat ≤ r.left.toNat := by
      rw [UInt32.toNat_min]
      exact Nat.min_le_right _ _
    rw [UInt32.le_iff_toNat_le, UInt32.toNat_sub_of_le _ _ (UInt32.le_iff_toNat_le.2 hmin)]
    exact Nat.sub_le _ _

end Resting

/-- A matcher by price and time: both sides in order of arrival. -/
structure Exchange where
  buys : List Resting := []
  sells : List Resting := []
  arrivals : Nat := 0

namespace Exchange

def opposing (x : Exchange) (order : Order) : List Resting :=
  if order.side = .buy then x.sells else x.buys

/-- The price of a resting order suits the incoming one. -/
def Acceptable (order : Order) (price : UInt32) : Prop :=
  if order.side = .buy then price ≤ order.price else price ≥ order.price

instance (order : Order) (price : UInt32) : Decidable (Acceptable order price) :=
  inferInstanceAs (Decidable
    (if order.side = .buy then price ≤ order.price else price ≥ order.price))

theorem acceptable_buy {order : Order} (hs : order.side = .buy) :
    Acceptable order price ↔ price ≤ order.price := by
  rw [Acceptable, if_pos hs]

theorem acceptable_sell {order : Order} (hs : order.side ≠ .buy) :
    Acceptable order price ↔ price ≥ order.price := by
  rw [Acceptable, if_neg hs]

/-- The opposing order that trades first: best price, then earliest arrival. -/
def first? (x : Exchange) (order : Order) : Option Resting :=
  if order.side = .buy then best (· < ·) Resting.price x.sells
  else best (· > ·) Resting.price x.buys

def arriving (x : Exchange) (order : Order) : Resting := ⟨order, x.arrivals, order.quantity⟩

def trade (order : Order) (r : Resting) : MatchResult :=
  let quantity := min order.quantity r.left
  if order.side = .buy then ⟨order.orderRef, r.order.orderRef, r.price, quantity, true⟩
  else ⟨r.order.orderRef, order.orderRef, r.price, quantity, true⟩

def rest (x : Exchange) (order : Order) : Exchange :=
  if order.side = .buy then { x with buys := x.buys ++ [x.arriving order] }
  else { x with sells := x.sells ++ [x.arriving order] }

def fill (x : Exchange) (order : Order) (i : Nat) : Exchange :=
  if order.side = .buy then
    { x with sells := amend Resting.arrival i (Resting.take order.quantity) x.sells }
  else { x with buys := amend Resting.arrival i (Resting.take order.quantity) x.buys }

/-- An order trades with the first opposing one when its price suits, and rests otherwise. -/
def serve (x : Exchange) (order : Order) : MatchResult × Exchange :=
  match x.first? order with
  | some r => if Acceptable order r.price then (trade order r, x.fill order r.arrival)
      else ({}, x.rest order)
  | none => ({}, x.rest order)

def submit (x : Exchange) (order : Order) : MatchResult × Exchange :=
  let out := x.serve order
  (out.1, { out.2 with arrivals := out.2.arrivals + 1 })

/-- The resting orders of a side come from the history, in order of arrival. -/
structure Filed (history : List Order) (l : List Resting) : Prop where
  sorted : l.Pairwise (·.arrival < ·.arrival)
  placed : ∀ r ∈ l, history[r.arrival]? = some r.order ∧ r.left ≤ r.order.quantity

theorem Filed.before {history : List Order} (h : Filed history l) (hr : r ∈ l) :
    r.arrival < history.length := by
  obtain ⟨ho, -⟩ := h.placed r hr
  exact (List.getElem?_eq_some_iff.1 ho).1

theorem Filed.grow {history : List Order} (h : Filed history l) (order : Order) :
    Filed (history ++ [order]) l where
  sorted := h.sorted
  placed r hr := by
    obtain ⟨ho, hl⟩ := h.placed r hr
    exact ⟨(List.getElem?_append_left (h.before hr)).trans ho, hl⟩

theorem Filed.append {history : List Order} (h : Filed history l) (order : Order) :
    Filed (history ++ [order]) (l ++ [⟨order, history.length, order.quantity⟩]) where
  sorted := by
    apply List.pairwise_append.2
    refine ⟨h.sorted, List.pairwise_singleton _ _, ?_⟩
    intro r hr s hs
    rw [List.mem_singleton.1 hs]
    exact h.before hr
  placed r hr := by
    rcases List.mem_append.1 hr with hr | hr
    · exact (h.grow order).placed r hr
    · rw [List.mem_singleton.1 hr]
      exact ⟨List.getElem?_concat_length, UInt32.le_refl _⟩

theorem Filed.amend {history : List Order} (h : Filed history l) (i : Nat) (quantity : UInt32) :
    Filed history (amend Resting.arrival i (Resting.take quantity) l) where
  sorted := Priority.pairwise_amend (fun _ _ ht => (Resting.take_order ht).2) h.sorted
  placed r hr := by
    rcases Priority.mem_amend hr with hr | ⟨s, hs, ht⟩
    · exact h.placed r hr
    · obtain ⟨ho, ha⟩ := Resting.take_order ht
      obtain ⟨hh, hl⟩ := h.placed s hs
      rw [ho, ha]
      exact ⟨hh, UInt32.le_trans (Resting.take_le ht) hl⟩

/-- What holds of an exchange after the orders of its history. -/
structure Sound (history : List Order) (x : Exchange) : Prop where
  buys : Filed history x.buys
  sells : Filed history x.sells
  uncrossed : ∀ b ∈ x.buys, ∀ s ∈ x.sells, b.price < s.price
  arrivals : x.arrivals = history.length

/-- An order that does not trade is below every sell, or above every buy. -/
theorem not_acceptable {x : Exchange} {order : Order}
    (h : ∀ r, x.first? order = some r → ¬ Acceptable order r.price) (hr : r ∈ x.opposing order) :
    ¬ Acceptable order r.price := by
  rw [first?] at h
  rw [opposing] at hr
  by_cases hs : order.side = .buy
  · rw [if_pos hs] at h hr
    cases hb : best (· < ·) Resting.price x.sells with
    | none =>
      rw [(Priority.best_eq_none_iff _).1 hb] at hr
      cases hr
    | some s =>
      have hno := h s hb
      have hle := Priority.not_lt_of_best hb hr
      rw [acceptable_buy hs] at hno ⊢
      exact fun hp => hno (UInt32.le_trans (UInt32.not_lt.1 hle) hp)
  · rw [if_neg hs] at h hr
    cases hb : best (· > ·) Resting.price x.buys with
    | none =>
      rw [(Priority.best_eq_none_iff _).1 hb] at hr
      cases hr
    | some s =>
      have hno := h s hb
      have hle := Priority.not_lt_of_best hb hr
      rw [acceptable_sell hs] at hno ⊢
      exact fun hp => hno (UInt32.le_trans hp (UInt32.not_lt.1 hle))

theorem price_of_mem_amend {l : List Resting} {quantity : UInt32}
    (hr : r ∈ amend Resting.arrival i (Resting.take quantity) l) : ∃ s ∈ l, s.price = r.price := by
  rcases Priority.mem_amend hr with hr | ⟨s, hs, ht⟩
  · exact ⟨r, hr, rfl⟩
  · exact ⟨s, hs, congrArg Order.price (Resting.take_order ht).1.symm⟩

theorem Sound.rest {x : Exchange} (h : x.Sound history) {order : Order}
    (hno : ∀ r, x.first? order = some r → ¬ Acceptable order r.price) :
    Sound (history ++ [order]) { x.rest order with arrivals := (x.rest order).arrivals + 1 } := by
  have hopp (r : Resting) (hr : r ∈ x.opposing order) := not_acceptable hno hr
  have hlen : (history ++ [order]).length = history.length + 1 := by
    rw [List.length_append, List.length_singleton]
  rw [Exchange.rest, arriving, h.arrivals]
  by_cases hs : order.side = .buy
  · rw [if_pos hs]
    refine ⟨h.buys.append order, h.sells.grow order, ?_, ?_⟩
    · intro b hb s hsell
      rcases List.mem_append.1 hb with hb | hb
      · exact h.uncrossed b hb s hsell
      · rw [List.mem_singleton.1 hb]
        rw [opposing, if_pos hs] at hopp
        have hno := hopp s hsell
        rw [acceptable_buy hs] at hno
        exact UInt32.not_le.1 hno
    · exact hlen.symm
  · rw [if_neg hs]
    refine ⟨h.buys.grow order, h.sells.append order, ?_, ?_⟩
    · intro b hb s hsell
      rcases List.mem_append.1 hsell with hsell | hsell
      · exact h.uncrossed b hb s hsell
      · rw [List.mem_singleton.1 hsell]
        rw [opposing, if_neg hs] at hopp
        have hno := hopp b hb
        rw [acceptable_sell hs] at hno
        exact UInt32.not_le.1 hno
    · exact hlen.symm

theorem Sound.fill {x : Exchange} (h : x.Sound history) (order : Order) (i : Nat) :
    Sound (history ++ [order])
      { x.fill order i with arrivals := (x.fill order i).arrivals + 1 } := by
  have hlen : (history ++ [order]).length = history.length + 1 := by
    rw [List.length_append, List.length_singleton]
  rw [Exchange.fill]
  by_cases hs : order.side = .buy
  · rw [if_pos hs]
    refine ⟨h.buys.grow order, (h.sells.amend i _).grow order, ?_, ?_⟩
    · intro b hb s hsell
      obtain ⟨s', hs', hp⟩ := price_of_mem_amend hsell
      rw [← hp]
      exact h.uncrossed b hb s' hs'
    · exact (congrArg (· + 1) h.arrivals).trans hlen.symm
  · rw [if_neg hs]
    refine ⟨(h.buys.amend i _).grow order, h.sells.grow order, ?_, ?_⟩
    · intro b hb s hsell
      obtain ⟨b', hb', hp⟩ := price_of_mem_amend hb
      rw [← hp]
      exact h.uncrossed b' hb' s hsell
    · exact (congrArg (· + 1) h.arrivals).trans hlen.symm

theorem Sound.submit {x : Exchange} (h : x.Sound history) (order : Order) :
    Sound (history ++ [order]) (x.submit order).2 := by
  rw [Exchange.submit, serve]
  cases hf : x.first? order with
  | none =>
    apply h.rest
    intro r hr
    rw [hf] at hr
    cases hr
  | some r =>
    dsimp only
    by_cases ha : Acceptable order r.price
    · rw [if_pos ha]
      exact h.fill order r.arrival
    · rw [if_neg ha]
      apply h.rest
      intro s hs
      rw [hf] at hs
      cases hs
      exact ha

theorem Sound.start : Sound [] {} where
  buys := ⟨.nil, nofun⟩
  sells := ⟨.nil, nofun⟩
  uncrossed := nofun
  arrivals := rfl

theorem Sound.run {x : Exchange} (h : x.Sound history) (orders : List Order) :
    Sound (history ++ orders) (Mealy.after Exchange.submit x orders) := by
  induction orders generalizing x history with
  | nil =>
    rw [List.append_nil]
    exact h
  | cons order orders ih =>
    have hrun := ih (h.submit order)
    rw [List.append_assoc] at hrun
    exact hrun

end Exchange

end Tickpipe
