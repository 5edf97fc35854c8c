import Tickpipe.OrderAccounting
import Tickpipe.FillPrices
import Tickpipe.PriceTimePriority
import Tickpipe.Lib.Totals

set_option autoImplicit true

namespace Tickpipe

open Mealy (after outputs total)

namespace SlotLadder

def shares (s : SlotLadder) : Nat := ∑ slot, (s.levels.get slot).queue.shares

theorem shares_put (s : SlotLadder) (slot : Slot) (l : PriceLevel) (bits : Bitmap 32) :
    shares ⟨s.levels.put slot l, bits⟩ + (s.levels.get slot).queue.shares =
      s.shares + l.queue.shares :=
  Totals.sum_put s.levels slot l fun level => level.queue.shares

theorem shares_fill (s : SlotLadder) (hq : (s.levels.get slot).queue = (ref, n) :: q)
    (hle : quantity ≤ n) : (s.fill slot quantity).shares + quantity.toNat = s.shares := by
  obtain ⟨l, hfill, -, hqueue⟩ := s.fill_spec hq quantity
  have hput := s.shares_put slot l (if l.queue = [] then clearBit s.bits slot else s.bits)
  have hsub := UInt32.toNat_sub_of_le _ _ hle
  have hle' := UInt32.le_iff_toNat_le.1 hle
  have hleft : l.queue.shares = (n - quantity).toNat + Level.shares q := by
    rw [hqueue]
    split
    · next hz => rw [hz, UInt32.toNat_zero, Nat.zero_add]
    · rfl
  have hhead : Level.shares ((ref, n) :: q) = n.toNat + Level.shares q := rfl
  rw [hq, hhead, hleft] at hput
  rw [hfill]
  omega

theorem shares_rest (s : SlotLadder) (slot : Slot) (order : Order) (side : Side) :
    (s.rest slot order side).shares =
      s.shares + if (s.levels.get slot).queue.length < 16 then order.quantity.toNat else 0 := by
  by_cases hroom : (s.levels.get slot).queue.length < 16
  · obtain ⟨l, hrest, -, hqueue⟩ := s.rest_spec hroom order side
    have hput := s.shares_put slot l (setBit s.bits slot)
    have hback : l.queue.shares = (s.levels.get slot).queue.shares + order.quantity.toNat := by
      rw [hqueue, Level.shares, List.map_append, List.sum_append]
      rfl
    rw [if_pos hroom, hrest]
    omega
  · rw [if_neg hroom, s.rest_full hroom, Nat.add_zero]

end SlotLadder

namespace FpgaPipeline

variable {p q : FpgaPipeline} {order : Order}

def restingShares (p : FpgaPipeline) : Nat := p.buy.shares + p.sell.shares

theorem restingShares_eq (p : FpgaPipeline) (side : Side) :
    p.restingShares = (p.own side).shares + (p.opposite side).shares := by
  rw [restingShares, own, opposite]
  split
  · rfl
  · exact Nat.add_comm _ _

theorem SameLadders.restingShares (h : p.SameLadders q) : q.restingShares = p.restingShares := by
  rw [FpgaPipeline.restingShares, FpgaPipeline.restingShares, h.buy, h.sell]

def missedShares (p : FpgaPipeline) (order : Order) : Nat :=
  if (p.route order).1.valid then 0 else order.quantity.toNat

/-- The shares of an order that would rest at a level that is full. -/
def droppedShares (p : FpgaPipeline) (order : Order) : Nat :=
  if (p.route order).1.valid ∧ (p.serve order).1.matched = false ∧
    ¬ ((p.own order.side).levels.get (p.route order).1.levelIndex).queue.length < 16 then
    order.quantity.toNat
  else 0

/-- The shares of an order beyond those of the resting one that it meets. -/
def discardedShares (p : FpgaPipeline) (order : Order) : Nat :=
  if (p.serve order).1.matched then order.quantity.toNat - (p.serve order).1.quantity.toNat else 0

theorem hit_shares (order : Order) (level : PriceLevel) :
    (hit order level).quantity.toNat = min order.quantity.toNat level.headQuantity.toNat := by
  have hmin := UInt32.toNat_min order.quantity level.headQuantity
  rw [hit]
  split
  · exact hmin
  · exact hmin

theorem serve_shares (p : FpgaPipeline) (order : Order) :
    (p.serve order).2.restingShares + (2 * SoftwareEngine.sharesMatched [(p.serve order).1] +
        (p.missedShares order + p.droppedShares order + p.discardedShares order)) =
      p.restingShares + order.quantity.toNat := by
  rw [SoftwareEngine.sharesMatched, List.map_singleton, List.sum_singleton, missedShares,
    droppedShares, discardedShares]
  rcases p.serve_cases order with ⟨hv, hr, hsame⟩ |
    ⟨hv, slot, level, hs, hl, hne, -, hr, hown, hopp⟩ | ⟨hv, -, hr, hown, hopp⟩
  case inl =>
    rw [hsame.restingShares, hv, hr]
    simp
  case inr.inl =>
    subst hl
    obtain ⟨hhead, -⟩ := PriceLevel.queue_head _ hne 0
    have hfill := SlotLadder.shares_fill _ hhead (hit_quantity order _)
    have hquantity := hit_shares order ((p.opposite order.side).levels.get slot)
    rw [restingShares_eq _ order.side, p.restingShares_eq order.side, hown, hopp, hv, hr,
      hit_matched]
    simp only [if_true, Bool.true_eq_false, false_and, and_false, if_false]
    omega
  case inr.inr =>
    have hrest := (p.own order.side).shares_rest (p.route order).1.levelIndex order
      (bookSide order.side)
    rw [restingShares_eq _ order.side, p.restingShares_eq order.side, hown, hopp, hv, hr, hrest]
    by_cases hroom :
        ((p.own order.side).levels.get (p.route order).1.levelIndex).queue.length < 16
    · simp only [hroom, Bool.false_eq_true, if_true, if_false, true_and, not_true_eq_false]
      omega
    · simp only [hroom, Bool.false_eq_true, if_true, if_false, true_and, not_false_eq_true]
      omega

theorem sharesMatched_outputs (p : FpgaPipeline) (orders : List Order) :
    SoftwareEngine.sharesMatched (outputs serve p orders) =
      total (fun p order => SoftwareEngine.sharesMatched [(p.serve order).1]) serve p orders := by
  induction orders generalizing p with
  | nil => rfl
  | cons order orders ih =>
    rw [total, ← ih]
    rfl

def sharesSubmitted (orders : List Order) : Nat := (orders.map (·.quantity.toNat)).sum

theorem sharesSubmitted_total (p : FpgaPipeline) (orders : List Order) :
    sharesSubmitted orders = total (fun _ order => order.quantity.toNat) serve p orders := by
  induction orders generalizing p with
  | nil => rfl
  | cons order orders ih => exact congrArg (order.quantity.toNat + ·) (ih (p.serve order).2)

theorem new_restingShares (buyLevels sellLevels : Vector PriceLevel (64 * 32)) :
    (new buyLevels sellLevels).restingShares = 0 := by
  have hempty (levels : Vector PriceLevel (64 * 32)) :
      SlotLadder.shares ⟨levels.map PriceLevel.clear, Bitmap.empty⟩ = 0 := by
    apply Finset.sum_eq_zero
    intro slot _
    rw [SlotLadder.queue_new]
    rfl
  exact Nat.add_eq_zero_iff.2 ⟨hempty buyLevels, hempty sellLevels⟩

/-- The pipeline accounts for every share: each one submitted still rests, was matched, on both
sides of a trade, or belongs to a price outside the window, to an order that found its level full,
or to the part of an order beyond the resting one it met. -/
theorem pipeline_shares_accounted (buyLevels sellLevels : Vector PriceLevel (64 * 32))
    (inputs idle : List Order) (hidle : ∀ o ∈ idle, o.valid = 0) (hlen : 4 ≤ idle.length) :
    let p := new buyLevels sellLevels
    let stream := inputs ++ idle
    let orders := validOrders inputs
    sharesSubmitted orders = (after clock p stream).restingShares +
      2 * SoftwareEngine.sharesMatched (answers p stream) +
      (total missedShares serve p orders + total droppedShares serve p orders +
        total discardedShares serve p orders) := by
  intro p stream orders
  have hvalid : validOrders stream = orders := by
    have hbubbles : validOrders idle = [] :=
      List.filter_eq_nil_iff.2 fun o ho => decide_eq_true_iff.not.2 (not_not_intro (hidle o ho))
    rw [validOrders, List.filter_append, ← validOrders, ← validOrders, hbubbles, List.append_nil]
  have hanswers : answers p stream = outputs serve p orders := by
    rw [← hvalid]
    exact answers_eq buyLevels sellLevels inputs hidle hlen
  have hladders : (after serve p orders).SameLadders (after clock p stream) := by
    rw [← hvalid]
    exact (Drains.same buyLevels sellLevels (.inr ⟨inputs, idle, rfl, hidle, hlen⟩)).1
  have hbalance := Mealy.total_balance (I := fun _ => True) (m := restingShares)
    (fun _ _ _ => trivial) (fun p order _ => p.serve_shares order) trivial orders (s := p)
  rw [Mealy.total_add, Mealy.total_add, Mealy.total_add, Mealy.total_mul, ← sharesMatched_outputs,
    ← sharesSubmitted_total, new_restingShares, Nat.zero_add] at hbalance
  rw [hanswers, hladders.restingShares, ← hbalance]
  omega

/-- A sell that two buys share: the second finds fewer shares than it wants. -/
theorem backToBack_shares :
    let p := new (Vector.replicate (64 * 32) default) (Vector.replicate (64 * 32) default)
    let stream := backToBack ++ List.replicate 4 ({} : Order)
    let orders := validOrders backToBack
    sharesSubmitted orders = (after clock p stream).restingShares +
      2 * SoftwareEngine.sharesMatched (answers p stream) +
      (total missedShares serve p orders + total droppedShares serve p orders +
        total discardedShares serve p orders) :=
  pipeline_shares_accounted _ _ backToBack _ (by decide) (by decide)

end FpgaPipeline
end Tickpipe
