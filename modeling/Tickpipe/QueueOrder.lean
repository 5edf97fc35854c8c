import Tickpipe.SideSymmetry

set_option autoImplicit true

namespace Tickpipe

open Mealy (after)

def Level.refs (q : Level) : List UInt64 := q.map Prod.fst

theorem Level.refs_append (q q' : Level) : refs (q ++ q') = q.refs ++ q'.refs := List.map_append

/-- A changed quantity keeps its place, an erased one leaves the others in theirs. -/
theorem Level.alter_sublist {f : UInt32 → Option UInt32} {q q' : Level}
    (h : Level.alter f ref q = some q') : q'.refs.Sublist q.refs := by
  induction q generalizing q' with
  | nil => cases h
  | cons entry q ih =>
    obtain ⟨r, n⟩ := entry
    rw [alter] at h
    split at h
    · cases hf : f n with
      | none =>
        rw [hf] at h
        obtain rfl := Option.some.inj h
        exact List.sublist_cons_self r (refs q)
      | some n' =>
        rw [hf] at h
        obtain rfl := Option.some.inj h
        exact List.Sublist.refl _
    · obtain ⟨q₁, hq, rfl⟩ := Option.map_eq_some_iff.1 h
      exact (ih hq).cons_cons r

namespace Ladder

variable {lt : UInt32 → UInt32 → Prop} [DecidableRel lt] [IsStrictTotalOrder UInt32 lt]

/-- Every queue of `book'` is left of that of `book`. -/
def Thins (book book' : Ladder lt) : Prop :=
  ∀ price, (book'.queue price).refs.Sublist (book.queue price).refs

variable {book book' : Ladder lt}

theorem settle_thins {q : Level} (h : q.refs.Sublist (book.queue price).refs) :
    book.Thins (book.settle price q) := by
  intro p
  by_cases hp : p = price
  · subst hp
    rw [queue_settle_self]
    exact h
  · rw [queue_settle_ne book hp]

theorem alterAt_thins {f : UInt32 → Option UInt32} (h : book.alterAt f price ref = some book') :
    book.Thins book' := by
  rw [alterAt_eq] at h
  obtain ⟨q, hq, rfl⟩ := Option.map_eq_some_iff.1 h
  exact settle_thins (Level.alter_sublist hq)

theorem scan_thins {f : UInt32 → Option UInt32} (h : book.scan f ref = some book') :
    book.Thins book' := by
  have hspec := scanEntries_spec f ref book.entries
  rw [scan] at h
  obtain ⟨⟨price, q'⟩, hs, rfl⟩ := Option.map_eq_some_iff.1 h
  rw [hs] at hspec
  obtain ⟨q, hmem, ha⟩ := hspec
  apply settle_thins
  have hqueue : book.queue price = q := by
    rw [queue, (book.mem_entries_iff).1 hmem, Option.getD_some]
  rw [hqueue]
  exact Level.alter_sublist ha

theorem hitHead_thins (h : book.first? = some (price, (ref, n) :: rest)) (quantity : UInt32) :
    book.Thins (SoftwareEngine.hitHead book price ref n quantity rest) := by
  have hqueue : book.queue price = (ref, n) :: rest := by
    rw [queue, ((book.first?_eq_some_iff).1 h).1, Option.getD_some]
  rw [SoftwareEngine.hitHead]
  apply settle_thins
  rw [hqueue]
  split
  · exact List.sublist_cons_self ref _
  · exact List.Sublist.refl _

end Ladder

namespace SoftwareEngine

/-- The order that a call may queue at a price, on the side of the bids or else of the asks. -/
def Call.arrivals (buys : Bool) (price : UInt32) : Call → List UInt64
  | .submit order =>
    if decide (order.side = .buy) = buys ∧ order.price = price then [order.orderRef] else []
  | .apply op =>
    if op.action = .add ∧ op.quantity ≠ 0 ∧ decide (op.side = .buy) = buys ∧ op.price = price then
      [op.orderRef]
    else []

variable {e : SoftwareEngine}

theorem arrivals_reflect (buys : Bool) (price : UInt32) (call : Call) :
    call.reflect.arrivals (!buys) (~~~price) = call.arrivals buys price := by
  have hside (side : Side) :
      (decide (side.reflect = .buy) = !buys) ↔ decide (side = .buy) = buys := by
    cases side <;> cases buys <;> decide
  have hprice (p : UInt32) : ~~~p = ~~~price ↔ p = price :=
    ⟨fun h => by rw [← UInt32.not_not (a := p), h, UInt32.not_not], congrArg _⟩
  cases call with
  | submit order =>
    exact if_congr (and_congr (hside order.side) (hprice order.price)) rfl rfl
  | apply op =>
    exact if_congr (and_congr_right' (and_congr_right' (and_congr (hside op.side)
      (hprice op.price)))) rfl rfl

/-- The bids of the one engine are left of those of the other. -/
def Thins (e e' : SoftwareEngine) : Prop := e.bids.Thins e'.bids

theorem alterRef_thins (h : alterRef f e side price ref = some e') : e.Thins e' := by
  rw [alterRef] at h
  split at h
  · obtain ⟨bids, hb, rfl⟩ := Option.map_eq_some_iff.1 h
    exact Ladder.alterAt_thins hb
  · obtain ⟨asks, -, rfl⟩ := Option.map_eq_some_iff.1 h
    exact fun price => List.Sublist.refl _

theorem scanRef_thins (h : e.scanRef side ref qty = some e') : e.Thins e' := by
  rw [scanRef] at h
  split at h
  · obtain ⟨bids, hb, rfl⟩ := Option.map_eq_some_iff.1 h
    exact Ladder.scan_thins hb
  · obtain ⟨asks, -, rfl⟩ := Option.map_eq_some_iff.1 h
    exact fun price => List.Sublist.refl _

theorem getD_thins {o : Option SoftwareEngine} (h : ∀ e', o = some e' → e.Thins e') :
    e.Thins (o.getD e.countOrphan) := by
  cases o with
  | none => exact fun price => List.Sublist.refl _
  | some e' => exact h e' rfl

theorem executeBook_thins (op : ResolvedOp) : e.Thins (e.executeBook op) := by
  rw [executeBook]
  split
  · next h => exact alterRef_thins h
  · exact getD_thins fun e' h => scanRef_thins h

theorem queue_pushBack_sublist (book : Bids) (price p : UInt32) (ref : UInt64) (n : UInt32) :
    ((book.pushBack price (ref, n)).queue p).refs.Sublist
      ((book.queue p).refs ++ if price = p then [ref] else []) := by
  by_cases hp : price = p
  · subst hp
    rw [Ladder.queue_pushBack_self, Level.refs_append, if_pos rfl]
    exact List.Sublist.refl _
  · rw [Ladder.queue_pushBack_ne book (Ne.symm hp), if_neg hp, List.append_nil]

theorem Thins.append (h : e.Thins e') (price : UInt32) (l : List UInt64) :
    (e'.bids.queue price).refs.Sublist ((e.bids.queue price).refs ++ l) :=
  (h price).trans (List.sublist_append_left _ _)

theorem submit_bids (order : Order) (price : UInt32) :
    ((e.submit order).2.bids.queue price).refs.Sublist
      ((e.bids.queue price).refs ++ Call.arrivals true price (.submit order)) := by
  rw [submit]
  split
  case isTrue hbuy =>
    rw [Call.arrivals, decide_eq_true hbuy]
    have hrest := queue_pushBack_sublist e.bids order.price price order.orderRef order.quantity
    rw [tryMatchBuy]
    dsimp only
    split
    · split
      · exact List.sublist_append_left _ _
      · simpa using hrest
    · simpa using hrest
  case isFalse hsell =>
    rw [tryMatchSell]
    dsimp only
    split
    · next hfirst =>
      split
      · have hthins := Ladder.hitHead_thins hfirst order.quantity
        exact (hthins price).trans (List.sublist_append_left _ _)
      · exact List.sublist_append_left _ _
    · exact List.sublist_append_left _ _

theorem apply_bids (op : ResolvedOp) (price : UInt32) :
    ((e.apply op).bids.queue price).refs.Sublist
      ((e.bids.queue price).refs ++ Call.arrivals true price (.apply op)) := by
  rw [apply]
  cases ha : op.action with
  | add =>
    dsimp only
    rw [restOrder]
    split
    case isTrue => exact List.sublist_append_left _ _
    case isFalse hqty =>
      split
      case isTrue hbuy =>
        have hrest := queue_pushBack_sublist e.bids op.price price op.orderRef op.quantity
        simpa [Call.arrivals, ha, hqty, hbuy] using hrest
      case isFalse => exact List.sublist_append_left _ _
  | execute =>
    have hthins := executeBook_thins (e := e) op
    dsimp only
    split
    · exact hthins.append price _
    · exact hthins.append price _
  | cancel => exact (getD_thins fun e' h => alterRef_thins h).append price _
  | delete => exact (getD_thins fun e' h => alterRef_thins h).append price _
  | trade | replace | none => exact List.sublist_append_left _ _

end SoftwareEngine

/-- Time priority is never lost: at each price of either side the orders left in the queue stand
in the order in which they arrived there, through all executions, cancels and deletes. -/
theorem queues_keep_arrival_order (calls : List SoftwareEngine.Call) (price : UInt32) :
    let e := after SoftwareEngine.perform {} calls
    (e.bids.queue price).refs.Sublist (calls.flatMap (·.arrivals true price)) ∧
      (e.asks.queue price).refs.Sublist (calls.flatMap (·.arrivals false price)) := by
  have hbids (calls : List SoftwareEngine.Call) (price : UInt32) :
      ((after SoftwareEngine.perform {} calls).bids.queue price).refs.Sublist
        (calls.flatMap (·.arrivals true price)) := by
    refine Mealy.after_sublist (f := fun e : SoftwareEngine => (e.bids.queue price).refs)
      (fun e call => ?_) {} calls
    cases call with
    | submit order => exact SoftwareEngine.submit_bids order price
    | apply op => exact SoftwareEngine.apply_bids op price
  refine ⟨hbids calls price, ?_⟩
  -- the asks are the bids of the mirrored run
  have hasks := hbids (calls.map (·.reflect)) (~~~price)
  have hmirrored : after SoftwareEngine.perform {} (calls.map (·.reflect)) =
      (after SoftwareEngine.perform {} calls).reflect := (run_reflect calls {}).2
  have hqueue : (after SoftwareEngine.perform {} calls).reflect.bids.queue (~~~price) =
      (after SoftwareEngine.perform {} calls).asks.queue price :=
    Ladder.queue_turned toBids (after SoftwareEngine.perform {} calls).asks price
  have harrivals (call : SoftwareEngine.Call) :
      call.reflect.arrivals true (~~~price) = call.arrivals false price :=
    SoftwareEngine.arrivals_reflect false price call
  rw [hmirrored, hqueue, List.flatMap_map] at hasks
  simpa only [harrivals] using hasks

end Tickpipe
