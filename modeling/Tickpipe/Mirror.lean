import Tickpipe.Blotter

set_option autoImplicit true

namespace Tickpipe

theorem Blotter.eq_of_ref {L : Blotter} (hn : L.refs.Nodup) (hl : l ∈ L) (hl' : l' ∈ L)
    (h : l.ref = l'.ref) : l = l' :=
  List.inj_on_of_nodup_map hn hl hl' h

/-- A resting order rests on its own side, at its own price, unless its Add was withheld. -/
theorem Live.rests_iff (l : Live) (buy : Bool) (price : UInt32) : l.rests buy price = true ↔
    l.withheld = false ∧ decide (l.order.side = .buy) = buy ∧ l.order.price = price := by
  simp only [rests, Bool.and_eq_true, Bool.not_eq_eq_eq_not, Bool.not_true, beq_iff_eq,
    decide_eq_true_eq, and_assoc]

theorem Live.entry_eq_iff (l : Live) (ref : UInt64) (n : UInt32) :
    l.entry = (ref, n) ↔ l.ref = ref ∧ l.order.quantity = n := by
  rw [entry_eq, Prod.mk.injEq]

namespace Ladder

variable {lt : UInt32 → UInt32 → Prop} {book : Ladder lt}

/-- One side of the engine holds exactly what the blotter rests there. -/
structure Mirrors (book : Ladder lt) (L : Blotter) (buy : Bool) : Prop where
  queue : ∀ price, book.queue price = L.queue buy price
  tight : book.Tight

theorem Mirrors.append_other (h : book.Mirrors L buy)
    (hr : ∀ price, ¬ l.rests buy price = true) : book.Mirrors (L ++ [l]) buy := by
  refine ⟨?_, h.tight⟩
  intro p
  rw [Blotter.queue_append, h.queue, if_neg (hr p), List.append_nil]

/-- A reference whose order rests elsewhere is in no queue of this level. -/
theorem Mirrors.not_mem_queue (h : book.Mirrors L buy) (hn : L.refs.Nodup) (hl : l ∈ L)
    (hr : ¬ l.rests buy price = true) : l.ref ∉ (book.queue price).map Prod.fst := by
  rw [h.queue, Blotter.mem_queue_refs_iff]
  rintro ⟨l', hl', hr', he⟩
  rw [Blotter.eq_of_ref hn hl' hl he] at hr'
  exact hr hr'

theorem Mirrors.mem_queue (h : book.Mirrors L buy) (hl : l ∈ L) (hr : l.rests buy price = true) :
    l.ref ∈ (book.queue price).map Prod.fst := by
  rw [h.queue, Blotter.mem_queue_refs_iff]
  exact ⟨l, hl, hr, rfl⟩

/-- An order that does not rest on this side may be altered without touching it. -/
theorem Mirrors.frame (h : book.Mirrors L buy) (hn : L.refs.Nodup) (hl : l ∈ L)
    (hr : ∀ price, ¬ l.rests buy price = true) : book.Mirrors (L.alter f l.ref) buy := by
  refine ⟨?_, h.tight⟩
  intro p
  have hnone := (Level.alter_eq_none_iff (f := f) _).2 (h.not_mem_queue hn hl (hr p))
  rw [Blotter.queue_alter hn, ← h.queue, hnone, Option.getD_none]

variable [DecidableRel lt] [IsStrictTotalOrder UInt32 lt]

theorem Mirrors.pushBack (h : book.Mirrors L buy) (hr : l.rests buy price = true) :
    (book.pushBack price l.entry).Mirrors (L ++ [l]) buy := by
  refine ⟨?_, h.tight.pushBack price l.entry⟩
  intro p
  rw [Blotter.queue_append]
  by_cases hp : p = price
  · subst hp
    rw [queue_pushBack_self, h.queue, if_pos hr]
  · have hnr : ¬ l.rests buy p = true := by
      intro hrp
      rw [Live.rests_iff] at hr hrp
      exact hp (hrp.2.2.symm.trans hr.2.2)
    rw [queue_pushBack_ne _ hp, h.queue, if_neg hnr, List.append_nil]

/-- Altering an order in its level and settling the level alters it in the blotter. -/
theorem Mirrors.settle (h : book.Mirrors L buy) (hn : L.refs.Nodup) (hl : l ∈ L)
    (hr : l.rests buy price = true) (f : UInt32 → Option UInt32) :
    ∃ book', (Level.alter f l.ref (book.queue price)).map (book.settle price) = some book' ∧
      book'.Mirrors (L.alter f l.ref) buy := by
  cases ha : Level.alter f l.ref (book.queue price) with
  | none => exact absurd (h.mem_queue hl hr) ((Level.alter_eq_none_iff _).1 ha)
  | some q =>
    refine ⟨book.settle price q, rfl, ?_, h.tight.settle price q⟩
    intro p
    rw [Blotter.queue_alter hn, ← h.queue]
    by_cases hp : p = price
    · subst hp
      rw [queue_settle_self, ha, Option.getD_some]
    · have hnr : ¬ l.rests buy p = true := by
        intro hrp
        rw [Live.rests_iff] at hr hrp
        exact hp (hrp.2.2.symm.trans hr.2.2)
      have hnone := (Level.alter_eq_none_iff (f := f) _).2 (h.not_mem_queue hn hl hnr)
      rw [queue_settle_ne _ hp, hnone, Option.getD_none]

theorem Mirrors.alterAt_miss (h : book.Mirrors L buy) (hn : L.refs.Nodup) (hl : l ∈ L)
    (hr : ¬ l.rests buy price = true) : book.alterAt f price l.ref = none := by
  rw [alterAt_eq, (Level.alter_eq_none_iff _).2 (h.not_mem_queue hn hl hr), Option.map_none]

theorem Mirrors.scan_hit (h : book.Mirrors L buy) (hn : L.refs.Nodup) (hl : l ∈ L)
    (hr : l.rests buy price = true) :
    book.scan f l.ref = (Level.alter f l.ref (book.queue price)).map (book.settle price) := by
  apply scan_of_mem f (h.mem_queue hl hr)
  intro p hp
  apply h.not_mem_queue hn hl
  intro hrp
  rw [Live.rests_iff] at hr hrp
  exact hp (hrp.2.2.symm.trans hr.2.2)

theorem Mirrors.scan_miss (h : book.Mirrors L buy) (hn : L.refs.Nodup) (hl : l ∈ L)
    (hr : ∀ price, ¬ l.rests buy price = true) : book.scan f l.ref = none :=
  scan_of_not_mem f fun p => h.not_mem_queue hn hl (hr p)

end Ladder

namespace SoftwareEngine

variable {e e' : SoftwareEngine} {L : Blotter} {l : Live}

/-- The engine's two sides hold exactly what the blotter rests. -/
structure Mirrors (e : SoftwareEngine) (L : Blotter) : Prop where
  bids : e.bids.Mirrors L true
  asks : e.asks.Mirrors L false

theorem Mirrors.congr (h : e.Mirrors L) (hb : e'.bids = e.bids) (ha : e'.asks = e.asks) :
    e'.Mirrors L :=
  ⟨by rw [hb]; exact h.bids, by rw [ha]; exact h.asks⟩

theorem not_rests_of_withheld (hw : l.withheld = true) (buy : Bool) (price : UInt32) :
    ¬ l.rests buy price = true := by
  rw [Live.rests_iff, hw]
  exact fun h => absurd h.1 nofun

theorem not_rests_other (hs : decide (l.order.side = .buy) = !buy) (price : UInt32) :
    ¬ l.rests buy price = true := by
  rw [Live.rests_iff, hs]
  cases buy <;> exact fun h => absurd h.2.1 nofun

theorem Mirrors.withheld (h : e.Mirrors L) (hn : L.refs.Nodup) (hl : l ∈ L)
    (hw : l.withheld = true) : e.Mirrors (L.alter f l.ref) where
  bids := h.bids.frame hn hl (not_rests_of_withheld hw true)
  asks := h.asks.frame hn hl (not_rests_of_withheld hw false)

/-- An order is found at its own side and price. -/
theorem Mirrors.alterRef (h : e.Mirrors L) (hn : L.refs.Nodup) (hl : l ∈ L)
    (hw : l.withheld = false) (f : UInt32 → Option UInt32) :
    ∃ e', e.alterRef f l.order.side l.order.price l.ref = some e' ∧
      e'.Mirrors (L.alter f l.ref) ∧ e'.orphanOps = e.orphanOps := by
  rw [SoftwareEngine.alterRef]
  by_cases hs : l.order.side = .buy
  · have hr : l.rests true l.order.price = true :=
      (l.rests_iff _ _).2 ⟨hw, decide_eq_true hs, rfl⟩
    obtain ⟨bids, hb, hm⟩ := h.bids.settle hn hl hr f
    refine ⟨{ e with bids := bids }, ?_, ⟨hm, ?_⟩, rfl⟩
    · rw [if_pos hs, Ladder.alterAt_eq, hb, Option.map_some]
    · exact h.asks.frame hn hl (not_rests_other (decide_eq_true hs))
  · have hr : l.rests false l.order.price = true :=
      (l.rests_iff _ _).2 ⟨hw, decide_eq_false hs, rfl⟩
    obtain ⟨asks, hb, hm⟩ := h.asks.settle hn hl hr f
    refine ⟨{ e with asks := asks }, ?_, ⟨?_, hm⟩, rfl⟩
    · rw [if_neg hs, Ladder.alterAt_eq, hb, Option.map_some]
    · exact h.bids.frame hn hl (not_rests_other (decide_eq_false hs))

/-- An order is not found at another price, nor anywhere when its Add was withheld. -/
theorem Mirrors.alterRef_miss (h : e.Mirrors L) (hn : L.refs.Nodup) (hl : l ∈ L)
    (hp : l.withheld = true ∨ price ≠ l.order.price) :
    e.alterRef f l.order.side price l.ref = none := by
  have hr (buy : Bool) : ¬ l.rests buy price = true := by
    rw [Live.rests_iff]
    rintro ⟨hw, -, hpr⟩
    rcases hp with hp | hp
    · rw [hw] at hp
      cases hp
    · exact hp hpr.symm
  rw [SoftwareEngine.alterRef]
  split
  · rw [h.bids.alterAt_miss hn hl (hr true), Option.map_none]
  · rw [h.asks.alterAt_miss hn hl (hr false), Option.map_none]

/-- The scan finds an order on its side, whatever price the execution printed. -/
theorem Mirrors.scanRef (h : e.Mirrors L) (hn : L.refs.Nodup) (hl : l ∈ L)
    (hw : l.withheld = false) (qty : UInt32) :
    ∃ e', e.scanRef l.order.side l.ref qty = some e' ∧
      e'.Mirrors (L.alter (shrunk qty) l.ref) ∧ e'.orphanOps = e.orphanOps := by
  rw [SoftwareEngine.scanRef]
  by_cases hs : l.order.side = .buy
  · have hr : l.rests true l.order.price = true :=
      (l.rests_iff _ _).2 ⟨hw, decide_eq_true hs, rfl⟩
    obtain ⟨bids, hb, hm⟩ := h.bids.settle hn hl hr (shrunk qty)
    refine ⟨{ e with bids := bids }, ?_, ⟨hm, ?_⟩, rfl⟩
    · rw [if_pos hs, h.bids.scan_hit hn hl hr, hb, Option.map_some]
    · exact h.asks.frame hn hl (not_rests_other (decide_eq_true hs))
  · have hr : l.rests false l.order.price = true :=
      (l.rests_iff _ _).2 ⟨hw, decide_eq_false hs, rfl⟩
    obtain ⟨asks, hb, hm⟩ := h.asks.settle hn hl hr (shrunk qty)
    refine ⟨{ e with asks := asks }, ?_, ⟨?_, hm⟩, rfl⟩
    · rw [if_neg hs, h.asks.scan_hit hn hl hr, hb, Option.map_some]
    · exact h.bids.frame hn hl (not_rests_other (decide_eq_false hs))

theorem Mirrors.scanRef_miss (h : e.Mirrors L) (hn : L.refs.Nodup) (hl : l ∈ L)
    (hw : l.withheld = true) (qty : UInt32) : e.scanRef l.order.side l.ref qty = none := by
  rw [SoftwareEngine.scanRef]
  split
  · rw [h.bids.scan_miss hn hl (not_rests_of_withheld hw true), Option.map_none]
  · rw [h.asks.scan_miss hn hl (not_rests_of_withheld hw false), Option.map_none]

theorem Mirrors.restOrder (h : e.Mirrors L) (hw : l.withheld = false)
    (hq : l.order.quantity ≠ 0) :
    (e.restOrder l.order.side l.order.price l.ref l.order.quantity).Mirrors (L ++ [l]) := by
  rw [SoftwareEngine.restOrder, if_neg hq, ← Live.entry_eq]
  by_cases hs : l.order.side = .buy
  · have hr : l.rests true l.order.price = true :=
      (l.rests_iff _ _).2 ⟨hw, decide_eq_true hs, rfl⟩
    rw [if_pos hs]
    exact ⟨h.bids.pushBack hr, h.asks.append_other (not_rests_other (decide_eq_true hs))⟩
  · have hr : l.rests false l.order.price = true :=
      (l.rests_iff _ _).2 ⟨hw, decide_eq_false hs, rfl⟩
    rw [if_neg hs]
    exact ⟨h.bids.append_other (not_rests_other (decide_eq_false hs)), h.asks.pushBack hr⟩

theorem Mirrors.append_withheld (h : e.Mirrors L) (hw : l.withheld = true) :
    e.Mirrors (L ++ [l]) where
  bids := h.bids.append_other (not_rests_of_withheld hw true)
  asks := h.asks.append_other (not_rests_of_withheld hw false)

theorem restOrder_orphanOps (e : SoftwareEngine) (side : Side) (price : UInt32) (ref : UInt64)
    (qty : UInt32) : (e.restOrder side price ref qty).orphanOps = e.orphanOps := by
  rw [restOrder]
  split
  · rfl
  · split <;> rfl

/-- An execution reaches its order wherever it rests; a withheld order makes it an orphan. -/
theorem Mirrors.executeBook (h : e.Mirrors L) (hn : L.refs.Nodup) (hl : l ∈ L)
    (href : l.ref = op.orderRef) (hs : l.order.side = op.side) :
    (e.executeBook op).Mirrors (L.alter (shrunk op.quantity) op.orderRef) ∧
      (e.executeBook op).orphanOps = e.orphanOps + if l.withheld then 1 else 0 := by
  rw [SoftwareEngine.executeBook, reduceRef, ← href, ← hs]
  cases hw : l.withheld with
  | true =>
    rw [h.alterRef_miss hn hl (.inl hw), h.scanRef_miss hn hl hw]
    exact ⟨(h.withheld hn hl hw).congr rfl rfl, rfl⟩
  | false =>
    by_cases hp : op.price = l.order.price
    · obtain ⟨e', he, hm, ho⟩ := h.alterRef hn hl hw (shrunk op.quantity)
      rw [hp, he]
      exact ⟨hm, ho⟩
    · obtain ⟨e', he, hm, ho⟩ := h.scanRef hn hl hw op.quantity
      rw [h.alterRef_miss hn hl (.inr hp), he]
      exact ⟨hm, ho⟩

/-- A cancel or a delete looks at the resting price only. -/
theorem Mirrors.alterBook (h : e.Mirrors L) (hn : L.refs.Nodup) (hl : l ∈ L)
    (f : UInt32 → Option UInt32) :
    ((e.alterRef f l.order.side l.order.price l.ref).getD e.countOrphan).Mirrors
        (L.alter f l.ref) ∧
      ((e.alterRef f l.order.side l.order.price l.ref).getD e.countOrphan).orphanOps =
        e.orphanOps + if l.withheld then 1 else 0 := by
  cases hw : l.withheld with
  | true =>
    rw [h.alterRef_miss hn hl (.inl hw)]
    exact ⟨(h.withheld hn hl hw).congr rfl rfl, rfl⟩
  | false =>
    obtain ⟨e', he, hm, ho⟩ := h.alterRef hn hl hw f
    rw [he]
    exact ⟨hm, ho⟩

end SoftwareEngine

end Tickpipe
