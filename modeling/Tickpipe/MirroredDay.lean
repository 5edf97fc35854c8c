import Tickpipe.PairedTables
import Tickpipe.ReplayDriver
import Tickpipe.WriteAhead

set_option autoImplicit true

namespace Tickpipe

open Mealy (after)

namespace Ladder

variable {lt : UInt32 → UInt32 → Prop} {book book' : Ladder lt}

/-- Orders rest at prices that have one opposite them. -/
def Priced (book : Ladder lt) : Prop := ∀ price, ∀ e ∈ book.queue price, Inner price

theorem Priced.within (h : book.Priced) (hw : book'.Within book) : book'.Priced := by
  intro price e' he'
  obtain ⟨e, he, -, -⟩ := hw price e' he'
  exact h price e he

variable [IsStrictTotalOrder UInt32 lt]

theorem Priced.best (h : book.Priced) (hf : book.Filled) (hb : book.best = some top) :
    Inner top.1 := by
  obtain ⟨⟨price, q⟩, hfirst, rfl⟩ := Option.map_eq_some_iff.1 hb
  obtain ⟨hget, -⟩ := (OrdMap.first?_eq_some_iff _).1 hfirst
  obtain ⟨e, he⟩ := List.exists_mem_of_ne_nil q (hf price q hget).1
  apply h price e
  rw [queue, hget]
  exact he

variable [DecidableRel lt]

theorem Priced.pushBack (h : book.Priced) (hp : Inner price) (entry : UInt64 × UInt32) :
    (book.pushBack price entry).Priced := by
  intro p e he
  by_cases hsame : p = price
  · exact hsame ▸ hp
  · rw [queue_pushBack_ne _ hsame] at he
    exact h p e he

end Ladder

namespace SoftwareEngine

variable {e : SoftwareEngine} {op : ResolvedOp}

/-- What rests and what was printed last has a price with one opposite it. -/
structure Priced (e : SoftwareEngine) : Prop extends Filled e where
  bidPrices : e.bids.Priced
  askPrices : e.asks.Priced
  last : e.matchesMade = 0 ∧ e.lastPrice = 0 ∨ e.matchesMade ≠ 0 ∧ Inner e.lastPrice

theorem Priced.new : Priced {} where
  toFilled := ⟨Ladder.filled_empty, Ladder.filled_empty⟩
  bidPrices price e he := by cases he
  askPrices price e he := by cases he
  last := .inl ⟨rfl, rfl⟩

theorem Priced.apply (h : e.Priced) (hq : op.Quoted) : (e.apply op).Priced := by
  have htape := e.apply_tape op
  have hlast : (e.apply op).matchesMade = 0 ∧ (e.apply op).lastPrice = 0 ∨
      (e.apply op).matchesMade ≠ 0 ∧ Inner (e.apply op).lastPrice := by
    split at htape
    · obtain ⟨hmade, htape⟩ := Prod.mk.inj htape
      rw [hmade, (Prod.mk.inj htape).2]
      exact .inr ⟨Nat.succ_ne_zero _, hq.inner⟩
    · obtain ⟨hmade, htape⟩ := Prod.mk.inj htape
      rw [hmade, (Prod.mk.inj htape).2]
      exact h.last
  have hfilled := h.toFilled.apply op
  by_cases ha : op.action = .add
  · have hrest : (e.apply op).bids.Priced ∧ (e.apply op).asks.Priced := by
      rw [SoftwareEngine.apply, ha]
      dsimp only
      rw [restOrder]
      split
      · exact ⟨h.bidPrices, h.askPrices⟩
      · split
        · exact ⟨h.bidPrices.pushBack hq.inner _, h.askPrices⟩
        · exact ⟨h.bidPrices, h.askPrices.pushBack hq.inner _⟩
    exact ⟨hfilled, hrest.1, hrest.2, hlast⟩
  · have hwithin := e.apply_within ha
    exact ⟨hfilled, h.bidPrices.within hwithin.bids, h.askPrices.within hwithin.asks, hlast⟩

theorem Priced.applyAll (h : e.Priced) {ops : List ResolvedOp} (hq : ∀ op ∈ ops, op.Quoted) :
    (e.applyAll ops).Priced := by
  induction ops generalizing e with
  | nil => exact h
  | cons op ops ih =>
    obtain ⟨hop, hops⟩ := List.forall_mem_cons.1 hq
    exact ih (h.apply hop) hops

theorem Priced.lastPrice_reflect (h : e.Priced) :
    e.reflect.lastPrice = oppositePrice e.lastPrice := by
  rcases h.last with ⟨hmade, hlast⟩ | ⟨hmade, hinner⟩
  · rw [reflect, hlast]
    exact if_pos hmade
  · rw [hinner.opposite]
    exact if_neg hmade

/-- A best price, or the zeros that stand for none, on the other side. -/
theorem getD_best {best best' : Option (UInt32 × UInt32)}
    (hbest : best' = best.map fun top => (~~~top.1, top.2)) (hinner : ∀ top ∈ best, Inner top.1) :
    best'.getD (0, 0) = (oppositePrice (best.getD (0, 0)).1, (best.getD (0, 0)).2) := by
  rw [hbest]
  cases best with
  | none => rfl
  | some top =>
    have hopposite := (hinner top rfl).opposite
    rw [Option.map_some, Option.getD_some, Option.getD_some, hopposite]

end SoftwareEngine

def Top.reflect (top : Top) : Top := ⟨~~~top.askPx, top.askQty, ~~~top.bidPx, top.bidQty⟩

namespace SoftwareEngine

variable {e : SoftwareEngine} {k : Nat} {b b' : BookState k}

theorem Priced.quoted {top : Top} (h : e.Priced) (ht : top ∈ e.top?) : top.event.Quoted := by
  rw [top?] at ht
  cases hb : e.bestBid with
  | none =>
    rw [hb] at ht
    cases ht
  | some bid =>
    cases ha : e.bestAsk with
    | none =>
      rw [hb, ha] at ht
      cases ht
    | some ask =>
      rw [hb, ha] at ht
      cases ht
      exact ⟨h.bidPrices.best h.bids hb, h.askPrices.best h.asks ha⟩

end SoftwareEngine

/-- The snapshots at the bell of a day and of its mirror image. -/
structure Closing.Opposes (closing closing' : Closing) : Prop where
  taken : closing'.taken = closing.taken
  bid : (closing'.bidPx, closing'.bidQty) = (oppositePrice closing.askPx, closing.askQty)
  ask : (closing'.askPx, closing'.askQty) = (oppositePrice closing.bidPx, closing.bidQty)
  micro : closing.micro.Opposes closing'.micro
  last : closing'.last = oppositePrice closing.last
  shares : closing'.shares = closing.shares
  bidLevels : closing'.bidLevels = closing.askLevels
  askLevels : closing'.askLevels = closing.bidLevels

namespace ReplayCtx
open SoftwareEngine

variable {k : Nat}

/-- The driver after a day and after its mirror image. -/
structure Opposes (c c' : ReplayCtx k) : Prop where
  book : BookState.Paired RestingOrder.Opposes c.book c'.book
  engine : c'.engine = c.engine.reflect
  priced : c.engine.Priced
  micro : c.micro.m.Opposes c'.micro.m

theorem Opposes.takeClose {c c' : ReplayCtx k} (h : c.Opposes c') (hc : c.closing = {})
    (hc' : c'.closing = {}) : c.takeClose.closing.Opposes c'.takeClose.closing := by
  have hbids (top : UInt32 × UInt32) (ht : top ∈ c.engine.bestBid) : Inner top.1 :=
    h.priced.bidPrices.best h.priced.bids ht
  have hasks (top : UInt32 × UInt32) (ht : top ∈ c.engine.bestAsk) : Inner top.1 :=
    h.priced.askPrices.best h.priced.asks ht
  rw [ReplayCtx.takeClose, ReplayCtx.takeClose, hc, hc', h.engine]
  exact {
    taken := rfl
    bid := getD_best c.engine.bestBid_reflect hasks
    ask := getD_best c.engine.bestAsk_reflect hbids
    micro := h.micro
    last := h.priced.lastPrice_reflect
    shares := rfl
    bidLevels := List.length_map _
    askLevels := List.length_map _ }

end ReplayCtx

end Tickpipe
