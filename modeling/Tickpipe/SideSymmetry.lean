import Tickpipe.Depth
import Tickpipe.Lib.Rekey
import Tickpipe.Lib.Mealy

set_option autoImplicit true

namespace Tickpipe

open Mealy (after outputs)

theorem complement_lt_iff (a b : UInt32) : ~~~a < ~~~b ↔ b < a := by
  rw [UInt32.lt_iff_toNat_lt, UInt32.lt_iff_toNat_lt, UInt32.toNat_not, UInt32.toNat_not]
  have ha := a.toNat_lt_size
  have hb := b.toNat_lt_size
  omega

/-- The prices upside down, from the order of the asks to that of the bids. -/
def toBids : RelIso (α := UInt32) (β := UInt32) (· < ·) (· > ·) where
  toFun p := ~~~p
  invFun p := ~~~p
  left_inv p := UInt32.not_not
  right_inv p := UInt32.not_not
  map_rel_iff' := by
    intro a b
    exact complement_lt_iff b a

def toAsks : RelIso (α := UInt32) (β := UInt32) (· > ·) (· < ·) where
  toFun p := ~~~p
  invFun p := ~~~p
  left_inv p := UInt32.not_not
  right_inv p := UInt32.not_not
  map_rel_iff' := by
    intro a b
    exact complement_lt_iff a b

namespace Ladder

section Turned

variable {lt lt' : UInt32 → UInt32 → Prop} (g : lt ≃r lt') (book : Ladder lt)

def turned : Ladder lt' := OrdMap.rekey g book

theorem queue_turned (price : UInt32) : (book.turned g).queue (g price) = book.queue price := by
  rw [queue, queue, turned, OrdMap.get?_rekey]

theorem first?_turned : (book.turned g).first? = book.first?.map (OrdMap.renamed g) :=
  OrdMap.first?_rekey g book

theorem best_turned : (book.turned g).best = book.best.map fun top => (g top.1, top.2) := by
  rw [best, best, first?_turned, Option.map_map, Option.map_map]
  rfl

theorem scanEntries_renamed (f : UInt32 → Option UInt32) (ref : UInt64)
    (l : List (UInt32 × Level)) :
    scanEntries f ref (l.map (OrdMap.renamed g)) =
      (scanEntries f ref l).map (OrdMap.renamed g) := by
  induction l with
  | nil => rfl
  | cons e l ih =>
    obtain ⟨price, q⟩ := e
    rw [List.map_cons, OrdMap.renamed, scanEntries, scanEntries]
    cases Level.alter f ref q with
    | none => exact ih
    | some q' => rfl

theorem walkDepth_renamed (max n : Nat) (l : List (UInt32 × Level)) :
    walkDepth max n (l.map (OrdMap.renamed g)) =
      (walkDepth max n l).map fun level => { level with price := g level.price } := by
  induction l generalizing n with
  | nil => rfl
  | cons e l ih =>
    obtain ⟨price, q⟩ := e
    rw [List.map_cons, OrdMap.renamed, walkDepth, walkDepth, ih, ih]
    split
    · rfl
    · dsimp only
      split
      · rfl
      · rfl

variable [DecidableRel lt] [DecidableRel lt'] [IsStrictTotalOrder UInt32 lt]
  [IsStrictTotalOrder UInt32 lt']

theorem pushBack_turned (price : UInt32) (entry : UInt64 × UInt32) :
    (book.turned g).pushBack (g price) entry = (book.pushBack price entry).turned g := by
  rw [pushBack, pushBack, queue_turned]
  exact OrdMap.insert_rekey g book price _

theorem settle_turned (price : UInt32) (q : Level) :
    (book.turned g).settle (g price) q = (book.settle price q).turned g := by
  rw [settle, settle]
  split
  · exact OrdMap.erase_rekey g book price
  · exact OrdMap.insert_rekey g book price q

theorem alterAt_turned (f : UInt32 → Option UInt32) (price : UInt32) (ref : UInt64) :
    (book.turned g).alterAt f (g price) ref = (book.alterAt f price ref).map (turned g) := by
  have hget : (book.turned g).get? (g price) = book.get? price := OrdMap.get?_rekey g book price
  rw [alterAt, alterAt, hget]
  cases book.get? price with
  | none => rfl
  | some q =>
    dsimp only
    rw [Option.map_map]
    congr 1
    funext q'
    exact settle_turned g book price q'

theorem scan_turned (f : UInt32 → Option UInt32) (ref : UInt64) :
    (book.turned g).scan f ref = (book.scan f ref).map (turned g) := by
  have hentries : (book.turned g).entries = book.entries.map (OrdMap.renamed g) := rfl
  rw [scan, scan, hentries, scanEntries_renamed, Option.map_map, Option.map_map]
  congr 1
  funext e
  exact settle_turned g book e.1 e.2

end Turned

end Ladder

/-- The other side; the engine takes all but a buy for a sell. -/
def Side.reflect (side : Side) : Side := if side = .buy then .sell else .buy

def Order.reflect (order : Order) : Order :=
  { order with side := order.side.reflect, price := ~~~order.price }

def ResolvedOp.reflect (op : ResolvedOp) : ResolvedOp :=
  { op with side := op.side.reflect, price := ~~~op.price }

def MatchResult.reflect (r : MatchResult) : MatchResult :=
  if r.matched then
    { r with buyOrderRef := r.sellOrderRef, sellOrderRef := r.buyOrderRef, price := ~~~r.price }
  else r

namespace SoftwareEngine

def reflect (e : SoftwareEngine) : SoftwareEngine :=
  { e with
    bids := e.asks.turned toBids
    asks := e.bids.turned toAsks
    lastPrice := if e.matchesMade = 0 then e.lastPrice else ~~~e.lastPrice }

variable (e : SoftwareEngine)

theorem reflect_buy_iff (side : Side) : side.reflect = .buy ↔ side ≠ .buy := by
  cases side <;> decide

theorem complement_le_iff (a b : UInt32) : ~~~a ≤ ~~~b ↔ b ≤ a := by
  rw [← UInt32.not_lt, complement_lt_iff, UInt32.not_lt]

theorem tryMatchSell_reflect (order : Order) :
    e.reflect.tryMatchSell order.reflect =
      ((e.tryMatchBuy order).1.reflect, (e.tryMatchBuy order).2.reflect) := by
  have hrest : e.reflect.asks.pushBack order.reflect.price (order.orderRef, order.quantity) =
      (e.bids.pushBack order.price (order.orderRef, order.quantity)).turned toAsks :=
    Ladder.pushBack_turned toAsks e.bids order.price _
  have hfirst : e.reflect.bids.first? = e.asks.first?.map (OrdMap.renamed toBids) :=
    Ladder.first?_turned toBids e.asks
  rw [tryMatchSell, tryMatchBuy, hfirst]
  cases e.asks.first? with
  | none => exact Prod.ext rfl (congrArg (fun asks => { e.reflect with asks := asks }) hrest)
  | some level =>
    obtain ⟨price, q⟩ := level
    cases q with
    | nil => exact Prod.ext rfl (congrArg (fun asks => { e.reflect with asks := asks }) hrest)
    | cons entry q =>
      have hiff : toBids price ≥ order.reflect.price ↔ price ≤ order.price :=
        complement_le_iff order.price price
      dsimp only [Option.map_some, OrdMap.renamed]
      by_cases hp : price ≤ order.price
      · rw [if_pos (hiff.2 hp), if_pos hp]
        have hhit := Ladder.settle_turned toBids e.asks price
          (if entry.2 - min order.quantity entry.2 = 0 then q
            else (entry.1, entry.2 - min order.quantity entry.2) :: q)
        exact Prod.ext rfl (congrArg (fun bids => { e.reflect with bids := bids }.countTrade
          (min order.quantity entry.2) (~~~price)) hhit)
      · rw [if_neg (mt hiff.1 hp), if_neg hp]
        exact Prod.ext rfl (congrArg (fun asks => { e.reflect with asks := asks }) hrest)

theorem tryMatchBuy_reflect (order : Order) :
    e.reflect.tryMatchBuy order.reflect =
      ((e.tryMatchSell order).1.reflect, (e.tryMatchSell order).2.reflect) := by
  have hrest : e.reflect.bids.pushBack order.reflect.price (order.orderRef, order.quantity) =
      (e.asks.pushBack order.price (order.orderRef, order.quantity)).turned toBids :=
    Ladder.pushBack_turned toBids e.asks order.price _
  have hfirst : e.reflect.asks.first? = e.bids.first?.map (OrdMap.renamed toAsks) :=
    Ladder.first?_turned toAsks e.bids
  rw [tryMatchBuy, tryMatchSell, hfirst]
  cases e.bids.first? with
  | none => exact Prod.ext rfl (congrArg (fun bids => { e.reflect with bids := bids }) hrest)
  | some level =>
    obtain ⟨price, q⟩ := level
    cases q with
    | nil => exact Prod.ext rfl (congrArg (fun bids => { e.reflect with bids := bids }) hrest)
    | cons entry q =>
      have hiff : toAsks price ≤ order.reflect.price ↔ price ≥ order.price :=
        complement_le_iff price order.price
      dsimp only [Option.map_some, OrdMap.renamed]
      by_cases hp : price ≥ order.price
      · rw [if_pos (hiff.2 hp), if_pos hp]
        have hhit := Ladder.settle_turned toAsks e.bids price
          (if entry.2 - min order.quantity entry.2 = 0 then q
            else (entry.1, entry.2 - min order.quantity entry.2) :: q)
        exact Prod.ext rfl (congrArg (fun asks => { e.reflect with asks := asks }.countTrade
          (min order.quantity entry.2) (~~~price)) hhit)
      · rw [if_neg (mt hiff.1 hp), if_neg hp]
        exact Prod.ext rfl (congrArg (fun bids => { e.reflect with bids := bids }) hrest)

/-- The reflected order is served by the reflected engine as the order is by the engine. -/
theorem submit_reflect (order : Order) :
    e.reflect.submit order.reflect = ((e.submit order).1.reflect, (e.submit order).2.reflect) := by
  have hside : order.reflect.side = .buy ↔ order.side ≠ .buy := reflect_buy_iff order.side
  rw [submit, submit]
  by_cases hbuy : order.side = .buy
  · rw [if_pos hbuy, if_neg (fun h => hside.1 h hbuy)]
    exact tryMatchSell_reflect e.counted order
  · rw [if_neg hbuy, if_pos (hside.2 hbuy)]
    exact tryMatchBuy_reflect e.counted order

theorem restOrder_reflect (side : Side) (price : UInt32) (ref : UInt64) (qty : UInt32) :
    e.reflect.restOrder side.reflect (~~~price) ref qty =
      (e.restOrder side price ref qty).reflect := by
  have hside := reflect_buy_iff side
  rw [restOrder, restOrder]
  split
  · rfl
  · by_cases hbuy : side = .buy
    · rw [if_pos hbuy, if_neg (fun h => hside.1 h hbuy)]
      exact congrArg (fun asks => { e.reflect with asks := asks })
        (Ladder.pushBack_turned toAsks e.bids price (ref, qty))
    · rw [if_neg hbuy, if_pos (hside.2 hbuy)]
      exact congrArg (fun bids => { e.reflect with bids := bids })
        (Ladder.pushBack_turned toBids e.asks price (ref, qty))

theorem alterRef_reflect (f : UInt32 → Option UInt32) (side : Side) (price : UInt32)
    (ref : UInt64) : alterRef f e.reflect side.reflect (~~~price) ref =
      (alterRef f e side price ref).map reflect := by
  have hside := reflect_buy_iff side
  have hasks : e.reflect.asks.alterAt f (~~~price) ref =
      (e.bids.alterAt f price ref).map (Ladder.turned toAsks) :=
    Ladder.alterAt_turned toAsks e.bids f price ref
  have hbids : e.reflect.bids.alterAt f (~~~price) ref =
      (e.asks.alterAt f price ref).map (Ladder.turned toBids) :=
    Ladder.alterAt_turned toBids e.asks f price ref
  rw [alterRef, alterRef]
  by_cases hbuy : side = .buy
  · rw [if_pos hbuy, if_neg (fun h => hside.1 h hbuy), hasks, Option.map_map, Option.map_map]
    rfl
  · rw [if_neg hbuy, if_pos (hside.2 hbuy), hbids, Option.map_map, Option.map_map]
    rfl

theorem scanRef_reflect (side : Side) (ref : UInt64) (qty : UInt32) :
    e.reflect.scanRef side.reflect ref qty = (e.scanRef side ref qty).map reflect := by
  have hside := reflect_buy_iff side
  have hasks : e.reflect.asks.scan (shrunk qty) ref =
      (e.bids.scan (shrunk qty) ref).map (Ladder.turned toAsks) :=
    Ladder.scan_turned toAsks e.bids (shrunk qty) ref
  have hbids : e.reflect.bids.scan (shrunk qty) ref =
      (e.asks.scan (shrunk qty) ref).map (Ladder.turned toBids) :=
    Ladder.scan_turned toBids e.asks (shrunk qty) ref
  rw [scanRef, scanRef]
  by_cases hbuy : side = .buy
  · rw [if_pos hbuy, if_neg (fun h => hside.1 h hbuy), hasks, Option.map_map, Option.map_map]
    rfl
  · rw [if_neg hbuy, if_pos (hside.2 hbuy), hbids, Option.map_map, Option.map_map]
    rfl

theorem getD_reflect (o : Option SoftwareEngine) :
    (o.map reflect).getD e.reflect.countOrphan = (o.getD e.countOrphan).reflect := by
  cases o <;> rfl

theorem executeBook_reflect (op : ResolvedOp) :
    e.reflect.executeBook op.reflect = (e.executeBook op).reflect := by
  have hreduce : e.reflect.reduceRef op.reflect.side op.reflect.price op.orderRef op.quantity =
      (e.reduceRef op.side op.price op.orderRef op.quantity).map reflect :=
    alterRef_reflect e (shrunk op.quantity) op.side op.price op.orderRef
  have hscan : e.reflect.scanRef op.reflect.side op.orderRef op.quantity =
      (e.scanRef op.side op.orderRef op.quantity).map reflect :=
    scanRef_reflect e op.side op.orderRef op.quantity
  rw [executeBook, executeBook]
  dsimp only [ResolvedOp.reflect] at hreduce hscan ⊢
  rw [hreduce, hscan]
  cases e.reduceRef op.side op.price op.orderRef op.quantity with
  | some e' => rfl
  | none => exact getD_reflect e _

theorem apply_reflect (op : ResolvedOp) : e.reflect.apply op.reflect = (e.apply op).reflect := by
  have haction : op.reflect.action = op.action := rfl
  rw [apply, apply, haction]
  cases op.action with
  | add =>
    exact congrArg counted (restOrder_reflect e op.side op.price op.orderRef op.quantity)
  | execute =>
    have hnumber : op.reflect.matchNumber = op.matchNumber := rfl
    dsimp only
    rw [executeBook_reflect, hnumber]
    split
    · rfl
    · rfl
  | cancel =>
    have hreduce := alterRef_reflect e (shrunk op.quantity) op.side op.price op.orderRef
    exact (congrArg (·.getD e.reflect.countOrphan) hreduce).trans (getD_reflect e _)
  | delete =>
    have hremove := alterRef_reflect e (fun _ => none) op.side op.price op.orderRef
    exact (congrArg (·.getD e.reflect.countOrphan) hremove).trans (getD_reflect e _)
  | trade => rfl
  | replace => rfl
  | none => rfl

/-- What is read of the one side is read of the other. -/
theorem depth_reflect (side : Side) (max : Nat) : e.reflect.depth side.reflect max =
    (e.depth side max).map fun level => { level with price := ~~~level.price } := by
  have hside := reflect_buy_iff side
  rw [depth, depth]
  by_cases hbuy : side = .buy
  · rw [if_pos hbuy, if_neg (fun h => hside.1 h hbuy)]
    exact Ladder.walkDepth_renamed toAsks max 0 e.bids.entries
  · rw [if_neg hbuy, if_pos (hside.2 hbuy)]
    exact Ladder.walkDepth_renamed toBids max 0 e.asks.entries

theorem bestBid_reflect : e.reflect.bestBid = e.bestAsk.map fun top => (~~~top.1, top.2) :=
  Ladder.best_turned toBids e.asks

theorem bestAsk_reflect : e.reflect.bestAsk = e.bestBid.map fun top => (~~~top.1, top.2) :=
  Ladder.best_turned toAsks e.bids

theorem reflect_new : ({} : SoftwareEngine).reflect = {} := rfl

inductive Call where
  | submit (order : Order)
  | apply (op : ResolvedOp)

def Call.reflect : Call → Call
  | .submit order => .submit order.reflect
  | .apply op => .apply op.reflect

/-- A call, with the result of a submission. -/
def perform (e : SoftwareEngine) : Call → Option MatchResult × SoftwareEngine
  | .submit order => (some (e.submit order).1, (e.submit order).2)
  | .apply op => (none, e.apply op)

theorem perform_reflect (call : Call) : e.reflect.perform call.reflect =
    ((e.perform call).1.map MatchResult.reflect, (e.perform call).2.reflect) := by
  cases call with
  | submit order =>
    rw [Call.reflect, perform, submit_reflect]
    rfl
  | apply op =>
    rw [Call.reflect, perform, apply_reflect]
    rfl

end SoftwareEngine

theorem run_reflect (calls : List SoftwareEngine.Call) (e : SoftwareEngine) :
    outputs SoftwareEngine.perform e.reflect (calls.map (·.reflect)) =
        (outputs SoftwareEngine.perform e calls).map (Option.map MatchResult.reflect) ∧
      after SoftwareEngine.perform e.reflect (calls.map (·.reflect)) =
        (after SoftwareEngine.perform e calls).reflect := by
  induction calls generalizing e with
  | nil => exact ⟨rfl, rfl⟩
  | cons call calls ih =>
    have hstep := e.perform_reflect call
    obtain ⟨houtputs, hafter⟩ := ih (e.perform call).2
    rw [List.map_cons, outputs, after, outputs, after, hstep]
    exact ⟨congrArg (_ :: ·) houtputs, hafter⟩

/-- Buying and selling are each other's image: a run on the reflected calls gives the reflected
results, and its book reads as the book of the run with the sides swapped. -/
theorem sides_symmetric (calls : List SoftwareEngine.Call) (side : Side) (max : Nat) :
    let book := after SoftwareEngine.perform {} calls
    let mirrored := after SoftwareEngine.perform {} (calls.map (·.reflect))
    outputs SoftwareEngine.perform {} (calls.map (·.reflect)) =
        (outputs SoftwareEngine.perform {} calls).map (Option.map MatchResult.reflect) ∧
      mirrored = book.reflect ∧
      mirrored.depth side.reflect max =
        (book.depth side max).map (fun level => { level with price := ~~~level.price }) ∧
      mirrored.bestBid = book.bestAsk.map (fun top => (~~~top.1, top.2)) ∧
      mirrored.bestAsk = book.bestBid.map (fun top => (~~~top.1, top.2)) := by
  obtain ⟨houtputs, hafter⟩ := run_reflect calls {}
  rw [SoftwareEngine.reflect_new] at houtputs hafter
  intro book mirrored
  have hmirrored : mirrored = book.reflect := hafter
  rw [hmirrored]
  exact ⟨houtputs, rfl, book.depth_reflect side max, book.bestBid_reflect, book.bestAsk_reflect⟩

end Tickpipe
