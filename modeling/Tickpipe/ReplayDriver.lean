import Tickpipe.Depth
import Tickpipe.BookDigest
import Tickpipe.OpDigest
import Tickpipe.UnchangedTops
import Mathlib.Data.List.TakeWhile

set_option autoImplicit true

namespace Tickpipe

open Mealy (after)
open Microstructure (step)

/-- `MARKET_CLOSE`: 16:00 in nanoseconds since midnight. -/
def marketClose : UInt64 := 57600000000000

/-- The fields of `ReplayCtx` that are taken at the closing bell. -/
structure Closing where
  taken : Bool := false
  digest : UInt64 := 0
  bidPx : UInt32 := 0
  bidQty : UInt32 := 0
  askPx : UInt32 := 0
  askQty : UInt32 := 0
  micro : Metrics := {}
  last : UInt32 := 0
  shares : UInt64 := 0
  bidLevels : Nat := 0
  askLevels : Nat := 0

structure ReplayCtx (k : Nat) where
  book : BookState k
  engine : SoftwareEngine := {}
  micro : Microstructure := {}
  last : Top := ⟨0, 0, 0, 0⟩
  closing : Closing := {}

namespace ReplayCtx

/-- The bell: `best_bid` and `best_ask` leave their arguments alone where a side is empty. -/
def takeClose (c : ReplayCtx k) : ReplayCtx k :=
  let bid := c.engine.bestBid.getD (c.closing.bidPx, c.closing.bidQty)
  let ask := c.engine.bestAsk.getD (c.closing.askPx, c.closing.askQty)
  { c with closing := {
      taken := true
      digest := c.engine.bookDigest
      bidPx := bid.1
      bidQty := bid.2
      askPx := ask.1
      askQty := ask.2
      micro := c.micro.m
      last := c.engine.lastPrice
      shares := c.engine.sharesTraded
      bidLevels := c.engine.bids.entries.length
      askLevels := c.engine.asks.entries.length } }

/-- A printed execution is a trade; the aggressor is opposite the resting order. -/
def applyOp (c : ReplayCtx k) (op : ResolvedOp) : ReplayCtx k :=
  let c := { c with engine := c.engine.apply op }
  if (op.action = .execute ∨ op.action = .trade) ∧ op.matchNumber ≠ 0 then
    { c with micro := (c.micro.onTrade op.price op.quantity (op.side = .sell)).2 }
  else c

/-- The analytics are told of the top only when it moved. -/
def observe (c : ReplayCtx k) : ReplayCtx k :=
  match c.engine.bestBid, c.engine.bestAsk with
  | some (bidPx, bidQty), some (askPx, askQty) =>
    if ⟨bidPx, bidQty, askPx, askQty⟩ ≠ c.last then
      { c with
        micro := (c.micro.onBook bidPx bidQty askPx askQty).2
        last := ⟨bidPx, bidQty, askPx, askQty⟩ }
    else c
  | some _, none | none, _ => c

def onMessage (c : ReplayCtx k) (msg : Order) : ReplayCtx k :=
  let c := if ¬ c.closing.taken ∧ msg.timestampNs ≥ marketClose then c.takeClose else c
  match c.book.resolve msg with
  | (none, book) => { c with book := book }
  | (some ops, book) => (ops.foldl applyOp { c with book := book }).observe

/-- `replay_all` with `on_message` over the orders that it passes on. -/
def run (c : ReplayCtx k) (msgs : List Order) : ReplayCtx k := msgs.foldl onMessage c

end ReplayCtx

namespace SoftwareEngine

def top? (e : SoftwareEngine) : Option Top :=
  match e.bestBid, e.bestAsk with
  | some (bidPx, bidQty), some (askPx, askQty) => some ⟨bidPx, bidQty, askPx, askQty⟩
  | some _, none | none, _ => none

def tradeEvents (ops : List ResolvedOp) : List MarketEvent :=
  (ops.filter fun op => (op.action = .execute ∨ op.action = .trade) ∧ op.matchNumber ≠ 0).map
    fun op => .trade op.price op.quantity (op.side = .sell)

/-- All calls that the messages make for: every print, and every top of a book of two sides. -/
def marketEvents (b : BookState k) (e : SoftwareEngine) : List Order → List MarketEvent
  | [] => []
  | msg :: msgs =>
    match b.resolve msg with
    | (none, b) => marketEvents b e msgs
    | (some ops, b) =>
      tradeEvents ops ++ (e.applyAll ops).top?.toList.map Top.event ++
        marketEvents b (e.applyAll ops) msgs

end SoftwareEngine

namespace ReplayCtx
open SoftwareEngine

variable {c : ReplayCtx k}

theorem tradeEvents_cons (op : ResolvedOp) (ops : List ResolvedOp) :
    tradeEvents (op :: ops) =
      if (op.action = .execute ∨ op.action = .trade) ∧ op.matchNumber ≠ 0 then
        .trade op.price op.quantity (op.side = .sell) :: tradeEvents ops
      else tradeEvents ops := by
  rw [tradeEvents, List.filter_cons]
  by_cases h : (op.action = .execute ∨ op.action = .trade) ∧ op.matchNumber ≠ 0
  · rw [if_pos h, if_pos (decide_eq_true h)]
    rfl
  · rw [if_neg h, if_neg (by rw [decide_eq_true_iff]; exact h)]
    rfl

theorem foldl_applyOp (c : ReplayCtx k) (ops : List ResolvedOp) :
    ops.foldl applyOp c = { c with
      engine := c.engine.applyAll ops
      micro := after step c.micro (tradeEvents ops) } := by
  induction ops generalizing c with
  | nil => rfl
  | cons op ops ih =>
    rw [List.foldl_cons, ih, tradeEvents_cons, applyOp]
    split
    · rfl
    · rfl

theorem next_tradeEvents (last : Option Top) (ops : List ResolvedOp) :
    (tradeEvents ops).foldl Top.next last = last := by
  rw [tradeEvents, List.foldl_map]
  exact List.foldl_fixed _

theorem skipUnchanged_append (last : Option Top) (events events' : List MarketEvent) :
    skipUnchanged last (events ++ events') =
      skipUnchanged last events ++ skipUnchanged (events.foldl Top.next last) events' :=
  Mealy.kept_append _ _ _ _ _

theorem skipUnchanged_tradeEvents (last : Option Top) (ops : List ResolvedOp) :
    skipUnchanged last (tradeEvents ops) = tradeEvents ops := by
  rw [tradeEvents]
  induction ops.filter fun op =>
      (op.action = .execute ∨ op.action = .trade) ∧ op.matchNumber ≠ 0 with
  | nil => rfl
  | cons op ops ih => exact congrArg (_ :: ·) ih

theorem observe_eq (c : ReplayCtx k) :
    c.observe = { c with
      micro := after step c.micro
        (skipUnchanged (some c.last) (c.engine.top?.toList.map Top.event))
      last := c.engine.top?.getD c.last } := by
  rw [observe, top?]
  cases c.engine.bestBid with
  | none => rfl
  | some bid =>
    cases c.engine.bestAsk with
    | none => rfl
    | some ask =>
      dsimp only
      rw [skipUnchanged, Option.toList_some, List.map_singleton, Mealy.kept, Top.event, Top.repeats]
      by_cases h : (⟨bid.1, bid.2, ask.1, ask.2⟩ : Top) = c.last
      · rw [if_neg (not_not.2 h), if_pos (decide_eq_true (congrArg some h.symm))]
        rw [Option.getD_some, h]
        rfl
      · have hne : ¬ some c.last = some (⟨bid.1, bid.2, ask.1, ask.2⟩ : Top) :=
          fun he => h (Option.some.inj he).symm
        rw [if_pos h, if_neg (by rw [decide_eq_true_iff]; exact hne)]
        rfl

theorem next_top (last : Top) (top : Option Top) :
    (top.toList.map Top.event).foldl Top.next (some last) = some (top.getD last) := by
  cases top <;> rfl

/-- What the bell leaves in a context when this message comes. -/
def bell (c : ReplayCtx k) (msg : Order) : Closing :=
  if ¬ c.closing.taken ∧ msg.timestampNs ≥ marketClose then c.takeClose.closing else c.closing

theorem onMessage_none (hr : c.book.resolve msg = (none, b)) :
    c.onMessage msg = { c with book := b, closing := c.bell msg } := by
  rw [onMessage, bell]
  by_cases h : ¬ c.closing.taken ∧ msg.timestampNs ≥ marketClose
  · rw [if_pos h, if_pos h]
    dsimp only [takeClose]
    rw [hr]
  · rw [if_neg h, if_neg h, hr]

theorem onMessage_some (hr : c.book.resolve msg = (some ops, b)) :
    c.onMessage msg = {
      book := b
      engine := c.engine.applyAll ops
      micro := after step c.micro (skipUnchanged (some c.last)
        (tradeEvents ops ++ (c.engine.applyAll ops).top?.toList.map Top.event))
      last := (c.engine.applyAll ops).top?.getD c.last
      closing := c.bell msg } := by
  have happly (c' : ReplayCtx k) (he : c'.engine = c.engine) (hm : c'.micro = c.micro)
      (hl : c'.last = c.last) : (ops.foldl applyOp c').observe = {
        book := c'.book
        engine := c.engine.applyAll ops
        micro := after step c.micro (skipUnchanged (some c.last)
          (tradeEvents ops ++ (c.engine.applyAll ops).top?.toList.map Top.event))
        last := (c.engine.applyAll ops).top?.getD c.last
        closing := c'.closing } := by
    rw [foldl_applyOp, observe_eq, he, hm, hl, skipUnchanged_append, Mealy.after_append,
      skipUnchanged_tradeEvents, next_tradeEvents]
  rw [onMessage, bell]
  by_cases h : ¬ c.closing.taken ∧ msg.timestampNs ≥ marketClose
  · rw [if_pos h, if_pos h]
    dsimp only [takeClose]
    rw [hr]
    exact happly _ rfl rfl rfl
  · rw [if_neg h, if_neg h, hr]
    exact happly _ rfl rfl rfl

theorem run_cons (c : ReplayCtx k) (msg : Order) (msgs : List Order) :
    c.run (msg :: msgs) = (c.onMessage msg).run msgs :=
  rfl

/-- The table, the engine and the analytics run as they would without the driver. -/
structure Reports (c c' : ReplayCtx k) (msgs : List Order) : Prop where
  book : c'.book = after BookState.resolve c.book msgs
  engine : c'.engine = c.engine.applyAll (c.book.opsOf msgs)
  micro : c'.micro =
    after step c.micro (skipUnchanged (some c.last) (marketEvents c.book c.engine msgs))

theorem run_reports (c : ReplayCtx k) (msgs : List Order) : Reports c (c.run msgs) msgs := by
  induction msgs generalizing c with
  | nil => exact ⟨rfl, rfl, rfl⟩
  | cons msg msgs ih =>
    have hrest := ih (c.onMessage msg)
    rw [run_cons]
    cases hr : c.book.resolve msg with
    | mk ops b =>
      cases ops with
      | none =>
        rw [onMessage_none hr] at hrest ⊢
        constructor
        case book => rw [hrest.book, after, hr]
        case engine =>
          rw [hrest.engine, BookState.opsOf_cons, hr]
          rfl
        case micro =>
          rw [hrest.micro, marketEvents, hr]
      | some ops =>
        rw [onMessage_some hr] at hrest ⊢
        constructor
        case book => rw [hrest.book, after, hr]
        case engine =>
          rw [hrest.engine, BookState.opsOf_cons, hr, SoftwareEngine.applyAll,
            SoftwareEngine.applyAll, SoftwareEngine.applyAll, ← List.foldl_append]
          rfl
        case micro =>
          rw [hrest.micro, marketEvents, hr]
          dsimp only
          rw [skipUnchanged_append _ (_ ++ _), Mealy.after_append, List.foldl_append,
            next_tradeEvents, next_top]

theorem closing_onMessage (c : ReplayCtx k) (msg : Order) :
    (c.onMessage msg).closing = c.bell msg := by
  cases hr : c.book.resolve msg with
  | mk ops b =>
    cases ops with
    | none => rw [onMessage_none hr]
    | some ops => rw [onMessage_some hr]

theorem closing_taken (h : c.closing.taken = true) (msgs : List Order) :
    (c.run msgs).closing = c.closing := by
  induction msgs generalizing c with
  | nil => rfl
  | cons msg msgs ih =>
    have hbell : c.bell msg = c.closing := if_neg fun hring => hring.1 h
    have hstep := (closing_onMessage c msg).trans hbell
    rw [run_cons, ih (hstep ▸ h), hstep]

def beforeClose (msgs : List Order) : List Order :=
  msgs.takeWhile fun msg => msg.timestampNs < marketClose

/-- The bell is rung by the first message at or past it, and before that message is applied. -/
theorem closing_run (h : c.closing.taken = false) (msgs : List Order) :
    (c.run msgs).closing =
      if ∃ msg ∈ msgs, msg.timestampNs ≥ marketClose then
        (c.run (beforeClose msgs)).takeClose.closing
      else c.closing := by
  induction msgs generalizing c with
  | nil => rfl
  | cons msg msgs ih =>
    rw [run_cons, beforeClose]
    by_cases hlate : msg.timestampNs ≥ marketClose
    · have hbell : c.bell msg = c.takeClose.closing :=
        if_pos ⟨by rw [h]; exact Bool.false_ne_true, hlate⟩
      have hstep := (closing_onMessage c msg).trans hbell
      have htaken : (c.onMessage msg).closing.taken = true := hstep ▸ rfl
      rw [closing_taken htaken, hstep, if_pos ⟨msg, List.mem_cons_self, hlate⟩,
        List.takeWhile_cons, if_neg (by rw [decide_eq_true_iff]; exact UInt64.not_lt.2 hlate)]
      rfl
    · have hbell : c.bell msg = c.closing := if_neg fun hring => hlate hring.2
      have hstep := (closing_onMessage c msg).trans hbell
      have hmore : (∃ msg' ∈ msg :: msgs, msg'.timestampNs ≥ marketClose) ↔
          ∃ msg' ∈ msgs, msg'.timestampNs ≥ marketClose := by
        simp only [List.mem_cons, exists_eq_or_imp, or_iff_right hlate]
      rw [ih (hstep ▸ h), hstep, if_congr hmore rfl rfl,
        List.takeWhile_cons, if_pos (decide_eq_true (UInt64.not_le.1 hlate)), run_cons]
      rfl

theorem closing_beforeClose (h : c.closing.taken = false) (msgs : List Order) :
    (c.run (beforeClose msgs)).closing = c.closing := by
  have hearly : ¬ ∃ msg ∈ beforeClose msgs, msg.timestampNs ≥ marketClose := by
    rintro ⟨msg, hmem, hlate⟩
    have hbell := List.mem_takeWhile_imp
      (p := fun msg : Order => decide (msg.timestampNs < marketClose)) hmem
    exact UInt64.not_le.2 (of_decide_eq_true hbell) hlate
  rw [closing_run h, if_neg hearly]

end ReplayCtx

/-- The report at the bell: the book that the messages before it leave, and the metrics of every
print and every two-sided top that moved before it, whatever came later. But for the counts of
updates and of degenerate books these are the metrics of all tops. -/
structure BellReport (b : BookState k) (msgs : List Order) (closing : Closing) : Prop where
  taken : closing.taken = true ↔ ∃ msg ∈ msgs, msg.timestampNs ≥ marketClose
  untaken : closing.taken = false → closing = {}
  book : closing.taken = true →
    let e := ({} : SoftwareEngine).applyAll (b.opsOf (ReplayCtx.beforeClose msgs))
    closing.digest = e.bookDigest ∧
      (closing.bidPx, closing.bidQty) = e.bestBid.getD (0, 0) ∧
      (closing.askPx, closing.askQty) = e.bestAsk.getD (0, 0) ∧
      closing.last = e.lastPrice ∧ closing.shares = e.sharesTraded ∧
      closing.bidLevels = e.bids.entries.length ∧ closing.askLevels = e.asks.entries.length
  micro : closing.taken = true →
    let events := SoftwareEngine.marketEvents b {} (ReplayCtx.beforeClose msgs)
    closing.micro = (after step {} (skipUnchanged (some ⟨0, 0, 0, 0⟩) events)).m ∧
      closing.micro.uncounted = (after step {} events).m.uncounted

/-- The closing snapshot is a function of the messages before the first one past the bell. -/
theorem bell_report (b : BookState k) (msgs : List Order) :
    BellReport b msgs (ReplayCtx.run { book := b } msgs).closing := by
  have hrun := ReplayCtx.closing_run (c := { book := b }) rfl msgs
  have hbefore := ReplayCtx.closing_beforeClose (c := { book := b }) rfl msgs
  have hreports := ReplayCtx.run_reports { book := b } (ReplayCtx.beforeClose msgs)
  by_cases hlate : ∃ msg ∈ msgs, msg.timestampNs ≥ marketClose
  · rw [hrun, if_pos hlate]
    constructor
    case taken => exact ⟨fun _ => hlate, fun _ => rfl⟩
    case untaken =>
      intro h
      cases h
    case book =>
      intro _
      dsimp only [ReplayCtx.takeClose]
      rw [hbefore, hreports.engine]
      exact ⟨rfl, rfl, rfl, rfl, rfl, rfl, rfl⟩
    case micro =>
      intro _
      dsimp only [ReplayCtx.takeClose]
      rw [hreports.micro]
      exact ⟨rfl, (Microstructure.skipUnchanged_driver _).symm⟩
  · rw [hrun, if_neg hlate]
    constructor
    case taken => exact ⟨nofun, fun h => absurd h hlate⟩
    case untaken => exact fun _ => rfl
    case book => exact nofun
    case micro => exact nofun

/-- The four fields are set, and the book is locked or crossed. -/
def Top.Degenerate (top : Top) : Prop :=
  ¬ (top.bidPx = 0 ∨ top.askPx = 0 ∨ top.bidQty = 0 ∨ top.askQty = 0) ∧ top.bidPx ≥ top.askPx

instance (top : Top) : Decidable top.Degenerate :=
  inferInstanceAs (Decidable (_ ∧ _))

namespace Microstructure

variable {s : Microstructure}

theorem degenerateBooks_onTrade (s : Microstructure) (px qty : UInt32) (buyerInitiated : Bool) :
    (s.onTrade px qty buyerInitiated).2.m.degenerateBooks = s.m.degenerateBooks := by
  have hspread (mid : Int) : (s.addSpread mid px).Yields fun s' =>
      s'.m.degenerateBooks = s.m.degenerateBooks := by
    rw [addSpread]
    exact .bind fun double => .bind fun d => .bind fun d => .bind fun d => .bind fun sum =>
      .pure rfl
  have himpact (t : Microstructure) (mid v : Int) : (t.addImpact mid v).Yields fun s' =>
      s'.m.degenerateBooks = t.m.degenerateBooks := by
    rw [addImpact]
    refine .bind fun dp => .bind fun product => .bind fun sumDpV => .bind fun square =>
      .bind fun square => .bind fun sumVSq => ?_
    dsimp only
    split
    · exact .bind fun num => .bind fun den => .bind fun q => .bind fun lambda => .pure rfl
    · exact .pure rfl
  have htrade : (s.trade px qty buyerInitiated).Yields fun s' =>
      s'.m.degenerateBooks = s.m.degenerateBooks := by
    rw [trade]
    refine .bind fun mid => (hspread mid).next fun t ht => .bind fun v => ?_
    have hnext : (if t.prevTradeMidX2 > 0 then t.addImpact mid v else pure t).Yields
        fun s' => s'.m.degenerateBooks = s.m.degenerateBooks := by
      split
      · exact (himpact t mid v).imp fun s' h => h.trans ht
      · exact .pure ht
    exact hnext.next fun u hu => .pure hu
  rw [onTrade]
  split
  · rfl
  · exact htrade

theorem degenerateBooks_onBook (s : Microstructure) (top : Top) :
    (s.step top.event).2.m.degenerateBooks =
      s.m.degenerateBooks + if top.Degenerate then 1 else 0 := by
  rw [Top.event, step, onBook]
  by_cases hzero : top.bidPx = 0 ∨ top.askPx = 0 ∨ top.bidQty = 0 ∨ top.askQty = 0
  · rw [if_pos hzero, if_neg fun h : top.Degenerate => h.1 hzero]
    rfl
  · rw [if_neg hzero]
    by_cases hcross : top.bidPx ≥ top.askPx
    · rw [if_pos hcross, if_pos (show top.Degenerate from ⟨hzero, hcross⟩)]
    · obtain ⟨sum, root, hv⟩ := volatility_value
        (s.quote top.bidPx top.bidQty top.askPx top.askQty).value top.bidPx top.askPx
      rw [if_neg hcross, if_neg fun h : top.Degenerate => hcross h.2]
      dsimp only
      rw [hv, quote_eq_prices]
      rfl

theorem degenerateBooks_tradeEvents (s : Microstructure) (ops : List ResolvedOp) :
    (after step s (SoftwareEngine.tradeEvents ops)).m.degenerateBooks = s.m.degenerateBooks := by
  rw [SoftwareEngine.tradeEvents]
  induction ops.filter fun op =>
      (op.action = .execute ∨ op.action = .trade) ∧ op.matchNumber ≠ 0 generalizing s with
  | nil => rfl
  | cons op ops ih => exact (ih _).trans (degenerateBooks_onTrade s _ _ _)

end Microstructure

namespace ReplayCtx
open SoftwareEngine Microstructure

variable {c : ReplayCtx k}

/-- A two-sided top has been seen, and if it was degenerate, counted. -/
structure Counted (c : ReplayCtx k) : Prop where
  seen : ∀ top ∈ c.engine.top?, c.last = top
  counted : c.last.Degenerate → c.micro.m.degenerateBooks ≠ 0

/-- The book is not locked or crossed. -/
def Sane (c : ReplayCtx k) : Prop := ∀ top ∈ c.engine.top?, ¬ top.Degenerate

theorem Counted.sane (h : c.Counted) (hzero : c.micro.m.degenerateBooks = 0) : c.Sane :=
  fun top htop hdeg => h.counted (h.seen top htop ▸ hdeg) hzero

theorem degenerateBooks_top (s : Microstructure) (last top : Top) :
    (after step s (skipUnchanged (some last) [top.event])).m.degenerateBooks =
      s.m.degenerateBooks + if top ≠ last ∧ top.Degenerate then 1 else 0 := by
  rw [skipUnchanged, Mealy.kept, Top.event, Top.repeats]
  by_cases hsame : last = top
  · rw [if_pos (decide_eq_true (congrArg some hsame)), if_neg fun h => h.1 hsame.symm]
    rfl
  · have hne : ¬ some last = some top := fun he => hsame (Option.some.inj he)
    rw [if_neg (by rw [decide_eq_true_iff]; exact hne), if_congr (and_iff_right (Ne.symm hsame)) rfl
      rfl]
    exact degenerateBooks_onBook s top

/-- A degenerate top is counted now, unless it was counted when it was new. -/
theorem counted_top {last top : Top} {n n' : Nat}
    (hcount : n' = n + if top ≠ last ∧ top.Degenerate then 1 else 0)
    (hseen : top = last → top.Degenerate → n ≠ 0) :
    (top.Degenerate → n' ≠ 0) ∧ (n' = 0 ↔ n = 0 ∧ ¬ top.Degenerate) := by
  by_cases hdeg : top.Degenerate
  · have hne : n' ≠ 0 := by
      by_cases hsame : top = last
      · have hn := hseen hsame hdeg
        omega
      · rw [hcount, if_pos ⟨hsame, hdeg⟩]
        exact Nat.succ_ne_zero n
    exact ⟨fun _ => hne, fun hzero => absurd hzero hne, fun hboth => absurd hdeg hboth.2⟩
  · rw [if_neg fun hboth => hdeg hboth.2, Nat.add_zero] at hcount
    rw [hcount]
    exact ⟨fun h => absurd h hdeg, fun hzero => ⟨hzero, hdeg⟩, And.left⟩

theorem Counted.onMessage (h : c.Counted) (msg : Order) :
    (c.onMessage msg).Counted ∧ ((c.onMessage msg).micro.m.degenerateBooks = 0 ↔
      c.micro.m.degenerateBooks = 0 ∧ (c.onMessage msg).Sane) := by
  cases hr : c.book.resolve msg with
  | mk ops b =>
    cases ops with
    | none =>
      rw [onMessage_none hr]
      exact ⟨⟨h.seen, h.counted⟩, ⟨fun hzero => ⟨hzero, h.sane hzero⟩, And.left⟩⟩
    | some ops =>
      rw [onMessage_some hr, skipUnchanged_append, Mealy.after_append, skipUnchanged_tradeEvents,
        next_tradeEvents]
      cases htop : (c.engine.applyAll ops).top? with
      | none =>
        have hcount := degenerateBooks_tradeEvents c.micro ops
        have hsane : ∀ top ∈ (c.engine.applyAll ops).top?, ¬ top.Degenerate := by
          rw [htop]
          exact nofun
        refine ⟨⟨?_, fun hdeg => hcount ▸ h.counted hdeg⟩, ?_⟩
        · rw [htop]
          exact nofun
        · exact ⟨fun hzero => ⟨hcount ▸ hzero, hsane⟩, fun hboth => hcount.trans hboth.1⟩
      | some top =>
        have hcount := degenerateBooks_top (after step c.micro (tradeEvents ops)) c.last top
        rw [degenerateBooks_tradeEvents] at hcount
        rw [Option.toList_some, List.map_singleton, Option.getD_some]
        obtain ⟨hcounted, hzero⟩ := counted_top hcount fun hsame hdeg => h.counted (hsame ▸ hdeg)
        have hseen : ∀ top' ∈ (c.engine.applyAll ops).top?, top = top' := by
          rw [htop]
          exact fun top' hsome => Option.some.inj hsome
        have hsane : (∀ top' ∈ (c.engine.applyAll ops).top?, ¬ top'.Degenerate) ↔
            ¬ top.Degenerate :=
          ⟨fun hall => hall top htop, fun hnot top' hsome => hseen top' hsome ▸ hnot⟩
        exact ⟨⟨hseen, hcounted⟩, hzero.trans (and_congr_right' hsane.symm)⟩

theorem Counted.run (h : c.Counted) (msgs : List Order) :
    (c.run msgs).micro.m.degenerateBooks = 0 ↔
      c.micro.m.degenerateBooks = 0 ∧ ∀ n, (c.run (msgs.take n)).Sane := by
  induction msgs generalizing c with
  | nil =>
    constructor
    · intro hzero
      refine ⟨hzero, fun n => ?_⟩
      rw [List.take_nil]
      exact h.sane hzero
    · exact And.left
  | cons msg msgs ih =>
    obtain ⟨hnext, hiff⟩ := h.onMessage msg
    rw [run_cons, ih hnext, hiff]
    constructor
    · rintro ⟨⟨hzero, -⟩, hrest⟩
      refine ⟨hzero, fun n => ?_⟩
      cases n with
      | zero => exact h.sane hzero
      | succ n => exact hrest n
    · rintro ⟨hzero, hall⟩
      exact ⟨⟨hzero, hall 1⟩, fun n => hall (n + 1)⟩

end ReplayCtx

/-- The driver counts no degenerate book exactly when no message of the day leaves a locked or
crossed book behind. -/
theorem degenerate_books_zero_iff (b : BookState k) (msgs : List Order) :
    (ReplayCtx.run { book := b } msgs).micro.m.degenerateBooks = 0 ↔
      ∀ n, ∀ top ∈ (({} : SoftwareEngine).applyAll (b.opsOf (msgs.take n))).top?,
        ¬ top.Degenerate := by
  have hstart : ({ book := b } : ReplayCtx k).Counted := by
    refine ⟨nofun, ?_⟩
    intro hdeg
    exact absurd (Or.inl rfl) hdeg.1
  rw [hstart.run msgs]
  constructor
  · rintro ⟨-, hall⟩ n
    rw [← (ReplayCtx.run_reports { book := b } (msgs.take n)).engine]
    exact hall n
  · intro hall
    refine ⟨rfl, fun n => ?_⟩
    rw [ReplayCtx.Sane, (ReplayCtx.run_reports { book := b } (msgs.take n)).engine]
    exact hall n

end Tickpipe
