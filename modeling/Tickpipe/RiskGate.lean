import Tickpipe.LogState
import Tickpipe.Lockstep
import Tickpipe.RiskLimit
import Tickpipe.OpDigest

set_option autoImplicit true

namespace Tickpipe

open Mealy (EachStep outputs after)

namespace RiskEngine

variable {r : RiskEngine}

/-- What is kept for an instrument, or would be if it were named. -/
def quoted (r : RiskEngine) (stock : Stock) : Account := (r.lookup stock).getD {}

/-- What `check` answers, by the account of the instrument alone. -/
def verdict (r : RiskEngine) (order : Order) : RiskResult :=
  (screen order).getD
    (assess (r.quoted order.stock).refPrice (r.quoted order.stock).netPosition order)

def Flat (r : RiskEngine) : Prop := ∀ stock, r.position stock = 0

theorem Valid.check_verdict (hr : r.Valid) (ha : r.Admits order.stock) :
    (r.check order).1 = r.verdict order := by
  have hstep := (hr.step (.check order) fun _ => ha).1
  rw [RiskCall.step, RiskCall.own] at hstep
  rw [verdict, quoted]
  cases hs : screen order with
  | some reason =>
    rw [hs] at hstep
    exact Option.some.inj hstep
  | none =>
    rw [hs] at hstep
    exact Option.some.inj hstep

/-- A check changes no account; it may open one. -/
theorem Valid.check_quoted (hr : r.Valid) (ha : r.Admits order.stock) (stock : Stock) :
    (r.check order).2.quoted stock = r.quoted stock := by
  have hstep := (hr.step (.check order) fun _ => ha).2
  rw [RiskCall.step, RiskCall.own] at hstep
  have hlookup : (r.check order).2.lookup = _ := hstep
  rw [quoted, quoted, hlookup]
  by_cases he : stock = order.stock
  · subst he
    rw [RiskCall.stock, Function.update_self]
    cases screen order <;> rfl
  · rw [RiskCall.stock, Function.update_of_ne he]

theorem Valid.check_names (hr : r.Valid) (ha : r.Admits order.stock) :
    (r.check order).2.names ⊆ insert order.stock r.names := by
  have hvalid : (r.check order).2.Valid := hr.step_valid (.check order)
  have hstep := (hr.step (.check order) fun _ => ha).2
  rw [RiskCall.step, RiskCall.own] at hstep
  have hlookup : (r.check order).2.lookup = _ := hstep
  intro stock hstock
  rw [hvalid.mem_names_iff, hlookup] at hstock
  by_cases he : stock = order.stock
  · exact he ▸ Finset.mem_insert_self _ _
  · rw [RiskCall.stock, Function.update_of_ne he] at hstock
    exact Finset.mem_insert_of_mem (hr.mem_names_iff.2 hstock)

theorem screen_ne_exceedsPosition (order : Order) : screen order ≠ some .exceedsPosition := by
  rw [screen]
  split
  · decide
  · split <;> decide

/-- While nothing is held, only the size, the price and its distance to the reference price can
be the matter with an order. -/
theorem Flat.verdict (h : r.Flat) (order : Order) :
    r.verdict order ≠ .exceedsPosition ∧ (r.verdict order = .accepted ↔
      screen order = none ∧ outOfBand (r.quoted order.stock).refPrice order.price = false) := by
  have hposition : (r.quoted order.stock).netPosition = 0 := h order.stock
  rw [RiskEngine.verdict, hposition]
  cases hs : screen order with
  | some reason =>
    rw [Option.getD_some]
    have haccepted := screen_ne_accepted order
    have hexceeds := screen_ne_exceedsPosition order
    rw [hs, ne_eq, Option.some.injEq] at haccepted hexceeds
    exact ⟨hexceeds, fun h => absurd h haccepted, fun h => absurd h.1 (Option.some_ne_none _)⟩
  | none =>
    have hsize : order.quantity.toNat ≤ 10000 := by
      rw [screen] at hs
      split at hs
      · cases hs
      · split at hs
        · cases hs
        · next hle => exact UInt32.le_iff_toNat_le.1 (UInt32.not_lt.1 hle)
    have hlimit : ¬ (0 + delta order > maxNetPosition ∨ 0 + delta order < -maxNetPosition) := by
      rw [delta, maxNetPosition]
      split <;> omega
    rw [Option.getD_none, assess]
    cases outOfBand (r.quoted order.stock).refPrice order.price with
    | true =>
      rw [if_pos rfl]
      refine ⟨by decide, Iff.intro (fun h => ?_) fun h => ?_⟩
      · cases h
      · cases h.2
    | false =>
      rw [if_neg Bool.false_ne_true, if_neg hlimit]
      exact ⟨by decide, fun _ => ⟨rfl, rfl⟩, fun _ => rfl⟩

/-- The Adds that are not accepted with these accounts. -/
def refuses (r : RiskEngine) (op : ResolvedOp) : Bool :=
  r.verdict (ExchangeState.probe op) ≠ .accepted

end RiskEngine

namespace OpLog

/-- The operations that were not applied. -/
def refusals (log : OpLog) : Nat := (log.filter fun decided => !decided.2).length

theorem refusals_cons (op : ResolvedOp) (passed : Bool) (log : OpLog) :
    refusals ((op, passed) :: log) = refusals log + if passed then 0 else 1 := by
  rw [refusals, refusals, List.filter_cons]
  cases passed <;> rfl

end OpLog

namespace ExchangeState

variable {s₀ s : ExchangeState k} {F : Finset Stock} {r₀ : RiskEngine}

/-- The exchange runs like a feed that withholds the Adds that the accounts at the start refuse. -/
structure Gated (F : Finset Stock) (s₀ s : ExchangeState k) (t : SoftwareEngine × OpLog) :
    Prop where
  engine : s.engine = t.1
  valid : s.risk.Valid
  names : s.risk.names ⊆ F
  quoted : ∀ stock, s.risk.quoted stock = s₀.risk.quoted stock
  rejected : s.rejected = s₀.rejected + t.2.refusals

/-- With room for the instrument, the risk engine answers as it would have at the start. -/
theorem Gated.check {t : SoftwareEngine × OpLog} (h : Gated F s₀ s t)
    (hF : F.card ≤ maxInstruments) (hstock : op.stock ∈ F) :
    ((s.risk.check (probe op)).1 ≠ .accepted ↔ s₀.risk.refuses op = true) ∧
      Gated F s₀ { s with risk := (s.risk.check (probe op)).2 } t := by
  have hadmits : s.risk.Admits (probe op).stock :=
    h.valid.admits ((Finset.card_le_card (Finset.insert_subset hstock h.names)).trans hF)
  constructor
  · rw [h.valid.check_verdict hadmits, RiskEngine.refuses, decide_eq_true_iff,
      RiskEngine.verdict, RiskEngine.verdict, h.quoted]
  · exact { h with
      valid := h.valid.step_valid (.check (probe op))
      names := (h.valid.check_names hadmits).trans (Finset.insert_subset hstock h.names)
      quoted := fun stock => (h.valid.check_quoted hadmits stock).trans (h.quoted stock) }

theorem Gated.onOp {t : SoftwareEngine × OpLog} (h : Gated F s₀ s t)
    (hF : F.card ≤ maxInstruments) (a : Arrival) (op : ResolvedOp)
    (hstock : op.action = .add → op.stock ∈ F) :
    Gated F s₀ (ExchangeState.onOp a s op).2 (Feed.applyOp s₀.risk.refuses t op) := by
  rw [ExchangeState.onOp, Feed.applyOp]
  by_cases ha : op.action = .add
  · obtain ⟨hiff, hchecked⟩ := h.check hF (hstock ha)
    rw [if_pos ha]
    dsimp only
    by_cases hr : s₀.risk.refuses op = true
    · rw [if_pos (hiff.2 hr), if_pos ⟨ha, hr⟩]
      exact { hchecked with
        rejected := by
          rw [OpLog.refusals_cons, if_neg Bool.false_ne_true, ← Nat.add_assoc, ← h.rejected]
          rfl }
    · rw [if_neg (mt hiff.1 hr), if_neg fun hboth => hr hboth.2]
      exact { hchecked with
        engine := congrArg (·.apply op) h.engine
        rejected := by
          rw [OpLog.refusals_cons, if_pos rfl]
          exact h.rejected }
  · rw [if_neg ha, if_neg fun hboth => ha hboth.1]
    exact { h with
      engine := congrArg (·.apply op) h.engine
      rejected := by
        rw [OpLog.refusals_cons, if_pos rfl]
        exact h.rejected }

theorem Gated.ops {t : SoftwareEngine × OpLog} (h : Gated F s₀ s t) (hF : F.card ≤ maxInstruments)
    (a : Arrival) (ops : List ResolvedOp) (hstock : ∀ op ∈ ops, op.action = .add → op.stock ∈ F) :
    Gated F s₀ (after (ExchangeState.onOp a) s ops)
      (ops.foldl (Feed.applyOp s₀.risk.refuses) t) := by
  induction ops generalizing s t with
  | nil => exact h
  | cons op ops ih =>
    exact ih (h.onOp hF a op (hstock op List.mem_cons_self)) fun op' hop' =>
      hstock op' (List.mem_cons_of_mem op hop')

theorem book_ops (a : Arrival) (s : ExchangeState k) (ops : List ResolvedOp) :
    (after (ExchangeState.onOp a) s ops).book = s.book := by
  induction ops generalizing s with
  | nil => rfl
  | cons op ops ih =>
    refine (ih _).trans ?_
    rw [ExchangeState.onOp]
    split
    · dsimp only
      split <;> rfl
    · rfl

/-- The inputs of the feed that the exchange runs like. -/
def inputs (r : RiskEngine) (stream : List Arrival) : List Input :=
  stream.map fun a => (a.msg, r.refuses)

theorem step_eq {f : Feed k} (htable : s.book = f.table) (a : Arrival)
    (withhold : ResolvedOp → Bool) : f.step (a.msg, withhold) =
      ⟨(s.book.resolve a.msg).2,
        ((s.opsOf a).foldl (Feed.applyOp withhold) (f.engine, f.log)).1,
        ((s.opsOf a).foldl (Feed.applyOp withhold) (f.engine, f.log)).2⟩ := by
  rw [Feed.step, ← htable]
  rfl

theorem Gated.run {f : Feed k} (h : Gated F s₀ s (f.engine, f.log)) (htable : s.book = f.table)
    (hF : F.card ≤ maxInstruments) (stream : List Arrival)
    (hstock : ∀ op ∈ s.book.opsOf (stream.map (·.msg)), op.action = .add → op.stock ∈ F) :
    let f' := (inputs s₀.risk stream).foldl Feed.step f
    (after onOrder s stream).book = f'.table ∧
      Gated F s₀ (after onOrder s stream) (f'.engine, f'.log) := by
  induction stream generalizing s f with
  | nil => exact ⟨htable, h⟩
  | cons a stream ih =>
    rw [List.map_cons, BookState.opsOf_cons] at hstock
    have hops := Gated.ops (s := s.resolved a) { h with } hF a (s.opsOf a) fun op hop =>
      hstock op (List.mem_append_left _ hop)
    have hbook : (s.onOrder a).2.book = (s.book.resolve a.msg).2 := book_ops a _ _
    have hstep := step_eq htable a s₀.risk.refuses
    apply ih
    · rw [hstep]
      exact hops
    · rw [hstep]
      exact hbook
    · rw [hbook]
      exact fun op hop => hstock op (List.mem_append_right _ hop)

/-- What the log is to say of the Adds: each one with the verdict on it. -/
def decisions (log : OpLog) : List (Order × WalEntryType) :=
  (log.reverse.filter fun decided => decided.1.action = .add).map fun decided =>
    (probe decided.1, if decided.2 then .orderSubmitted else .orderRejected)

theorem decisions_cons (op : ResolvedOp) (passed : Bool) (log : OpLog) :
    decisions ((op, passed) :: log) = decisions log ++
      if op.action = .add then
        [(probe op, if passed then .orderSubmitted else .orderRejected)] else [] := by
  rw [decisions, decisions, List.reverse_cons, List.filter_append, List.map_append]
  by_cases ha : op.action = .add
  · rw [if_pos ha, List.filter_cons_of_pos (by exact decide_eq_true ha)]
    rfl
  · rw [if_neg ha, List.filter_cons_of_neg (by rw [decide_eq_true_iff]; exact ha)]
    rfl

/-- The log has grown by one entry for each decided Add. -/
def Logged (s₀ s : ExchangeState k) (log : OpLog) : Prop :=
  ∃ entries, s₀.wal.Grown s.wal entries ∧ entries.map (fun entry => (entry.order, entry.type)) =
    decisions log

theorem Logged.append (h : Logged s₀ s log) (a : Arrival) (passed : Bool)
    (ha : op.action = .add)
    (hw : (s.append a (if passed then .orderSubmitted else .orderRejected) (probe op)).1 = true) :
    Logged s₀ (s.append a (if passed then .orderSubmitted else .orderRejected) (probe op)).2
      ((op, passed) :: log) := by
  obtain ⟨entries, hgrown, hentries⟩ := h
  obtain ⟨sequence, hgrown'⟩ := hgrown.append hw
  refine ⟨_, hgrown', ?_⟩
  rw [List.map_append, hentries, decisions_cons, if_pos ha, List.map_singleton]

theorem Logged.onOp {t : SoftwareEngine × OpLog} (hl : Logged s₀ s t.2) (h : Gated F s₀ s t)
    (hF : F.card ≤ maxInstruments) (a : Arrival) (op : ResolvedOp)
    (hstock : op.action = .add → op.stock ∈ F) (hw : (ExchangeState.onOp a s op).1 = true) :
    Logged s₀ (ExchangeState.onOp a s op).2 (Feed.applyOp s₀.risk.refuses t op).2 := by
  rw [ExchangeState.onOp] at hw ⊢
  rw [Feed.applyOp]
  by_cases ha : op.action = .add
  · obtain ⟨hiff, -⟩ := h.check hF (hstock ha)
    have hchecked : Logged s₀ { s with risk := (s.risk.check (probe op)).2 } t.2 := hl
    rw [if_pos ha] at hw ⊢
    dsimp only at hw ⊢
    by_cases hr : s₀.risk.refuses op = true
    · rw [if_pos (hiff.2 hr)] at hw ⊢
      rw [if_pos ⟨ha, hr⟩]
      exact hchecked.append a false ha hw
    · rw [if_neg (mt hiff.1 hr)] at hw ⊢
      rw [if_neg fun hboth => hr hboth.2]
      exact hchecked.append a true ha hw
  · rw [if_neg ha, if_neg fun hboth => ha hboth.1]
    obtain ⟨entries, hgrown, hentries⟩ := hl
    refine ⟨entries, hgrown, ?_⟩
    rw [decisions_cons, if_neg ha, List.append_nil]
    exact hentries

theorem Logged.ops {t : SoftwareEngine × OpLog} (hl : Logged s₀ s t.2) (h : Gated F s₀ s t)
    (hF : F.card ≤ maxInstruments) (a : Arrival) (ops : List ResolvedOp)
    (hstock : ∀ op ∈ ops, op.action = .add → op.stock ∈ F)
    (hw : (outputs (ExchangeState.onOp a) s ops).all id = true) :
    Logged s₀ (after (ExchangeState.onOp a) s ops)
      (ops.foldl (Feed.applyOp s₀.risk.refuses) t).2 := by
  induction ops generalizing s t with
  | nil => exact hl
  | cons op ops ih =>
    rw [outputs, List.all_cons, Bool.and_eq_true] at hw
    have hop := hstock op List.mem_cons_self
    exact ih (hl.onOp h hF a op hop hw.1) (h.onOp hF a op hop)
      (fun op' hop' => hstock op' (List.mem_cons_of_mem op hop')) hw.2

theorem Logged.run {f : Feed k} (hl : Logged s₀ s f.log) (h : Gated F s₀ s (f.engine, f.log))
    (htable : s.book = f.table) (hF : F.card ≤ maxInstruments) (stream : List Arrival)
    (hstock : ∀ op ∈ s.book.opsOf (stream.map (·.msg)), op.action = .add → op.stock ∈ F)
    (hw : EachStep Written onOrder s stream) :
    Logged s₀ (after onOrder s stream) ((inputs s₀.risk stream).foldl Feed.step f).log := by
  induction stream generalizing s f with
  | nil => exact hl
  | cons a stream ih =>
    rw [List.map_cons, BookState.opsOf_cons] at hstock
    have hhead : ∀ op ∈ s.opsOf a, op.action = .add → op.stock ∈ F := fun op hop =>
      hstock op (List.mem_append_left _ hop)
    have hgated := Gated.ops (s := s.resolved a) { h with } hF a (s.opsOf a) hhead
    have hlogged := Logged.ops (s := s.resolved a) hl { h with } hF a (s.opsOf a) hhead hw.1
    have hbook : (s.onOrder a).2.book = (s.book.resolve a.msg).2 := book_ops a _ _
    have hstep := step_eq htable a s₀.risk.refuses
    apply ih
    · rw [hstep]
      exact hlogged
    · rw [hstep]
      exact hgated
    · rw [hstep]
      exact hbook
    · rw [hbook]
      exact fun op hop => hstock op (List.mem_append_right _ hop)
    · exact hw.2

end ExchangeState

namespace Feed

def decided (withhold : ResolvedOp → Bool) (op : ResolvedOp) : ResolvedOp × Bool :=
  (op, !(op.action = .add ∧ withhold op = true))

end Feed

namespace ExchangeState

/-- The instruments that the exchange knows at the start, and those that the feed brings. -/
def instruments (s₀ : ExchangeState k) (stream : List Arrival) : Finset Stock :=
  s₀.risk.names ∪ (((s₀.book.opsOf (stream.map (·.msg))).filter (·.action = .add)).map
    (·.stock)).toFinset

theorem mem_instruments (s₀ : ExchangeState k) (stream : List Arrival) :
    ∀ op ∈ s₀.book.opsOf (stream.map (·.msg)), op.action = .add →
      op.stock ∈ s₀.instruments stream := by
  intro op hop ha
  apply Finset.mem_union_right
  rw [List.mem_toFinset]
  exact List.mem_map_of_mem (List.mem_filter.2 ⟨hop, decide_eq_true ha⟩)

theorem Gated.start (s₀ : ExchangeState k) (hr : s₀.risk.Valid) (stream : List Arrival) :
    Gated (s₀.instruments stream) s₀ s₀ (s₀.engine, []) where
  engine := rfl
  valid := hr
  names := Finset.subset_union_left
  quoted _ := rfl
  rejected := rfl

end ExchangeState

/-- The live exchange stays in lockstep with the table: its engine holds the live orders of the
table, less those whose latest Add the risk engine refused, and an operation is an orphan when it
concerns one of these. -/
theorem live_exchange_lockstep (slots : Vector RestingOrder (2 ^ k)) (risk : RiskEngine)
    (wal : LogFile) (stream : List Arrival) (hr : risk.Valid)
    (hroom : (ExchangeState.instruments ⟨.new slots, {}, risk, wal, 0, 0, 0⟩ stream).card ≤
      maxInstruments)
    (hfresh : (Feed.start slots).AllFresh (ExchangeState.inputs risk stream)) :
    let s := after ExchangeState.onOrder ⟨.new slots, {}, risk, wal, 0, 0, 0⟩ stream
    let f := Feed.run slots (ExchangeState.inputs risk stream)
    s.book = f.table ∧ f.SideAgrees s.engine.bids true ∧ f.SideAgrees s.engine.asks false ∧
      (s.engine.bids.refs ++ s.engine.asks.refs).Nodup ∧ s.engine.orphanOps = f.log.orphans ∧
      s.rejected = f.log.refusals := by
  intro s f
  have hrun := (ExchangeState.Gated.start ⟨.new slots, {}, risk, wal, 0, 0, 0⟩ hr stream).run
    (f := Feed.start slots) rfl hroom stream (ExchangeState.mem_instruments _ stream)
  obtain ⟨htable, hgated⟩ := hrun
  have hengine : s.engine = f.engine := hgated.engine
  obtain ⟨L, h⟩ := (Feed.start_inLockstep slots).run (ExchangeState.inputs risk stream) hfresh
  rw [hengine]
  refine ⟨htable, h.sideAgrees h.2.2.engine.bids, h.sideAgrees h.2.2.engine.asks, h.nodup_refs,
    h.2.2.orphans, ?_⟩
  exact hgated.rejected.trans (Nat.zero_add _)

/-- A ticker in eight bytes, padded with spaces. -/
def ticker (name : String) : Stock :=
  Vector.ofFn fun i => ((name.toList.map fun c => UInt8.ofNat c.toNat)[i.val]?).getD 32

/-- The reference prices that the live exchange starts with. -/
def referencePrices : List RiskCall :=
  [.setReferencePrice (ticker "AAPL") 2100000, .setReferencePrice (ticker "MSFT") 1400000,
    .setReferencePrice (ticker "AMZN") 18000000, .setReferencePrice (ticker "GOOG") 12000000,
    .setReferencePrice (ticker "META") 1900000]

def liveRisk : RiskEngine := after RiskCall.step .new referencePrices

theorem liveRisk_valid : liveRisk.Valid := RiskEngine.new_valid.run referencePrices

/-- Three Adds: within the limits, too large, and too far from the reference price; and an
execution of the second. -/
def threeAdds : List Arrival :=
  let add (ref : UInt64) (quantity price : UInt32) : Order :=
    { action := .add, orderRef := ref, quantity := quantity, price := price, side := .buy
      stock := ticker "AAPL" }
  [arrive 0 (add 1 100 2090000), arrive 1 (add 2 10001 2090000), arrive 2 (add 3 100 1600000),
    arrive 3 { action := .execute, orderRef := 2, quantity := 1 }]

def liveExchange : ExchangeState 2 :=
  ⟨.new (Vector.replicate 4 {}), {}, liveRisk, { log := ⟨true, 0⟩ }, 0, 0, 0⟩

theorem threeAdds_lockstep :
    let s := after ExchangeState.onOrder liveExchange threeAdds
    let f := Feed.run (k := 2) (Vector.replicate 4 {}) (ExchangeState.inputs liveRisk threeAdds)
    s.book = f.table ∧ f.SideAgrees s.engine.bids true ∧ f.SideAgrees s.engine.asks false ∧
      (s.engine.bids.refs ++ s.engine.asks.refs).Nodup ∧ s.engine.orphanOps = f.log.orphans ∧
      s.rejected = f.log.refusals := by
  apply live_exchange_lockstep
  · exact liveRisk_valid
  · decide +kernel
  · decide +kernel

example : (after ExchangeState.onOrder liveExchange threeAdds).engine.orphanOps = 1 := by
  decide +kernel

end Tickpipe
