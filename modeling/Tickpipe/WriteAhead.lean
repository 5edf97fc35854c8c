import Tickpipe.RiskGate

set_option autoImplicit true

namespace Tickpipe

open Mealy (EachStep outputs after)

theorem shrunk_le (h : shrunk qty n = some m) : m ≤ n := by
  rw [shrunk] at h
  split at h
  · cases h
  · obtain rfl := Option.some.inj h
    have hmin : min qty n ≤ n := UInt32.le_iff_toNat_le.2 (by
      rw [show min qty n = if qty ≤ n then qty else n from rfl]
      split
      · next hle => exact UInt32.le_iff_toNat_le.1 hle
      · exact Nat.le_refl _)
    rw [UInt32.le_iff_toNat_le, UInt32.toNat_sub_of_le _ _ hmin]
    exact Nat.sub_le _ _

/-- Every entry of the first queue is an entry of the second, with some shares less perhaps. -/
def Level.Within (q' q : Level) : Prop := ∀ e' ∈ q', ∃ e ∈ q, e.1 = e'.1 ∧ e'.2 ≤ e.2

theorem Level.within_refl (q : Level) : q.Within q := fun e he => ⟨e, he, rfl, UInt32.le_refl _⟩

theorem Level.alter_within {f : UInt32 → Option UInt32} (hf : ∀ n m, f n = some m → m ≤ n)
    {q q' : Level} (h : Level.alter f ref q = some q') : q'.Within q := by
  induction q generalizing q' with
  | nil => cases h
  | cons e q ih =>
    obtain ⟨r, n⟩ := e
    rw [Level.alter] at h
    intro e' he'
    split at h
    · split at h
      · obtain rfl := Option.some.inj h
        exact ⟨e', List.mem_cons_of_mem _ he', rfl, UInt32.le_refl _⟩
      · next m hm =>
        obtain rfl := Option.some.inj h
        rcases List.mem_cons.1 he' with rfl | he'
        · exact ⟨(r, n), List.mem_cons_self, rfl, hf n m hm⟩
        · exact ⟨e', List.mem_cons_of_mem _ he', rfl, UInt32.le_refl _⟩
    · obtain ⟨rest, hrest, rfl⟩ := Option.map_eq_some_iff.1 h
      rcases List.mem_cons.1 he' with rfl | he'
      · exact ⟨(r, n), List.mem_cons_self, rfl, UInt32.le_refl _⟩
      · obtain ⟨e, he, hsame, hle⟩ := ih hrest e' he'
        exact ⟨e, List.mem_cons_of_mem _ he, hsame, hle⟩

namespace Ladder

variable {lt : UInt32 → UInt32 → Prop} {book book' : Ladder lt}

/-- At every price the first side holds no more than the second. -/
def Within (book' book : Ladder lt) : Prop :=
  ∀ price, (book'.queue price).Within (book.queue price)

theorem within_refl (book : Ladder lt) : book.Within book := fun _ => Level.within_refl _

variable [DecidableRel lt] [IsStrictTotalOrder UInt32 lt] {f : UInt32 → Option UInt32}

theorem settle_within {q : Level} (hq : q.Within (book.queue price)) :
    (book.settle price q).Within book := by
  intro p
  by_cases hp : p = price
  · subst hp
    rw [queue_settle_self]
    exact hq
  · rw [queue_settle_ne _ hp]
    exact Level.within_refl _

theorem alterAt_within (hf : ∀ n m, f n = some m → m ≤ n)
    (h : book.alterAt f price ref = some book') : book'.Within book := by
  rw [alterAt_eq] at h
  obtain ⟨q, hq, rfl⟩ := Option.map_eq_some_iff.1 h
  exact settle_within (Level.alter_within hf hq)

theorem scan_within (hf : ∀ n m, f n = some m → m ≤ n) (h : book.scan f ref = some book') :
    book'.Within book := by
  rw [Ladder.scan] at h
  obtain ⟨level, hlevel, rfl⟩ := Option.map_eq_some_iff.1 h
  have hspec := scanEntries_spec f ref book.entries
  rw [hlevel] at hspec
  obtain ⟨q, hmem, halter⟩ := hspec
  apply settle_within
  rw [Ladder.queue, book.mem_entries_iff.1 hmem]
  exact Level.alter_within hf halter

end Ladder

namespace SoftwareEngine

variable {e e' : SoftwareEngine} {f : UInt32 → Option UInt32}

/-- Neither side of the first engine holds more than that of the second. -/
structure Within (e' e : SoftwareEngine) : Prop where
  bids : e'.bids.Within e.bids
  asks : e'.asks.Within e.asks

theorem within_refl (e : SoftwareEngine) : e.Within e :=
  ⟨e.bids.within_refl, e.asks.within_refl⟩

theorem alterRef_within (hf : ∀ n m, f n = some m → m ≤ n)
    (h : alterRef f e side price ref = some e') : e'.Within e := by
  rw [alterRef] at h
  split at h
  · obtain ⟨bids, hb, rfl⟩ := Option.map_eq_some_iff.1 h
    exact ⟨Ladder.alterAt_within hf hb, e.asks.within_refl⟩
  · obtain ⟨asks, ha, rfl⟩ := Option.map_eq_some_iff.1 h
    exact ⟨e.bids.within_refl, Ladder.alterAt_within hf ha⟩

theorem scanRef_within (h : e.scanRef side ref qty = some e') : e'.Within e := by
  rw [scanRef] at h
  split at h
  · obtain ⟨bids, hb, rfl⟩ := Option.map_eq_some_iff.1 h
    exact ⟨Ladder.scan_within (fun _ _ => shrunk_le) hb, e.asks.within_refl⟩
  · obtain ⟨asks, ha, rfl⟩ := Option.map_eq_some_iff.1 h
    exact ⟨e.bids.within_refl, Ladder.scan_within (fun _ _ => shrunk_le) ha⟩

theorem getD_within {o : Option SoftwareEngine} (ho : ∀ e', o = some e' → e'.Within e) :
    (o.getD e.countOrphan).Within e := by
  cases o with
  | none => exact ⟨e.bids.within_refl, e.asks.within_refl⟩
  | some e' => exact ho e' rfl

theorem executeBook_within (e : SoftwareEngine) (op : ResolvedOp) :
    (e.executeBook op).Within e := by
  rw [executeBook]
  split
  · next e' hr => exact alterRef_within (fun _ _ => shrunk_le) hr
  · exact getD_within fun _ => scanRef_within

/-- Only an Add brings shares into the book. -/
theorem apply_within (e : SoftwareEngine) (ha : op.action ≠ .add) : (e.apply op).Within e := by
  rw [apply]
  cases hact : op.action with
  | add => exact absurd hact ha
  | execute =>
    have hbook := executeBook_within e op
    dsimp only
    split
    · exact ⟨hbook.bids, hbook.asks⟩
    · exact hbook
  | cancel => exact getD_within fun _ => alterRef_within fun _ _ => shrunk_le
  | delete =>
    refine getD_within fun _ => alterRef_within fun _ _ h => ?_
    cases h
  | trade => exact ⟨e.bids.within_refl, e.asks.within_refl⟩
  | replace => exact e.within_refl
  | none => exact e.within_refl

end SoftwareEngine

namespace Ladder

variable {lt : UInt32 → UInt32 → Prop} {book book' : Ladder lt}

/-- What rests on a side was submitted, at its price and with no fewer shares. -/
def Submitted (book : Ladder lt) (buy : Bool) (entries : List WalEntry) : Prop :=
  ∀ price, ∀ e ∈ book.queue price, ∃ entry ∈ entries, entry.type = .orderSubmitted ∧
    entry.order.orderRef = e.1 ∧ entry.order.price = price ∧
    decide (entry.order.side = .buy) = buy ∧ e.2 ≤ entry.order.quantity

theorem Submitted.within (h : book.Submitted buy entries) (hw : book'.Within book) :
    book'.Submitted buy entries := by
  intro price e' he'
  obtain ⟨e, he, hsame, hle⟩ := hw price e' he'
  obtain ⟨entry, hentry, htype, href, hprice, hside, hqty⟩ := h price e he
  exact ⟨entry, hentry, htype, href.trans hsame, hprice, hside, UInt32.le_trans hle hqty⟩

theorem Submitted.mono (h : book.Submitted buy entries) (more : List WalEntry) :
    book.Submitted buy (entries ++ more) := by
  intro price e he
  obtain ⟨entry, hentry, hrest⟩ := h price e he
  exact ⟨entry, List.mem_append_left _ hentry, hrest⟩

variable [DecidableRel lt] [IsStrictTotalOrder UInt32 lt]

theorem Submitted.pushBack (h : book.Submitted buy entries) (hmem : entry ∈ entries)
    (htype : entry.type = .orderSubmitted) (hside : decide (entry.order.side = .buy) = buy) :
    (book.pushBack entry.order.price
      (entry.order.orderRef, entry.order.quantity)).Submitted buy entries := by
  intro price e he
  by_cases hp : price = entry.order.price
  · rw [hp, queue_pushBack_self] at he
    rcases List.mem_append.1 he with he | he
    · exact hp ▸ h entry.order.price e he
    · obtain rfl := List.mem_singleton.1 he
      exact ⟨entry, hmem, htype, rfl, hp.symm, hside, UInt32.le_refl _⟩
  · rw [queue_pushBack_ne _ hp] at he
    exact h price e he

end Ladder

namespace ExchangeState

variable {s₀ s : ExchangeState k} {a : Arrival}

/-- The log has grown, and both sides hold what was submitted to it. -/
def WrittenAhead (s₀ s : ExchangeState k) : Prop :=
  ∃ entries, s₀.wal.Grown s.wal entries ∧ s.engine.bids.Submitted true entries ∧
    s.engine.asks.Submitted false entries

theorem WrittenAhead.onOp (h : WrittenAhead s₀ s) (a : Arrival) (op : ResolvedOp)
    (hw : (ExchangeState.onOp a s op).1 = true) :
    WrittenAhead s₀ (ExchangeState.onOp a s op).2 := by
  obtain ⟨entries, hgrown, hbids, hasks⟩ := h
  rw [ExchangeState.onOp] at hw ⊢
  by_cases ha : op.action = .add
  · rw [if_pos ha] at hw ⊢
    dsimp only at hw ⊢
    by_cases hr : (s.risk.check (probe op)).1 ≠ .accepted
    · rw [if_pos hr] at hw ⊢
      obtain ⟨sequence, hgrown'⟩ := hgrown.append hw
      exact ⟨_, hgrown', hbids.mono _, hasks.mono _⟩
    · rw [if_neg hr] at hw ⊢
      -- the entry is in the log when the engine gets the order
      obtain ⟨sequence, hgrown'⟩ := hgrown.append hw
      let entry : WalEntry := ⟨sequence, a.now, .orderSubmitted, probe op, {}⟩
      have hmem : entry ∈ entries ++ [entry] := List.mem_append_right _ List.mem_cons_self
      refine ⟨_, hgrown', ?_⟩
      rw [SoftwareEngine.apply, ha]
      dsimp only
      rw [SoftwareEngine.restOrder]
      split
      · exact ⟨hbids.mono _, hasks.mono _⟩
      · split
        · next hbuy =>
          exact ⟨(hbids.mono _).pushBack hmem rfl (decide_eq_true hbuy), hasks.mono _⟩
        · next hsell =>
          exact ⟨hbids.mono _, (hasks.mono _).pushBack hmem rfl (decide_eq_false hsell)⟩
  · rw [if_neg ha]
    have hwithin := s.engine.apply_within ha
    exact ⟨entries, hgrown, hbids.within hwithin.bids, hasks.within hwithin.asks⟩

theorem WrittenAhead.ops (h : WrittenAhead s₀ s) (a : Arrival) (ops : List ResolvedOp)
    (hw : (outputs (ExchangeState.onOp a) s ops).all id = true) :
    WrittenAhead s₀ (after (ExchangeState.onOp a) s ops) := by
  induction ops generalizing s with
  | nil => exact h
  | cons op ops ih =>
    rw [outputs, List.all_cons, Bool.and_eq_true] at hw
    exact ih (h.onOp a op hw.1) hw.2

theorem WrittenAhead.run (h : WrittenAhead s₀ s) (stream : List Arrival)
    (hw : EachStep Written onOrder s stream) : WrittenAhead s₀ (after onOrder s stream) := by
  induction stream generalizing s with
  | nil => exact h
  | cons a stream ih =>
    have hresolved : WrittenAhead s₀ (s.resolved a) := h
    exact ih (hresolved.ops a (s.opsOf a) hw.1) hw.2

end ExchangeState

/-- Every order that rests in the engine of a live exchange was written ahead: the log has an entry
that submitted it, at its side and price and with at least the shares that are left of it. -/
theorem resting_was_submitted (s₀ : ExchangeState k) (stream : List Arrival) (hs : s₀.wal.Whole)
    (hempty : s₀.engine.bids = OrdMap.empty ∧ s₀.engine.asks = OrdMap.empty)
    (hw : EachStep ExchangeState.Written ExchangeState.onOrder s₀ stream) :
    let s := after ExchangeState.onOrder s₀ stream
    ∃ entries, s.wal.replayed = s₀.wal.replayed ++ entries.map some ∧
      s.engine.bids.Submitted true entries ∧ s.engine.asks.Submitted false entries := by
  intro s
  have hstart : ExchangeState.WrittenAhead s₀ s₀ := by
    refine ⟨[], LogFile.Grown.start hs, ?_, ?_⟩
    · rw [hempty.1]
      exact fun price e he => nomatch he
    · rw [hempty.2]
      exact fun price e he => nomatch he
  obtain ⟨entries, hgrown, hbids, hasks⟩ := hstart.run stream hw
  exact ⟨entries, hgrown.replayed, hbids, hasks⟩

theorem threeAdds_submitted :
    let s := after ExchangeState.onOrder liveExchange threeAdds
    ∃ entries, s.wal.replayed = liveExchange.wal.replayed ++ entries.map some ∧
      s.engine.bids.Submitted true entries ∧ s.engine.asks.Submitted false entries :=
  resting_was_submitted liveExchange threeAdds (by decide) ⟨rfl, rfl⟩ (by decide +kernel)

end Tickpipe
