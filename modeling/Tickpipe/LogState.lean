import Tickpipe.LiveExchange
import Tickpipe.Ladder

set_option autoImplicit true

namespace Tickpipe

open Mealy (outputs after EachStep)

def Level.resting (ref : UInt64) : Level → Option UInt32
  | [] => none
  | (r, n) :: q => if r = ref then some n else Level.resting ref q

/-- A rewrite that finds nothing to change leaves the queue as it is. -/
theorem Level.alter_idle {f : UInt32 → Option UInt32} {q : Level}
    (h : ∀ n ∈ q.resting ref, f n = some n) :
    Level.alter f ref q = (q.resting ref).map fun _ => q := by
  induction q with
  | nil => rfl
  | cons e q ih =>
    obtain ⟨r, n⟩ := e
    rw [alter, resting]
    rw [resting] at h
    by_cases hr : r = ref
    · rw [if_pos hr] at h ⊢
      rw [if_pos hr, h n rfl]
      rfl
    · rw [if_neg hr] at h ⊢
      rw [if_neg hr, ih h, Option.map_map]
      rfl

namespace Ladder

variable {lt : UInt32 → UInt32 → Prop} [DecidableRel lt] [IsStrictTotalOrder UInt32 lt]
  {book : Ladder lt} {f : UInt32 → Option UInt32}

theorem settle_self (h : book.get? price = some q) (hq : q ≠ []) : book.settle price q = book := by
  rw [settle, if_neg hq, book.insert_of_get? h]

theorem alterAt_idle (h : ∀ n ∈ (book.queue price).resting ref, f n = some n) :
    book.alterAt f price ref = ((book.queue price).resting ref).map fun _ => book := by
  rw [alterAt]
  rw [queue] at h ⊢
  cases hg : book.get? price with
  | none => rfl
  | some q =>
    rw [hg, Option.getD_some] at h
    rw [Option.getD_some]
    dsimp only
    rw [Level.alter_idle h, Option.map_map]
    cases hr : q.resting ref with
    | none => rfl
    | some n =>
      have hq : q ≠ [] := by
        rintro rfl
        cases hr
      exact congrArg some (settle_self hg hq)

def scanned (book : Ladder lt) (ref : UInt64) : Option UInt32 :=
  book.entries.findSome? fun e => e.2.resting ref

theorem scanEntries_idle {l : List (UInt32 × Level)}
    (h : ∀ n ∈ l.findSome? fun e => e.2.resting ref, f n = some n)
    (hs : scanEntries f ref l = some (price, q)) : (price, q) ∈ l ∧ q ≠ [] := by
  induction l with
  | nil => cases hs
  | cons e l ih =>
    obtain ⟨p, q'⟩ := e
    rw [scanEntries] at hs
    rw [List.findSome?_cons] at h
    dsimp only at h hs
    cases hr : q'.resting ref with
    | none =>
      rw [hr] at h
      have hnone : Level.alter f ref q' = none := by
        rw [Level.alter_idle (by rw [hr]; intro n hn; cases hn), hr]
        rfl
      rw [hnone] at hs
      obtain ⟨hmem, hq⟩ := ih h hs
      exact ⟨List.mem_cons_of_mem _ hmem, hq⟩
    | some n =>
      rw [hr] at h
      have hsome : Level.alter f ref q' = some q' := by
        rw [Level.alter_idle (by rw [hr]; exact h), hr]
        rfl
      rw [hsome] at hs
      cases hs
      refine ⟨List.mem_cons_self, ?_⟩
      rintro rfl
      cases hr

theorem scan_idle (h : ∀ n ∈ book.scanned ref, f n = some n) :
    ∀ b ∈ book.scan f ref, b = book := by
  intro b hb
  obtain ⟨⟨price, q⟩, hs, rfl⟩ := Option.map_eq_some_iff.1 hb
  obtain ⟨hmem, hq⟩ := scanEntries_idle h hs
  exact settle_self (book.mem_entries_iff.1 hmem) hq

end Ladder

namespace SoftwareEngine

variable {e : SoftwareEngine} {op : ResolvedOp}

def books (e : SoftwareEngine) : Bids × Asks := (e.bids, e.asks)

def restingAt (e : SoftwareEngine) (side : Side) (price : UInt32) (ref : UInt64) : Option UInt32 :=
  if side = .buy then (e.bids.queue price).resting ref else (e.asks.queue price).resting ref

def restingAnywhere (e : SoftwareEngine) (side : Side) (ref : UInt64) : Option UInt32 :=
  if side = .buy then e.bids.scanned ref else e.asks.scanned ref

/-- The quantity that rests for the order that an operation would change. -/
def found (e : SoftwareEngine) (op : ResolvedOp) : Option UInt32 :=
  let atPrice := e.restingAt op.side op.price op.orderRef
  match op.action with
  | .execute => atPrice.or (e.restingAnywhere op.side op.orderRef)
  | .cancel | .delete => atPrice
  | .add | .trade | .replace | .none => none

def leaves (op : ResolvedOp) (n : UInt32) : Option UInt32 :=
  if op.action = .delete then none else shrunk op.quantity n

/-- An operation other than an Add finds no order to change: none at all, or one that it takes
nothing from. -/
def Idle (e : SoftwareEngine) (op : ResolvedOp) : Prop := ∀ n ∈ e.found op, leaves op n = some n

instance (e : SoftwareEngine) (op : ResolvedOp) : Decidable (e.Idle op) :=
  Option.decidableForallMem (e.found op)

theorem alterRef_idle {f : UInt32 → Option UInt32}
    (h : ∀ n ∈ e.restingAt side price ref, f n = some n) :
    e.alterRef f side price ref = (e.restingAt side price ref).map fun _ => e := by
  rw [alterRef]
  rw [restingAt] at h ⊢
  by_cases hs : side = .buy
  · rw [if_pos hs] at h ⊢
    rw [if_pos hs, Ladder.alterAt_idle h, Option.map_map]
    rfl
  · rw [if_neg hs] at h ⊢
    rw [if_neg hs, Ladder.alterAt_idle h, Option.map_map]
    rfl

theorem scanRef_idle (h : ∀ n ∈ e.restingAnywhere side ref, shrunk qty n = some n) :
    ∀ e' ∈ e.scanRef side ref qty, e' = e := by
  rw [scanRef]
  rw [restingAnywhere] at h
  split
  · next hs =>
    rw [if_pos hs] at h
    intro e' he
    obtain ⟨bids, hb, rfl⟩ := Option.map_eq_some_iff.1 he
    rw [Ladder.scan_idle h bids hb]
  · next hs =>
    rw [if_neg hs] at h
    intro e' he
    obtain ⟨asks, ha, rfl⟩ := Option.map_eq_some_iff.1 he
    rw [Ladder.scan_idle h asks ha]

theorem books_getD {o : Option SoftwareEngine} (h : ∀ e' ∈ o, e' = e) :
    (o.getD e.countOrphan).books = e.books := by
  cases o with
  | none => rfl
  | some e' => rw [Option.getD_some, h e' rfl]

theorem alterRef_idle_mem {f : UInt32 → Option UInt32}
    (h : ∀ n ∈ e.restingAt side price ref, f n = some n) :
    ∀ e' ∈ e.alterRef f side price ref, e' = e := by
  rw [alterRef_idle h]
  intro e' he
  obtain ⟨n, -, rfl⟩ := Option.map_eq_some_iff.1 he
  rfl

theorem Idle.books (h : e.Idle op) (ha : op.action ≠ .add) : (e.apply op).books = e.books := by
  rw [Idle, found] at h
  rw [apply]
  cases hop : op.action with
  | add => exact absurd hop ha
  | execute =>
    have hleaves (n : UInt32) : leaves op n = shrunk op.quantity n := if_neg (by rw [hop]; decide)
    simp only [hop, hleaves] at h
    have hbook : (e.executeBook op).books = e.books := by
      rw [executeBook, reduceRef]
      cases hr : e.restingAt op.side op.price op.orderRef with
      | some n =>
        rw [hr] at h
        rw [alterRef_idle (by rw [hr]; exact h), hr]
        rfl
      | none =>
        rw [hr] at h
        rw [alterRef_idle (by rw [hr]; intro n hn; cases hn), hr]
        exact books_getD (scanRef_idle h)
    dsimp only
    split
    · exact hbook
    · exact hbook
  | cancel =>
    have hleaves (n : UInt32) : leaves op n = shrunk op.quantity n := if_neg (by rw [hop]; decide)
    simp only [hop, hleaves] at h
    exact books_getD (alterRef_idle_mem h)
  | delete =>
    have hleaves (n : UInt32) : leaves op n = none := if_pos hop
    simp only [hop, hleaves] at h
    exact books_getD (alterRef_idle_mem (f := fun _ => none) h)
  | trade => rfl
  | replace => rfl
  | none => rfl

/-- What a log entry says about the books: a submitted order rests. -/
def recover (e : SoftwareEngine) (entry : WalEntry) : SoftwareEngine :=
  if entry.type = .orderSubmitted then
    e.restOrder entry.order.side entry.order.price entry.order.orderRef entry.order.quantity
  else e

theorem books_restOrder {e e' : SoftwareEngine} (h : e.books = e'.books) :
    (e.restOrder side price ref qty).books = (e'.restOrder side price ref qty).books := by
  obtain ⟨hb, ha⟩ := Prod.mk.inj h
  rw [restOrder, restOrder]
  split
  · exact h
  · split
    · exact Prod.ext (congrArg (Ladder.pushBack · price (ref, qty)) hb) ha
    · exact Prod.ext hb (congrArg (Ladder.pushBack · price (ref, qty)) ha)

end SoftwareEngine

def WalEntry.untimed (entry : WalEntry) : WalEntry :=
  { entry with
    timestampNs := 0
    order := { entry.order with timestampNs := 0 } }

/-- Entries that differ in their timestamps only say the same about the books. -/
theorem SoftwareEngine.recover_untimed (e : SoftwareEngine) (entry : WalEntry) :
    e.recover entry.untimed = e.recover entry := rfl

namespace LogFile

variable {s₀ s : LogFile}

/-- What a replay of the log yields. -/
def replayed (s : LogFile) : List (Option WalEntry) := (WriteAheadLog.replay true s.file).1

theorem replayed_eq (s : LogFile) :
    s.replayed = (Blocks.blocks WalEntry.bytes s.file).map WalEntry.layout.value := by
  rw [replayed, WriteAheadLog.replay, if_pos rfl]

/-- No record of the log is torn. -/
def Whole (s : LogFile) : Prop := WalEntry.bytes ∣ s.file.length

instance (s : LogFile) : Decidable s.Whole := inferInstanceAs (Decidable (_ ∣ _))

/-- The log has grown by these entries. -/
structure Grown (s₀ s : LogFile) (entries : List WalEntry) : Prop where
  whole : s.Whole
  replayed : s.replayed = s₀.replayed ++ entries.map some

theorem Grown.start (h : s₀.Whole) : Grown s₀ s₀ [] := ⟨h, (List.append_nil _).symm⟩

theorem Grown.append (h : Grown s₀ s entries)
    (hw : (s.step (.append type order result now fill room)).1 = true) :
    ∃ sequence : UInt64, Grown s₀ (s.step (.append type order result now fill room)).2
      (entries ++ [⟨sequence, now, type, order, result⟩]) := by
  have hopen : s.log.isOpen = true := by
    by_contra hclosed
    rw [step, WriteAheadLog.append_closed (Bool.eq_false_of_not_eq_true hclosed)] at hw
    cases hw
  obtain ⟨happend, -⟩ := WriteAheadLog.append_true hopen hw
  let entry : WalEntry := ⟨s.log.sequence + 1, now, type, order, result⟩
  have hlen := WalEntry.layout.length_image fill entry
  have hreplayed := h.replayed
  rw [replayed_eq] at hreplayed
  rw [step, happend]
  refine ⟨s.log.sequence + 1, ?_, ?_⟩
  · rw [Whole, List.length_append, hlen]
    exact Nat.dvd_add h.whole (Nat.dvd_refl _)
  · rw [replayed_eq, Blocks.blocks_append Recovers.bytes_pos h.whole hlen, List.map_append,
      hreplayed, List.map_singleton, WalEntry.layout.value_image, List.map_append,
      List.append_assoc]
    rfl

end LogFile

namespace ExchangeState

variable {s₀ s : ExchangeState k} {a : Arrival}

/-- Every record of the message reaches the file. -/
def Written (s : ExchangeState k) (a : Arrival) : Prop := (s.onOrder a).1 = true

/-- Every operation of the message is an Add, or idle in the state that it meets. -/
def Traced (s : ExchangeState k) (a : Arrival) : Prop :=
  EachStep (fun s op => s.engine.Idle op) (onOp a) (s.resolved a) (s.opsOf a)

instance (s : ExchangeState k) (a : Arrival) : Decidable (s.Written a) :=
  inferInstanceAs (Decidable (_ = true))

instance (s : ExchangeState k) (a : Arrival) : Decidable (s.Traced a) :=
  inferInstanceAs (Decidable (EachStep _ _ _ _))

/-- The log has grown by these entries, and the books are what the entries make of the old ones. -/
structure Recorded (s₀ s : ExchangeState k) (entries : List WalEntry) : Prop where
  log : s₀.wal.Grown s.wal entries
  books : s.engine.books = (entries.foldl SoftwareEngine.recover s₀.engine).books

theorem Recorded.start (h : s₀.wal.Whole) : Recorded s₀ s₀ [] := ⟨.start h, rfl⟩

theorem Recorded.onOp (h : Recorded s₀ s entries) (a : Arrival) (op : ResolvedOp)
    (hw : (ExchangeState.onOp a s op).1 = true) (hi : s.engine.Idle op) :
    ∃ entries', Recorded s₀ (ExchangeState.onOp a s op).2 entries' := by
  rw [ExchangeState.onOp] at hw ⊢
  by_cases ha : op.action = .add
  · rw [if_pos ha] at hw ⊢
    dsimp only at hw ⊢
    split at hw
    · next hr =>
      rw [if_pos hr]
      obtain ⟨sequence, hlog⟩ := h.log.append hw
      refine ⟨_, hlog, ?_⟩
      rw [List.foldl_append]
      exact h.books
    · next hr =>
      rw [if_neg hr]
      obtain ⟨sequence, hlog⟩ := h.log.append hw
      refine ⟨_, hlog, ?_⟩
      rw [List.foldl_append, SoftwareEngine.apply, ha]
      exact SoftwareEngine.books_restOrder h.books
  · rw [if_neg ha]
    exact ⟨entries, h.log, (hi.books ha).trans h.books⟩

theorem Recorded.ops (h : Recorded s₀ s entries) (a : Arrival) (ops : List ResolvedOp)
    (hw : (outputs (ExchangeState.onOp a) s ops).all id = true)
    (hi : EachStep (fun s op => s.engine.Idle op) (ExchangeState.onOp a) s ops) :
    ∃ entries', Recorded s₀ (after (ExchangeState.onOp a) s ops) entries' := by
  induction ops generalizing s entries with
  | nil => exact ⟨entries, h⟩
  | cons op ops ih =>
    rw [outputs, List.all_cons, Bool.and_eq_true] at hw
    obtain ⟨entries', h'⟩ := h.onOp a op hw.1 hi.1
    exact ih h' hw.2 hi.2

theorem Recorded.run (h : Recorded s₀ s entries) (stream : List Arrival)
    (hw : EachStep Written onOrder s stream) (ht : EachStep Traced onOrder s stream) :
    ∃ entries', Recorded s₀ (after onOrder s stream) entries' := by
  induction stream generalizing s entries with
  | nil => exact ⟨entries, h⟩
  | cons a stream ih =>
    have hresolved : Recorded s₀ (s.resolved a) entries := ⟨h.log, h.books⟩
    obtain ⟨entries', h'⟩ := hresolved.ops a (s.opsOf a) hw.1 ht.1
    exact ih h' hw.2 ht.2

end ExchangeState

/-- From a log without a torn record on, where no execution, cancel or delete finds an order to
change, the log determines the books. -/
theorem log_determines_books (s : ExchangeState k) (stream stream' : List Arrival)
    (hs : s.wal.Whole)
    (hw : EachStep ExchangeState.Written ExchangeState.onOrder s stream)
    (hw' : EachStep ExchangeState.Written ExchangeState.onOrder s stream')
    (ht : EachStep ExchangeState.Traced ExchangeState.onOrder s stream)
    (ht' : EachStep ExchangeState.Traced ExchangeState.onOrder s stream')
    (hlog : (after ExchangeState.onOrder s stream).wal.replayed.map (Option.map WalEntry.untimed) =
      (after ExchangeState.onOrder s stream').wal.replayed.map (Option.map WalEntry.untimed)) :
    (after ExchangeState.onOrder s stream).engine.books =
      (after ExchangeState.onOrder s stream').engine.books := by
  obtain ⟨entries, h⟩ := (ExchangeState.Recorded.start hs).run stream hw ht
  obtain ⟨entries', h'⟩ := (ExchangeState.Recorded.start hs).run stream' hw' ht'
  rw [h.log.replayed, h'.log.replayed, List.map_append, List.map_append] at hlog
  have hnew := List.append_cancel_left hlog
  rw [List.map_map, List.map_map] at hnew
  have huntimed : entries.map WalEntry.untimed = entries'.map WalEntry.untimed := by
    have hsome (l : List WalEntry) : l.map (Option.map WalEntry.untimed ∘ some) =
        (l.map WalEntry.untimed).map some := by
      rw [List.map_map]
      rfl
    rw [hsome, hsome] at hnew
    exact List.map_injective_iff.2 (Option.some_injective _) hnew
  have hrecover (l : List WalEntry) : l.foldl SoftwareEngine.recover s.engine =
      (l.map WalEntry.untimed).foldl SoftwareEngine.recover s.engine := by
    simp only [List.foldl_map, SoftwareEngine.recover_untimed]
  rw [h.books, h'.books, hrecover entries, hrecover entries', huntimed]

section Sessions

/-- A live exchange at its start, with a new log. -/
def opening : ExchangeState 1 where
  book := .new (Vector.replicate 2 {})
  engine := {}
  risk := .new
  wal := { log := ⟨true, 0⟩ }

def arrive (now : UInt64) (msg : Order) : Arrival := ⟨msg, now, fun _ => 0, WalEntry.bytes⟩

def bid (ref : UInt64) : Order :=
  { orderRef := ref, quantity := 10, price := 100, side := .buy, action := .add }

/-- Two sessions that differ in their clocks and in a cancel of an order that never was. -/
theorem untimed_sessions_same_books :
    (after ExchangeState.onOrder opening
      [arrive 0 (bid 1),
        arrive 1 { orderRef := 2, quantity := 5, action := .cancel }]).engine.books =
    (after ExchangeState.onOrder opening
      [arrive 7 { bid 1 with timestampNs := 7 }]).engine.books := by
  apply log_determines_books
  · decide
  · decide +kernel
  · decide +kernel
  · decide +kernel
  · decide +kernel
  · decide +kernel

/-- A delete writes nothing to the log and takes its order out of the book. -/
theorem delete_leaves_no_trace :
    let stream := [arrive 0 (bid 1)]
    let stream' := stream ++ [arrive 0 { orderRef := 1, action := .delete }]
    let s := after ExchangeState.onOrder opening stream
    let s' := after ExchangeState.onOrder opening stream'
    EachStep ExchangeState.Written ExchangeState.onOrder opening stream ∧
      EachStep ExchangeState.Written ExchangeState.onOrder opening stream' ∧
      s.wal.replayed.map (Option.map WalEntry.untimed) =
        s'.wal.replayed.map (Option.map WalEntry.untimed) ∧
      s.engine.books ≠ s'.engine.books := by
  intro stream stream' s s'
  have hlevels : s.engine.books.1.entries ≠ s'.engine.books.1.entries := by decide +kernel
  refine ⟨by decide +kernel, by decide +kernel, by decide +kernel, fun h => hlevels ?_⟩
  exact congrArg (fun books => books.1.entries) h

end Sessions

end Tickpipe
