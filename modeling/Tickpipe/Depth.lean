import Tickpipe.Ladder
import Mathlib.Algebra.Order.BigOperators.Group.List
import Mathlib.Algebra.Ring.Nat

set_option autoImplicit true

namespace Tickpipe

structure DepthLevel where
  price : UInt32
  quantity : UInt32
  orders : UInt32
deriving DecidableEq

namespace Level

def totalQuantity (q : Level) : UInt32 := q.foldl (fun qty e => qty + e.2) 0

theorem shares_cons (e : UInt64 × UInt32) (q : Level) :
    shares (e :: q) = e.2.toNat + shares q := by
  rw [shares, List.map_cons, List.sum_cons, shares]

theorem toNat_totalQuantity (q : Level) : q.totalQuantity.toNat = q.shares % 2 ^ 32 := by
  have hfold (qty : UInt32) : (q.foldl (fun qty e => qty + e.2) qty).toNat =
      (qty.toNat + q.shares) % 2 ^ 32 := by
    induction q generalizing qty with
    | nil =>
      have hlt := qty.toNat_lt
      exact (Nat.mod_eq_of_lt hlt).symm
    | cons e q ih =>
      rw [List.foldl_cons, ih, shares_cons, UInt32.toNat_add, Nat.mod_add_mod, Nat.add_assoc]
  have hzero := hfold 0
  rw [UInt32.toNat_zero, Nat.zero_add] at hzero
  exact hzero

theorem length_le_shares {q : Level} (h : ∀ e ∈ q, e.2 ≠ 0) : q.length ≤ q.shares := by
  induction q with
  | nil => exact Nat.zero_le _
  | cons e q ih =>
    obtain ⟨he, hq⟩ := List.forall_mem_cons.1 h
    have hpos : e.2.toNat ≠ 0 := fun h0 => he (UInt32.toNat_inj.1 h0)
    have hrest := ih hq
    rw [List.length_cons, shares_cons]
    omega

end Level

namespace Ladder

variable {lt : UInt32 → UInt32 → Prop}

def walkDepth (max : Nat) : (n : Nat) → List (UInt32 × Level) → List DepthLevel
  | _, [] => []
  | n, (px, queue) :: book =>
    if n ≥ max then []
    else
      let qty := queue.totalQuantity
      if qty = 0 then walkDepth max n book
      else ⟨px, qty, UInt32.ofNat queue.length⟩ :: walkDepth max (n + 1) book

def best (book : Ladder lt) : Option (UInt32 × UInt32) :=
  book.first?.map fun level => (level.1, level.2.totalQuantity)

end Ladder

namespace SoftwareEngine

/-- The entries that are filled; their number is what the source returns. -/
def depth (e : SoftwareEngine) (side : Side) (max : Nat) : List DepthLevel :=
  if side = .buy then Ladder.walkDepth max 0 e.bids.entries
  else Ladder.walkDepth max 0 e.asks.entries

/-- Nothing where the source returns false. -/
def bestBid (e : SoftwareEngine) : Option (UInt32 × UInt32) := e.bids.best

def bestAsk (e : SoftwareEngine) : Option (UInt32 × UInt32) := e.asks.best

end SoftwareEngine

namespace Ladder

variable {lt : UInt32 → UInt32 → Prop} {book : Ladder lt}

def Filled (book : Ladder lt) : Prop :=
  ∀ price q, book.get? price = some q → q ≠ [] ∧ ∀ e ∈ q, e.2 ≠ 0

/-- What a snapshot of at most `max` levels is to tell. -/
structure Exact (book : Ladder lt) (max : Nat) (out : List DepthLevel) : Prop where
  count : out.length = min max book.entries.length
  worsening : out.Pairwise fun d d' => lt d.price d'.price
  listed : out.map (fun d => (d.price, d.quantity.toNat, d.orders.toNat)) =
    (book.entries.take max).map fun level => (level.1, level.2.shares, level.2.length)
  best : 0 < max → ∀ level, book.first? = some level → ∃ d, out.head? = some d ∧
    book.best = some (d.price, d.quantity)

theorem Filled.of_mem [DecidableRel lt] [IsStrictTotalOrder UInt32 lt] (h : book.Filled)
    (hm : level ∈ book.entries) : level.2 ≠ [] ∧ ∀ e ∈ level.2, e.2 ≠ 0 :=
  h level.1 level.2 (book.mem_entries_iff.1 hm)

theorem walkDepth_eq (max n : Nat) {levels : List (UInt32 × Level)}
    (h : ∀ level ∈ levels.take (max - n), level.2.totalQuantity ≠ 0) :
    walkDepth max n levels = (levels.take (max - n)).map fun level =>
      ⟨level.1, level.2.totalQuantity, UInt32.ofNat level.2.length⟩ := by
  induction levels generalizing n with
  | nil => rw [walkDepth, List.take_nil, List.map_nil]
  | cons level levels ih =>
    obtain ⟨px, queue⟩ := level
    rw [walkDepth]
    by_cases hn : n ≥ max
    · rw [if_pos hn, Nat.sub_eq_zero_of_le hn, List.take_zero, List.map_nil]
    · have hsub : max - n = (max - (n + 1)) + 1 := by omega
      rw [hsub, List.take_succ_cons] at h ⊢
      obtain ⟨hhead, htail⟩ := List.forall_mem_cons.1 h
      rw [if_neg hn, List.map_cons]
      dsimp only at hhead ⊢
      rw [if_neg hhead, ih _ htail]

def entryOf (level : UInt32 × Level) : DepthLevel :=
  ⟨level.1, level.2.totalQuantity, UInt32.ofNat level.2.length⟩

theorem entryOf_exact {level : UInt32 × Level} (hfit : level.2.shares < 2 ^ 32)
    (hfilled : ∀ e ∈ level.2, e.2 ≠ 0) :
    (entryOf level).quantity.toNat = level.2.shares ∧
      (entryOf level).orders.toNat = level.2.length := by
  have hlen := Level.length_le_shares hfilled
  constructor
  · exact (Level.toNat_totalQuantity _).trans (Nat.mod_eq_of_lt hfit)
  · rw [entryOf, UInt32.toNat_ofNat']
    exact Nat.mod_eq_of_lt (Nat.lt_of_le_of_lt hlen hfit)

theorem totalQuantity_ne_zero {level : UInt32 × Level} (hfit : level.2.shares < 2 ^ 32)
    (hne : level.2 ≠ []) (hfilled : ∀ e ∈ level.2, e.2 ≠ 0) : level.2.totalQuantity ≠ 0 := by
  intro hzero
  have hlen := Level.length_le_shares hfilled
  have hpos := List.length_pos_iff.2 hne
  have htotal := Level.toNat_totalQuantity level.2
  rw [hzero, UInt32.toNat_zero, Nat.mod_eq_of_lt hfit] at htotal
  omega

variable [DecidableRel lt] [IsStrictTotalOrder UInt32 lt]

/-- A snapshot is exact when and only when no level that it lists holds more than 32 bits count. -/
theorem Filled.exact_iff (h : book.Filled) (max : Nat) :
    book.Exact max (walkDepth max 0 book.entries) ↔
      ∀ level ∈ book.entries.take max, level.2.shares < 2 ^ 32 := by
  constructor
  · intro hexact level hlevel
    have hmem : (level.1, level.2.shares, level.2.length) ∈
        (book.entries.take max).map fun level => (level.1, level.2.shares, level.2.length) :=
      List.mem_map.2 ⟨level, hlevel, rfl⟩
    rw [← hexact.listed, List.mem_map] at hmem
    obtain ⟨d, -, hd⟩ := hmem
    obtain ⟨-, hd⟩ := Prod.mk.inj hd
    obtain ⟨hquantity, -⟩ := Prod.mk.inj hd
    exact hquantity ▸ d.quantity.toNat_lt
  · intro hfit
    have hfilled (level : UInt32 × Level) (hm : level ∈ book.entries.take max) :=
      h.of_mem (List.mem_of_mem_take hm)
    have hwalk : walkDepth max 0 book.entries = (book.entries.take max).map entryOf := by
      apply walkDepth_eq max 0
      intro level hm
      exact totalQuantity_ne_zero (hfit level hm) (hfilled level hm).1 (hfilled level hm).2
    rw [hwalk]
    constructor
    case count => rw [List.length_map, List.length_take]
    case worsening =>
      apply List.pairwise_map.2
      exact book.sorted.sublist (List.take_sublist _ _)
    case listed =>
      rw [List.map_map]
      apply List.map_congr_left
      intro level hm
      obtain ⟨hquantity, horders⟩ := entryOf_exact (hfit level hm) (hfilled level hm).2
      exact Prod.ext rfl (Prod.ext hquantity horders)
    case best =>
      intro hmax level hfirst
      refine ⟨entryOf level, ?_, ?_⟩
      · rw [List.head?_map, List.head?_take, if_neg (Nat.pos_iff_ne_zero.1 hmax)]
        exact congrArg (Option.map entryOf) hfirst
      · rw [Ladder.best, hfirst]
        rfl

end Ladder

/-- Rewriting one entry leaves no empty order where the rewriting makes none. -/
theorem Level.alter_filled {f : UInt32 → Option UInt32} (hf : ∀ n m, f n = some m → m ≠ 0)
    {q q' : Level} (hq : ∀ e ∈ q, e.2 ≠ 0) (h : Level.alter f ref q = some q') :
    ∀ e ∈ q', e.2 ≠ 0 := by
  induction q generalizing q' with
  | nil => cases h
  | cons e q ih =>
    obtain ⟨r, n⟩ := e
    obtain ⟨hhead, htail⟩ := List.forall_mem_cons.1 hq
    rw [Level.alter] at h
    split at h
    · split at h
      · obtain rfl := Option.some.inj h
        exact htail
      · next m hm =>
        obtain rfl := Option.some.inj h
        exact List.forall_mem_cons.2 ⟨hf n m hm, htail⟩
    · obtain ⟨rest, hrest, rfl⟩ := Option.map_eq_some_iff.1 h
      exact List.forall_mem_cons.2 ⟨hhead, ih htail hrest⟩

namespace Ladder

variable {lt : UInt32 → UInt32 → Prop} {book : Ladder lt}

theorem filled_empty : Filled (OrdMap.empty : Ladder lt) := by
  intro price q h
  cases h

theorem Filled.queue (h : book.Filled) (price : UInt32) : ∀ e ∈ book.queue price, e.2 ≠ 0 := by
  rw [Ladder.queue]
  cases hg : book.get? price with
  | none => exact List.forall_mem_nil _
  | some q => exact (h price q hg).2

variable [DecidableRel lt] [IsStrictTotalOrder UInt32 lt]

theorem Filled.settle (h : book.Filled) (price : UInt32) {q : Level} (hq : ∀ e ∈ q, e.2 ≠ 0) :
    (book.settle price q).Filled := by
  intro p q' hp
  rw [Ladder.settle] at hp
  by_cases hprice : p = price
  · subst hprice
    split at hp
    · rw [OrdMap.get?_erase_self] at hp
      cases hp
    · next hne =>
      rw [OrdMap.get?_insert_self] at hp
      obtain rfl := Option.some.inj hp
      exact ⟨hne, hq⟩
  · split at hp
    · rw [OrdMap.get?_erase_ne _ hprice] at hp
      exact h p q' hp
    · rw [OrdMap.get?_insert_ne _ hprice] at hp
      exact h p q' hp

theorem Filled.pushBack (h : book.Filled) (price : UInt32) {entry : UInt64 × UInt32}
    (he : entry.2 ≠ 0) : (book.pushBack price entry).Filled := by
  rw [pushBack_eq_settle]
  apply h.settle
  intro e hmem
  rcases List.mem_append.1 hmem with hold | hnew
  · exact h.queue price e hold
  · obtain rfl := List.mem_singleton.1 hnew
    exact he

variable {f : UInt32 → Option UInt32}

theorem Filled.alterAt (h : book.Filled) (hf : ∀ n m, f n = some m → m ≠ 0)
    (ha : book.alterAt f price ref = some book') : book'.Filled := by
  rw [alterAt_eq] at ha
  obtain ⟨q, hq, rfl⟩ := Option.map_eq_some_iff.1 ha
  exact h.settle price (Level.alter_filled hf (h.queue price) hq)

theorem Filled.scan (h : book.Filled) (hf : ∀ n m, f n = some m → m ≠ 0)
    (hs : book.scan f ref = some book') : book'.Filled := by
  rw [Ladder.scan] at hs
  obtain ⟨level, hlevel, rfl⟩ := Option.map_eq_some_iff.1 hs
  have hspec := scanEntries_spec f ref book.entries
  rw [hlevel] at hspec
  obtain ⟨q, hmem, halter⟩ := hspec
  exact h.settle level.1 (Level.alter_filled hf (h.of_mem hmem).2 halter)

end Ladder

namespace SoftwareEngine

variable {e e' : SoftwareEngine} {f : UInt32 → Option UInt32}

/-- Neither side of the book has an empty level or an empty order. -/
structure Filled (e : SoftwareEngine) : Prop where
  bids : e.bids.Filled
  asks : e.asks.Filled

theorem shrunk_ne_zero (qty n m : UInt32) (h : shrunk qty n = some m) : m ≠ 0 := by
  rw [shrunk] at h
  split at h
  · cases h
  · next hne =>
    obtain rfl := Option.some.inj h
    exact hne

theorem Filled.alterRef (h : e.Filled) (hf : ∀ n m, f n = some m → m ≠ 0)
    (ha : alterRef f e side price ref = some e') : e'.Filled := by
  rw [SoftwareEngine.alterRef] at ha
  split at ha
  · obtain ⟨bids, hb, rfl⟩ := Option.map_eq_some_iff.1 ha
    exact ⟨h.bids.alterAt hf hb, h.asks⟩
  · obtain ⟨asks, hs, rfl⟩ := Option.map_eq_some_iff.1 ha
    exact ⟨h.bids, h.asks.alterAt hf hs⟩

theorem Filled.scanRef (h : e.Filled) (hs : e.scanRef side ref qty = some e') : e'.Filled := by
  rw [SoftwareEngine.scanRef] at hs
  split at hs
  · obtain ⟨bids, hb, rfl⟩ := Option.map_eq_some_iff.1 hs
    exact ⟨h.bids.scan (shrunk_ne_zero qty) hb, h.asks⟩
  · obtain ⟨asks, ha, rfl⟩ := Option.map_eq_some_iff.1 hs
    exact ⟨h.bids, h.asks.scan (shrunk_ne_zero qty) ha⟩

theorem Filled.getD (h : e.Filled) {o : Option SoftwareEngine}
    (ho : ∀ e', o = some e' → e'.Filled) :
    (o.getD e.countOrphan).Filled := by
  cases o with
  | none => exact ⟨h.bids, h.asks⟩
  | some e' => exact ho e' rfl

theorem Filled.restOrder (h : e.Filled) (side : Side) (price : UInt32) (ref : UInt64)
    (qty : UInt32) : (e.restOrder side price ref qty).Filled := by
  rw [SoftwareEngine.restOrder]
  split
  · exact h
  · next hqty =>
    split
    · exact ⟨h.bids.pushBack price hqty, h.asks⟩
    · exact ⟨h.bids, h.asks.pushBack price hqty⟩

theorem Filled.executeBook (h : e.Filled) (op : ResolvedOp) : (e.executeBook op).Filled := by
  rw [SoftwareEngine.executeBook]
  split
  · next e' hr => exact h.alterRef (shrunk_ne_zero _) hr
  · exact h.getD fun _ => h.scanRef

theorem Filled.apply (h : e.Filled) (op : ResolvedOp) : (e.apply op).Filled := by
  have hreduce (e' : SoftwareEngine)
      (he : e.reduceRef op.side op.price op.orderRef op.quantity = some e') : e'.Filled :=
    h.alterRef (shrunk_ne_zero _) he
  have hremove (e' : SoftwareEngine) (he : e.removeRef op.side op.price op.orderRef = some e') :
      e'.Filled := by
    apply h.alterRef ?_ he
    intro n m hm
    cases hm
  rw [SoftwareEngine.apply]
  cases op.action with
  | add =>
    have hrest := h.restOrder op.side op.price op.orderRef op.quantity
    exact ⟨hrest.bids, hrest.asks⟩
  | execute =>
    have hbook := h.executeBook op
    dsimp only
    split
    · exact ⟨hbook.bids, hbook.asks⟩
    · exact hbook
  | cancel => exact h.getD hreduce
  | delete => exact h.getD hremove
  | trade => exact ⟨h.bids, h.asks⟩
  | replace => exact h
  | none => exact h

theorem Filled.applyAll (h : e.Filled) (ops : List ResolvedOp) : (e.applyAll ops).Filled := by
  induction ops generalizing e with
  | nil => exact h
  | cons op ops ih => exact ih (h.apply op)

/-- A snapshot of a side tells what rests there. -/
def DepthExact (e : SoftwareEngine) (side : Side) (max : Nat) : Prop :=
  if side = .buy then e.bids.Exact max (e.depth side max) else e.asks.Exact max (e.depth side max)

def listedLevels (e : SoftwareEngine) (side : Side) (max : Nat) : List (UInt32 × Level) :=
  if side = .buy then e.bids.entries.take max else e.asks.entries.take max

end SoftwareEngine

/-- Depth snapshots are exact as long as the shares of each level listed fit in 32 bits. -/
theorem depth_exact_iff (ops : List ResolvedOp) (side : Side) (max : Nat) :
    let e := ({} : SoftwareEngine).applyAll ops
    e.DepthExact side max ↔ ∀ level ∈ e.listedLevels side max, level.2.shares < 2 ^ 32 := by
  intro e
  have hempty : ({} : SoftwareEngine).Filled := ⟨Ladder.filled_empty, Ladder.filled_empty⟩
  have hfilled : e.Filled := hempty.applyAll ops
  rw [SoftwareEngine.DepthExact, SoftwareEngine.listedLevels, SoftwareEngine.depth]
  split
  · exact hfilled.bids.exact_iff max
  · exact hfilled.asks.exact_iff max

/-- An Add of 2³¹ shares to one bid level. -/
def halfBid (ref : UInt64) : ResolvedOp where
  action := .add
  orderRef := ref
  quantity := 0x80000000
  price := 1000000
  matchNumber := 0
  timestampNs := 0
  side := .buy
  stock := Vector.replicate 8 32

/-- Two of them make a total of zero, and the level is not listed at all. -/
theorem halfBids_missing :
    (({} : SoftwareEngine).applyAll [halfBid 1, halfBid 2]).depth .buy 5 = [] ∧
      ¬(({} : SoftwareEngine).applyAll [halfBid 1, halfBid 2]).DepthExact .buy 5 := by
  have hnone : (({} : SoftwareEngine).applyAll [halfBid 1, halfBid 2]).depth .buy 5 = [] := by
    decide +kernel
  refine ⟨hnone, ?_⟩
  intro hexact
  rw [SoftwareEngine.DepthExact, if_pos rfl, hnone] at hexact
  exact absurd hexact.count (by decide +kernel)

end Tickpipe
