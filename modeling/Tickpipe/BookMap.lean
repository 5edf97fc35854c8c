import Tickpipe.OrderTable
import Tickpipe.Lib.Mealy
import Mathlib.Data.Fintype.Basic

set_option autoImplicit true

namespace Tickpipe
open LinearProbe

/-- What is left of an order after `n` shares are taken from it. -/
def RestingOrder.less (ro : RestingOrder) (n : UInt32) : Option RestingOrder :=
  if ro.quantity - n = 0 then none else some { ro with quantity := ro.quantity - n }

/-- The purpose of the table: a finite map from order reference to resting order. -/
abbrev OrderMap := UInt64 → Option RestingOrder

namespace OrderMap

def take (m : OrderMap) (msg : Order) : OrderMap :=
  match m msg.orderRef with
  | none => m
  | some ro => Function.update m msg.orderRef (ro.less (BookState.taken msg ro))

def remove (m : OrderMap) (ref : UInt64) : OrderMap := Function.update m ref none

def store (m : OrderMap) (ro : RestingOrder) : OrderMap :=
  Function.update m ro.orderRef (some ro)

/-- The replaced order under its new reference, with the side and stock of the old one. -/
def renew (msg : Order) (ro : RestingOrder) : RestingOrder :=
  ⟨msg.newOrderRef, msg.quantity, msg.price, ro.side, ro.stock⟩

def replace (m : OrderMap) (msg : Order) (stored : Bool) : OrderMap :=
  match m msg.orderRef with
  | none => m
  | some ro =>
    if stored then (m.remove msg.orderRef).store (renew msg ro) else m.remove msg.orderRef

/-- An operation that concerns a resting order, as `resolve` fills it in. -/
def opOn (msg : Order) (ro : RestingOrder) (action : Action) (quantity : UInt32) : ResolvedOp :=
  ⟨action, ro.orderRef, quantity, ro.price, 0, msg.timestampNs, ro.side, ro.stock⟩

/-- The operations of a message, where `room` says whether an insertion finds a place. -/
def emit (m : OrderMap) (msg : Order) (room : Bool) : Option (List ResolvedOp) :=
  match msg.action with
  | .add =>
    let ro : RestingOrder := ⟨msg.orderRef, msg.quantity, msg.price, msg.side, msg.stock⟩
    if room then some [opOn msg ro .add ro.quantity] else none
  | .execute => (m msg.orderRef).map fun ro =>
    [{ opOn msg ro .execute (BookState.taken msg ro) with
      price := if msg.price ≠ 0 then msg.price else ro.price
      matchNumber := msg.matchNumber }]
  | .cancel => (m msg.orderRef).map fun ro => [opOn msg ro .cancel (BookState.taken msg ro)]
  | .delete => (m msg.orderRef).map fun ro => [opOn msg ro .delete ro.quantity]
  | .replace => (m msg.orderRef).map fun ro =>
    opOn msg ro .delete ro.quantity ::
      if room then [opOn msg (renew msg ro) .add msg.quantity] else []
  | .trade => some [⟨.trade, msg.orderRef, msg.quantity, msg.price, msg.matchNumber,
      msg.timestampNs, msg.side, msg.stock⟩]
  | .none => none

/-- The live order that the new order of a message would be stored over. -/
def overwritten (m : OrderMap) (msg : Order) : Option RestingOrder :=
  match msg.action with
  | .add => m msg.orderRef
  | .replace => (m msg.orderRef).bind fun _ => m.remove msg.orderRef msg.newOrderRef
  | .execute | .cancel | .delete | .trade | .none => none

/-- Whether an order that the message brings finds a place: over the live order of its reference,
or in an empty slot. -/
def hasRoom (m : OrderMap) (msg : Order) (emptyLeft : Bool) : Bool :=
  match msg.action with
  | .add => emptyLeft || (m msg.orderRef).isSome
  | .replace =>
    (m msg.orderRef).isNone || emptyLeft || (m.remove msg.orderRef msg.newOrderRef).isSome
  | .execute | .cancel | .delete | .trade | .none => true

/-- What a message does to the map. A replace that finds no room only removes. -/
def step (m : OrderMap) (msg : Order) (room : Bool) : OrderMap :=
  match msg.action with
  | .add =>
    if room then m.store ⟨msg.orderRef, msg.quantity, msg.price, msg.side, msg.stock⟩ else m
  | .execute | .cancel => m.take msg
  | .delete => m.remove msg.orderRef
  | .replace => m.replace msg room
  | .trade | .none => m

theorem take_none (m : OrderMap) (hm : m msg.orderRef = none) : m.take msg = m := by
  rw [take, hm]

theorem remove_none (m : OrderMap) (hm : m ref = none) : m.remove ref = m := by
  rw [remove, ← hm, Function.update_eq_self]

theorem replace_none (m : OrderMap) (hm : m msg.orderRef = none) (stored : Bool) :
    m.replace msg stored = m := by
  rw [replace, hm]

/-- An order that finds no room would not have been stored over a live one. -/
theorem overwritten_of_full (m : OrderMap) (h : m.hasRoom msg emptyLeft = false) :
    m.overwritten msg = none := by
  rw [hasRoom] at h
  rw [overwritten]
  cases ha : msg.action with
  | add =>
    rw [ha] at h
    exact Option.isNone_iff_eq_none.1 (by simpa using (Bool.or_eq_false_iff.1 h).2)
  | replace =>
    rw [ha] at h
    obtain ⟨h, hnew⟩ := Bool.or_eq_false_iff.1 h
    obtain ⟨ro, hro⟩ := Option.isSome_iff_exists.1 (by simpa using (Bool.or_eq_false_iff.1 h).1)
    rw [hro]
    exact Option.isNone_iff_eq_none.1 (by simpa using hnew)
  | execute | cancel | delete | trade | none => rfl

end OrderMap

namespace BookState

variable {k : Nat} {b b' b'' : BookState k} {idx : Fin (2 ^ k)}

theorem Valid.reduce_valid (hb : b.Valid) (ho : b.state.get idx = .occupied) (n : UInt32) :
    (b.reduce idx n).Valid :=
  hb.rewrite ho rfl

theorem Valid.reduce_lookup (hb : b.Valid) (ho : b.state.get idx = .occupied) (n : UInt32) :
    (b.reduce idx n).lookup = Function.update b.lookup (b.slots.get idx).orderRef
      (some { b.slots.get idx with quantity := (b.slots.get idx).quantity - n }) :=
  hb.lookup_rewrite ho rfl

theorem reduce_slot (b : BookState k) (idx : Fin (2 ^ k)) (n : UInt32) :
    (b.reduce idx n).slots.get idx =
      { b.slots.get idx with quantity := (b.slots.get idx).quantity - n } := by
  rw [reduce, Vector.get_put_self]

theorem Valid.take_valid (hb : b.Valid) (ho : b.state.get idx = .occupied) (ref : UInt64)
    (n : UInt32) : (b.take ref idx n).Valid := by
  have hr := hb.reduce_valid ho n
  rw [take]
  split
  · exact hr.erase_valid ref
  · exact hr

theorem Valid.take_lookup (hb : b.Valid) (ho : b.state.get idx = .occupied) (n : UInt32) :
    (b.take (b.slots.get idx).orderRef idx n).lookup =
      Function.update b.lookup (b.slots.get idx).orderRef ((b.slots.get idx).less n) := by
  rw [take, reduce_slot, RestingOrder.less]
  split
  · rw [(hb.reduce_valid ho n).erase_lookup, hb.reduce_lookup ho n, Function.update_idem]
  · exact hb.reduce_lookup ho n

theorem take_digest (b : BookState k) (ref : UInt64) (idx : Fin (2 ^ k)) (n : UInt32) :
    (b.take ref idx n).digest = b.digest := by
  rw [take]
  split
  · exact erase_digest _ ref
  · rfl

/-- Some slot has never been used since the last reset. -/
def HasEmpty (b : BookState k) : Prop := ∃ i : Fin (2 ^ k), b.state.get i = .empty

instance (b : BookState k) : Decidable b.HasEmpty :=
  inferInstanceAs (Decidable (∃ i : Fin (2 ^ k), b.state.get i = .empty))

def room (b : BookState k) (msg : Order) : Bool := OrderMap.hasRoom b.lookup msg b.HasEmpty

theorem Valid.insert_true_iff (hb : b.Valid) (ro : RestingOrder) :
    (b.insert ro).1 = true ↔ b.lookup ro.orderRef ≠ none ∨ b.HasEmpty := by
  rw [← Bool.not_eq_false, ne_eq, hb.insert_false_iff, not_and_or, not_forall]
  simp only [HasEmpty, ne_eq, not_not]

/-- Erasing turns an occupied slot into a tombstone, so it never makes an empty slot. -/
theorem Valid.erase_hasEmpty_iff (hb : b.Valid) (ref : UInt64) :
    (b.erase ref).2.HasEmpty ↔ b.HasEmpty := by
  rcases hb.erase_cases ref with ⟨idx, ho, -, he⟩ | ⟨-, he⟩
  · rw [he]
    have hx := sameExcept_state b idx .tombstone { b.stats with live := b.stats.live - 1 }
    constructor
    · rintro ⟨i, hi⟩
      by_cases hii : i = idx
      · subst hii
        simp only [Vector.get_put_self, reduceCtorEq] at hi
      · exact ⟨i, (hx i hii).1.symm.trans hi⟩
    · rintro ⟨i, hi⟩
      have hii : i ≠ idx := by
        intro hii
        rw [hii, ho] at hi
        cases hi
      exact ⟨i, (hx i hii).1.trans hi⟩
  · rw [he]

/-- Everything `find` can do. -/
theorem Valid.find_cases (hb : b.Valid) (ref : UInt64) :
    (∃ (idx : Fin (2 ^ k)) (b' : BookState k), b.find ref = (some idx, b') ∧ b'.Valid ∧
      b'.lookup = b.lookup ∧ b'.digest = b.digest ∧ b'.state.get idx = .occupied ∧
      (b'.slots.get idx).orderRef = ref ∧ b.lookup ref = some (b'.slots.get idx)) ∨
    (b.find ref = (none, b) ∧ b.lookup ref = none) := by
  cases hf : (b.find ref).1 with
  | none =>
    refine .inr ⟨?_, by rw [lookup, hf]; rfl⟩
    rw [find_eq] at hf ⊢
    split at hf
    · cases hf
    · rfl
  | some idx =>
    obtain ⟨ho, hr⟩ := (hb.find_iff ref idx).1 hf
    refine .inl ⟨idx, (b.find ref).2, by rw [← hf], hb.find_valid ref, find_lookup b ref,
      find_digest b ref, ?_, ?_, ?_⟩
    · rw [find_state, ho]
    · simp only [find_slots, hr]
    · rw [lookup, hf, find_slots]
      rfl

/-- An outcome of `resolve_impl` is what the map says of the message. -/
structure Refines (b : BookState k) (msg : Order)
    (out : Option (List ResolvedOp) × BookState k) : Prop where
  emits : out.1 = OrderMap.emit b.lookup msg (b.room msg)
  valid : out.2.Valid
  lookup : out.2.lookup = OrderMap.step b.lookup msg (b.room msg)
  digest : out.2.digest = b.digest

theorem Refines.congr (h : b.Refines msg (o, c)) (hs : b'.slots = c.slots)
    (ht : b'.state = c.state) (hl : b'.stats.live = c.stats.live)
    (hd : b'.digest = c.digest) : b.Refines msg (o, b') where
  emits := h.emits
  valid := h.valid.congr hs ht hl
  lookup := (lookup_congr hs ht).trans h.lookup
  digest := hd.trans h.digest

theorem Valid.unresolved_refines (hb : b.Valid)
    (hemit : OrderMap.emit b.lookup msg (b.room msg) = none)
    (hstep : OrderMap.step b.lookup msg (b.room msg) = b.lookup) :
    b.Refines msg (none, b.countUnresolved) where
  emits := hemit.symm
  valid := hb.congr rfl rfl rfl
  lookup := by
    rw [hstep]
    exact lookup_congr rfl rfl
  digest := rfl

theorem Valid.resolveAdd_refines (hb : b.Valid) (ha : msg.action = .add) :
    b.Refines msg (b.resolveAdd msg) := by
  let ro : RestingOrder := ⟨msg.orderRef, msg.quantity, msg.price, msg.side, msg.stock⟩
  have hv := hb.insert_valid ro
  have hl := hb.insert_lookup ro
  have hd := insert_digest b ro
  have hroom : b.room msg = (b.insert ro).1 := by
    rw [Bool.eq_iff_iff, hb.insert_true_iff, room, OrderMap.hasRoom, ha]
    dsimp only
    rw [Bool.or_eq_true, decide_eq_true_iff, Option.isSome_iff_ne_none, or_comm]
  obtain ⟨ok, b', hout⟩ : ∃ ok b', b.insert ro = (ok, b') := ⟨_, _, rfl⟩
  rw [hout] at hv hl hd hroom
  rw [resolveAdd, hout]
  cases ok with
  | false =>
    refine ⟨?_, hv, ?_, hd⟩
    · rw [OrderMap.emit, ha, hroom]
      rfl
    · rw [OrderMap.step, ha, hroom]
      exact hl
  | true =>
    refine Refines.congr (c := b') ⟨?_, hv, ?_, hd⟩ rfl rfl rfl rfl
    · rw [OrderMap.emit, ha, hroom]
      rfl
    · rw [OrderMap.step, ha, hroom]
      exact hl

/-- The shares come off the order that the map has, and nothing happens where it has none. -/
theorem Valid.resolveTake_refines (hb : b.Valid) {emitted : RestingOrder → ResolvedOp}
    (hop : ∀ ro : RestingOrder, ro.orderRef = msg.orderRef → op ro (taken msg ro) = emitted ro)
    (hcount : ∀ s : Stats, (count s).live = s.live)
    (hemit : OrderMap.emit b.lookup msg (b.room msg) =
      (b.lookup msg.orderRef).map fun ro => [emitted ro])
    (hstep : OrderMap.step b.lookup msg (b.room msg) = OrderMap.take b.lookup msg) :
    b.Refines msg (b.resolveTake msg op count) := by
  rw [resolveTake]
  rcases hb.find_cases msg.orderRef with ⟨idx, b', hf, hv, hl, hd, ho, hr, hm⟩ | ⟨hf, hm⟩
  · rw [hf]
    refine Refines.congr ⟨?_, hv.take_valid ho _ _, ?_, (take_digest b' _ idx _).trans hd⟩
      rfl rfl (hcount _) rfl
    · rw [hemit, hm, Option.map_some, ← hop _ hr]
    · have ht := hv.take_lookup ho (taken msg (b'.slots.get idx))
      rw [hr, hl] at ht
      rw [hstep, OrderMap.take, hm]
      exact ht
  · rw [hf]
    apply hb.unresolved_refines
    · rw [hemit, hm, Option.map_none]
    · rw [hstep, OrderMap.take_none _ hm]

theorem Valid.resolveExecute_refines (hb : b.Valid) (ha : msg.action = .execute) :
    b.Refines msg (b.resolveExecute msg) := by
  refine hb.resolveTake_refines ?_ (fun _ => rfl) (by rw [OrderMap.emit, ha])
    (by rw [OrderMap.step, ha])
  intro ro hr
  rw [OrderMap.opOn, hr]

theorem Valid.resolveCancel_refines (hb : b.Valid) (ha : msg.action = .cancel) :
    b.Refines msg (b.resolveCancel msg) := by
  refine hb.resolveTake_refines ?_ (fun _ => rfl) (by rw [OrderMap.emit, ha])
    (by rw [OrderMap.step, ha])
  intro ro hr
  rw [OrderMap.opOn, hr]

theorem Valid.resolveDelete_refines (hb : b.Valid) (ha : msg.action = .delete) :
    b.Refines msg (b.resolveDelete msg) := by
  rw [resolveDelete]
  rcases hb.find_cases msg.orderRef with ⟨idx, b', hf, hv, hl, hd, ho, hr, hm⟩ | ⟨hf, hm⟩
  · rw [hf]
    refine Refines.congr ⟨?_, hv.erase_valid _, ?_, (erase_digest b' _).trans hd⟩ rfl rfl rfl rfl
    · simp only [OrderMap.emit, ha, hm, Option.map_some, OrderMap.opOn, hr]
    · rw [OrderMap.step, ha, ← hl]
      exact hv.erase_lookup msg.orderRef
  · rw [hf]
    apply hb.unresolved_refines
    · simp only [OrderMap.emit, ha, hm, Option.map_none]
    · rw [OrderMap.step, ha]
      exact OrderMap.remove_none _ hm

/-- What a replace puts in finds room behind what it took out exactly when the message does. -/
theorem replace_room (ha : msg.action = .replace)
    (hlive : b.lookup msg.orderRef ≠ none) (hs : b'.state = b.state) (hv : b'.Valid)
    (hl : b'.lookup = b.lookup) (hro : ro.orderRef = msg.newOrderRef) :
    b.room msg = ((b'.erase msg.orderRef).2.insert ro).1 := by
  have hempty : b'.HasEmpty ↔ b.HasEmpty := by
    rw [HasEmpty, HasEmpty, hs]
  have hnone : (b.lookup msg.orderRef).isNone = false := Option.isNone_eq_false_iff.2
    (Option.isSome_iff_ne_none.2 hlive)
  rw [Bool.eq_iff_iff, (hv.erase_valid msg.orderRef).insert_true_iff, hv.erase_hasEmpty_iff,
    hempty, hv.erase_lookup, hl, room, OrderMap.hasRoom, ha]
  dsimp only
  rw [hnone, hro, Bool.false_or, Bool.or_eq_true, decide_eq_true_iff,
    Option.isSome_iff_ne_none, or_comm]
  rfl

theorem Valid.resolveReplace_refines (hb : b.Valid) (ha : msg.action = .replace) :
    b.Refines msg (b.resolveReplace msg) := by
  rw [resolveReplace]
  rcases hb.find_cases msg.orderRef with ⟨idx, b', hf, hv, hl, hd, ho, hr, hm⟩ | ⟨hf, hm⟩
  · rw [hf]
    let ro := OrderMap.renew msg (b'.slots.get idx)
    have hve := hv.erase_valid msg.orderRef
    have hle := hv.erase_lookup msg.orderRef
    have hvi := hve.insert_valid ro
    have hli := hve.insert_lookup ro
    have hdi := (insert_digest (b'.erase msg.orderRef).2 ro).trans
      ((erase_digest b' msg.orderRef).trans hd)
    have hstate : b'.state = b.state := by
      have h := find_state b msg.orderRef
      rwa [hf] at h
    have hroom : b.room msg = ((b'.erase msg.orderRef).2.insert ro).1 :=
      replace_room ha (hm ▸ Option.some_ne_none _) hstate hv hl rfl
    rw [hle, hl] at hli
    obtain ⟨ok, b'', hout⟩ : ∃ ok b'', (b'.erase msg.orderRef).2.insert ro = (ok, b'') :=
      ⟨_, _, rfl⟩
    rw [hout] at hvi hli hdi hroom
    dsimp only [ro] at hout
    rw [OrderMap.renew] at hout
    dsimp only
    rw [hout]
    cases ok with
    | false =>
      refine ⟨?_, hvi, ?_, hdi⟩
      · simp only [OrderMap.emit, ha, hm, Option.map_some, hroom, OrderMap.opOn, hr,
          Bool.false_eq_true, ↓reduceIte]
      · simp only [OrderMap.step, ha, OrderMap.replace, hm, hroom, Bool.false_eq_true, ↓reduceIte]
        exact hli
    | true =>
      refine Refines.congr (c := b'') ⟨?_, hvi, ?_, hdi⟩ rfl rfl rfl rfl
      · simp only [OrderMap.emit, ha, hm, Option.map_some, hroom, OrderMap.opOn, OrderMap.renew, hr,
          ↓reduceIte]
      · simp only [OrderMap.step, ha, OrderMap.replace, hm, hroom, ↓reduceIte]
        exact hli
  · rw [hf]
    apply hb.unresolved_refines
    · simp only [OrderMap.emit, ha, hm, Option.map_none]
    · rw [OrderMap.step, ha]
      exact OrderMap.replace_none _ hm _

theorem Valid.resolveImpl_refines (hb : b.Valid) (msg : Order) :
    b.Refines msg (b.resolveImpl msg) := by
  rw [resolveImpl]
  cases ha : msg.action with
  | none =>
    refine ⟨?_, hb, ?_, rfl⟩
    · rw [OrderMap.emit, ha]
    · rw [OrderMap.step, ha]
  | add => exact hb.resolveAdd_refines ha
  | execute => exact hb.resolveExecute_refines ha
  | cancel => exact hb.resolveCancel_refines ha
  | delete => exact hb.resolveDelete_refines ha
  | replace => exact hb.resolveReplace_refines ha
  | trade =>
    refine Refines.congr (c := b) ⟨?_, hb, ?_, rfl⟩ rfl rfl rfl rfl
    · rw [OrderMap.emit, ha]
    · rw [OrderMap.step, ha]

theorem resolve_fst (b : BookState k) (msg : Order) :
    (b.resolve msg).1 = (b.resolveImpl msg).1 := by
  rw [resolve]
  split <;> simp only [*]

theorem Valid.resolve_emit (hb : b.Valid) (msg : Order) :
    (b.resolve msg).1 = OrderMap.emit b.lookup msg (b.room msg) := by
  rw [resolve_fst]
  exact (hb.resolveImpl_refines msg).emits

theorem resolve_digest (b : BookState k) (msg : Order) (hb : b.Valid) :
    (b.resolve msg).2.digest = ((b.resolve msg).1.getD []).foldl foldOp b.digest := by
  have hd := (hb.resolveImpl_refines msg).digest
  rw [resolve]
  split
  case h_1 h => rw [h] at hd; exact hd
  case h_2 h => rw [h] at hd; rw [← hd]; rfl

theorem Valid.resolve_valid (hb : b.Valid) (msg : Order) : (b.resolve msg).2.Valid := by
  have hv := (hb.resolveImpl_refines msg).valid
  rw [resolve]
  split
  case h_1 h => rw [h] at hv; exact hv
  case h_2 h => rw [h] at hv; exact hv.congr rfl rfl rfl

theorem Valid.resolve_lookup (hb : b.Valid) (msg : Order) :
    (b.resolve msg).2.lookup = OrderMap.step b.lookup msg (b.room msg) := by
  have hl := (hb.resolveImpl_refines msg).lookup
  rw [← hl, resolve]
  split
  case h_1 h => rw [h]
  case h_2 h => rw [h]; exact lookup_congr rfl rfl

def opsOf (b : BookState k) (msgs : List Order) : List ResolvedOp :=
  (Mealy.outputs resolve b msgs).flatMap (·.getD [])

theorem opsOf_cons (b : BookState k) (msg : Order) (msgs : List Order) :
    b.opsOf (msg :: msgs) = (b.resolve msg).1.getD [] ++ (b.resolve msg).2.opsOf msgs :=
  rfl

/-- A table whose slots are all empty is valid and binds nothing. -/
theorem valid_of_empty (hs : ∀ i : Fin (2 ^ k), b.state.get i = .empty) (hl : b.stats.live = 0) :
    b.Valid where
  chained := Chained.nothing home
    (fun i hi => (cells_empty_iff b ⟨i, hi⟩).2 (hs ⟨i, hi⟩)) (Nat.two_pow_pos k)
  live := by
    rw [hl, occupied_nothing]
    exact fun i hi => (cells_empty_iff b ⟨i, hi⟩).2 (hs ⟨i, hi⟩)

theorem lookup_of_empty (hs : ∀ i : Fin (2 ^ k), b.state.get i = .empty) (hl : b.stats.live = 0) :
    b.lookup = fun _ => none := by
  funext ref
  rw [(valid_of_empty hs hl).lookup_none_iff]
  intro i hi hf
  rw [(cells_empty_iff b ⟨i, hi⟩).2 (hs ⟨i, hi⟩)] at hf
  cases hf

theorem new_empty (slots : Vector RestingOrder (2 ^ k)) (i : Fin (2 ^ k)) :
    (new slots).state.get i = .empty :=
  Vector.getElem_replicate i.isLt

theorem reset_empty (b : BookState k) (i : Fin (2 ^ k)) : b.reset.state.get i = .empty :=
  Vector.getElem_replicate i.isLt

theorem new_valid (slots : Vector RestingOrder (2 ^ k)) : (new slots).Valid :=
  valid_of_empty (new_empty slots) rfl

theorem reset_valid (b : BookState k) : b.reset.Valid := valid_of_empty b.reset_empty rfl

theorem new_lookup (slots : Vector RestingOrder (2 ^ k)) : (new slots).lookup = fun _ => none :=
  lookup_of_empty (new_empty slots) rfl

theorem reset_lookup (b : BookState k) : b.reset.lookup = fun _ => none :=
  lookup_of_empty b.reset_empty rfl

def occupiedSlots (b : BookState k) : Finset (Fin (2 ^ k)) :=
  Finset.univ.filter fun i => b.state.get i = .occupied

theorem occupied_cells (b : BookState k) : occupied (2 ^ k) b.cells = b.occupiedSlots.card := by
  symm
  rw [occupied]
  apply Finset.card_bij fun i _ => i.val
  · intro i hi
    have ho := (Finset.mem_filter.1 hi).2
    have hf := (cells_full_iff b i _).2 ⟨ho, rfl⟩
    exact Finset.mem_filter.2 ⟨Finset.mem_range.2 i.isLt, Cell.isFull_iff.2 ⟨_, hf⟩⟩
  · exact fun i _ j _ hij => Fin.ext hij
  · intro i hi
    obtain ⟨hlt, hf⟩ := Finset.mem_filter.1 hi
    obtain ⟨ref, hf⟩ := Cell.isFull_iff.1 hf
    have ho := ((cells_full_iff b ⟨i, Finset.mem_range.1 hlt⟩ ref).1 hf).1
    exact ⟨⟨i, Finset.mem_range.1 hlt⟩, Finset.mem_filter.2 ⟨Finset.mem_univ _, ho⟩, rfl⟩

end BookState

/-- The references a message may bind or unbind. -/
def Order.touches (msg : Order) (ref : UInt64) : Prop :=
  match msg.action with
  | .add | .execute | .cancel | .delete => ref = msg.orderRef
  | .replace => ref = msg.orderRef ∨ ref = msg.newOrderRef
  | .trade | .none => False

namespace OrderMap

theorem take_other (m : OrderMap) (msg : Order) (hr : ref ≠ msg.orderRef) :
    m.take msg ref = m ref := by
  rw [take]
  cases m msg.orderRef with
  | none => rfl
  | some ro => exact Function.update_of_ne hr _ _

theorem replace_other (m : OrderMap) (msg : Order) (stored : Bool) (hr : ref ≠ msg.orderRef)
    (hn : ref ≠ msg.newOrderRef) : m.replace msg stored ref = m ref := by
  rw [replace]
  cases m msg.orderRef with
  | none => rfl
  | some ro =>
    cases stored with
    | false => exact Function.update_of_ne hr _ _
    | true =>
      exact (Function.update_of_ne hn _ _).trans (Function.update_of_ne hr _ _)

theorem step_other (m : OrderMap) (msg : Order) (room : Bool) (hr : ¬ msg.touches ref) :
    m.step msg room ref = m ref := by
  rw [Order.touches] at hr
  rw [step]
  cases ha : msg.action with
  | add =>
    simp only [ha] at hr
    cases room with
    | false => rfl
    | true => exact Function.update_of_ne hr _ _
  | execute => simp only [ha] at hr; exact take_other m msg hr
  | cancel => simp only [ha] at hr; exact take_other m msg hr
  | delete => simp only [ha] at hr; exact Function.update_of_ne hr _ _
  | replace =>
    simp only [ha, not_or] at hr
    exact replace_other m msg _ hr.1 hr.2
  | trade => rfl
  | none => rfl

theorem step_refused (m : OrderMap) (h : m.emit msg room = none) : m.step msg room = m := by
  rw [emit] at h
  rw [step]
  cases ha : msg.action with
  | add =>
    rw [ha] at h
    cases room with
    | false => rfl
    | true => cases h
  | execute =>
    rw [ha] at h
    exact m.take_none (Option.map_eq_none_iff.1 h)
  | cancel =>
    rw [ha] at h
    exact m.take_none (Option.map_eq_none_iff.1 h)
  | delete =>
    rw [ha] at h
    exact m.remove_none (Option.map_eq_none_iff.1 h)
  | replace =>
    rw [ha] at h
    exact m.replace_none (Option.map_eq_none_iff.1 h) room
  | trade => rfl
  | none => rfl

end OrderMap

/-- A call on the public interface of the table. -/
inductive BookCall where
  | resolve (msg : Order)
  | reset

/-- The table next to the map that the calls describe; of the table the map is told only whether an
empty slot is left. -/
def BookCall.step (s : BookState k × OrderMap) : BookCall → BookState k × OrderMap
  | .resolve msg => ((s.1.resolve msg).2, s.2.step msg (s.2.hasRoom msg s.1.HasEmpty))
  | .reset => (s.1.reset, fun _ => none)

def BookCall.run (slots : Vector RestingOrder (2 ^ k)) (calls : List BookCall) :
    BookState k × OrderMap :=
  calls.foldl step (BookState.new slots, fun _ => none)

def BookCall.Tracks (s : BookState k × OrderMap) : Prop := s.1.Valid ∧ s.1.lookup = s.2

theorem BookCall.Tracks.step {s : BookState k × OrderMap} (h : Tracks s) (c : BookCall) :
    Tracks (c.step s) := by
  cases c with
  | resolve msg =>
    refine ⟨h.1.resolve_valid msg, ?_⟩
    rw [BookCall.step, h.1.resolve_lookup, BookState.room, h.2]
  | reset => exact ⟨s.1.reset_valid, s.1.reset_lookup⟩

theorem BookCall.run_tracks (slots : Vector RestingOrder (2 ^ k)) (calls : List BookCall) :
    Tracks (run slots calls) :=
  List.foldlRecOn calls BookCall.step (motive := Tracks)
    ⟨BookState.new_valid slots, BookState.new_lookup slots⟩ fun _ h c _ => h.step c

/-- The order table implements a finite map from reference to resting order. -/
theorem table_implements_map (slots : Vector RestingOrder (2 ^ k)) (calls : List BookCall) :
    let b := (BookCall.run slots calls).1
    let m := (BookCall.run slots calls).2
    (∀ i j : Fin (2 ^ k), b.state.get i = .occupied → b.state.get j = .occupied →
      (b.slots.get i).orderRef = (b.slots.get j).orderRef → i = j) ∧
    (∀ ref i, (b.find ref).1 = some i ↔
      b.state.get i = .occupied ∧ (b.slots.get i).orderRef = ref) ∧
    (∀ ref, (b.find ref).1.map (fun i => b.slots.get i) = m ref) ∧
    (∀ msg, (b.resolve msg).1 = m.emit msg (m.hasRoom msg b.HasEmpty)) ∧
    (∀ ro, (b.insert ro).1 = true ↔ m ro.orderRef ≠ none ∨ b.HasEmpty) ∧
    (∀ msg ref, ¬ msg.touches ref → (b.resolve msg).2.lookup ref = b.lookup ref) ∧
    b.stats.live = b.occupiedSlots.card ∧
    (∀ ref, b.lookup ref ≠ none → 0 < b.stats.live) ∧
    (∀ msg, (b.resolve msg).1 = none →
      (b.resolve msg).2.lookup = b.lookup ∧ (b.resolve msg).2.digest = b.digest) := by
  intro b m
  obtain ⟨hv, hl⟩ := BookCall.run_tracks slots calls
  refine ⟨?_, hv.find_iff, fun ref => congrFun hl ref, ?_, ?_, ?_, ?_, ?_, ?_⟩
  · intro i j hi hj hij
    have hfi := (hv.find_iff _ i).2 ⟨hi, hij⟩
    have hfj := (hv.find_iff _ j).2 ⟨hj, rfl⟩
    rw [hfi] at hfj
    exact Option.some.inj hfj
  · intro msg
    have hemit := hv.resolve_emit msg
    rw [BookState.room, hl] at hemit
    exact hemit
  · intro ro
    have hinsert := hv.insert_true_iff ro
    rw [hl] at hinsert
    exact hinsert
  · intro msg ref ht
    rw [hv.resolve_lookup]
    exact OrderMap.step_other _ msg _ ht
  · rw [← BookState.occupied_cells]
    exact hv.live
  · intro ref hr
    obtain ⟨ro, hro⟩ := Option.ne_none_iff_exists'.1 hr
    obtain ⟨i, ho, -, -⟩ := (hv.lookup_iff ref ro).1 hro
    exact hv.live_pos ho
  · intro msg hn
    rw [BookState.resolve_digest _ _ hv, hn]
    rw [hv.resolve_emit] at hn
    exact ⟨(hv.resolve_lookup msg).trans (OrderMap.step_refused _ hn), rfl⟩

end Tickpipe
