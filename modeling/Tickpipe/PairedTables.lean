import Tickpipe.Residue
import Tickpipe.OpDigest
import Tickpipe.MirroredAnalytics

set_option autoImplicit true

namespace Tickpipe

open Mealy (after)

namespace BookState

variable {k : Nat} {b b' : BookState k} {R : RestingOrder → RestingOrder → Prop}

/-- Two tables that are laid out alike, with related orders in their occupied slots. -/
structure Paired (R : RestingOrder → RestingOrder → Prop) (b b' : BookState k) : Prop where
  state : b'.state = b.state
  stats : b'.stats = b.stats
  slots : ∀ i, b.state.get i = .occupied → R (b.slots.get i) (b'.slots.get i)

namespace Paired

theorem new (slots slots' : Vector RestingOrder (2 ^ k)) :
    Paired R (.new slots) (.new slots') where
  state := rfl
  stats := rfl
  slots i hi := by
    have hempty : (BookState.new slots).state.get i = .empty := Vector.getElem_replicate i.isLt
    rw [hempty] at hi
    cases hi

theorem withStats (h : Paired R b b') (f : Stats → Stats) :
    Paired R { b with stats := f b.stats } { b' with stats := f b'.stats } :=
  ⟨h.state, congrArg f h.stats, h.slots⟩

theorem putSlot (h : Paired R b b') (idx : Fin (2 ^ k)) (hro : R ro ro') :
    Paired R { b with slots := b.slots.put idx ro } { b' with slots := b'.slots.put idx ro' } := by
  refine ⟨h.state, h.stats, ?_⟩
  intro i hi
  rw [Vector.get_put, Vector.get_put]
  split
  · exact hro
  · exact h.slots i hi

theorem putState (h : Paired R b b') (idx : Fin (2 ^ k)) (s : SlotState)
    (hs : s = .occupied → R (b.slots.get idx) (b'.slots.get idx)) :
    Paired R { b with state := b.state.put idx s } { b' with state := b'.state.put idx s } := by
  refine ⟨congrArg (Vector.put · idx s) h.state, h.stats, ?_⟩
  intro i hi
  dsimp only at hi ⊢
  rw [Vector.get_put] at hi
  split at hi
  · next he => exact he ▸ hs hi
  · exact h.slots i hi

theorem reduce (h : Paired R b b') (ho : b.state.get idx = .occupied)
    (hR : ∀ ro ro', R ro ro' →
      R { ro with quantity := ro.quantity - n } { ro' with quantity := ro'.quantity - n }) :
    Paired R (b.reduce idx n) (b'.reduce idx n) :=
  h.putSlot idx (hR _ _ (h.slots idx ho))

section Refs

variable (hR : ∀ ro ro', R ro ro' → ro'.orderRef = ro.orderRef)
include hR

theorem findLoop_eq (h : Paired R b b') (ref : UInt64) (fuel : Nat) (idx : Fin (2 ^ k))
    (probes : Nat) :
    b'.findLoop ref fuel idx probes = b.findLoop ref fuel idx probes := by
  induction fuel generalizing idx probes with
  | zero => rfl
  | succ fuel ih =>
    rw [findLoop, findLoop, h.state]
    cases hs : b.state.get idx with
    | empty => rfl
    | tombstone => exact ih _ _
    | occupied =>
      dsimp only
      rw [hR _ _ (h.slots idx hs), ih]

theorem insertLoop_eq (h : Paired R b b') (ref : UInt64) (fuel : Nat) (idx : Fin (2 ^ k))
    (probes : Nat) (reuse : Option (Fin (2 ^ k))) :
    b'.insertLoop ref fuel idx probes reuse = b.insertLoop ref fuel idx probes reuse := by
  induction fuel generalizing idx probes reuse with
  | zero => rfl
  | succ fuel ih =>
    rw [insertLoop, insertLoop, h.state]
    cases hs : b.state.get idx with
    | empty => rfl
    | tombstone => exact ih _ _ _
    | occupied =>
      dsimp only
      rw [hR _ _ (h.slots idx hs), ih]

/-- `find` misses in both tables, or hits related orders in the same slot. -/
theorem find_cases (h : Paired R b b') (ref : UInt64) :
    (∃ c c', Paired R c c' ∧ b.find ref = (none, c) ∧ b'.find ref = (none, c')) ∨
      ∃ idx c c', Paired R c c' ∧ b.find ref = (some idx, c) ∧ b'.find ref = (some idx, c') ∧
        c.state.get idx = .occupied := by
  rw [find, find, h.findLoop_eq hR]
  cases hf : b.findLoop ref (2 ^ k) (masked k (hashRef ref).toNat) 0 with
  | none => exact .inl ⟨b, b', h, rfl, rfl⟩
  | some hit =>
    obtain ⟨idx, probes⟩ := hit
    have hraise := h.withStats fun s => { s with maxProbe := max s.maxProbe probes }
    have ho : b.state.get idx = .occupied := findLoop_occupied hf
    exact .inr ⟨idx, _, _, hraise, rfl, rfl, ho⟩

theorem insert (h : Paired R b b') (hro : R ro ro') :
    (b'.insert ro').1 = (b.insert ro).1 ∧ Paired R (b.insert ro).2 (b'.insert ro').2 := by
  rw [BookState.insert, BookState.insert, hR _ _ hro, h.insertLoop_eq hR]
  cases b.insertLoop ro.orderRef (2 ^ k) (masked k (hashRef ro.orderRef).toNat) 0 none with
  | overwrite idx => exact ⟨rfl, h.putSlot idx hro⟩
  | place idx probes =>
    have hfill := (h.putSlot idx hro).putState idx .occupied fun _ => by
      rw [Vector.get_put_self, Vector.get_put_self]
      exact hro
    exact ⟨rfl, hfill.withStats fun s => s.countLive probes⟩
  | full => exact ⟨rfl, h.withStats fun s => { s with tableFull := s.tableFull + 1 }⟩

theorem erase (h : Paired R b b') (ref : UInt64) :
    Paired R (b.erase ref).2 (b'.erase ref).2 := by
  rw [BookState.erase, BookState.erase, h.findLoop_eq hR]
  cases b.findLoop ref (2 ^ k) (masked k (hashRef ref).toNat) 0 with
  | none => exact h
  | some hit =>
    have hfree := h.putState hit.1 .tombstone fun ho => by cases ho
    exact hfree.withStats fun s => { s with live := s.live - 1 }

end Refs

end Paired

end BookState

/-- The message has the price and the side that its kind calls for, and the price has one opposite
it. -/
structure Order.Quoted (msg : Order) : Prop where
  opposite : ~~~msg.price ≠ 0
  priced : msg.action = .add ∨ msg.action = .replace ∨ msg.action = .trade → msg.price ≠ 0
  sided : msg.action = .add ∨ msg.action = .trade → msg.side ≠ .none

instance (msg : Order) : Decidable msg.Quoted :=
  decidable_of_iff (~~~msg.price ≠ 0 ∧
      (msg.action = .add ∨ msg.action = .replace ∨ msg.action = .trade → msg.price ≠ 0) ∧
      (msg.action = .add ∨ msg.action = .trade → msg.side ≠ .none))
    ⟨fun h => ⟨h.1, h.2.1, h.2.2⟩, fun h => ⟨h.opposite, h.priced, h.sided⟩⟩

/-- The price opposite this one, and none for none. -/
def oppositePrice (p : UInt32) : UInt32 := if p = 0 then 0 else ~~~p

theorem Inner.opposite (h : Inner p) : oppositePrice p = ~~~p := if_neg h.1

/-- The message with its side swapped and its price upside down; what it leaves out stays so. -/
def Order.mirror (msg : Order) : Order :=
  { msg with
    side := if msg.side = .none then .none else msg.side.reflect
    price := oppositePrice msg.price }

def RestingOrder.reflect (ro : RestingOrder) : RestingOrder :=
  { ro with side := ro.side.reflect, price := ~~~ro.price }

/-- An order of a side, at a price that has one opposite it, and the same order reflected. -/
structure RestingOrder.Opposes (ro ro' : RestingOrder) : Prop where
  inner : Inner ro.price
  sided : ro.side ≠ .none
  reflect : ro' = ro.reflect

structure ResolvedOp.Quoted (op : ResolvedOp) : Prop where
  inner : Inner op.price
  sided : op.side ≠ .none

namespace BookState

/-- The results of a message and of its mirror image. -/
structure OpposesResult (r r' : Option (List ResolvedOp) × BookState k) : Prop where
  ops : r'.1 = r.1.map (List.map ResolvedOp.reflect)
  quoted : ∀ op ∈ r.1.getD [], op.Quoted
  book : Paired RestingOrder.Opposes r.2 r'.2

variable {k : Nat} {b b' : BookState k} {msg : Order}

theorem opposes_ref (ro ro' : RestingOrder) (h : ro.Opposes ro') : ro'.orderRef = ro.orderRef :=
  h.reflect ▸ rfl

theorem opposes_reduce (n : UInt32) (ro ro' : RestingOrder) (h : ro.Opposes ro') :
    RestingOrder.Opposes { ro with quantity := ro.quantity - n }
      { ro' with quantity := ro'.quantity - n } :=
  ⟨h.inner, h.sided, by rw [h.reflect]; rfl⟩

theorem Paired.take (h : Paired RestingOrder.Opposes b b') (ho : b.state.get idx = .occupied)
    (ref : UInt64) (n : UInt32) :
    Paired RestingOrder.Opposes (b.take ref idx n) (b'.take ref idx n) := by
  have hreduce := h.reduce ho (opposes_reduce n)
  have hslot := hreduce.slots idx ho
  have hquantity : ((b'.reduce idx n).slots.get idx).quantity =
      ((b.reduce idx n).slots.get idx).quantity := by
    rw [hslot.reflect]
    rfl
  rw [BookState.take, BookState.take, hquantity]
  split
  · exact hreduce.erase opposes_ref ref
  · exact hreduce

theorem OpposesResult.single {op : ResolvedOp} (hq : op.Quoted)
    (hb : Paired RestingOrder.Opposes b b') :
    OpposesResult (some [op], b) (some [op.reflect], b') := by
  refine ⟨rfl, fun op' hop => ?_, hb⟩
  rw [Option.getD_some, List.mem_singleton] at hop
  exact hop ▸ hq

theorem OpposesResult.nothing (hb : Paired RestingOrder.Opposes b b') :
    OpposesResult (none, b) (none, b') := by
  refine ⟨rfl, fun op hop => ?_, hb⟩
  cases hop

section Resolve

variable (h : Paired RestingOrder.Opposes b b') (hq : msg.Quoted)
include h

/-- A reference that one table does not know the other does not know either. -/
theorem unresolved_opposes : OpposesResult (none, b.countUnresolved) (none, b'.countUnresolved) :=
  .nothing (h.withStats fun s => { s with unresolved := s.unresolved + 1 })

theorem resolveTake_opposes
    (hop : ∀ (ro ro' : RestingOrder) (n : UInt32), ro.Opposes ro' →
      (op ro n).Quoted ∧ op' ro' n = (op ro n).reflect) :
    OpposesResult (b.resolveTake msg op count) (b'.resolveTake msg.mirror op' count) := by
  rw [resolveTake, resolveTake, show msg.mirror.orderRef = msg.orderRef from rfl]
  rcases h.find_cases opposes_ref msg.orderRef with
    ⟨c, c', hc, hf, hf'⟩ | ⟨idx, c, c', hc, hf, hf', ho⟩
  · rw [hf, hf']
    exact unresolved_opposes hc
  · rw [hf, hf']
    dsimp only
    have hslot := hc.slots idx ho
    have htaken : taken msg.mirror (c'.slots.get idx) = taken msg (c.slots.get idx) := by
      rw [hslot.reflect]
      rfl
    obtain ⟨hquoted, hreflect⟩ := hop _ _ (taken msg (c.slots.get idx)) hslot
    rw [htaken, hreflect]
    exact .single hquoted ((hc.take ho _ _).withStats count)

theorem resolveCancel_opposes :
    OpposesResult (b.resolveCancel msg) (b'.resolveCancel msg.mirror) :=
  resolveTake_opposes h fun ro ro' _ hro => ⟨⟨hro.inner, hro.sided⟩, by rw [hro.reflect]; rfl⟩

theorem resolveDelete_opposes :
    OpposesResult (b.resolveDelete msg) (b'.resolveDelete msg.mirror) := by
  rw [resolveDelete, resolveDelete, show msg.mirror.orderRef = msg.orderRef from rfl]
  rcases h.find_cases opposes_ref msg.orderRef with
    ⟨c, c', hc, hf, hf'⟩ | ⟨idx, c, c', hc, hf, hf', ho⟩
  · rw [hf, hf']
    exact unresolved_opposes hc
  · rw [hf, hf']
    dsimp only
    obtain ⟨hinner, hside, hro⟩ := hc.slots idx ho
    rw [hro]
    exact .single ⟨hinner, hside⟩
      ((hc.erase opposes_ref _).withStats fun s => { s with deletes := s.deletes + 1 })

include hq

/-- A `C` prints at the opposite of its own price, an `E` at that of the price it rests at. -/
theorem resolveExecute_opposes :
    OpposesResult (b.resolveExecute msg) (b'.resolveExecute msg.mirror) := by
  refine resolveTake_opposes h fun ro ro' n hro => ⟨⟨?_, hro.sided⟩, ?_⟩
  · change Inner (if msg.price ≠ 0 then msg.price else ro.price)
    split
    · next hp => exact ⟨hp, hq.opposite⟩
    · exact hro.inner
  · have hprice : (if msg.mirror.price ≠ 0 then msg.mirror.price else ~~~ro.price) =
        ~~~(if msg.price ≠ 0 then msg.price else ro.price) := by
      rw [Order.mirror, oppositePrice]
      dsimp only
      by_cases hp : msg.price = 0
      · rw [if_pos hp, if_neg (not_not.2 rfl), if_neg (not_not.2 hp)]
      · rw [if_neg hp, if_pos hq.opposite, if_pos hp]
    rw [hro.reflect]
    dsimp only [RestingOrder.reflect]
    rw [hprice]
    rfl

theorem resolveAdd_opposes (ha : msg.action = .add) :
    OpposesResult (b.resolveAdd msg) (b'.resolveAdd msg.mirror) := by
  have hprice := hq.priced (.inl ha)
  have hside := hq.sided (.inl ha)
  have hinner : Inner msg.price := ⟨hprice, hq.opposite⟩
  have hmirror : msg.mirror = msg.reflect := by
    rw [Order.mirror, if_neg hside, oppositePrice, if_neg hprice]
    rfl
  have hro : RestingOrder.Opposes
      ⟨msg.orderRef, msg.quantity, msg.price, msg.side, msg.stock⟩
      ⟨msg.reflect.orderRef, msg.reflect.quantity, msg.reflect.price, msg.reflect.side,
        msg.reflect.stock⟩ :=
    ⟨hinner, hside, rfl⟩
  have hop : ResolvedOp.Quoted ⟨.add, msg.orderRef, msg.quantity, msg.price, 0, msg.timestampNs,
      msg.side, msg.stock⟩ :=
    ⟨hinner, hside⟩
  rw [hmirror, resolveAdd, resolveAdd]
  obtain ⟨hok, hnext⟩ := h.insert opposes_ref hro
  generalize b.insert _ = r at hok hnext
  generalize b'.insert _ = r' at hok hnext
  obtain ⟨ok, c⟩ := r
  obtain ⟨ok', c'⟩ := r'
  obtain rfl : ok' = ok := hok
  cases ok' with
  | false => exact .nothing hnext
  | true => exact .single hop (hnext.withStats fun s => { s with adds := s.adds + 1 })

theorem resolveReplace_opposes (ha : msg.action = .replace) :
    OpposesResult (b.resolveReplace msg) (b'.resolveReplace msg.mirror) := by
  have hprice := hq.priced (.inr (.inl ha))
  have hmirror : msg.mirror.price = ~~~msg.price := if_neg hprice
  rw [resolveReplace, resolveReplace, show msg.mirror.orderRef = msg.orderRef from rfl, hmirror]
  rcases h.find_cases opposes_ref msg.orderRef with
    ⟨c, c', hc, hf, hf'⟩ | ⟨idx, c, c', hc, hf, hf', ho⟩
  · rw [hf, hf']
    exact unresolved_opposes hc
  · rw [hf, hf']
    dsimp only
    obtain ⟨hinner, hside, hro⟩ := hc.slots idx ho
    rw [hro]
    have hdel : ResolvedOp.Quoted ⟨.delete, msg.orderRef, (c.slots.get idx).quantity,
        (c.slots.get idx).price, 0, msg.timestampNs, (c.slots.get idx).side,
        (c.slots.get idx).stock⟩ :=
      ⟨hinner, hside⟩
    have hadd : ResolvedOp.Quoted ⟨.add, msg.newOrderRef, msg.quantity, msg.price, 0,
        msg.timestampNs, (c.slots.get idx).side, (c.slots.get idx).stock⟩ :=
      ⟨⟨hprice, hq.opposite⟩, hside⟩
    have hnew : RestingOrder.Opposes
        ⟨msg.newOrderRef, msg.quantity, msg.price, (c.slots.get idx).side,
          (c.slots.get idx).stock⟩
        ⟨msg.mirror.newOrderRef, msg.mirror.quantity, ~~~msg.price,
          (c.slots.get idx).reflect.side, (c.slots.get idx).reflect.stock⟩ :=
      ⟨⟨hprice, hq.opposite⟩, hside, rfl⟩
    obtain ⟨hok, hnext⟩ := (hc.erase opposes_ref msg.orderRef).insert opposes_ref hnew
    generalize (c.erase msg.orderRef).2.insert _ = r at hok hnext
    generalize (c'.erase msg.orderRef).2.insert _ = r' at hok hnext
    obtain ⟨ok, d⟩ := r
    obtain ⟨ok', d'⟩ := r'
    obtain rfl : ok' = ok := hok
    cases ok' with
    | false => exact .single hdel hnext
    | true =>
      refine ⟨rfl, fun op hop => ?_, hnext.withStats fun s => { s with replaces := s.replaces + 1 }⟩
      rw [Option.getD_some, List.mem_pair] at hop
      rcases hop with rfl | rfl
      · exact hdel
      · exact hadd

theorem resolveImpl_opposes : OpposesResult (b.resolveImpl msg) (b'.resolveImpl msg.mirror) := by
  rw [resolveImpl, resolveImpl, show msg.mirror.action = msg.action from rfl]
  cases ha : msg.action with
  | add => exact resolveAdd_opposes h hq ha
  | execute => exact resolveExecute_opposes h hq
  | cancel => exact resolveCancel_opposes h
  | delete => exact resolveDelete_opposes h
  | replace => exact resolveReplace_opposes h hq ha
  | trade =>
    have hprice := hq.priced (.inr (.inr ha))
    have hside := hq.sided (.inr ha)
    have hmirror : msg.mirror = msg.reflect := by
      rw [Order.mirror, if_neg hside, oppositePrice, if_neg hprice]
      rfl
    have hop : ResolvedOp.Quoted ⟨.trade, msg.orderRef, msg.quantity, msg.price, msg.matchNumber,
        msg.timestampNs, msg.side, msg.stock⟩ :=
      ⟨⟨hprice, hq.opposite⟩, hside⟩
    rw [hmirror]
    exact .single hop (h.withStats fun s => { s with trades := s.trades + 1 })
  | none => exact .nothing h

/-- The mirror image of a message resolves to the reflected operations. -/
theorem resolve_opposes : OpposesResult (b.resolve msg) (b'.resolve msg.mirror) := by
  obtain ⟨hops, hquoted, hbook⟩ := resolveImpl_opposes h hq
  rw [resolve, resolve]
  generalize b.resolveImpl msg = r at hops hquoted hbook
  generalize b'.resolveImpl msg.mirror = r' at hops hbook
  obtain ⟨ops, c⟩ := r
  obtain ⟨ops', c'⟩ := r'
  obtain rfl : ops' = ops.map (List.map ResolvedOp.reflect) := hops
  cases ops with
  | none => exact ⟨rfl, hquoted, hbook⟩
  | some ops => exact ⟨rfl, hquoted, hbook.state, hbook.stats, hbook.slots⟩

end Resolve

/-- A run keeps the tables paired, and gives the reflected operations. -/
theorem Paired.run (h : Paired RestingOrder.Opposes b b') {msgs : List Order}
    (hq : ∀ msg ∈ msgs, msg.Quoted) :
    Paired RestingOrder.Opposes (after resolve b msgs) (after resolve b' (msgs.map Order.mirror)) ∧
      b'.opsOf (msgs.map Order.mirror) = (b.opsOf msgs).map ResolvedOp.reflect ∧
      ∀ op ∈ b.opsOf msgs, op.Quoted := by
  induction msgs generalizing b b' with
  | nil => exact ⟨h, rfl, fun op hop => by cases hop⟩
  | cons msg msgs ih =>
    obtain ⟨hmsg, hmsgs⟩ := List.forall_mem_cons.1 hq
    have hresult := resolve_opposes h hmsg
    obtain ⟨hbook, hops, hquoted⟩ := ih hresult.book hmsgs
    refine ⟨hbook, ?_, ?_⟩
    · rw [List.map_cons, opsOf_cons, opsOf_cons, hops, hresult.ops, List.map_append]
      congr 1
      cases (b.resolve msg).1 <;> rfl
    · rw [opsOf_cons]
      intro op hop
      rcases List.mem_append.1 hop with hop | hop
      · exact hresult.quoted op hop
      · exact hquoted op hop

end BookState

end Tickpipe
