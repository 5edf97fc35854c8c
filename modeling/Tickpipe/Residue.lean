import Tickpipe.OrderTable
import Tickpipe.Lib.Mealy

set_option autoImplicit true

namespace Tickpipe.BookState

open Mealy (outputs)

variable {k : Nat} {b b' : BookState k}

/-- Two tables that differ at most in what their unoccupied slots still hold. -/
structure Alike (b b' : BookState k) : Prop where
  state : b.state = b'.state
  stats : b.stats = b'.stats
  digest : b.digest = b'.digest
  slots : ∀ i, b.state.get i = .occupied → b.slots.get i = b'.slots.get i

/-- Two results that a caller cannot tell apart, now or later. -/
def SameResult (r r' : α × BookState k) : Prop := r.1 = r'.1 ∧ Alike r.2 r'.2

/-- Whatever the memory held, a reset table is like a new one. -/
theorem alike_reset_new (b : BookState k) (slots : Vector RestingOrder (2 ^ k)) :
    Alike b.reset (new slots) where
  state := rfl
  stats := rfl
  digest := rfl
  slots i hi := by
    have hempty : b.reset.state.get i = .empty := Vector.getElem_replicate i.isLt
    rw [hempty] at hi
    cases hi

namespace Alike

theorem withStats (h : Alike b b') (f : Stats → Stats) :
    Alike { b with stats := f b.stats } { b' with stats := f b'.stats } :=
  ⟨h.state, congrArg f h.stats, h.digest, h.slots⟩

theorem putSlot (h : Alike b b') (idx : Fin (2 ^ k)) (ro : RestingOrder) :
    Alike { b with slots := b.slots.put idx ro } { b' with slots := b'.slots.put idx ro } := by
  refine ⟨h.state, h.stats, h.digest, ?_⟩
  intro i hi
  rw [Vector.get_put, Vector.get_put]
  split
  · rfl
  · exact h.slots i hi

theorem fill (h : Alike b b') (idx : Fin (2 ^ k)) (ro : RestingOrder) :
    Alike { b with slots := b.slots.put idx ro, state := b.state.put idx .occupied }
      { b' with slots := b'.slots.put idx ro, state := b'.state.put idx .occupied } := by
  refine ⟨congrArg (Vector.put · idx .occupied) h.state, h.stats, h.digest, ?_⟩
  intro i hi
  dsimp only at hi ⊢
  rw [Vector.get_put] at hi
  rw [Vector.get_put, Vector.get_put]
  split
  · rfl
  · next hne =>
    rw [if_neg hne] at hi
    exact h.slots i hi

theorem free (h : Alike b b') (idx : Fin (2 ^ k)) :
    Alike { b with state := b.state.put idx .tombstone }
      { b' with state := b'.state.put idx .tombstone } := by
  refine ⟨congrArg (Vector.put · idx .tombstone) h.state, h.stats, h.digest, ?_⟩
  intro i hi
  dsimp only at hi
  rw [Vector.get_put] at hi
  split at hi
  · cases hi
  · exact h.slots i hi

/-- A probe reads the slots that are occupied only. -/
theorem findLoop_eq (h : Alike b b') (ref : UInt64) (fuel : Nat) (idx : Fin (2 ^ k))
    (probes : Nat) :
    b.findLoop ref fuel idx probes = b'.findLoop ref fuel idx probes := by
  induction fuel generalizing idx probes with
  | zero => rfl
  | succ fuel ih =>
    rw [findLoop, findLoop, ← h.state]
    cases hs : b.state.get idx with
    | empty => rfl
    | tombstone => exact ih _ _
    | occupied =>
      dsimp only
      rw [h.slots idx hs, ih]

theorem insertLoop_eq (h : Alike b b') (ref : UInt64) (fuel : Nat) (idx : Fin (2 ^ k))
    (probes : Nat) (reuse : Option (Fin (2 ^ k))) :
    b.insertLoop ref fuel idx probes reuse = b'.insertLoop ref fuel idx probes reuse := by
  induction fuel generalizing idx probes reuse with
  | zero => rfl
  | succ fuel ih =>
    rw [insertLoop, insertLoop, ← h.state]
    cases hs : b.state.get idx with
    | empty => rfl
    | tombstone => exact ih _ _ _
    | occupied =>
      dsimp only
      rw [h.slots idx hs, ih]

end Alike

theorem findLoop_occupied {ref : UInt64} {fuel : Nat} {idx : Fin (2 ^ k)} {probes : Nat}
    (h : b.findLoop ref fuel idx probes = some (i, p)) : b.state.get i = .occupied := by
  induction fuel generalizing idx probes with
  | zero => cases h
  | succ fuel ih =>
    rw [findLoop] at h
    cases hs : b.state.get idx with
    | empty =>
      rw [hs] at h
      cases h
    | tombstone =>
      rw [hs] at h
      exact ih h
    | occupied =>
      rw [hs] at h
      dsimp only at h
      split at h
      · obtain ⟨rfl, -⟩ := Prod.mk.inj (Option.some.inj h)
        exact hs
      · exact ih h

namespace Alike

/-- `find` misses in both tables, or hits the same occupied slot. -/
theorem find_cases (h : Alike b b') (ref : UInt64) :
    (∃ c c', Alike c c' ∧ b.find ref = (none, c) ∧ b'.find ref = (none, c')) ∨
      ∃ idx c c', Alike c c' ∧ b.find ref = (some idx, c) ∧ b'.find ref = (some idx, c') ∧
        c.state.get idx = .occupied := by
  rw [find, find, ← h.findLoop_eq]
  cases hf : b.findLoop ref (2 ^ k) (masked k (hashRef ref).toNat) 0 with
  | none => exact .inl ⟨b, b', h, rfl, rfl⟩
  | some hit =>
    obtain ⟨idx, probes⟩ := hit
    have hraise := h.withStats fun s => { s with maxProbe := max s.maxProbe probes }
    have ho : b.state.get idx = .occupied := findLoop_occupied hf
    exact .inr ⟨idx, _, _, hraise, rfl, rfl, ho⟩

theorem insert (h : Alike b b') (ro : RestingOrder) : SameResult (b.insert ro) (b'.insert ro) := by
  rw [BookState.insert, BookState.insert, ← h.insertLoop_eq]
  cases b.insertLoop ro.orderRef (2 ^ k) (masked k (hashRef ro.orderRef).toNat) 0 none with
  | overwrite idx => exact ⟨rfl, h.putSlot idx ro⟩
  | place idx probes => exact ⟨rfl, (h.fill idx ro).withStats fun s => s.countLive probes⟩
  | full => exact ⟨rfl, h.withStats fun s => { s with tableFull := s.tableFull + 1 }⟩

theorem erase (h : Alike b b') (ref : UInt64) : SameResult (b.erase ref) (b'.erase ref) := by
  rw [BookState.erase, BookState.erase, ← h.findLoop_eq]
  cases b.findLoop ref (2 ^ k) (masked k (hashRef ref).toNat) 0 with
  | none => exact ⟨rfl, h⟩
  | some hit => exact ⟨rfl, (h.free hit.1).withStats fun s => { s with live := s.live - 1 }⟩

theorem take (h : Alike b b') (ho : b.state.get idx = .occupied) (ref : UInt64) (n : UInt32) :
    Alike (b.take ref idx n) (b'.take ref idx n) := by
  have hreduce : Alike (b.reduce idx n) (b'.reduce idx n) := by
    rw [reduce, reduce, h.slots idx ho]
    exact h.putSlot idx _
  have hslot : (b.reduce idx n).slots.get idx = (b'.reduce idx n).slots.get idx :=
    hreduce.slots idx ho
  rw [BookState.take, BookState.take, hslot]
  split
  · exact (hreduce.erase ref).2
  · exact hreduce

theorem countUnresolved (h : Alike b b') : Alike b.countUnresolved b'.countUnresolved :=
  h.withStats fun s => { s with unresolved := s.unresolved + 1 }

section Resolve

variable (h : Alike b b') (msg : Order)
include h

theorem resolveAdd : SameResult (b.resolveAdd msg) (b'.resolveAdd msg) := by
  rw [BookState.resolveAdd, BookState.resolveAdd]
  obtain ⟨hok, hnext⟩ := h.insert ⟨msg.orderRef, msg.quantity, msg.price, msg.side, msg.stock⟩
  generalize b.insert _ = r at hok hnext
  generalize b'.insert _ = r' at hok hnext
  obtain ⟨ok, c⟩ := r
  obtain ⟨ok', c'⟩ := r'
  obtain rfl : ok = ok' := hok
  cases ok with
  | false => exact ⟨rfl, hnext⟩
  | true => exact ⟨rfl, hnext.withStats fun s => { s with adds := s.adds + 1 }⟩

theorem resolveTake (op : RestingOrder → UInt32 → ResolvedOp) (count : Stats → Stats) :
    SameResult (b.resolveTake msg op count) (b'.resolveTake msg op count) := by
  rw [BookState.resolveTake, BookState.resolveTake]
  rcases h.find_cases msg.orderRef with ⟨c, c', hc, hf, hf'⟩ | ⟨idx, c, c', hc, hf, hf', ho⟩
  · rw [hf, hf']
    exact ⟨rfl, hc.countUnresolved⟩
  · rw [hf, hf']
    dsimp only
    rw [hc.slots idx ho]
    exact ⟨rfl, (hc.take ho _ _).withStats count⟩

theorem resolveDelete : SameResult (b.resolveDelete msg) (b'.resolveDelete msg) := by
  rw [BookState.resolveDelete, BookState.resolveDelete]
  rcases h.find_cases msg.orderRef with ⟨c, c', hc, hf, hf'⟩ | ⟨idx, c, c', hc, hf, hf', ho⟩
  · rw [hf, hf']
    exact ⟨rfl, hc.countUnresolved⟩
  · rw [hf, hf']
    dsimp only
    rw [hc.slots idx ho]
    exact ⟨rfl, (hc.erase _).2.withStats fun s => { s with deletes := s.deletes + 1 }⟩

theorem resolveReplace : SameResult (b.resolveReplace msg) (b'.resolveReplace msg) := by
  rw [BookState.resolveReplace, BookState.resolveReplace]
  rcases h.find_cases msg.orderRef with ⟨c, c', hc, hf, hf'⟩ | ⟨idx, c, c', hc, hf, hf', ho⟩
  · rw [hf, hf']
    exact ⟨rfl, hc.countUnresolved⟩
  · rw [hf, hf']
    dsimp only
    rw [hc.slots idx ho]
    obtain ⟨hok, hnext⟩ := (hc.erase msg.orderRef).2.insert
      ⟨msg.newOrderRef, msg.quantity, msg.price, (c'.slots.get idx).side, (c'.slots.get idx).stock⟩
    generalize (c.erase msg.orderRef).2.insert _ = r at hok hnext
    generalize (c'.erase msg.orderRef).2.insert _ = r' at hok hnext
    obtain ⟨ok, d⟩ := r
    obtain ⟨ok', d'⟩ := r'
    obtain rfl : ok = ok' := hok
    cases ok with
    | false => exact ⟨rfl, hnext⟩
    | true => exact ⟨rfl, hnext.withStats fun s => { s with replaces := s.replaces + 1 }⟩

theorem resolveImpl : SameResult (b.resolveImpl msg) (b'.resolveImpl msg) := by
  rw [BookState.resolveImpl, BookState.resolveImpl]
  cases msg.action with
  | add => exact h.resolveAdd msg
  | execute => exact h.resolveTake msg _ _
  | cancel => exact h.resolveTake msg _ _
  | delete => exact h.resolveDelete msg
  | replace => exact h.resolveReplace msg
  | trade => exact ⟨rfl, h.withStats fun s => { s with trades := s.trades + 1 }⟩
  | none => exact ⟨rfl, h⟩

theorem resolve : SameResult (b.resolve msg) (b'.resolve msg) := by
  rw [BookState.resolve, BookState.resolve]
  obtain ⟨hops, hnext⟩ := h.resolveImpl msg
  generalize b.resolveImpl msg = r at hops hnext
  generalize b'.resolveImpl msg = r' at hops hnext
  obtain ⟨ops, c⟩ := r
  obtain ⟨ops', c'⟩ := r'
  obtain rfl : ops = ops' := hops
  cases ops with
  | none => exact ⟨rfl, hnext⟩
  | some ops =>
    exact ⟨rfl, hnext.state, hnext.stats, congrArg (ops.foldl foldOp) hnext.digest, hnext.slots⟩

end Resolve

end Alike

/-- What a caller sees of a message: the operations, if it resolved, and then the statistics and
the digest. -/
def observe (b : BookState k) (msg : Order) :
    (Option (List ResolvedOp) × Stats × UInt64) × BookState k :=
  let (ops, b) := b.resolve msg
  ((ops, b.stats, b.digest), b)

/-- After `reset` a table answers every message as a new one does. -/
theorem reset_leaves_no_residue (b : BookState k) (slots : Vector RestingOrder (2 ^ k))
    (msgs : List Order) : outputs observe b.reset msgs = outputs observe (new slots) msgs := by
  have hstep (b b' : BookState k) (msg : Order) (_ : List Order) (h : Alike b b') :
      (b.observe msg).1 = (b'.observe msg).1 ∧ Alike (b.observe msg).2 (b'.observe msg).2 := by
    obtain ⟨hops, hnext⟩ := h.resolve msg
    refine ⟨?_, hnext⟩
    exact Prod.ext hops (Prod.ext hnext.stats hnext.digest)
  exact (Mealy.simulation (R := fun b b' _ => Alike b b') hstep (alike_reset_new b slots)).1

end Tickpipe.BookState
