import Tickpipe.BookMap
import Tickpipe.Lib.Mealy
import Tickpipe.Lib.Totals

set_option autoImplicit true

namespace Tickpipe

/-- The shares of an order that may be there. -/
def sharesOf (ro : Option RestingOrder) : Nat :=
  match ro with
  | none => 0
  | some ro => ro.quantity.toNat

def sharesAdded (ops : List ResolvedOp) : Nat :=
  ((ops.filter (·.action = .add)).map (·.quantity.toNat)).sum

def sharesRemoved (ops : List ResolvedOp) : Nat :=
  ((ops.filter fun op => op.action = .execute ∨ op.action = .cancel ∨ op.action = .delete).map
    (·.quantity.toNat)).sum

theorem sharesAdded_cons (op : ResolvedOp) (ops : List ResolvedOp) :
    sharesAdded (op :: ops) =
      (if op.action = .add then op.quantity.toNat else 0) + sharesAdded ops := by
  rw [sharesAdded, List.filter_cons]
  by_cases ha : op.action = .add
  · rw [if_pos (decide_eq_true ha), if_pos ha]
    rfl
  · rw [if_neg (fun hn => ha (of_decide_eq_true hn)), if_neg ha, Nat.zero_add]
    rfl

theorem sharesRemoved_cons (op : ResolvedOp) (ops : List ResolvedOp) :
    sharesRemoved (op :: ops) =
      (if op.action = .execute ∨ op.action = .cancel ∨ op.action = .delete
        then op.quantity.toNat else 0) + sharesRemoved ops := by
  rw [sharesRemoved, List.filter_cons]
  by_cases ha : op.action = .execute ∨ op.action = .cancel ∨ op.action = .delete
  · rw [if_pos (decide_eq_true ha), if_pos ha]
    rfl
  · rw [if_neg (fun hn => ha (of_decide_eq_true hn)), if_neg ha, Nat.zero_add]
    rfl

@[simp] theorem sharesAdded_nil : sharesAdded [] = 0 := rfl
@[simp] theorem sharesRemoved_nil : sharesRemoved [] = 0 := rfl

theorem moved_add (op : ResolvedOp) (h : op.action = .add) (ops : List ResolvedOp) :
    sharesAdded (op :: ops) = op.quantity.toNat + sharesAdded ops ∧
      sharesRemoved (op :: ops) = sharesRemoved ops := by
  rw [sharesAdded_cons, sharesRemoved_cons, h, if_pos rfl, if_neg (by decide), Nat.zero_add]
  exact ⟨rfl, rfl⟩

theorem moved_remove (op : ResolvedOp)
    (h : op.action = .execute ∨ op.action = .cancel ∨ op.action = .delete)
    (ops : List ResolvedOp) :
    sharesAdded (op :: ops) = sharesAdded ops ∧
      sharesRemoved (op :: ops) = op.quantity.toNat + sharesRemoved ops := by
  have hadd : op.action ≠ .add := by
    intro ha
    rw [ha] at h
    revert h
    decide
  rw [sharesAdded_cons, sharesRemoved_cons, if_pos h, if_neg hadd, Nat.zero_add]
  exact ⟨rfl, rfl⟩

theorem sharesAdded_append (ops ops' : List ResolvedOp) :
    sharesAdded (ops ++ ops') = sharesAdded ops + sharesAdded ops' := by
  rw [sharesAdded, List.filter_append, List.map_append, List.sum_append]
  rfl

theorem sharesRemoved_append (ops ops' : List ResolvedOp) :
    sharesRemoved (ops ++ ops') = sharesRemoved ops + sharesRemoved ops' := by
  rw [sharesRemoved, List.filter_append, List.map_append, List.sum_append]
  rfl

instance finite_uInt64 : Finite UInt64 :=
  Finite.of_injective UInt64.toFin fun _ _ h => UInt64.toFin_inj.1 h

namespace OrderMap

noncomputable def shares (m : OrderMap) : Nat := finsum fun ref => sharesOf (m ref)

theorem shares_update (m : OrderMap) (ref : UInt64) (ro : Option RestingOrder) :
    shares (Function.update m ref ro) + sharesOf (m ref) = m.shares + sharesOf ro := by
  have hcomp : (fun r => sharesOf (Function.update m ref ro r)) =
      Function.update (fun r => sharesOf (m r)) ref (sharesOf ro) := by
    funext r
    exact Function.apply_update (fun _ => sharesOf) m ref ro r
  rw [shares, hcomp]
  exact Totals.finsum_update_add _ ref (sharesOf ro)

/-- What an execute or a cancel leaves of an order and what it takes make up the order. -/
theorem sharesOf_less (msg : Order) (ro : RestingOrder) :
    sharesOf (ro.less (BookState.taken msg ro)) + (BookState.taken msg ro).toNat =
      ro.quantity.toNat := by
  have hle : BookState.taken msg ro ≤ ro.quantity := by
    rw [BookState.taken]
    split
    · exact UInt32.le_of_lt ‹_›
    · exact UInt32.le_refl _
  have hsub := UInt32.toNat_sub_of_le _ _ hle
  have hle' := UInt32.le_iff_toNat_le.1 hle
  rw [RestingOrder.less]
  by_cases hz : ro.quantity - BookState.taken msg ro = 0
  · rw [hz] at hsub
    rw [if_pos hz]
    simp only [sharesOf, UInt32.toNat_zero] at hsub ⊢
    omega
  · rw [if_neg hz]
    simp only [sharesOf]
    omega

theorem shares_take (m : OrderMap) (hm : m msg.orderRef = some ro) :
    shares (m.take msg) + (BookState.taken msg ro).toNat = m.shares := by
  have hu := m.shares_update msg.orderRef (ro.less (BookState.taken msg ro))
  have hless := sharesOf_less msg ro
  rw [hm, sharesOf] at hu
  simp only [take, hm]
  omega

theorem shares_remove (m : OrderMap) (ref : UInt64) :
    shares (m.remove ref) + sharesOf (m ref) = m.shares := m.shares_update ref none

theorem shares_store (m : OrderMap) (ro : RestingOrder) :
    shares (m.store ro) + sharesOf (m ro.orderRef) = m.shares + ro.quantity.toNat :=
  m.shares_update ro.orderRef (some ro)

/-- Shares that are taken off an order are those that the one operation takes out of the book. -/
theorem take_moves (m : OrderMap) (msg : Order) {op : RestingOrder → ResolvedOp}
    (hop : ∀ ro, (op ro).action = .execute ∨ (op ro).action = .cancel ∨ (op ro).action = .delete)
    (hquantity : ∀ ro, (op ro).quantity = BookState.taken msg ro) :
    let ops := ((m msg.orderRef).map fun ro => [op ro]).getD []
    shares (m.take msg) + sharesRemoved ops = m.shares + sharesAdded ops := by
  cases hm : m msg.orderRef with
  | none =>
    rw [m.take_none hm]
    rfl
  | some ro =>
    obtain ⟨hadd, hrem⟩ := moved_remove (op ro) (hop ro) []
    dsimp only [Option.map_some, Option.getD_some]
    rw [hadd, hrem, hquantity]
    exact m.shares_take hm

/-- A replace takes the order out, and puts it in again where there is room. -/
theorem replace_moves (m : OrderMap) (hm : m msg.orderRef = some ro) (room : Bool) :
    let added := if room then [opOn msg (renew msg ro) .add msg.quantity] else []
    let ops := opOn msg ro .delete ro.quantity :: added
    shares (m.replace msg room) + (sharesRemoved ops +
        sharesOf (if room then m.remove msg.orderRef msg.newOrderRef else none)) =
      m.shares + sharesAdded ops := by
  have hr := m.shares_remove msg.orderRef
  rw [hm, sharesOf] at hr
  intro added ops
  obtain ⟨hadd, hrem⟩ := moved_remove (opOn msg ro .delete ro.quantity) (.inr (.inr rfl)) added
  rw [hadd, hrem, replace, hm]
  cases room with
  | false => exact hr
  | true =>
    have hs := (m.remove msg.orderRef).shares_store (renew msg ro)
    have hadded : added = [opOn msg (renew msg ro) .add msg.quantity] := rfl
    obtain ⟨hadd', hrem'⟩ := moved_add (opOn msg (renew msg ro) .add msg.quantity) rfl []
    rw [hadded, hadd', hrem', sharesAdded_nil, sharesRemoved_nil]
    simp only [opOn, renew, if_true] at hs ⊢
    omega

/-- A message moves the shares its operations say, and those of the order it overwrites. -/
theorem step_shares (m : OrderMap) (msg : Order) (room : Bool)
    (hroom : room = false → m.overwritten msg = none) :
    shares (m.step msg room) +
      (sharesRemoved ((m.emit msg room).getD []) + sharesOf (m.overwritten msg)) =
    m.shares + sharesAdded ((m.emit msg room).getD []) := by
  simp only [step, emit, overwritten] at hroom ⊢
  cases ha : msg.action with
  | add =>
    simp only [ha] at hroom
    cases room with
    | false =>
      rw [hroom rfl]
      rfl
    | true =>
      obtain ⟨hadd, hrem⟩ := moved_add (opOn msg
        ⟨msg.orderRef, msg.quantity, msg.price, msg.side, msg.stock⟩ .add msg.quantity) rfl []
      have hu := m.shares_store ⟨msg.orderRef, msg.quantity, msg.price, msg.side, msg.stock⟩
      simp only [if_true, Option.getD_some]
      rw [hadd, hrem, sharesAdded_nil, sharesRemoved_nil, Nat.zero_add]
      exact hu
  | execute => exact m.take_moves msg (fun _ => .inl rfl) fun _ => rfl
  | cancel => exact m.take_moves msg (fun _ => .inr (.inl rfl)) fun _ => rfl
  | delete =>
    cases hm : m msg.orderRef with
    | none =>
      rw [m.remove_none hm]
      rfl
    | some ro =>
      have hr := m.shares_remove msg.orderRef
      rw [hm, sharesOf] at hr
      obtain ⟨hadd, hrem⟩ := moved_remove (opOn msg ro .delete ro.quantity) (.inr (.inr rfl)) []
      dsimp only [Option.map_some, Option.getD_some]
      rw [hadd, hrem]
      exact hr
  | replace =>
    cases hm : m msg.orderRef with
    | none =>
      rw [m.replace_none hm]
      rfl
    | some ro =>
      have hmoves := m.replace_moves hm room
      simp only [ha, hm, Option.bind_some] at hroom
      cases room with
      | false =>
        dsimp only [Option.map_some, Option.bind_some, Option.getD_some]
        rw [hroom rfl]
        exact hmoves
      | true => exact hmoves
  | trade => rfl
  | none => rfl

end OrderMap

namespace BookState

variable {k : Nat} {b : BookState k}

def liveShares (b : BookState k) : Nat :=
  ∑ i ∈ b.occupiedSlots, (b.slots.get i).quantity.toNat

theorem Valid.liveShares_eq (hb : b.Valid) : b.liveShares = OrderMap.shares b.lookup := by
  have hocc (i : Fin (2 ^ k)) (hi : i ∈ b.occupiedSlots) : b.state.get i = .occupied :=
    (Finset.mem_filter.1 hi).2
  apply Totals.sum_eq_finsum _ fun i => (b.slots.get i).orderRef
  · intro i hi j hj hij
    have hfi := (hb.find_iff _ i).2 ⟨hocc i hi, hij⟩
    have hfj := (hb.find_iff _ j).2 ⟨hocc j hj, rfl⟩
    exact Option.some.inj (hfi.symm.trans hfj)
  · intro i hi
    rw [(hb.lookup_iff _ _).2 ⟨i, hocc i hi, rfl, rfl⟩, sharesOf]
  · intro ref hnone
    cases hl : b.lookup ref with
    | none => rfl
    | some ro =>
      obtain ⟨i, ho, rfl, hr⟩ := (hb.lookup_iff ref ro).1 hl
      exact absurd hr (hnone i (Finset.mem_filter.2 ⟨Finset.mem_univ i, ho⟩))

/-- The message stores its order over a live one that still has shares. -/
def Overwrites (b : BookState k) (msg : Order) : Prop :=
  sharesOf (OrderMap.overwritten b.lookup msg) ≠ 0

instance (b : BookState k) (msg : Order) : Decidable (b.Overwrites msg) :=
  inferInstanceAs (Decidable (_ ≠ _))

theorem Valid.resolve_shares (hb : b.Valid) (msg : Order) :
    (b.resolve msg).2.liveShares + (sharesRemoved ((b.resolve msg).1.getD []) +
      sharesOf (OrderMap.overwritten b.lookup msg)) =
    b.liveShares + sharesAdded ((b.resolve msg).1.getD []) := by
  rw [(hb.resolve_valid msg).liveShares_eq, hb.liveShares_eq, hb.resolve_lookup, hb.resolve_emit]
  exact OrderMap.step_shares b.lookup msg (b.room msg) (OrderMap.overwritten_of_full b.lookup)

theorem new_liveShares (slots : Vector RestingOrder (2 ^ k)) : (new slots).liveShares = 0 := by
  apply Finset.sum_eq_zero
  intro i hi
  have ho := (Finset.mem_filter.1 hi).2
  rw [new_empty] at ho
  cases ho

theorem sharesRemoved_opsOf (b : BookState k) (msgs : List Order) :
    sharesRemoved (b.opsOf msgs) =
      Mealy.total (fun b msg => sharesRemoved ((b.resolve msg).1.getD [])) resolve b msgs := by
  induction msgs generalizing b with
  | nil => rfl
  | cons msg msgs ih =>
    rw [Mealy.total, ← ih, ← sharesRemoved_append]
    rfl

theorem sharesAdded_opsOf (b : BookState k) (msgs : List Order) :
    sharesAdded (b.opsOf msgs) =
      Mealy.total (fun b msg => sharesAdded ((b.resolve msg).1.getD [])) resolve b msgs := by
  induction msgs generalizing b with
  | nil => rfl
  | cons msg msgs ih =>
    rw [Mealy.total, ← ih, ← sharesAdded_append]
    rfl

end BookState

/-- The live shares are what the operations added less what they removed, exactly in the runs that
store no order over a live one with shares. -/
theorem shares_conserved_iff (slots : Vector RestingOrder (2 ^ k)) (msgs : List Order) :
    let b := Mealy.after BookState.resolve (BookState.new slots) msgs
    let ops := (BookState.new slots).opsOf msgs
    (b.liveShares : Int) = sharesAdded ops - sharesRemoved ops ↔
      Mealy.EachStep (fun b msg => ¬ b.Overwrites msg) BookState.resolve (.new slots) msgs := by
  intro b ops
  have hbalance := Mealy.total_balance (fun b msg hb => BookState.Valid.resolve_valid hb msg)
    (fun b msg hb => BookState.Valid.resolve_shares hb msg) (BookState.new_valid slots) msgs
  have hremoved := (BookState.new slots).sharesRemoved_opsOf msgs
  have hadded := (BookState.new slots).sharesAdded_opsOf msgs
  rw [Mealy.total_add, ← hremoved, ← hadded, BookState.new_liveShares, Nat.zero_add] at hbalance
  have hzero :
      Mealy.total (fun b msg => sharesOf (OrderMap.overwritten b.lookup msg)) BookState.resolve
          (BookState.new slots) msgs = 0 ↔
        Mealy.EachStep (fun b msg => sharesOf (OrderMap.overwritten b.lookup msg) = 0)
          BookState.resolve (BookState.new slots) msgs :=
    Mealy.total_eq_zero_iff _ _ msgs
  simp only [BookState.Overwrites, ne_eq, not_not]
  rw [← hzero]
  have hsum : b.liveShares + (sharesRemoved ops + Mealy.total
      (fun b msg => sharesOf (OrderMap.overwritten b.lookup msg)) BookState.resolve
      (BookState.new slots) msgs) = sharesAdded ops := hbalance
  constructor
  · intro h
    omega
  · intro h
    omega

/-- The feed reuses a live reference: the table forgets the hundred shares of the first order, and
no operation takes them out of the book. -/
theorem reused_reference_forgotten :
    let add (quantity : UInt32) : Order :=
      { orderRef := 1, quantity := quantity, price := 10000, side := .buy, action := .add }
    let slots : Vector RestingOrder (2 ^ 1) := Vector.replicate 2 {}
    let msgs := [add 100, add 50]
    let b := Mealy.after BookState.resolve (BookState.new slots) msgs
    let ops := (BookState.new slots).opsOf msgs
    b.liveShares = 50 ∧ sharesAdded ops = 150 ∧ sharesRemoved ops = 0 ∧
      (b.liveShares : Int) ≠ sharesAdded ops - sharesRemoved ops := by
  decide +kernel

end Tickpipe
