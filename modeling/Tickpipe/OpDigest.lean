import Tickpipe.BookMap
import Tickpipe.SoftwareEngine
import Tickpipe.Lib.Blocks
import Tickpipe.Lib.Mealy

set_option autoImplicit true

namespace Tickpipe

/-- The words that `fold_op` folds for an operation. -/
def ResolvedOp.words (op : ResolvedOp) : List UInt64 :=
  [op.action.toUInt64, op.orderRef, op.quantity.toUInt64, op.price.toUInt64, op.side.toUInt64]

theorem Action.toUInt64_inj {a b : Action} (h : a.toUInt64 = b.toUInt64) : a = b := by
  revert h
  cases a <;> cases b <;> decide

theorem Side.toUInt64_inj {a b : Side} (h : a.toUInt64 = b.toUInt64) : a = b := by
  revert h
  cases a <;> cases b <;> decide

namespace ResolvedOp

theorem words_eq_iff {op op' : ResolvedOp} : op.words = op'.words ↔
    op.action = op'.action ∧ op.orderRef = op'.orderRef ∧ op.quantity = op'.quantity ∧
      op.price = op'.price ∧ op.side = op'.side := by
  rw [words, words]
  constructor
  · intro h
    obtain ⟨ha, h⟩ := List.cons.inj h
    obtain ⟨hr, h⟩ := List.cons.inj h
    obtain ⟨hq, h⟩ := List.cons.inj h
    obtain ⟨hp, h⟩ := List.cons.inj h
    exact ⟨Action.toUInt64_inj ha, hr, UInt32.toUInt64_inj.1 hq, UInt32.toUInt64_inj.1 hp,
      Side.toUInt64_inj (List.cons.inj h).1⟩
  · rintro ⟨ha, hr, hq, hp, hs⟩
    rw [ha, hr, hq, hp, hs]

/-- An operation that prints: a trade, or an execution with a match number. -/
def prints (op : ResolvedOp) : Bool :=
  op.action = .trade || op.action = .execute && op.matchNumber ≠ 0

end ResolvedOp

namespace BookState

theorem foldOp_words (digest : UInt64) (op : ResolvedOp) :
    foldOp digest op = op.words.foldl fold digest := by
  rw [foldOp, ResolvedOp.words]
  simp only [List.foldl_cons, List.foldl_nil]

/-- The words that a stream of operations feeds into the digest. -/
def opWords (ops : List ResolvedOp) : List UInt64 := ops.flatMap ResolvedOp.words

theorem foldl_foldOp (digest : UInt64) (ops : List ResolvedOp) :
    ops.foldl foldOp digest = (opWords ops).foldl fold digest := by
  induction ops generalizing digest with
  | nil => rfl
  | cons op ops ih =>
    have hcons : opWords (op :: ops) = op.words ++ opWords ops := List.flatMap_cons
    rw [List.foldl_cons, ih, hcons, List.foldl_append, foldOp_words]

theorem digest_run (b : BookState k) (hb : b.Valid) (msgs : List Order) :
    (Mealy.after resolve b msgs).digest = (opWords (b.opsOf msgs)).foldl fold b.digest := by
  induction msgs generalizing b with
  | nil => rfl
  | cons msg msgs ih =>
    have hrest := ih _ (hb.resolve_valid msg)
    rw [Mealy.after, hrest, resolve_digest b msg hb, foldl_foldOp, ← List.foldl_append, opsOf_cons,
      opWords, opWords, opWords, List.flatMap_append]

end BookState

namespace SoftwareEngine

variable {e e' : SoftwareEngine} {op op' : ResolvedOp}

/-- The engine without its tape of prints. -/
def tapeless (e : SoftwareEngine) : SoftwareEngine :=
  { e with matchesMade := 0, sharesTraded := 0, lastPrice := 0 }

theorem restOrder_tapeless (e : SoftwareEngine) (side : Side) (price : UInt32) (ref : UInt64)
    (qty : UInt32) :
    (e.restOrder side price ref qty).tapeless = e.tapeless.restOrder side price ref qty := by
  rw [restOrder, restOrder]
  split
  · rfl
  · split
    · rfl
    · rfl

theorem alterRef_tapeless (f : UInt32 → Option UInt32) (e : SoftwareEngine) (side : Side)
    (price : UInt32) (ref : UInt64) :
    alterRef f e.tapeless side price ref = (alterRef f e side price ref).map tapeless := by
  rw [alterRef, alterRef]
  split
  · rw [Option.map_map]
    rfl
  · rw [Option.map_map]
    rfl

theorem scanRef_tapeless (e : SoftwareEngine) (side : Side) (ref : UInt64) (qty : UInt32) :
    e.tapeless.scanRef side ref qty = (e.scanRef side ref qty).map tapeless := by
  rw [scanRef, scanRef]
  split
  · rw [Option.map_map]
    rfl
  · rw [Option.map_map]
    rfl

theorem getD_tapeless (o : Option SoftwareEngine) (e : SoftwareEngine) :
    (o.getD e).tapeless = (o.map tapeless).getD e.tapeless := by
  cases o with
  | none => rfl
  | some _ => rfl

theorem executeBook_tapeless (e : SoftwareEngine) (op : ResolvedOp) :
    (e.executeBook op).tapeless = e.tapeless.executeBook op := by
  rw [executeBook, executeBook, reduceRef, reduceRef, alterRef_tapeless]
  cases alterRef (shrunk op.quantity) e op.side op.price op.orderRef with
  | some e => rfl
  | none =>
    rw [Option.map_none]
    dsimp only
    rw [scanRef_tapeless, getD_tapeless]
    rfl

/-- What an operation does beside the prints. -/
theorem apply_tapeless (e : SoftwareEngine) (op : ResolvedOp) :
    (e.apply op).tapeless =
      match op.action with
      | .add => { e.tapeless.restOrder op.side op.price op.orderRef op.quantity with
          ordersProcessed :=
            (e.tapeless.restOrder op.side op.price op.orderRef op.quantity).ordersProcessed + 1 }
      | .execute => e.tapeless.executeBook op
      | .cancel => (e.tapeless.reduceRef op.side op.price op.orderRef op.quantity).getD
          e.tapeless.countOrphan
      | .delete => (e.tapeless.removeRef op.side op.price op.orderRef).getD e.tapeless.countOrphan
      | .trade | .replace | .none => e.tapeless := by
  rw [apply]
  cases op.action with
  | add =>
    dsimp only
    rw [← restOrder_tapeless]
    rfl
  | execute =>
    dsimp only
    rw [← executeBook_tapeless]
    split
    · rfl
    · rfl
  | cancel =>
    dsimp only
    rw [getD_tapeless, reduceRef, reduceRef, alterRef_tapeless]
    rfl
  | delete =>
    dsimp only
    rw [getD_tapeless, removeRef, removeRef, alterRef_tapeless]
    rfl
  | trade => rfl
  | replace => rfl
  | none => rfl

/-- The folded fields of an operation fix what it does beside the prints. -/
theorem apply_words (h : op.words = op'.words) (he : e.tapeless = e'.tapeless) :
    (e.apply op).tapeless = (e'.apply op').tapeless := by
  obtain ⟨ha, hr, hq, hp, hs⟩ := ResolvedOp.words_eq_iff.1 h
  rw [apply_tapeless, apply_tapeless, he, executeBook, executeBook, ha, hr, hq, hp, hs]

/-- The prints so far: how many, of how many shares, and the last price. -/
def tape (e : SoftwareEngine) : Nat × UInt64 × UInt32 :=
  (e.matchesMade, e.sharesTraded, e.lastPrice)

theorem eq_iff : e = e' ↔ e.tapeless = e'.tapeless ∧ e.tape = e'.tape := by
  constructor
  · rintro rfl
    exact ⟨rfl, rfl⟩
  · rintro ⟨hbook, htape⟩
    obtain ⟨bids, asks, processed, made, traded, orphans, last⟩ := e
    obtain ⟨bids', asks', processed', made', traded', orphans', last'⟩ := e'
    obtain ⟨rfl, htape⟩ := Prod.mk.inj htape
    obtain ⟨rfl, rfl⟩ := Prod.mk.inj htape
    obtain ⟨rfl, rfl, rfl, -, -, rfl, -⟩ := SoftwareEngine.mk.inj hbook
    rfl

theorem restOrder_tape (e : SoftwareEngine) (side : Side) (price : UInt32) (ref : UInt64)
    (qty : UInt32) : (e.restOrder side price ref qty).tape = e.tape := by
  rw [restOrder]
  split
  · rfl
  · split
    · rfl
    · rfl

theorem alterRef_tape (h : alterRef f e side price ref = some e') : e'.tape = e.tape := by
  rw [alterRef] at h
  split at h
  · obtain ⟨bids, -, rfl⟩ := Option.map_eq_some_iff.1 h
    rfl
  · obtain ⟨asks, -, rfl⟩ := Option.map_eq_some_iff.1 h
    rfl

theorem scanRef_tape (h : e.scanRef side ref qty = some e') : e'.tape = e.tape := by
  rw [scanRef] at h
  split at h
  · obtain ⟨bids, -, rfl⟩ := Option.map_eq_some_iff.1 h
    rfl
  · obtain ⟨asks, -, rfl⟩ := Option.map_eq_some_iff.1 h
    rfl

theorem getD_tape {o : Option SoftwareEngine} (h : ∀ e', o = some e' → e'.tape = e.tape) :
    (o.getD e.countOrphan).tape = e.tape := by
  cases o with
  | none => rfl
  | some e' => exact h e' rfl

theorem executeBook_tape (e : SoftwareEngine) (op : ResolvedOp) :
    (e.executeBook op).tape = e.tape := by
  rw [executeBook]
  cases hr : e.reduceRef op.side op.price op.orderRef op.quantity with
  | some e' => exact alterRef_tape hr
  | none => exact getD_tape fun e' h => scanRef_tape h

/-- An operation that prints is counted, and no other. -/
theorem apply_tape (e : SoftwareEngine) (op : ResolvedOp) :
    (e.apply op).tape =
      if op.prints then (e.matchesMade + 1, e.sharesTraded + op.quantity.toUInt64, op.price)
      else e.tape := by
  rw [apply, ResolvedOp.prints]
  cases op.action with
  | add => exact e.restOrder_tape _ _ _ _
  | execute =>
    have htape := e.executeBook_tape op
    by_cases hm : op.matchNumber ≠ 0
    · simp only [reduceCtorEq, decide_false, Bool.false_or, decide_true, Bool.true_and,
        decide_eq_true hm, if_pos hm, if_true]
      obtain ⟨hmade, htraded⟩ := Prod.mk.inj htape
      rw [← hmade, ← (Prod.mk.inj htraded).1]
      rfl
    · simp only [reduceCtorEq, decide_false, Bool.false_or, decide_true, Bool.true_and,
        decide_eq_false hm, if_neg hm, Bool.false_eq_true, if_false]
      exact htape
  | cancel => exact getD_tape fun e' h => alterRef_tape h
  | delete => exact getD_tape fun e' h => alterRef_tape h
  | trade => rfl
  | replace => rfl
  | none => rfl

def printed (ops : List ResolvedOp) : List ResolvedOp := ops.filter (·.prints)

def printedShares (ops : List ResolvedOp) : Nat := ((printed ops).map (·.quantity.toNat)).sum

def lastPrinted (ops : List ResolvedOp) : Option UInt32 := (printed ops).getLast?.map (·.price)

theorem printed_cons_pos (h : op.prints = true) (ops : List ResolvedOp) :
    printed (op :: ops) = op :: printed ops ∧
      printedShares (op :: ops) = op.quantity.toNat + printedShares ops ∧
      lastPrinted (op :: ops) = some ((lastPrinted ops).getD op.price) := by
  have hcons : printed (op :: ops) = op :: printed ops := List.filter_cons_of_pos h
  refine ⟨hcons, ?_, ?_⟩
  · rw [printedShares, hcons]
    rfl
  · rw [lastPrinted, lastPrinted, hcons, List.getLast?_cons]
    cases (printed ops).getLast? with
    | none => rfl
    | some _ => rfl

theorem printed_cons_neg (h : ¬ op.prints = true) (ops : List ResolvedOp) :
    printed (op :: ops) = printed ops :=
  List.filter_cons_of_neg h

theorem applyAll_tape (e : SoftwareEngine) (ops : List ResolvedOp) :
    (e.applyAll ops).tape = (e.matchesMade + (printed ops).length,
      e.sharesTraded + UInt64.ofNat (printedShares ops), (lastPrinted ops).getD e.lastPrice) := by
  induction ops generalizing e with
  | nil => exact Prod.ext rfl (Prod.ext (UInt64.add_zero _).symm rfl)
  | cons op ops ih =>
    have hrest := ih (e.apply op)
    have htape := e.apply_tape op
    by_cases hp : op.prints = true
    · obtain ⟨hlen, hshares, hlast⟩ := printed_cons_pos hp ops
      rw [if_pos hp] at htape
      obtain ⟨hmade, htape⟩ := Prod.mk.inj htape
      obtain ⟨htraded, hprice⟩ := Prod.mk.inj htape
      have hquantity : op.quantity.toUInt64 = UInt64.ofNat op.quantity.toNat := by
        rw [← UInt32.toNat_toUInt64, UInt64.ofNat_toNat]
      rw [hlen, hshares, hlast, List.length_cons, UInt64.ofNat_add, ← UInt64.add_assoc,
        ← hquantity, Nat.add_comm _ 1, ← Nat.add_assoc, Option.getD_some, ← hmade, ← htraded,
        ← hprice]
      exact hrest
    · rw [if_neg hp] at htape
      obtain ⟨hmade, htape⟩ := Prod.mk.inj htape
      obtain ⟨htraded, hprice⟩ := Prod.mk.inj htape
      rw [printedShares, lastPrinted, printed_cons_neg hp, ← hmade, ← htraded, ← hprice]
      exact hrest

theorem applyAll_words (h : List.Forall₂ (fun op op' => op.words = op'.words) ops ops')
    (he : e.tapeless = e'.tapeless) : (e.applyAll ops).tapeless = (e'.applyAll ops').tapeless := by
  induction h generalizing e e' with
  | nil => exact he
  | cons hop _ ih => exact ih (apply_words hop he)

/-- Operations of the same words do the same exactly when both print or neither does. -/
theorem apply_eq_iff (hop : op.words = op'.words) (e : SoftwareEngine) :
    e.apply op = e.apply op' ↔ op.prints = op'.prints := by
  obtain ⟨-, -, hq, hp, -⟩ := ResolvedOp.words_eq_iff.1 hop
  rw [eq_iff, apply_tape, apply_tape, hq, hp]
  constructor
  · rintro ⟨-, htape⟩
    have hmade := congrArg Prod.fst htape
    cases hb : op.prints <;> cases hb' : op'.prints
    · rfl
    · rw [hb, hb'] at hmade
      exact absurd hmade (Nat.succ_ne_self _).symm
    · rw [hb, hb'] at hmade
      exact absurd hmade (Nat.succ_ne_self _)
    · rfl
  · intro hprints
    rw [hprints]
    exact ⟨apply_words hop rfl, rfl⟩

/-- The engines agree after every operation exactly when the same operations print. -/
theorem applyAll_prefixes_iff (h : List.Forall₂ (fun op op' => op.words = op'.words) ops ops')
    (e : SoftwareEngine) :
    (∀ n, e.applyAll (ops.take n) = e.applyAll (ops'.take n)) ↔
      List.Forall₂ (fun op op' => op.prints = op'.prints) ops ops' := by
  induction h generalizing e with
  | nil => exact ⟨fun _ => .nil, fun _ n => by rw [List.take_nil]⟩
  | @cons op op' ops ops' hop _ ih =>
    rw [List.forall₂_cons]
    constructor
    · intro hn
      have hone : e.apply op = e.apply op' := hn 1
      refine ⟨(apply_eq_iff hop e).1 hone, (ih (e.apply op)).1 fun n => ?_⟩
      have hsucc := hn (n + 1)
      rw [List.take_succ_cons, List.take_succ_cons, applyAll_cons, applyAll_cons, ← hone] at hsucc
      exact hsucc
    · rintro ⟨hprints, hrest⟩ n
      cases n with
      | zero => rfl
      | succ n =>
        rw [List.take_succ_cons, List.take_succ_cons, applyAll_cons, applyAll_cons,
          (apply_eq_iff hop e).2 hprints]
        exact (ih (e.apply op')).2 hrest n

theorem lastPrinted_eq_none_iff (ops : List ResolvedOp) :
    lastPrinted ops = none ↔ (printed ops).length = 0 := by
  rw [lastPrinted, Option.map_eq_none_iff, List.getLast?_eq_none_iff, List.length_eq_zero_iff]

/-- Runs with as many prints either have a last price or do not. -/
theorem lastPrinted_eq_iff (h : (printed ops).length = (printed ops').length) :
    (lastPrinted ops).getD price = (lastPrinted ops').getD price ↔
      lastPrinted ops = lastPrinted ops' := by
  have hnone := lastPrinted_eq_none_iff ops
  have hnone' := lastPrinted_eq_none_iff ops'
  rw [h, ← hnone'] at hnone
  cases hl : lastPrinted ops with
  | none =>
    rw [hnone.1 hl]
    exact ⟨fun _ => rfl, fun _ => rfl⟩
  | some p =>
    cases hl' : lastPrinted ops' with
    | none =>
      rw [hnone.2 hl'] at hl
      cases hl
    | some p' => rw [Option.getD_some, Option.getD_some, Option.some.injEq]

/-- The engines agree at the end exactly when the prints agree in number, in shares modulo
`2 ^ 64` and in their last price. -/
theorem applyAll_eq_iff (h : List.Forall₂ (fun op op' => op.words = op'.words) ops ops') :
    applyAll {} ops = applyAll {} ops' ↔
      (printed ops).length = (printed ops').length ∧
      printedShares ops % 2 ^ 64 = printedShares ops' % 2 ^ 64 ∧
      lastPrinted ops = lastPrinted ops' := by
  have hshares (m n : Nat) :
      (0 : UInt64) + UInt64.ofNat m = 0 + UInt64.ofNat n ↔ m % 2 ^ 64 = n % 2 ^ 64 := by
    rw [UInt64.zero_add, UInt64.zero_add, ← UInt64.toNat_inj, UInt64.toNat_ofNat',
      UInt64.toNat_ofNat']
  rw [eq_iff, applyAll_tape, applyAll_tape, Prod.mk.injEq, Prod.mk.injEq, hshares,
    Nat.add_right_inj]
  constructor
  · rintro ⟨-, hlen, hsum, hlast⟩
    exact ⟨hlen, hsum, (lastPrinted_eq_iff hlen).1 hlast⟩
  · rintro ⟨hlen, hsum, hlast⟩
    exact ⟨applyAll_words h rfl, hlen, hsum, (lastPrinted_eq_iff hlen).2 hlast⟩

end SoftwareEngine

/-- Of two streams that feed the same words into the digest, the engines agree at the end exactly
when their prints agree in number, in shares and in the last price, and they agree all the way
exactly when the same operations print. -/
theorem same_words_engines_iff {k k' : Nat} (slots : Vector RestingOrder (2 ^ k))
    (slots' : Vector RestingOrder (2 ^ k')) (msgs msgs' : List Order)
    (h : BookState.opWords ((BookState.new slots).opsOf msgs) =
      BookState.opWords ((BookState.new slots').opsOf msgs')) :
    let ops := (BookState.new slots).opsOf msgs
    let ops' := (BookState.new slots').opsOf msgs'
    (SoftwareEngine.applyAll {} ops = SoftwareEngine.applyAll {} ops' ↔
      (SoftwareEngine.printed ops).length = (SoftwareEngine.printed ops').length ∧
      SoftwareEngine.printedShares ops % 2 ^ 64 = SoftwareEngine.printedShares ops' % 2 ^ 64 ∧
      SoftwareEngine.lastPrinted ops = SoftwareEngine.lastPrinted ops') ∧
    ((∀ n, SoftwareEngine.applyAll {} (ops.take n) = SoftwareEngine.applyAll {} (ops'.take n)) ↔
      List.Forall₂ (fun op op' => op.prints = op'.prints) ops ops') := by
  intro ops ops'
  have hwords := Blocks.forall₂_of_fixed (n := 5) (by decide) (fun _ => rfl) h
  exact ⟨SoftwareEngine.applyAll_eq_iff hwords, SoftwareEngine.applyAll_prefixes_iff hwords {}⟩

/-- A buy of ten shares of which four are executed, under a match number. -/
def addThenExecute (matchNumber : UInt64) : List Order :=
  [{ action := .add, orderRef := 1, side := .buy, quantity := 10, price := 100 },
   { action := .execute, orderRef := 1, quantity := 4, matchNumber := matchNumber }]

/-- A printable execution and one that is not feed the same words. -/
theorem unprinted_execution_same_words :
    let b := BookState.new (Vector.replicate (2 ^ 1) default)
    BookState.opWords (b.opsOf (addThenExecute 5)) =
        BookState.opWords (b.opsOf (addThenExecute 0)) ∧
      SoftwareEngine.applyAll {} (b.opsOf (addThenExecute 5)) ≠
        SoftwareEngine.applyAll {} (b.opsOf (addThenExecute 0)) := by
  refine ⟨by decide +kernel, fun h => ?_⟩
  exact absurd (congrArg SoftwareEngine.matchesMade h) (by decide +kernel)

theorem otherMatchNumber_engines :
    let ops := (BookState.new (Vector.replicate (2 ^ 1) default)).opsOf (addThenExecute 5)
    let ops' := (BookState.new (Vector.replicate (2 ^ 2) default)).opsOf (addThenExecute 7)
    SoftwareEngine.applyAll {} ops = SoftwareEngine.applyAll {} ops' ∧
      ∀ n, SoftwareEngine.applyAll {} (ops.take n) = SoftwareEngine.applyAll {} (ops'.take n) := by
  obtain ⟨hlast, hall⟩ := same_words_engines_iff (Vector.replicate (2 ^ 1) default)
    (Vector.replicate (2 ^ 2) default) (addThenExecute 5) (addThenExecute 7) (by decide +kernel)
  exact ⟨hlast.2 (by decide +kernel), hall.2 (by decide +kernel)⟩

end Tickpipe
