import Tickpipe.Mirror

set_option autoImplicit true

namespace Tickpipe

/-- A new order has shares, and its reference is not live. -/
def OrderMap.Fresh (m : OrderMap) (msg : Order) : Prop :=
  (msg.action = .add → msg.quantity ≠ 0 ∧ m msg.orderRef = none) ∧
  (msg.action = .replace → msg.quantity ≠ 0 ∧ m msg.newOrderRef = none)

instance (m : OrderMap) (msg : Order) : Decidable (m.Fresh msg) :=
  inferInstanceAs (Decidable (_ ∧ _))

/-- The operations a run emitted, newest first, each with whether the engine applied it. -/
abbrev OpLog := List (ResolvedOp × Bool)

namespace OpLog

/-- The position of the latest Add of a reference and whether the engine applied it. -/
def lastAdd (ref : UInt64) : OpLog → Option (Nat × Bool)
  | [] => none
  | (op, passed) :: log =>
    if op.action = .add ∧ op.orderRef = ref then some (log.length, passed) else lastAdd ref log

def withheld (log : OpLog) (ref : UInt64) : Bool := (log.lastAdd ref).any fun a => !a.2

def usesReference (op : ResolvedOp) : Bool :=
  op.action = .execute || op.action = .cancel || op.action = .delete

/-- The executes, cancels and deletes that were emitted for references whose Add was withheld. -/
def orphans : OpLog → Nat
  | [] => 0
  | (op, _) :: log =>
    orphans log + if usesReference op && withheld log op.orderRef then 1 else 0

end OpLog

/-- The table, the engine behind it and the log of what passed between them. -/
structure Feed (k : Nat) where
  table : BookState k
  engine : SoftwareEngine
  log : OpLog

/-- A message with the decision which Add of its operations to withhold. -/
abbrev Input := Order × (ResolvedOp → Bool)

namespace Feed

/-- The body of the loop over `r.ops`: an Add may be skipped, all else is applied. -/
def applyOp (withhold : ResolvedOp → Bool) (s : SoftwareEngine × OpLog) (op : ResolvedOp) :
    SoftwareEngine × OpLog :=
  if op.action = .add ∧ withhold op = true then (s.1, (op, false) :: s.2)
  else (s.1.apply op, (op, true) :: s.2)

def step (s : Feed k) (i : Input) : Feed k :=
  let r := s.table.resolve i.1
  let t := (r.1.getD []).foldl (applyOp i.2) (s.engine, s.log)
  ⟨r.2, t.1, t.2⟩

def start (slots : Vector RestingOrder (2 ^ k)) : Feed k := ⟨BookState.new slots, {}, []⟩

def run (slots : Vector RestingOrder (2 ^ k)) (inputs : List Input) : Feed k :=
  inputs.foldl step (start slots)

/-- Every message is fresh when its turn comes. -/
def AllFresh (s : Feed k) : List Input → Prop
  | [] => True
  | i :: inputs => OrderMap.Fresh s.table.lookup i.1 ∧ AllFresh (s.step i) inputs

instance decidableAllFresh : (s : Feed k) → (inputs : List Input) →
    Decidable (s.AllFresh inputs)
  | _, [] => inferInstanceAs (Decidable True)
  | s, i :: inputs =>
    have := decidableAllFresh (s.step i) inputs
    inferInstanceAs (Decidable (_ ∧ _))

end Feed

namespace Blotter

/-- What an operation does to the blotter; an Add enters at the back under the log's position. -/
def apply (L : Blotter) (op : ResolvedOp) (passed : Bool) (stamp : Nat) : Blotter :=
  match op.action with
  | .add =>
    L ++ [⟨⟨op.orderRef, op.quantity, op.price, op.side, op.stock⟩, stamp, !passed⟩]
  | .execute | .cancel => L.alter (shrunk op.quantity) op.orderRef
  | .delete => L.alter (fun _ => none) op.orderRef
  | .replace | .trade | .none => L

/-- The operation speaks of a live order, at its side and, but for an execution, its price. -/
def Consistent (L : Blotter) (op : ResolvedOp) : Prop :=
  match op.action with
  | .add => op.quantity ≠ 0 ∧ op.orderRef ∉ L.refs
  | .execute => ∃ l ∈ L, l.ref = op.orderRef ∧ l.order.side = op.side
  | .cancel | .delete => ∃ l ∈ L, l.ref = op.orderRef ∧ l.order.side = op.side ∧
      l.order.price = op.price
  | .replace | .trade | .none => True

end Blotter

theorem OpLog.lastAdd_cons_other (log : OpLog) (passed : Bool) (h : op.action ≠ .add) :
    lastAdd ref ((op, passed) :: log) = log.lastAdd ref :=
  if_neg fun ha => h ha.1

/-- The engine and the log both follow the blotter. -/
structure Follows (s : SoftwareEngine × OpLog) (L : Blotter) : Prop where
  nodup : L.refs.Nodup
  sized : ∀ l ∈ L, l.order.quantity ≠ 0
  engine : s.1.Mirrors L
  stamped : ∀ l ∈ L, s.2.lastAdd l.ref = some (l.stamp, !l.withheld)
  ordered : (L.map Live.stamp).Pairwise (· < ·)
  recent : ∀ l ∈ L, l.stamp < s.2.length
  orphans : s.1.orphanOps = s.2.orphans

namespace Follows

variable {s : SoftwareEngine × OpLog} {L : Blotter}

theorem withheld_eq (h : Follows s L) (hl : l ∈ L) : s.2.withheld l.ref = l.withheld := by
  rw [OpLog.withheld, h.stamped l hl, Option.any_some, Bool.not_not]

theorem start : Follows ({}, []) [] where
  nodup := List.nodup_nil
  sized := nofun
  engine := ⟨⟨fun _ => rfl, nofun⟩, ⟨fun _ => rfl, nofun⟩⟩
  stamped := nofun
  ordered := .nil
  recent := nofun
  orphans := rfl

/-- An Add enters the queue of its price at the back, unless it was withheld. -/
theorem add (h : Follows s L) (ha : op.action = .add) (hc : L.Consistent op) (passed : Bool) :
    Follows (if passed then s.1.apply op else s.1, (op, passed) :: s.2)
      (L.apply op passed s.2.length) := by
  simp only [Blotter.Consistent, ha] at hc
  obtain ⟨hq, hn⟩ := hc
  have hL : L.apply op passed s.2.length = L ++
      [⟨⟨op.orderRef, op.quantity, op.price, op.side, op.stock⟩, s.2.length, !passed⟩] := by
    simp only [Blotter.apply, ha]
  rw [hL]
  refine ⟨?_, ?_, ?_, ?_, ?_, ?_, ?_⟩
  · rw [Blotter.refs, List.map_append, List.nodup_append]
    refine ⟨h.nodup, List.nodup_singleton _, ?_⟩
    intro a ha' b hb hab
    rw [hab, List.mem_singleton.1 hb] at ha'
    exact hn ha'
  · intro a ha'
    rcases List.mem_append.1 ha' with ha' | ha'
    · exact h.sized a ha'
    · rw [List.mem_singleton.1 ha']
      exact hq
  · cases passed with
    | true =>
      have hm := h.engine.restOrder (l := ⟨⟨op.orderRef, op.quantity, op.price, op.side, op.stock⟩,
        s.2.length, false⟩) rfl hq
      simp only [↓reduceIte, SoftwareEngine.apply, ha]
      exact hm.congr rfl rfl
    | false => exact h.engine.append_withheld rfl
  · intro a ha'
    rcases List.mem_append.1 ha' with ha' | ha'
    · rw [OpLog.lastAdd, if_neg]
      · exact h.stamped a ha'
      · rintro ⟨-, hr⟩
        exact hn (hr ▸ List.mem_map_of_mem ha')
    · rw [List.mem_singleton.1 ha', Live.ref, OpLog.lastAdd, if_pos ⟨ha, rfl⟩, Bool.not_not]
  · rw [List.map_append, List.pairwise_append]
    refine ⟨h.ordered, List.pairwise_singleton _ _, ?_⟩
    intro a ha' b hb
    obtain ⟨l', hl', rfl⟩ := List.mem_map.1 ha'
    rw [List.mem_singleton.1 hb]
    exact h.recent l' hl'
  · intro a ha'
    rw [List.length_cons]
    rcases List.mem_append.1 ha' with ha' | ha'
    · exact Nat.lt_succ_of_lt (h.recent a ha')
    · rw [List.mem_singleton.1 ha']
      exact Nat.lt_succ_self _
  · have hlog : OpLog.orphans ((op, passed) :: s.2) = s.2.orphans := by
      simp only [OpLog.orphans, OpLog.usesReference, ha, reduceCtorEq, decide_false, Bool.or_self,
        Bool.false_and, Bool.false_eq_true, ↓reduceIte, Nat.add_zero]
    rw [hlog, ← h.orphans]
    cases passed with
    | true =>
      simp only [↓reduceIte, SoftwareEngine.apply, ha]
      exact SoftwareEngine.restOrder_orphanOps _ _ _ _ _
    | false => rfl

/-- What is left to show of an operation that alters one order in place. -/
theorem alter (h : Follows s L) (ha : op.action ≠ .add) (f : UInt32 → Option UInt32)
    (hf : ∀ n, f n ≠ some 0) (hm : e.Mirrors (L.alter f op.orderRef))
    (ho : e.orphanOps = OpLog.orphans ((op, true) :: s.2)) :
    Follows (e, (op, true) :: s.2) (L.alter f op.orderRef) := by
  have hmem (l : Live) (hl : l ∈ L.alter f op.orderRef) :
      ∃ l' ∈ L, l'.ref = l.ref ∧ l'.stamp = l.stamp ∧ l'.withheld = l.withheld := by
    rcases Blotter.mem_alter hl with hl | ⟨l', hl', hr, n, hn, rfl⟩
    · exact ⟨l, hl, rfl, rfl, rfl⟩
    · exact ⟨l', hl', rfl, rfl, rfl⟩
  refine ⟨h.nodup.sublist (Blotter.refs_alter_sublist _ _ _), ?_, hm, ?_,
    h.ordered.sublist (Blotter.stamps_alter_sublist _ _ _), ?_, ho⟩
  · intro l hl
    rcases Blotter.mem_alter hl with hl | ⟨l', hl', hr, n, hn, rfl⟩
    · exact h.sized l hl
    · rintro rfl
      exact hf _ hn
  · intro l hl
    obtain ⟨l', hl', hr, hst, hw⟩ := hmem l hl
    rw [OpLog.lastAdd_cons_other _ _ ha, ← hr, ← hst, ← hw]
    exact h.stamped l' hl'
  · intro l hl
    obtain ⟨l', hl', -, hst, -⟩ := hmem l hl
    rw [← hst, List.length_cons]
    exact Nat.lt_succ_of_lt (h.recent l' hl')

theorem orphans_cons (h : Follows s L) (hu : OpLog.usesReference op = true) (hl : l ∈ L)
    (hr : l.ref = op.orderRef) : OpLog.orphans ((op, true) :: s.2) =
      s.1.orphanOps + if l.withheld then 1 else 0 := by
  rw [OpLog.orphans, hu, Bool.true_and, ← hr, h.withheld_eq hl, h.orphans]

theorem shrunk_ne_zero (qty n : UInt32) : shrunk qty n ≠ some 0 := by
  rw [shrunk]
  split
  · exact nofun
  · next hne => exact fun he => hne (Option.some.inj he)

theorem countTrade (h : Follows (e, log) L) (quantity price : UInt32) :
    Follows (e.countTrade quantity price, log) L :=
  ⟨h.nodup, h.sized, h.engine.congr rfl rfl, h.stamped, h.ordered, h.recent, h.orphans⟩

/-- An operation that touches no order only lengthens the log. -/
theorem idle (h : Follows s L) (ha : op.action ≠ .add) (hu : OpLog.usesReference op = false) :
    Follows (s.1, (op, true) :: s.2) L where
  nodup := h.nodup
  sized := h.sized
  engine := h.engine
  stamped l hl := by rw [OpLog.lastAdd_cons_other _ _ ha]; exact h.stamped l hl
  ordered := h.ordered
  recent l hl := Nat.lt_succ_of_lt (h.recent l hl)
  orphans := by rw [OpLog.orphans, hu]; exact h.orphans

/-- Any operation but an Add takes engine and blotter along together. -/
theorem other (h : Follows s L) (ha : op.action ≠ .add) (hc : L.Consistent op) :
    Follows (s.1.apply op, (op, true) :: s.2) (L.apply op true s.2.length) := by
  rw [Blotter.Consistent] at hc
  rw [Blotter.apply, SoftwareEngine.apply]
  cases hact : op.action with
  | add => exact absurd hact ha
  | execute =>
    simp only [hact] at hc
    obtain ⟨l, hl, hr, hs⟩ := hc
    obtain ⟨hm, ho⟩ := h.engine.executeBook h.nodup hl hr hs
    have hu : OpLog.usesReference op = true := by rw [OpLog.usesReference, hact]; rfl
    have hf := h.alter ha _ (shrunk_ne_zero op.quantity) hm
      (ho.trans (h.orphans_cons hu hl hr).symm)
    dsimp only
    split
    · exact hf.countTrade _ _
    · exact hf
  | cancel =>
    simp only [hact] at hc
    obtain ⟨l, hl, hr, hs, hp⟩ := hc
    obtain ⟨hm, ho⟩ := h.engine.alterBook h.nodup hl (shrunk op.quantity)
    have hu : OpLog.usesReference op = true := by rw [OpLog.usesReference, hact]; rfl
    rw [hr, hs, hp] at hm ho
    exact h.alter ha _ (shrunk_ne_zero op.quantity) hm (ho.trans (h.orphans_cons hu hl hr).symm)
  | delete =>
    simp only [hact] at hc
    obtain ⟨l, hl, hr, hs, hp⟩ := hc
    obtain ⟨hm, ho⟩ := h.engine.alterBook h.nodup hl fun _ => none
    have hu : OpLog.usesReference op = true := by rw [OpLog.usesReference, hact]; rfl
    rw [hr, hs, hp] at hm ho
    exact h.alter ha _ (fun _ => nofun) hm (ho.trans (h.orphans_cons hu hl hr).symm)
  | replace => exact h.idle ha (by rw [OpLog.usesReference, hact]; rfl)
  | trade => exact (h.idle ha (by rw [OpLog.usesReference, hact]; rfl)).countTrade _ _
  | none => exact h.idle ha (by rw [OpLog.usesReference, hact]; rfl)

theorem applyOp (h : Follows s L) (op : ResolvedOp) (hc : L.Consistent op)
    (withhold : ResolvedOp → Bool) :
    ∃ passed, Follows (Feed.applyOp withhold s op) (L.apply op passed s.2.length) := by
  rw [Feed.applyOp]
  by_cases ha : op.action = .add
  · cases hw : withhold op with
    | true =>
      rw [if_pos ⟨ha, rfl⟩]
      exact ⟨false, h.add ha hc false⟩
    | false =>
      rw [if_neg fun h => absurd h.2 nofun]
      exact ⟨true, h.add ha hc true⟩
  · rw [if_neg fun h => ha h.1]
    exact ⟨true, h.other ha hc⟩

end Follows

theorem taken_le (msg : Order) (ro : RestingOrder) : BookState.taken msg ro ≤ ro.quantity := by
  rw [BookState.taken]
  split
  · next h => exact UInt32.le_of_lt h
  · exact UInt32.le_refl _

theorem shrunk_eq_less {ro : RestingOrder} {n : UInt32} (h : n ≤ ro.quantity) :
    ((shrunk n ro.quantity).map fun q => { ro with quantity := q }) = ro.less n := by
  have hmin : min n ro.quantity = n := if_pos h
  rw [shrunk, RestingOrder.less, hmin]
  split <;> rfl

namespace Follows

variable {s : SoftwareEngine × OpLog} {L : Blotter}

theorem take (h : Follows s L) (op : ResolvedOp) (hm : L.toMap = m) (hro : m msg.orderRef = some ro)
    (ha : op.action = .execute ∨ op.action = .cancel ∧ op.price = ro.price)
    (hr : op.orderRef = ro.orderRef) (hs : op.side = ro.side)
    (hq : op.quantity = BookState.taken msg ro) (withhold : ResolvedOp → Bool) :
    ∃ L', Follows (Feed.applyOp withhold s op) L' ∧ L'.toMap = m.take msg := by
  obtain ⟨l, hl, hlr, hlo⟩ := Blotter.mem_of_toMap (hm ▸ hro)
  have href : op.orderRef = msg.orderRef := by rw [hr, ← hlo, ← hlr, Live.ref]
  have hc : L.Consistent op := by
    rcases ha with ha | ⟨ha, hp⟩
    · simp only [Blotter.Consistent, ha]
      exact ⟨l, hl, hlr.trans href.symm, by rw [hlo, hs]⟩
    · simp only [Blotter.Consistent, ha]
      exact ⟨l, hl, hlr.trans href.symm, by rw [hlo, hs], by rw [hlo, hp]⟩
  obtain ⟨passed, hf⟩ := h.applyOp op hc withhold
  have hL : L.apply op passed s.2.length =
      L.alter (shrunk (BookState.taken msg ro)) msg.orderRef := by
    rcases ha with ha | ⟨ha, -⟩ <;> simp only [Blotter.apply, ha, href, hq]
  rw [hL] at hf
  refine ⟨_, hf, ?_⟩
  rw [Blotter.toMap_alter h.nodup (hm ▸ hro), hm, OrderMap.take, hro,
    shrunk_eq_less (taken_le msg ro)]

theorem remove (h : Follows s L) (hm : L.toMap = m) (hro : m msg.orderRef = some ro)
    (withhold : ResolvedOp → Bool) :
    ∃ L', Follows (Feed.applyOp withhold s (OrderMap.opOn msg ro .delete ro.quantity)) L' ∧
      L'.toMap = m.remove msg.orderRef := by
  obtain ⟨l, hl, hlr, hlo⟩ := Blotter.mem_of_toMap (hm ▸ hro)
  have href : ro.orderRef = msg.orderRef := by rw [← hlo, ← hlr, Live.ref]
  obtain ⟨passed, hf⟩ := h.applyOp (OrderMap.opOn msg ro .delete ro.quantity)
    ⟨l, hl, hlr.trans href.symm, by rw [hlo]; rfl, by rw [hlo]; rfl⟩ withhold
  have hL : L.apply (OrderMap.opOn msg ro .delete ro.quantity) passed s.2.length =
      L.alter (fun _ => none) msg.orderRef := congrArg (L.alter fun _ => none) href
  rw [hL] at hf
  refine ⟨_, hf, ?_⟩
  rw [Blotter.toMap_alter h.nodup (hm ▸ hro), hm]
  rfl

theorem store (h : Follows s L) (ro : RestingOrder) (hm : L.toMap = m) (hq : ro.quantity ≠ 0)
    (hn : m ro.orderRef = none) (withhold : ResolvedOp → Bool) :
    ∃ L', Follows (Feed.applyOp withhold s (OrderMap.opOn msg ro .add ro.quantity)) L' ∧
      L'.toMap = m.store ro := by
  have hnot : ro.orderRef ∉ L.refs := (Blotter.toMap_eq_none_iff L).1 (hm ▸ hn)
  obtain ⟨passed, hf⟩ := h.applyOp (OrderMap.opOn msg ro .add ro.quantity) ⟨hq, hnot⟩ withhold
  refine ⟨_, hf, ?_⟩
  have ht := Blotter.toMap_append_new (l := ⟨ro, s.2.length, !passed⟩) hnot
  rw [hm] at ht
  exact ht

/-- The operations of a message take engine, log and map along together. -/
theorem emit (h : Follows s L) (hm : L.toMap = m) (hf : m.Fresh msg) (room : Bool)
    (withhold : ResolvedOp → Bool) :
    ∃ L', Follows (((m.emit msg room).getD []).foldl (Feed.applyOp withhold) s) L' ∧
      L'.toMap = m.step msg room := by
  rw [OrderMap.emit, OrderMap.step]
  cases ha : msg.action with
  | add =>
    obtain ⟨hq, hn⟩ := hf.1 ha
    cases room with
    | false => exact ⟨L, h, hm⟩
    | true =>
      simp only [↓reduceIte]
      exact h.store ⟨msg.orderRef, msg.quantity, msg.price, msg.side, msg.stock⟩ hm hq hn withhold
  | execute =>
    cases hro : m msg.orderRef with
    | none => exact ⟨L, h, hm.trans (m.take_none hro).symm⟩
    | some ro =>
      exact h.take {
        OrderMap.opOn msg ro .execute (BookState.taken msg ro) with
        price := if msg.price ≠ 0 then msg.price else ro.price
        matchNumber := msg.matchNumber } hm hro (.inl rfl) rfl rfl rfl withhold
  | cancel =>
    cases hro : m msg.orderRef with
    | none => exact ⟨L, h, hm.trans (m.take_none hro).symm⟩
    | some ro =>
      exact h.take (OrderMap.opOn msg ro .cancel (BookState.taken msg ro)) hm hro
        (.inr ⟨rfl, rfl⟩) rfl rfl rfl withhold
  | delete =>
    cases hro : m msg.orderRef with
    | none => exact ⟨L, h, hm.trans (m.remove_none hro).symm⟩
    | some ro => exact h.remove hm hro withhold
  | replace =>
    obtain ⟨hq, hn⟩ := hf.2 ha
    cases hro : m msg.orderRef with
    | none => exact ⟨L, h, hm.trans (m.replace_none hro room).symm⟩
    | some ro =>
      obtain ⟨L', hf', hm'⟩ := h.remove hm hro withhold
      have hne : msg.newOrderRef ≠ msg.orderRef := by
        intro he
        rw [he, hro] at hn
        cases hn
      simp only [OrderMap.replace, hro]
      cases room with
      | false => exact ⟨L', hf', hm'⟩
      | true =>
        have hn' : m.remove msg.orderRef msg.newOrderRef = none :=
          (Function.update_of_ne hne _ _).trans hn
        exact hf'.store (OrderMap.renew msg ro) hm' hq hn' withhold
  | trade =>
    obtain ⟨passed, hf'⟩ := h.applyOp (⟨.trade, msg.orderRef, msg.quantity, msg.price,
      msg.matchNumber, msg.timestampNs, msg.side, msg.stock⟩) True.intro withhold
    exact ⟨L, hf', hm⟩
  | none => exact ⟨L, h, hm⟩

end Follows

def Feed.InLockstep (s : Feed k) (L : Blotter) : Prop :=
  s.table.Valid ∧ s.table.lookup = L.toMap ∧ Follows (s.engine, s.log) L

theorem Feed.InLockstep.step {s : Feed k} (h : s.InLockstep L) (i : Input)
    (hf : OrderMap.Fresh s.table.lookup i.1) : ∃ L', (s.step i).InLockstep L' := by
  obtain ⟨hv, hl, hfol⟩ := h
  obtain ⟨L', hf', hm'⟩ := hfol.emit hl.symm hf (s.table.room i.1) i.2
  refine ⟨L', hv.resolve_valid i.1, (hv.resolve_lookup i.1).trans hm'.symm, ?_⟩
  rw [← hv.resolve_emit] at hf'
  exact hf'

theorem Feed.InLockstep.run {s : Feed k} (h : s.InLockstep L) (inputs : List Input)
    (hf : s.AllFresh inputs) : ∃ L', (inputs.foldl Feed.step s).InLockstep L' := by
  induction inputs generalizing s L with
  | nil => exact ⟨L, h⟩
  | cons i inputs ih =>
    obtain ⟨L', h'⟩ := h.step i hf.1
    exact ih h' hf.2

theorem Feed.start_inLockstep (slots : Vector RestingOrder (2 ^ k)) :
    (start slots).InLockstep [] :=
  ⟨BookState.new_valid slots, BookState.new_lookup slots, Follows.start⟩

def Ladder.refs (book : Ladder lt) : List UInt64 :=
  book.entries.flatMap fun e => e.2.map Prod.fst

/-- The Add of the first entry was applied before that of the second. -/
def OpLog.appliedBefore (log : OpLog) (x y : UInt64 × UInt32) : Prop :=
  ∃ i j, log.lastAdd x.1 = some (i, true) ∧ log.lastAdd y.1 = some (j, true) ∧ i < j

/-- A side of the engine holds the live orders of the table, less those withheld. -/
structure Feed.SideAgrees (s : Feed k) (book : Ladder lt) (buy : Bool) : Prop where
  entries : ∀ price ref qty, (ref, qty) ∈ book.queue price ↔
    ∃ ro, s.table.lookup ref = some ro ∧ s.log.withheld ref = false ∧
      decide (ro.side = .buy) = buy ∧ ro.price = price ∧ ro.quantity = qty
  levels : ∀ price, book.get? price ≠ some []
  sized : ∀ price, ∀ e ∈ book.queue price, e.2 ≠ 0
  ordered : ∀ price, (book.queue price).Pairwise s.log.appliedBefore

namespace Ladder

variable {lt : UInt32 → UInt32 → Prop} [IsStrictTotalOrder UInt32 lt] {book : Ladder lt}

theorem Mirrors.mem_refs (h : book.Mirrors L buy) (hr : ref ∈ book.refs) :
    ∃ l ∈ L, ∃ price, l.rests buy price = true ∧ l.ref = ref := by
  obtain ⟨⟨price, q⟩, hq, hr⟩ := List.mem_flatMap.1 hr
  have hg : book.queue price = q := by
    rw [Ladder.queue, (book.mem_entries_iff).1 hq]
    rfl
  rw [← hg, h.queue, Blotter.mem_queue_refs_iff] at hr
  obtain ⟨l, hl, hr⟩ := hr
  exact ⟨l, hl, price, hr⟩

theorem Mirrors.nodup_refs (h : book.Mirrors L buy) (hn : L.refs.Nodup) : book.refs.Nodup := by
  have hq (e : UInt32 × Level) (he : e ∈ book.entries) : e.2 = L.queue buy e.1 := by
    rw [← h.queue, Ladder.queue, (book.mem_entries_iff).1 he]
    rfl
  refine List.nodup_flatMap.2 ⟨?_, ?_⟩
  · intro e he
    rw [hq e he, Blotter.queue_refs]
    exact hn.sublist (List.filter_sublist.map _)
  · refine book.sorted.imp_of_mem ?_
    intro a b ha hb hab ref hra hrb
    simp only [hq a ha, Blotter.mem_queue_refs_iff] at hra
    simp only [hq b hb, Blotter.mem_queue_refs_iff] at hrb
    obtain ⟨l, hl, hla, rfl⟩ := hra
    obtain ⟨l', hl', hlb, he⟩ := hrb
    rw [Blotter.eq_of_ref hn hl' hl he, Live.rests_iff] at hlb
    rw [Live.rests_iff, hlb.2.2] at hla
    rw [hla.2.2] at hab
    exact irrefl_of lt _ hab

end Ladder

namespace Feed.InLockstep

variable {s : Feed k} {L : Blotter} {lt : UInt32 → UInt32 → Prop} {book : Ladder lt}

theorem sideAgrees (h : s.InLockstep L) (hm : book.Mirrors L buy) : s.SideAgrees book buy where
  entries price ref qty := by
    obtain ⟨-, hmap, hf⟩ := h
    rw [hm.queue, Blotter.mem_queue_iff, hmap]
    constructor
    · rintro ⟨l, hl, hr, he⟩
      obtain ⟨hw, hs, hp⟩ := (l.rests_iff _ _).1 hr
      obtain ⟨rfl, hq⟩ := (l.entry_eq_iff _ _).1 he
      exact ⟨l.order, Blotter.toMap_of_mem hf.nodup hl, (hf.withheld_eq hl).trans hw, hs, hp, hq⟩
    · rintro ⟨ro, hro, hw, hs, hp, hq⟩
      obtain ⟨l, hl, rfl, rfl⟩ := Blotter.mem_of_toMap hro
      have hlw := (hf.withheld_eq hl).symm.trans hw
      exact ⟨l, hl, (l.rests_iff _ _).2 ⟨hlw, hs, hp⟩, (l.entry_eq_iff _ _).2 ⟨rfl, hq⟩⟩
  levels := hm.tight
  sized price e he := by
    rw [hm.queue, Blotter.mem_queue_iff] at he
    obtain ⟨l, hl, -, rfl⟩ := he
    exact h.2.2.sized l hl
  ordered price := by
    obtain ⟨-, -, hf⟩ := h
    rw [hm.queue, Blotter.queue, List.pairwise_map]
    have hord := (List.pairwise_map.1 hf.ordered).filter (Live.rests buy price)
    refine hord.imp_of_mem ?_
    intro x y hx hy hxy
    obtain ⟨hx, hrx⟩ := List.mem_filter.1 hx
    obtain ⟨hy, hry⟩ := List.mem_filter.1 hy
    refine ⟨x.stamp, y.stamp, ?_, ?_, hxy⟩
    · have hs := hf.stamped x hx
      rw [((x.rests_iff _ _).1 hrx).1] at hs
      exact hs
    · have hs := hf.stamped y hy
      rw [((y.rests_iff _ _).1 hry).1] at hs
      exact hs

theorem nodup_refs (h : s.InLockstep L) : (s.engine.bids.refs ++ s.engine.asks.refs).Nodup := by
  obtain ⟨-, -, hf⟩ := h
  refine List.nodup_append.2 ⟨hf.engine.bids.nodup_refs hf.nodup,
    hf.engine.asks.nodup_refs hf.nodup, ?_⟩
  rintro a ha b hb rfl
  obtain ⟨l, hl, p, hr, rfl⟩ := hf.engine.bids.mem_refs ha
  obtain ⟨l', hl', p', hr', he⟩ := hf.engine.asks.mem_refs hb
  rw [Blotter.eq_of_ref hf.nodup hl' hl he, Live.rests_iff] at hr'
  rw [Live.rests_iff, hr'.2.1] at hr
  exact absurd hr.2.1 nofun

end Feed.InLockstep

/-- Resolution and replay stay in lockstep, whichever Adds are withheld from the engine. -/
theorem resolve_engine_lockstep (slots : Vector RestingOrder (2 ^ k)) (inputs : List Input)
    (hf : (Feed.start slots).AllFresh inputs) :
    let s := Feed.run slots inputs
    s.SideAgrees s.engine.bids true ∧ s.SideAgrees s.engine.asks false ∧
    (s.engine.bids.refs ++ s.engine.asks.refs).Nodup ∧
    s.engine.orphanOps = s.log.orphans := by
  intro s
  obtain ⟨L, h⟩ := (Feed.start_inLockstep slots).run inputs hf
  exact ⟨h.sideAgrees h.2.2.engine.bids, h.sideAgrees h.2.2.engine.asks, h.nodup_refs,
    h.2.2.orphans⟩

/-- Two buys of which the second is withheld and then executed, and a replace of the first. -/
def mixedSession : List Input :=
  [({ action := .add, orderRef := 1, side := .buy, quantity := 10, price := 100 }, fun _ => false),
   ({ action := .add, orderRef := 2, side := .buy, quantity := 5, price := 100 }, fun _ => true),
   ({ action := .execute, orderRef := 2, quantity := 1 }, fun _ => false),
   ({ action := .replace, orderRef := 1, newOrderRef := 3, quantity := 7, price := 101 },
     fun _ => false)]

theorem mixedSession_lockstep :
    let s := Feed.run (k := 2) (Vector.replicate 4 default) mixedSession
    (s.SideAgrees s.engine.bids true ∧ s.SideAgrees s.engine.asks false ∧
      (s.engine.bids.refs ++ s.engine.asks.refs).Nodup ∧ s.engine.orphanOps = s.log.orphans) ∧
    s.engine.bids.entries = [(101, [(3, 7)])] ∧ s.engine.orphanOps = 1 :=
  ⟨resolve_engine_lockstep (k := 2) (Vector.replicate 4 default) mixedSession (by decide +kernel),
    by decide +kernel, by decide +kernel⟩

end Tickpipe
