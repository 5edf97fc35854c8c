import Tickpipe.Pipeline
import Tickpipe.Exchange

set_option autoImplicit true

namespace Tickpipe

namespace FpgaPipeline

/-- The window of both is the same: all that stage 2 reads and writes. -/
structure SameWindow (p q : FpgaPipeline) : Prop where
  basePrice : q.basePrice = p.basePrice
  baseSet : q.baseSet = p.baseSet
  misses : q.windowMisses = p.windowMisses

/-- The ladders of both are the same: all that stages 3 and 4 read and write. -/
structure SameLadders (p q : FpgaPipeline) : Prop where
  buy : q.buy = p.buy
  sell : q.sell = p.sell
  made : q.matchesMade = p.matchesMade

variable {p q r : FpgaPipeline}

theorem SameWindow.refl (p : FpgaPipeline) : p.SameWindow p := ⟨rfl, rfl, rfl⟩

theorem SameWindow.symm (h : p.SameWindow q) : q.SameWindow p :=
  ⟨h.basePrice.symm, h.baseSet.symm, h.misses.symm⟩

theorem SameWindow.trans (h : p.SameWindow q) (h' : q.SameWindow r) : p.SameWindow r :=
  ⟨h'.basePrice.trans h.basePrice, h'.baseSet.trans h.baseSet, h'.misses.trans h.misses⟩

theorem SameLadders.refl (p : FpgaPipeline) : p.SameLadders p := ⟨rfl, rfl, rfl⟩

theorem SameLadders.symm (h : p.SameLadders q) : q.SameLadders p :=
  ⟨h.buy.symm, h.sell.symm, h.made.symm⟩

theorem SameLadders.trans (h : p.SameLadders q) (h' : q.SameLadders r) : p.SameLadders r :=
  ⟨h'.buy.trans h.buy, h'.sell.trans h.sell, h'.made.trans h.made⟩

theorem setBase_same (p : FpgaPipeline) (price : UInt32) :
    (p.setBase price).stages = p.stages ∧ (p.setBase price).ordersProcessed = p.ordersProcessed ∧
      p.SameLadders (p.setBase price) := by
  rw [setBase]
  split
  · exact ⟨rfl, rfl, .refl p⟩
  · exact ⟨rfl, rfl, rfl, rfl, rfl⟩

theorem slotOf_snd (p : FpgaPipeline) (price : UInt32) : (p.slotOf price).2 = p.setBase price := by
  rw [slotOf]
  dsimp only
  split
  · rfl
  · rfl

/-- Where stage 2 sends a register, and what it leaves of the window. -/
theorem stage2Route_eq (p : FpgaPipeline) (reg : PipelineRegister) :
    p.stage2Route reg =
      if reg.valid then
        match (p.slotOf reg.order.price).1 with
        | some slot => ({ reg with stage := 2, levelIndex := slot }, p.setBase reg.order.price)
        | none => ({ reg with stage := 2, valid := false },
            { p.setBase reg.order.price with
              windowMisses := (p.setBase reg.order.price).windowMisses + 1 })
      else ({ reg with stage := 2 }, p) := by
  rw [stage2Route, ← slotOf_snd]
  dsimp only
  split
  · cases h : p.slotOf reg.order.price with
    | mk slot? p' =>
      cases slot? with
      | none => rfl
      | some slot => rfl
  · rfl

theorem stage2Route_order (p : FpgaPipeline) (reg : PipelineRegister) :
    (p.stage2Route reg).1.order = reg.order := by
  rw [stage2Route_eq]
  split
  · split
    · rfl
    · rfl
  · rfl

theorem stage2Route_same (p : FpgaPipeline) (reg : PipelineRegister) :
    (p.stage2Route reg).2.stages = p.stages ∧
      (p.stage2Route reg).2.ordersProcessed = p.ordersProcessed ∧
      p.SameLadders (p.stage2Route reg).2 := by
  obtain ⟨hs, hp, hl⟩ := p.setBase_same reg.order.price
  rw [stage2Route_eq]
  split
  · split
    · exact ⟨hs, hp, hl⟩
    · exact ⟨hs, hp, hl.buy, hl.sell, hl.made⟩
  · exact ⟨rfl, rfl, .refl p⟩

theorem SameWindow.setBase (h : p.SameWindow q) (price : UInt32) :
    (p.setBase price).SameWindow (q.setBase price) := by
  rw [FpgaPipeline.setBase, FpgaPipeline.setBase, h.baseSet]
  split
  · exact h
  · exact ⟨rfl, rfl, h.misses⟩

theorem SameWindow.slotOf (h : p.SameWindow q) (price : UInt32) :
    (q.slotOf price).1 = (p.slotOf price).1 := by
  rw [FpgaPipeline.slotOf, FpgaPipeline.slotOf]
  dsimp only
  rw [(h.setBase price).basePrice]
  split
  · rfl
  · rfl

/-- Stage 2 depends on the window alone. -/
theorem SameWindow.stage2Route (h : p.SameWindow q) (reg : PipelineRegister) :
    (q.stage2Route reg).1 = (p.stage2Route reg).1 ∧
      (p.stage2Route reg).2.SameWindow (q.stage2Route reg).2 := by
  have hset := h.setBase reg.order.price
  rw [stage2Route_eq, stage2Route_eq, h.slotOf]
  split
  · split
    · exact ⟨rfl, hset⟩
    · exact ⟨rfl, hset.basePrice, hset.baseSet, congrArg (· + 1) hset.misses⟩
  · exact ⟨rfl, h⟩

/-- Stage 3 depends on the ladders alone. -/
theorem SameLadders.stage3Match (h : p.SameLadders q) (reg : PipelineRegister) :
    q.stage3Match reg = p.stage3Match reg := by
  rw [FpgaPipeline.stage3Match, FpgaPipeline.stage3Match, bestBid, bestBid, bestAsk, bestAsk,
    h.buy, h.sell]

theorem stage4Execute_fst (p : FpgaPipeline) (reg : PipelineRegister) :
    (p.stage4Execute reg).1 = { reg with stage := 4 } := by
  rw [stage4Execute]
  dsimp only
  split
  · rfl
  · rfl

theorem stage4Execute_same (p : FpgaPipeline) (reg : PipelineRegister) :
    (p.stage4Execute reg).2.stages = p.stages ∧
      (p.stage4Execute reg).2.ordersProcessed = p.ordersProcessed ∧
      p.SameWindow (p.stage4Execute reg).2 := by
  rw [stage4Execute]
  dsimp only [executeMatch, executeRest]
  repeat' split
  all_goals exact ⟨rfl, rfl, rfl, rfl, rfl⟩

/-- Stage 4 depends on the ladders alone. -/
theorem SameLadders.stage4Execute (h : p.SameLadders q) (reg : PipelineRegister) :
    (p.stage4Execute reg).2.SameLadders (q.stage4Execute reg).2 := by
  obtain ⟨hb, hs, hm⟩ := h
  rw [FpgaPipeline.stage4Execute, FpgaPipeline.stage4Execute]
  dsimp only [executeMatch, executeRest]
  rw [hb, hs]
  repeat' split
  all_goals exact ⟨by simp only [hb], by simp only [hs], by simp only [hm]⟩

def own (p : FpgaPipeline) (side : Side) : SlotLadder := if side = .buy then p.buy else p.sell

def opposite (p : FpgaPipeline) (side : Side) : SlotLadder := if side = .buy then p.sell else p.buy

/-- The slot of the best price a side trades against. -/
def offered (p : FpgaPipeline) (side : Side) : Option Slot :=
  if side = .buy then SlotLadder.bottomSlot p.sell.bits else SlotLadder.topSlot p.buy.bits

def setOwn (p : FpgaPipeline) (side : Side) (s : SlotLadder) : FpgaPipeline :=
  if side = .buy then { p with buy := s } else { p with sell := s }

def setOpposite (p : FpgaPipeline) (side : Side) (s : SlotLadder) : FpgaPipeline :=
  if side = .buy then { p with sell := s } else { p with buy := s }

/-- The result of an order that meets the head of a level. -/
def hit (order : Order) (level : PriceLevel) : MatchResult :=
  let quantity := min order.quantity level.headQuantity
  if order.side = .buy then ⟨order.orderRef, level.headRef, level.price, quantity, true⟩
  else ⟨level.headRef, order.orderRef, level.price, quantity, true⟩

@[simp] theorem hit_matched (order : Order) (level : PriceLevel) :
    (hit order level).matched = true := by
  rw [hit]
  split
  · rfl
  · rfl

/-- The level an order trades against, if it does. -/
def crossed? (p : FpgaPipeline) (order : Order) : Option PriceLevel :=
  ((p.offered order.side).map fun slot => (p.opposite order.side).levels.get slot).filter
    fun level => ¬ level.isEmpty ∧ Exchange.Acceptable order level.price

theorem stage3Match_eq (p : FpgaPipeline) (reg : PipelineRegister) :
    p.stage3Match reg = { reg with
      stage := 3
      result := if reg.valid then ((p.crossed? reg.order).map (hit reg.order)).getD reg.result
        else reg.result } := by
  rw [stage3Match, crossed?, offered, opposite, bestAsk, bestBid]
  by_cases hv : reg.valid = true
  · dsimp only
    rw [if_pos hv, if_pos hv]
    by_cases hs : reg.order.side = .buy
    · rw [if_pos hs, if_pos hs, if_pos hs]
      cases SlotLadder.bottomSlot p.sell.bits with
      | none => rfl
      | some slot =>
        simp only [Option.map_some, Option.filter_some, Exchange.acceptable_buy hs,
          decide_eq_true_eq]
        split
        · rw [Option.map_some, Option.getD_some, hit, if_pos hs]
        · rfl
    · rw [if_neg hs, if_neg hs, if_neg hs]
      cases SlotLadder.topSlot p.buy.bits with
      | none => rfl
      | some slot =>
        simp only [Option.map_some, Option.filter_some, Exchange.acceptable_sell hs,
          decide_eq_true_eq]
        split
        · rw [Option.map_some, Option.getD_some, hit, if_neg hs]
        · rfl
  · dsimp only
    rw [if_neg hv, if_neg hv]

theorem stage3Match_same (p : FpgaPipeline) (reg : PipelineRegister) :
    (p.stage3Match reg).order = reg.order ∧ (p.stage3Match reg).valid = reg.valid ∧
      (p.stage3Match reg).levelIndex = reg.levelIndex := by
  rw [stage3Match_eq]
  exact ⟨rfl, rfl, rfl⟩

theorem crossed?_eq_some_iff {p : FpgaPipeline} {order : Order} :
    p.crossed? order = some level ↔ ∃ slot, p.offered order.side = some slot ∧
      (p.opposite order.side).levels.get slot = level ∧ ¬ level.isEmpty = true ∧
      Exchange.Acceptable order level.price := by
  rw [crossed?, Option.filter_eq_some_iff, Option.map_eq_some_iff, decide_eq_true_iff]
  exact ⟨fun ⟨⟨slot, hs, hl⟩, he⟩ => ⟨slot, hs, hl, he⟩,
    fun ⟨slot, hs, hl, he⟩ => ⟨⟨slot, hs, hl⟩, he⟩⟩

theorem executeMatch_eq (p : FpgaPipeline) (reg : PipelineRegister)
    (h : p.offered reg.order.side = some slot) :
    p.executeMatch reg = { p.setOpposite reg.order.side
      ((p.opposite reg.order.side).fill slot reg.result.quantity) with
      matchesMade := p.matchesMade + 1 } := by
  rw [offered] at h
  rw [executeMatch, setOpposite, opposite]
  by_cases hs : reg.order.side = .buy
  · rw [if_pos hs] at h
    rw [if_pos hs, if_pos hs, if_pos hs, h]
  · rw [if_neg hs] at h
    rw [if_neg hs, if_neg hs, if_neg hs, h]

/-- A match is counted, and leaves the ladder of its own side alone. -/
theorem executeMatch_same (p : FpgaPipeline) (reg : PipelineRegister) :
    (p.executeMatch reg).matchesMade = p.matchesMade + 1 ∧
      (p.executeMatch reg).own reg.order.side = p.own reg.order.side := by
  rw [executeMatch, own, own]
  dsimp only
  by_cases hs : reg.order.side = .buy
  · simp only [if_pos hs]
    split
    · exact ⟨rfl, rfl⟩
    · exact ⟨rfl, rfl⟩
  · simp only [if_neg hs]
    split
    · exact ⟨rfl, rfl⟩
    · exact ⟨rfl, rfl⟩

def bookSide (side : Side) : Side := if side = .buy then .buy else .sell

theorem executeRest_eq (p : FpgaPipeline) (reg : PipelineRegister) :
    p.executeRest reg = p.setOwn reg.order.side
      ((p.own reg.order.side).rest reg.levelIndex reg.order (bookSide reg.order.side)) := by
  rw [executeRest, setOwn, own, bookSide]
  by_cases hs : reg.order.side = .buy
  · rw [if_pos hs, if_pos hs, if_pos hs, if_pos hs]
  · rw [if_neg hs, if_neg hs, if_neg hs, if_neg hs]

theorem stage4Execute_snd (p : FpgaPipeline) (reg : PipelineRegister) :
    (p.stage4Execute reg).2 =
      if reg.valid then if reg.result.matched then p.executeMatch reg else p.executeRest reg
      else p := by
  rw [stage4Execute]
  dsimp only
  split
  · rfl
  · rfl

@[simp] theorem opposite_setOpposite (p : FpgaPipeline) (side : Side) (s : SlotLadder) :
    (p.setOpposite side s).opposite side = s := by
  rw [setOpposite, opposite]
  split
  · rfl
  · rfl

@[simp] theorem own_setOpposite (p : FpgaPipeline) (side : Side) (s : SlotLadder) :
    (p.setOpposite side s).own side = p.own side := by
  rw [setOpposite, own, own]
  split
  · rfl
  · rfl

@[simp] theorem own_setOwn (p : FpgaPipeline) (side : Side) (s : SlotLadder) :
    (p.setOwn side s).own side = s := by
  rw [setOwn, own]
  split
  · rfl
  · rfl

@[simp] theorem opposite_setOwn (p : FpgaPipeline) (side : Side) (s : SlotLadder) :
    (p.setOwn side s).opposite side = p.opposite side := by
  rw [setOwn, opposite, opposite]
  split
  · rfl
  · rfl

@[simp] theorem matchesMade_setOwn (p : FpgaPipeline) (side : Side) (s : SlotLadder) :
    (p.setOwn side s).matchesMade = p.matchesMade := by
  rw [setOwn]
  split
  · rfl
  · rfl

theorem SameLadders.own (h : p.SameLadders q) (side : Side) : q.own side = p.own side := by
  rw [FpgaPipeline.own, FpgaPipeline.own, h.buy, h.sell]

theorem SameLadders.opposite (h : p.SameLadders q) (side : Side) :
    q.opposite side = p.opposite side := by
  rw [FpgaPipeline.opposite, FpgaPipeline.opposite, h.buy, h.sell]

theorem SameLadders.offered (h : p.SameLadders q) (side : Side) :
    q.offered side = p.offered side := by
  rw [FpgaPipeline.offered, FpgaPipeline.offered, h.buy, h.sell]

theorem SameLadders.crossed? (h : p.SameLadders q) (order : Order) :
    q.crossed? order = p.crossed? order := by
  rw [FpgaPipeline.crossed?, FpgaPipeline.crossed?, h.offered, h.opposite]

theorem clock_eq (p : FpgaPipeline) (incoming : Order) :
    p.clock incoming = ((p.stages.get 4).result, p.clockBack.clockFront incoming) :=
  rfl

/-- What stages 4 and 3 do in a clock. -/
structure ClockedBack (p q : FpgaPipeline) : Prop where
  executed : q.stages.get 4 = (p.stage4Execute (p.stages.get 3)).1
  matched : q.stages.get 3 = q.stage3Match (p.stages.get 2)
  decoded : q.stages.get 1 = p.stages.get 1
  ladders : (p.stage4Execute (p.stages.get 3)).2.SameLadders q
  window : p.SameWindow q
  processed : q.ordersProcessed = p.ordersProcessed

theorem clockBack_spec (p : FpgaPipeline) : ClockedBack p p.clockBack := by
  rw [clockBack]
  have h₀ : p.SameLadders { p with cycles := p.cycles + 1 } := ⟨rfl, rfl, rfl⟩
  have hx := h₀.stage4Execute (p.stages.get 3)
  have hfst := stage4Execute_fst { p with cycles := p.cycles + 1 } (p.stages.get 3)
  obtain ⟨hs, hp, hw⟩ :=
    stage4Execute_same { p with cycles := p.cycles + 1 } (p.stages.get 3)
  generalize stage4Execute { p with cycles := p.cycles + 1 } (p.stages.get 3) = x at *
  obtain ⟨reg, q⟩ := x
  dsimp only at hs hp hfst ⊢
  rw [hs, hfst]
  refine ⟨?_, ?_, ?_, ⟨hx.buy, hx.sell, hx.made⟩, ⟨hw.basePrice, hw.baseSet, hw.misses⟩, hp⟩
  · rw [stage4Execute_fst]
    simp only [Vector.get_put, reduceIte, Fin.reduceEq]
  · simp only [Vector.get_put, reduceIte, Fin.reduceEq]
    exact SameLadders.stage3Match ⟨rfl, rfl, rfl⟩ _
  · simp only [Vector.get_put, reduceIte, Fin.reduceEq]

/-- What one clock does: each stage takes the register before it, on the ladders that stage 4 left
and the window that stage 2 left. -/
structure Clocked (p : FpgaPipeline) (incoming : Order) (q : FpgaPipeline) : Prop where
  executed : q.executed = (p.stage4Execute p.matched).1
  matched : q.matched = q.stage3Match p.routed
  routed : q.routed = (p.stage2Route p.decoded).1
  decoded : q.decoded = stage1Decode incoming
  ladders : (p.stage4Execute p.matched).2.SameLadders q
  window : (p.stage2Route p.decoded).2.SameWindow q
  processed : q.ordersProcessed = p.ordersProcessed + if incoming.valid ≠ 0 then 1 else 0

theorem ClockedBack.clockFront (h : ClockedBack p q) (incoming : Order) :
    Clocked p incoming (q.clockFront incoming) := by
  rw [FpgaPipeline.clockFront]
  obtain ⟨hreg, hw⟩ := h.window.stage2Route (p.stages.get 1)
  rw [h.decoded]
  obtain ⟨hs, hp, hl⟩ := q.stage2Route_same (p.stages.get 1)
  generalize q.stage2Route (p.stages.get 1) = y at *
  obtain ⟨reg, q'⟩ := y
  dsimp only at hs hp hreg ⊢
  rw [hs, hreg]
  refine ⟨?_, ?_, ?_, ?_, h.ladders.trans ⟨hl.buy, hl.sell, hl.made⟩,
    ⟨hw.basePrice, hw.baseSet, hw.misses⟩, ?_⟩
  · simp only [FpgaPipeline.executed, Vector.get_put, reduceIte, Fin.reduceEq]
    exact h.executed
  · simp only [FpgaPipeline.matched, Vector.get_put, reduceIte, Fin.reduceEq]
    exact h.matched.trans (SameLadders.stage3Match ⟨hl.buy.symm, hl.sell.symm, hl.made.symm⟩ _)
  · simp only [FpgaPipeline.routed, Vector.get_put, reduceIte, Fin.reduceEq]
    rfl
  · simp only [FpgaPipeline.decoded, Vector.get_put, reduceIte]
  · dsimp only
    rw [hp, h.processed]
    split
    · rfl
    · rfl

theorem clock_fst (p : FpgaPipeline) (incoming : Order) :
    (p.clock incoming).1 = p.executed.result :=
  rfl

theorem new_zeroed : new (Vector.replicate (64 * 32) default) (Vector.replicate (64 * 32) default) =
    zeroed := by
  rw [new, Vector.map_replicate]
  rfl

theorem clock_clocked (p : FpgaPipeline) (incoming : Order) :
    Clocked p incoming (p.clock incoming).2 := by
  rw [clock_eq]
  exact p.clockBack_spec.clockFront incoming

end FpgaPipeline

end Tickpipe
