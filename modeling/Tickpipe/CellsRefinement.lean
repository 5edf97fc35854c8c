import Tickpipe.OrderAccounting
import Tickpipe.PipelineCells

set_option autoImplicit true

/-! The pipeline whose counts and slots are in range by their types, and the one in memory. -/

namespace Tickpipe

open Traced (Gives)

/-- In range, and not empty where stage 3 looks. -/
def Access.Sound : Access → Prop
  | .level slot => 0 ≤ slot ∧ slot < 2048
  | .queue i => 0 ≤ i ∧ i < 16
  | .word w => 0 ≤ w ∧ w < 32
  | .examined count => 0 < count

theorem Access.sound_level (slot : Slot) : (Access.level slot.val).Sound :=
  ⟨Int.natCast_nonneg _, Int.ofNat_lt.2 slot.isLt⟩

theorem Access.sound_queue (h : i < 16) : (Access.queue (i : Nat)).Sound :=
  ⟨Int.natCast_nonneg _, Int.ofNat_lt.2 h⟩

theorem Access.sound_word (w : Fin 32) : (Access.word w.val).Sound :=
  ⟨Int.natCast_nonneg _, Int.ofNat_lt.2 w.isLt⟩

namespace LevelCells

theorem moveForward_gives (l : LevelCells) (hlt : i < 16) (hi : i + 1 < 16) :
    Gives Access.Sound (l.moveForward i) { l with
      orderRefs := l.orderRefs.set i l.orderRefs[i + 1] hlt
      quantities := l.quantities.set i l.quantities[i + 1] hlt } := by
  apply (Gives.load hi (Access.sound_queue hi)).bind
  apply (Gives.store hlt (Access.sound_queue hlt) _).bind
  apply (Gives.load hi (Access.sound_queue hi)).bind
  apply (Gives.store hlt (Access.sound_queue hlt) _).bind
  exact .pure _

theorem shiftForward_gives (l : LevelCells) (n : Nat) (hn : n < 16) :
    Gives Access.Sound (l.shiftForward n) { l with
      orderRefs := PriceLevel.shiftForward l.orderRefs n hn
      quantities := PriceLevel.shiftForward l.quantities n hn } := by
  induction n with
  | zero => exact .pure _
  | succ n ih =>
    rw [PriceLevel.shiftForward_succ, PriceLevel.shiftForward_succ]
    have hlt := Nat.lt_of_succ_lt hn
    exact (ih hlt).bind (moveForward_gives _ hlt hn)

end LevelCells

namespace PriceLevel

def cells (l : PriceLevel) : LevelCells where
  orderRefs := l.orderRefs
  quantities := l.quantities
  price := l.price
  count := l.count.val
  side := l.side

theorem cells_count (l : PriceLevel) : l.cells.count = l.count.val := rfl

theorem cells_setHead (l : PriceLevel) (left : UInt32) (h : 0 < 16) :
    (l.setHead left).cells = { l.cells with quantities := l.cells.quantities.set 0 left h } := rfl

theorem cells_isEmpty (l : PriceLevel) : l.cells.isEmpty = l.isEmpty := by
  rw [LevelCells.isEmpty, isEmpty, decide_eq_decide]
  exact Int.natCast_eq_zero.trans (Fin.val_eq_zero_iff)

theorem cells_isFull (l : PriceLevel) : l.cells.isFull = true ↔ ¬ l.count.val < 16 := by
  rw [LevelCells.isFull, decide_eq_true_eq, cells_count]
  omega

theorem count_pos (l : PriceLevel) (h : l.queue ≠ []) : 0 < l.count.val := by
  rw [← length_queue]
  exact List.length_pos_iff.2 h

theorem sound_examined (l : PriceLevel) (h : l.queue ≠ []) :
    (Access.examined l.cells.count).Sound :=
  Int.ofNat_lt.2 (l.count_pos h)

theorem popFront_gives (l : PriceLevel) (h : l.queue ≠ []) :
    Gives Access.Sound l.cells.popFront l.popFront.cells := by
  have hpos := l.count_pos h
  have hrounds : (l.cells.count - 1).toNat = l.count.val - 1 := by
    rw [cells_count]
    omega
  have hcount : (l.cells.count - 1 : Int) = (l.count.val - 1 : Nat) := by
    rw [cells_count]
    omega
  rw [LevelCells.popFront, hrounds]
  refine (l.cells.shiftForward_gives (l.count.val - 1) (by omega)).bind ?_
  dsimp only
  rw [hcount]
  exact .pure _

theorem pushBack_gives (l : PriceLevel) (h : l.count.val < 16) (order : Order) (side : Side) :
    Gives Access.Sound (l.cells.pushBack order side) (l.pushBack h order side).cells := by
  apply (Gives.store h (Access.sound_queue h) _).bind
  apply (Gives.store h (Access.sound_queue h) _).bind
  exact .pure _

end PriceLevel

namespace LadderCells

/-- The word and the mask of a slot are those of the bitmap. -/
theorem word_eq (slot : Slot) : (slot.val : Int) >>> (6 : Nat) = (Bitmap.word slot).val := rfl

theorem maskOf_eq (slot : Slot) : maskOf slot.val = Bitmap.single (Bitmap.place slot) := by
  have hplace : (Bitmap.place slot).val = slot.val % 64 :=
    Nat.and_two_pow_sub_one_eq_mod slot.val 6
  have hmod : ((slot.val : Int) % 64).toNat = slot.val % 64 := by omega
  rw [maskOf, Bitmap.single, hmod, hplace]

theorem setBit_gives (bits : Bitmap 32) (slot : Slot) :
    Gives Access.Sound (setBit bits slot.val) (SlotLadder.setBit bits slot) := by
  have hw := Access.sound_word (Bitmap.word slot)
  rw [setBit, word_eq, maskOf_eq]
  apply (Gives.load (Bitmap.word slot).isLt hw).bind
  exact Gives.store (Bitmap.word slot).isLt hw _

theorem clearBit_gives (bits : Bitmap 32) (slot : Slot) :
    Gives Access.Sound (clearBit bits slot.val) (SlotLadder.clearBit bits slot) := by
  have hw := Access.sound_word (Bitmap.word slot)
  rw [clearBit, word_eq, maskOf_eq]
  apply (Gives.load (Bitmap.word slot).isLt hw).bind
  exact Gives.store (Bitmap.word slot).isLt hw _

/-- A slot as an `int`, -1 for none. -/
def indexOf (slot? : Option Slot) : Int := (slot?.map fun slot => (slot.val : Int)).getD (-1)

theorem indexOf_some (slot : Slot) : indexOf (some slot) = slot.val := rfl

theorem indexOf_some_nonneg (slot : Slot) : ¬ indexOf (some slot) < 0 :=
  Int.not_lt.2 (Int.natCast_nonneg slot.val)

theorem topSlot_eq (bits : Bitmap 32) : topSlot bits = indexOf (SlotLadder.topSlot bits) := by
  rw [topSlot, indexOf, SlotLadder.topSlot, Bitmap.top, List.map_findSome?]
  congr 2
  funext w
  rw [Function.comp_apply, Bitmap.topOf]
  by_cases h : bits[w] ≠ 0
  · have hlt := Bitmap.clz_lt h
    have hval : (w.val <<< 6 : Nat) + (63 - Bitmap.clz bits[w] : Int) =
        (w.val <<< 6 + (63 - Bitmap.clz bits[w]) : Nat) := by omega
    rw [if_pos h, if_pos h, hval]
    rfl
  · rw [if_neg h, if_neg h]
    rfl

theorem bottomSlot_eq (bits : Bitmap 32) :
    bottomSlot bits = indexOf (SlotLadder.bottomSlot bits) := by
  rw [bottomSlot, indexOf, SlotLadder.bottomSlot, Bitmap.bottom, List.map_findSome?]
  congr 2
  funext w
  rw [Function.comp_apply, Bitmap.bottomOf]
  by_cases h : bits[w] ≠ 0
  · rw [if_pos h, dif_pos h]
    rfl
  · rw [if_neg h, dif_neg h]
    rfl

end LadderCells

namespace SlotLadder

def cells (s : SlotLadder) : LadderCells where
  levels := s.levels.map PriceLevel.cells
  bits := s.bits

variable (s : SlotLadder) (slot : Slot)

theorem load_gives : Gives Access.Sound (Traced.load .level s.cells.levels slot.val)
    (s.levels.get slot).cells := by
  have h : Gives Access.Sound (Traced.load .level s.cells.levels slot.val) _ :=
    Gives.load slot.isLt (Access.sound_level slot)
  rwa [cells, Vector.getElem_map] at h

theorem store_gives (l : PriceLevel) :
    Gives Access.Sound (Traced.store .level s.cells.levels slot.val l.cells)
      ((s.levels.put slot l).map PriceLevel.cells) := by
  rw [Vector.put, Vector.map_set]
  exact Gives.store slot.isLt (Access.sound_level slot) l.cells

theorem levelAt_gives (slot? : Option Slot) :
    Gives Access.Sound (s.cells.levelAt (LadderCells.indexOf slot?))
      (slot?.map fun slot => (s.levels.get slot).cells) := by
  cases slot? with
  | none => exact .pure _
  | some slot =>
    rw [LadderCells.levelAt, if_neg (LadderCells.indexOf_some_nonneg slot)]
    exact (s.load_gives slot).bind (.pure _)

theorem popHead_gives {l : PriceLevel} (h : l.queue ≠ []) :
    Gives Access.Sound (s.cells.popHead slot.val l.cells)
      (SlotLadder.mk (s.levels.put slot l.popFront)
        (if l.popFront.count = 0 then clearBit s.bits slot else s.bits)).cells := by
  apply (l.popFront_gives h).bind
  apply (s.store_gives slot l.popFront).bind
  have hcount : l.popFront.cells.count = 0 ↔ l.popFront.count = 0 :=
    Int.natCast_eq_zero.trans Fin.val_eq_zero_iff
  by_cases hz : l.popFront.count = 0
  · rw [if_pos (hcount.2 hz), if_pos hz]
    exact (LadderCells.clearBit_gives s.bits slot).bind (.pure _)
  · rw [if_neg (mt hcount.1 hz), if_neg hz]
    exact (Gives.pure s.bits).bind (.pure _)

theorem fill_gives (quantity : UInt32) :
    Gives Access.Sound (s.cells.fill slot.val quantity) (s.fill slot quantity).cells := by
  rw [LadderCells.fill, fill]
  refine (s.load_gives slot).bind ?_
  rw [PriceLevel.cells_isEmpty]
  by_cases he : (s.levels.get slot).isEmpty = true
  · rw [if_pos he, if_pos he]
    exact .pure _
  · have hne := mt (PriceLevel.isEmpty_iff _).2 he
    have hset : ((s.levels.get slot).setHead
        ((s.levels.get slot).headQuantity - quantity)).queue ≠ [] := by
      rw [(PriceLevel.queue_head _ hne _).2]
      exact List.cons_ne_nil _ _
    rw [if_neg he, if_neg he]
    apply (Gives.load (by decide) (Access.sound_queue (by decide))).bind
    apply (Gives.store (by decide) (Access.sound_queue (by decide)) _).bind
    dsimp only
    have hhead : (s.levels.get slot).cells.quantities[0] = (s.levels.get slot).headQuantity := rfl
    rw [hhead, ← PriceLevel.cells_setHead]
    by_cases hleft : (s.levels.get slot).headQuantity - quantity = 0
    · rw [if_pos hleft, if_pos hleft]
      exact s.popHead_gives slot hset
    · rw [if_neg hleft, if_neg hleft]
      exact (s.store_gives slot _).bind (.pure _)

theorem rest_gives (order : Order) (side : Side) :
    Gives Access.Sound (s.cells.rest slot.val order side) (s.rest slot order side).cells := by
  rw [LadderCells.rest, rest]
  refine (s.load_gives slot).bind ?_
  by_cases h : (s.levels.get slot).count.val < 16
  · rw [if_pos (mt (PriceLevel.cells_isFull _).1 (not_not_intro h)), dif_pos h]
    apply (PriceLevel.pushBack_gives _ h order side).bind
    apply (s.store_gives slot _).bind
    exact (LadderCells.setBit_gives s.bits slot).bind (.pure _)
  · rw [if_neg (not_not_intro ((PriceLevel.cells_isFull _).2 h)), dif_neg h]
    exact .pure _

end SlotLadder

def PipelineRegister.cells (reg : PipelineRegister) : RegisterCells where
  order := reg.order
  levelIndex := UInt32.ofNat reg.levelIndex.val
  result := reg.result
  valid := reg.valid
  stage := reg.stage

theorem toInt_levelIndex (slot : Slot) : (UInt32.ofNat slot.val).toInt32.toInt = slot.val := by
  rw [UInt32.toInt32_ofNat']
  exact Int32.toInt_ofNat_of_lt (by omega)

theorem ofInt_slot (slot : Slot) : UInt32.ofInt slot.val = UInt32.ofNat slot.val := by
  have hmod : ((slot.val : Int) % 2 ^ 32).toNat = slot.val := by omega
  rw [UInt32.ofInt, hmod]

namespace FpgaPipeline

def cells (p : FpgaPipeline) : PipelineCells where
  stages := p.stages.map PipelineRegister.cells
  buy := p.buy.cells
  sell := p.sell.cells
  basePrice := p.basePrice
  baseSet := p.baseSet
  cycles := p.cycles
  ordersProcessed := p.ordersProcessed
  matchesMade := p.matchesMade
  windowMisses := p.windowMisses

variable {p : FpgaPipeline}

theorem cells_setBase (p : FpgaPipeline) (price : UInt32) :
    p.cells.setBase price = (p.setBase price).cells := by
  rw [PipelineCells.setBase, setBase]
  by_cases h : p.baseSet = true
  · rw [if_pos h, if_pos (show p.cells.baseSet = true from h)]
  · rw [if_neg h, if_neg (show ¬ p.cells.baseSet = true from h)]
    rfl

theorem cells_slotOf (p : FpgaPipeline) (price : UInt32) :
    p.cells.slotOf price = (LadderCells.indexOf (p.slotOf price).1, (p.slotOf price).2.cells) := by
  rw [PipelineCells.slotOf, slotOf, cells_setBase]
  generalize p.setBase price = q
  have hbase : q.cells.basePrice = q.basePrice := rfl
  dsimp only
  rw [hbase]
  split
  · rfl
  · dsimp only
    have hlt : (price - q.basePrice) / tick < 2048 ↔
        ((price - q.basePrice) / tick).toNat < 64 * 32 := UInt32.lt_iff_toNat_lt
    by_cases h : ((price - q.basePrice) / tick).toNat < 64 * 32
    · rw [if_pos (hlt.2 h), dif_pos h]
      rfl
    · rw [if_neg (mt hlt.1 h), dif_neg h]
      rfl

theorem cells_stage2Route (p : FpgaPipeline) (reg : PipelineRegister) :
    p.cells.stage2Route reg.cells =
      ((p.stage2Route reg).1.cells, (p.stage2Route reg).2.cells) := by
  rw [PipelineCells.stage2Route, stage2Route]
  have hvalid : reg.cells.valid = reg.valid := rfl
  have horder : reg.cells.order = reg.order := rfl
  dsimp only
  rw [hvalid, horder, cells_slotOf]
  by_cases hv : reg.valid = true
  · rw [if_pos hv, if_pos hv]
    cases p.slotOf reg.order.price with
    | mk slot? q =>
      cases slot? with
      | none => rfl
      | some slot =>
        refine (if_neg (LadderCells.indexOf_some_nonneg slot)).trans ?_
        dsimp only
        rw [LadderCells.indexOf_some, ofInt_slot]
        rfl
  · rw [if_neg hv, if_neg hv]
    rfl

theorem cells_bestAsk_gives (p : FpgaPipeline) :
    Gives Access.Sound p.cells.bestAsk (p.bestAsk.map PriceLevel.cells) := by
  rw [PipelineCells.bestAsk, bestAsk, Option.map_map]
  have h := p.sell.levelAt_gives (SlotLadder.bottomSlot p.sell.bits)
  rw [← LadderCells.bottomSlot_eq] at h
  exact h

theorem cells_bestBid_gives (p : FpgaPipeline) :
    Gives Access.Sound p.cells.bestBid (p.bestBid.map PriceLevel.cells) := by
  rw [PipelineCells.bestBid, bestBid, Option.map_map]
  have h := p.buy.levelAt_gives (SlotLadder.topSlot p.buy.bits)
  rw [← LadderCells.topSlot_eq] at h
  exact h

/-- The bits of both sides mark the levels that hold an order. -/
structure Marked (p : FpgaPipeline) : Prop where
  buy : p.buy.Marked
  sell : p.sell.Marked

namespace Marked

theorem bestAsk_queue (h : p.Marked) (hask : p.bestAsk = some ask) : ask.queue ≠ [] := by
  obtain ⟨slot, hslot, rfl⟩ := Option.map_eq_some_iff.1 hask
  exact (h.sell slot).1 (Bitmap.bottom_eq_some hslot).1

theorem bestBid_queue (h : p.Marked) (hbid : p.bestBid = some bid) : bid.queue ≠ [] := by
  obtain ⟨slot, hslot, rfl⟩ := Option.map_eq_some_iff.1 hbid
  exact (h.buy slot).1 (Bitmap.top_eq_some hslot).1

end Marked

/-- What stage 3 does with the level it looks into. -/
theorem examine_gives {level : PriceLevel} (h : level.queue ≠ []) (crosses : Prop)
    [Decidable crosses] (reg : PipelineRegister) (result : UInt64 → UInt32 → MatchResult) :
    Gives Access.Sound
      (do
        tell [.examined level.cells.count]
        if ¬ level.cells.isEmpty ∧ crosses then do
          let ref ← Traced.load .queue level.cells.orderRefs 0
          let quantity ← Traced.load .queue level.cells.quantities 0
          pure { reg.cells with result := result ref quantity }
        else pure reg.cells)
      (if ¬ level.isEmpty ∧ crosses then
        { reg with result := result level.headRef level.headQuantity } else reg).cells := by
  refine (Gives.tell (level.sound_examined h)).bind ?_
  rw [PriceLevel.cells_isEmpty]
  split
  · apply (Gives.load (by decide) (Access.sound_queue (by decide))).bind
    apply (Gives.load (by decide) (Access.sound_queue (by decide))).bind
    exact .pure _
  · exact .pure _

/-- Stage 3 does in memory what it does here, and looks into no empty level. -/
theorem stage3Match_gives (h : p.Marked) (reg : PipelineRegister) :
    Gives Access.Sound (p.cells.stage3Match reg.cells) (p.stage3Match reg).cells := by
  rw [PipelineCells.stage3Match, stage3Match]
  have hvalid : reg.cells.valid = reg.valid := rfl
  have horder : reg.cells.order = reg.order := rfl
  dsimp only
  rw [hvalid, horder]
  by_cases hv : reg.valid = true
  · rw [if_pos hv, if_pos hv]
    by_cases hs : reg.order.side = .buy
    · rw [if_pos hs, if_pos hs]
      refine p.cells_bestAsk_gives.bind ?_
      cases hask : p.bestAsk with
      | none => exact .pure _
      | some ask =>
        exact examine_gives (h.bestAsk_queue hask) (ask.price ≤ reg.order.price)
          { reg with stage := 3 } fun ref quantity =>
            ⟨reg.order.orderRef, ref, ask.price, min reg.order.quantity quantity, true⟩
    · rw [if_neg hs, if_neg hs]
      refine p.cells_bestBid_gives.bind ?_
      cases hbid : p.bestBid with
      | none => exact .pure _
      | some bid =>
        exact examine_gives (h.bestBid_queue hbid) (bid.price ≥ reg.order.price)
          { reg with stage := 3 } fun ref quantity =>
            ⟨ref, reg.order.orderRef, bid.price, min reg.order.quantity quantity, true⟩
  · rw [if_neg hv, if_neg hv]
    exact .pure _

theorem fillBest_gives (p : FpgaPipeline) (s : SlotLadder) (slot? : Option Slot) (quantity : UInt32)
    {put : LadderCells → PipelineCells} (put' : SlotLadder → FpgaPipeline)
    (hput : ∀ s, put s.cells = (put' s).cells) :
    Gives Access.Sound
      (if LadderCells.indexOf slot? ≥ 0 then do
        let s ← s.cells.fill (LadderCells.indexOf slot?) quantity
        pure (put s)
      else pure p.cells)
      (match slot? with
        | some slot => put' (s.fill slot quantity)
        | none => p).cells := by
  cases slot? with
  | none => exact .pure _
  | some slot =>
    rw [if_pos (Int.not_lt.1 (LadderCells.indexOf_some_nonneg slot)), LadderCells.indexOf_some]
    apply (s.fill_gives slot quantity).bind
    rw [hput]
    exact .pure _

theorem executeMatch_gives (p : FpgaPipeline) (reg : PipelineRegister) :
    Gives Access.Sound (p.cells.executeMatch reg.cells) (p.executeMatch reg).cells := by
  rw [PipelineCells.executeMatch, executeMatch]
  have hside : reg.cells.order.side = reg.order.side := rfl
  have hquantity : reg.cells.result.quantity = reg.result.quantity := rfl
  have hask : LadderCells.bottomSlot p.cells.sell.bits = _ :=
    LadderCells.bottomSlot_eq p.sell.bits
  have hbid : LadderCells.topSlot p.cells.buy.bits = _ := LadderCells.topSlot_eq p.buy.bits
  dsimp only
  rw [hside, hquantity, hask, hbid]
  by_cases hs : reg.order.side = .buy
  · rw [if_pos hs, if_pos hs]
    apply (p.fillBest_gives p.sell _ reg.result.quantity (fun s => { p with sell := s })
      fun _ => rfl).bind
    exact .pure _
  · rw [if_neg hs, if_neg hs]
    apply (p.fillBest_gives p.buy _ reg.result.quantity (fun s => { p with buy := s })
      fun _ => rfl).bind
    exact .pure _

theorem executeRest_gives (p : FpgaPipeline) (reg : PipelineRegister) :
    Gives Access.Sound (p.cells.executeRest reg.cells) (p.executeRest reg).cells := by
  rw [PipelineCells.executeRest, executeRest]
  have hside : reg.cells.order.side = reg.order.side := rfl
  have hslot : reg.cells.levelIndex.toInt32.toInt = reg.levelIndex.val :=
    toInt_levelIndex reg.levelIndex
  rw [hside, hslot]
  by_cases hs : reg.order.side = .buy
  · rw [if_pos hs, if_pos hs]
    apply (p.buy.rest_gives reg.levelIndex reg.order .buy).bind
    exact .pure _
  · rw [if_neg hs, if_neg hs]
    apply (p.sell.rest_gives reg.levelIndex reg.order .sell).bind
    exact .pure _

theorem stage4Execute_gives (p : FpgaPipeline) (reg : PipelineRegister) :
    Gives Access.Sound (p.cells.stage4Execute reg.cells)
      ((p.stage4Execute reg).1.cells, (p.stage4Execute reg).2.cells) := by
  rw [PipelineCells.stage4Execute, stage4Execute]
  have hvalid : reg.cells.valid = reg.valid := rfl
  have hmatched : reg.cells.result.matched = reg.result.matched := rfl
  dsimp only
  rw [hvalid, hmatched]
  by_cases hv : reg.valid = true
  · rw [if_pos hv, if_pos hv]
    by_cases hm : reg.result.matched = true
    · rw [if_pos hm, if_pos hm]
      apply (p.executeMatch_gives { reg with stage := 4 }).bind
      exact .pure _
    · rw [if_neg hm, if_neg hm]
      apply (p.executeRest_gives { reg with stage := 4 }).bind
      exact .pure _
  · rw [if_neg hv, if_neg hv]
    exact .pure _

namespace Marked

variable {q : FpgaPipeline}

theorem keep (h : p.Marked) (hq : p.SameLadders q) : q.Marked :=
  ⟨hq.buy ▸ h.buy, hq.sell ▸ h.sell⟩

theorem executeMatch (h : p.Marked) (reg : PipelineRegister) : (p.executeMatch reg).Marked := by
  rw [FpgaPipeline.executeMatch]
  split
  · split
    · next slot _ => exact ⟨h.buy, h.sell.fill slot _⟩
    · exact ⟨h.buy, h.sell⟩
  · split
    · next slot _ => exact ⟨h.buy.fill slot _, h.sell⟩
    · exact ⟨h.buy, h.sell⟩

theorem executeRest (h : p.Marked) (reg : PipelineRegister) : (p.executeRest reg).Marked := by
  rw [FpgaPipeline.executeRest]
  split
  · exact ⟨h.buy.rest _ _ _, h.sell⟩
  · exact ⟨h.buy, h.sell.rest _ _ _⟩

theorem stage4Execute (h : p.Marked) (reg : PipelineRegister) :
    (p.stage4Execute reg).2.Marked := by
  rw [stage4Execute_snd]
  split
  · split
    · exact h.executeMatch reg
    · exact h.executeRest reg
  · exact h

theorem clock (h : p.Marked) (incoming : Order) : (p.clock incoming).2.Marked :=
  (h.stage4Execute p.matched).keep (p.clock_clocked incoming).ladders

end Marked

theorem cells_stage (p : FpgaPipeline) (i : Fin 5) :
    p.cells.stage i.val = (p.stages.get i).cells := by
  rw [PipelineCells.stage, Traced.cell_natCast _ i.isLt]
  exact Vector.getElem_map PipelineRegister.cells i.isLt

theorem cells_setStage (p : FpgaPipeline) (i : Fin 5) (reg : PipelineRegister) :
    p.cells.setStage i.val reg.cells =
      FpgaPipeline.cells { p with stages := p.stages.put i reg } := by
  rw [PipelineCells.setStage, Traced.setCell_natCast _ i.isLt, cells, cells, Vector.put,
    Vector.map_set]

theorem cells_decoded (p : FpgaPipeline) : p.cells.stage 1 = p.decoded.cells := p.cells_stage 1

theorem cells_routed (p : FpgaPipeline) : p.cells.stage 2 = p.routed.cells := p.cells_stage 2

theorem cells_matched (p : FpgaPipeline) : p.cells.stage 3 = p.matched.cells := p.cells_stage 3

theorem cells_executed (p : FpgaPipeline) : p.cells.stage 4 = p.executed.cells := p.cells_stage 4

theorem cells_clockFront (p : FpgaPipeline) (incoming : Order) :
    p.cells.clockFront incoming = (p.clockFront incoming).cells := by
  have hdecode : PipelineCells.stage1Decode incoming = (stage1Decode incoming).cells := rfl
  rw [PipelineCells.clockFront, clockFront, cells_decoded, cells_stage2Route, decoded]
  generalize p.stage2Route (p.stages.get 1) = x
  obtain ⟨reg, q⟩ := x
  have hroute := q.cells_setStage 2 reg
  have hput := cells_setStage { q with stages := q.stages.put 2 reg } 1 (stage1Decode incoming)
  exact congrArg (fun s : PipelineCells => { s with
    ordersProcessed := if incoming.valid ≠ 0 then s.ordersProcessed + 1 else s.ordersProcessed })
    ((congrArg (PipelineCells.setStage · 1 _) hroute).trans hput)

theorem clock_gives (h : p.Marked) (incoming : Order) :
    Gives Access.Sound (p.cells.clock incoming)
      ((p.clock incoming).1, (p.clock incoming).2.cells) := by
  have houtput : (p.cells.stage 4).result = (p.stages.get 4).result :=
    congrArg RegisterCells.result p.cells_executed
  have h₄ := stage4Execute_gives { p with cycles := p.cycles + 1 } (p.stages.get 3)
  have hcycle : Marked { p with cycles := p.cycles + 1 } := ⟨h.buy, h.sell⟩
  have hmarked := hcycle.stage4Execute (p.stages.get 3)
  rw [← matched, ← cells_matched, matched] at h₄
  rw [clock_eq, clockBack, PipelineCells.clock]
  generalize stage4Execute { p with cycles := p.cycles + 1 } (p.stages.get 3) = x at *
  obtain ⟨reg, q⟩ := x
  apply h₄.bind
  dsimp only
  -- stage 3 meets the ladders that stage 4 left
  have hlatched : Marked { q with stages := q.stages.put 4 reg } := ⟨hmarked.buy, hmarked.sell⟩
  have hput₄ : q.cells.setStage 4 reg.cells = _ := q.cells_setStage 4 reg
  rw [hput₄, cells_routed]
  apply (stage3Match_gives hlatched _).bind
  have hput₃ := cells_setStage { q with stages := q.stages.put 4 reg } 3
  refine ⟨Prod.ext houtput ?_, List.forall_mem_nil _⟩
  exact (congrArg (PipelineCells.clockFront · incoming) (hput₃ _)).trans (cells_clockFront _ _)

structure Inv (p : FpgaPipeline) : Prop extends Marked p, AllPlaced p

theorem Inv.clock (h : p.Inv) (incoming : Order) : (p.clock incoming).2.Inv :=
  ⟨h.toMarked.clock incoming, h.toAllPlaced.clock incoming⟩

/-- Clocks with empty orders do in memory what they do here, and so does every run of calls. -/
theorem drain_gives (h : p.Inv) (n : Nat) :
    Gives Access.Sound (p.cells.drain n)
      ((Nat.fold n (fun _ _ s => s.2.clock {}) ({}, p)).1,
        (Nat.fold n (fun _ _ s => s.2.clock {}) ({}, p)).2.cells) ∧
      (Nat.fold n (fun _ _ s => s.2.clock {}) (({} : MatchResult), p)).2.Inv := by
  induction n with
  | zero => exact ⟨.pure _, h⟩
  | succ n ih =>
    obtain ⟨hgives, hinv⟩ := ih
    rw [Nat.fold_succ]
    exact ⟨hgives.bind (clock_gives hinv.toMarked {}), hinv.clock {}⟩

theorem flush_gives (h : p.Inv) :
    Gives Access.Sound p.cells.flush (p.flush.1, p.flush.2.cells) ∧ p.flush.2.Inv := by
  rw [PipelineCells.flush, flush]
  exact drain_gives h 5

theorem call_gives (h : p.Inv) (c : PipelineCall) :
    Gives Access.Sound (p.cells.call c) (p.call c).cells ∧ (p.call c).Inv := by
  cases c with
  | clock incoming =>
    refine ⟨?_, h.clock incoming⟩
    apply (clock_gives h.toMarked incoming).bind
    exact .pure _
  | flush =>
    obtain ⟨hgives, hinv⟩ := flush_gives h
    rw [PipelineCells.call, call]
    refine ⟨?_, hinv⟩
    apply hgives.bind
    exact .pure _

theorem callAll_gives (h : p.Inv) (calls : List PipelineCall) :
    Gives Access.Sound (p.cells.callAll calls) (p.callAll calls).cells ∧
      (p.callAll calls).Inv :=
  Gives.foldlM cells Inv (fun _ c h => call_gives h c) h calls

end FpgaPipeline

end Tickpipe
