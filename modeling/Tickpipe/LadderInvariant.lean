import Tickpipe.CellsRefinement
import Mathlib.Order.Bounds.Defs

set_option autoImplicit true

namespace Tickpipe

namespace LadderCells

def Occupied (s : LadderCells) (slot : Slot) : Prop := (s.levels.get slot).count > 0

/-- What one side of the ladder in memory always satisfies. -/
structure Sound (s : LadderCells) : Prop where
  counts : ∀ slot : Slot, 0 ≤ (s.levels.get slot).count ∧ (s.levels.get slot).count ≤ 16
  marks : ∀ slot : Slot, Bitmap.test s.bits slot = true ↔ s.Occupied slot
  top : ∀ slot : Slot, topSlot s.bits = slot.val ↔ IsGreatest {t | s.Occupied t} slot
  top_none : topSlot s.bits = -1 ↔ ∀ slot, ¬ s.Occupied slot
  bottom : ∀ slot : Slot, bottomSlot s.bits = slot.val ↔ IsLeast {t | s.Occupied t} slot
  bottom_none : bottomSlot s.bits = -1 ↔ ∀ slot, ¬ s.Occupied slot

theorem indexOf_eq_neg_one : indexOf slot? = -1 ↔ slot? = none := by
  cases slot? with
  | none => exact ⟨fun _ => rfl, fun _ => rfl⟩
  | some slot =>
    refine ⟨fun h => ?_, nofun⟩
    rw [indexOf_some] at h
    omega

theorem indexOf_eq_iff {slot : Slot} : indexOf slot? = slot.val ↔ slot? = some slot := by
  cases slot? with
  | none =>
    refine ⟨fun h => ?_, nofun⟩
    have hnone : indexOf none = -1 := rfl
    omega
  | some slot' => rw [indexOf_some, Int.natCast_inj, Fin.val_inj, Option.some_inj]

end LadderCells

namespace SlotLadder

variable {s : SlotLadder}

theorem cells_get (s : SlotLadder) (slot : Slot) :
    s.cells.levels.get slot = (s.levels.get slot).cells :=
  Vector.getElem_map PriceLevel.cells slot.isLt

theorem cells_occupied (s : SlotLadder) (slot : Slot) :
    s.cells.Occupied slot ↔ (s.levels.get slot).queue ≠ [] := by
  rw [LadderCells.Occupied, cells_get, PriceLevel.cells_count, ← List.length_pos_iff,
    PriceLevel.length_queue, gt_iff_lt, Int.natCast_pos]

theorem Marked.sound (h : s.Marked) : s.cells.Sound := by
  have htest (slot : Slot) : s.bits.test slot = true ↔ s.cells.Occupied slot :=
    (h slot).trans (s.cells_occupied slot).symm
  have hset : {t | s.bits.test t = true} = {t | s.cells.Occupied t} := Set.ext htest
  have hnone : (∀ slot, ¬ s.bits.test slot = true) ↔ ∀ slot, ¬ s.cells.Occupied slot :=
    forall_congr' fun slot => not_congr (htest slot)
  constructor
  case counts =>
    intro slot
    rw [s.cells_get, PriceLevel.cells_count]
    omega
  case marks => exact htest
  case top =>
    intro slot
    rw [← hset, ← Bitmap.top_eq_some_iff, ← LadderCells.indexOf_eq_iff]
    exact iff_of_eq (congrArg (· = _) (LadderCells.topSlot_eq s.bits))
  case top_none =>
    rw [← hnone, ← Bitmap.top_eq_none_iff, ← LadderCells.indexOf_eq_neg_one]
    exact iff_of_eq (congrArg (· = _) (LadderCells.topSlot_eq s.bits))
  case bottom =>
    intro slot
    rw [← hset, ← Bitmap.bottom_eq_some_iff, ← LadderCells.indexOf_eq_iff]
    exact iff_of_eq (congrArg (· = _) (LadderCells.bottomSlot_eq s.bits))
  case bottom_none =>
    rw [← hnone, ← Bitmap.bottom_eq_none_iff, ← LadderCells.indexOf_eq_neg_one]
    exact iff_of_eq (congrArg (· = _) (LadderCells.bottomSlot_eq s.bits))

end SlotLadder

namespace PipelineCells

/-- What the pipeline in memory satisfies between two clocks; the register in `stages_[3]` enters
stage 4 next. -/
structure Sound (p : PipelineCells) : Prop where
  buy : p.buy.Sound
  sell : p.sell.Sound
  routed : (p.stage 3).valid = true → p.baseSet = true ∧ (p.stage 3).levelIndex.toNat < 2048 ∧
    (p.slotOf (p.stage 3).order.price).1 = (p.stage 3).levelIndex.toNat

/-- What holds of a run of calls: of the state it ends in, of every state that a flush behind it
goes through, and of every access that it makes. -/
structure LadderSound (p : PipelineCells) (calls : List PipelineCall) : Prop where
  state : (p.callAll calls).value.Sound
  flushing : ∀ n, ((p.callAll calls).value.drain n).value.2.Sound
  accesses : ∀ access ∈ (p.callAll calls).log, access.Sound

end PipelineCells

theorem toNat_levelIndex (slot : Slot) : (UInt32.ofNat slot.val).toNat = slot.val := by
  rw [UInt32.toNat_ofNat']
  omega

/-- What a level holds before the constructor writes its price and count. -/
def LevelCells.found (l : LevelCells) : PriceLevel :=
  { (default : PriceLevel) with
    orderRefs := l.orderRefs
    quantities := l.quantities
    side := l.side }

namespace FpgaPipeline

theorem Inv.sound {p : FpgaPipeline} (h : p.Inv) : p.cells.Sound := by
  constructor
  case buy => exact h.buy.sound
  case sell => exact h.sell.sound
  case routed =>
    intro hv
    rw [cells_matched] at hv ⊢
    obtain ⟨hset, hslot⟩ := h.matched hv
    have hindex : p.matched.cells.levelIndex.toNat = p.matched.levelIndex.val := toNat_levelIndex _
    rw [hindex, cells_slotOf]
    exact ⟨hset, p.matched.levelIndex.isLt, LadderCells.indexOf_eq_iff.2 hslot⟩

theorem Marked.new (buyLevels sellLevels : Vector PriceLevel (64 * 32)) :
    (new buyLevels sellLevels).Marked := by
  constructor
  case buy =>
    intro slot
    exact ⟨fun h => absurd ((Bitmap.test_empty slot).symm.trans h) Bool.false_ne_true,
      fun h => absurd (SlotLadder.queue_new buyLevels _ slot) h⟩
  case sell =>
    intro slot
    exact ⟨fun h => absurd ((Bitmap.test_empty slot).symm.trans h) Bool.false_ne_true,
      fun h => absurd (SlotLadder.queue_new sellLevels _ slot) h⟩

theorem Inv.new (buyLevels sellLevels : Vector PriceLevel (64 * 32)) :
    (new buyLevels sellLevels).Inv :=
  ⟨.new buyLevels sellLevels, new_allPlaced buyLevels sellLevels⟩

theorem new_side (levels : Vector LevelCells 2048) :
    SlotLadder.cells ⟨(levels.map LevelCells.found).map PriceLevel.clear, Bitmap.empty⟩ =
      ⟨levels.map LevelCells.clear, Vector.replicate 32 0⟩ := by
  rw [SlotLadder.cells, Vector.map_map, Vector.map_map]
  rfl

theorem new_cells (buyLevels sellLevels : Vector LevelCells 2048) :
    (new (buyLevels.map LevelCells.found) (sellLevels.map LevelCells.found)).cells =
      PipelineCells.new buyLevels sellLevels := by
  rw [cells, new, PipelineCells.new]
  dsimp only
  rw [new_side, new_side, Vector.map_replicate]
  rfl

end FpgaPipeline

/-- For every sequence of calls the ladder is sound, and stages 3 and 4 touch only what is there. -/
theorem ladder_sound (buyLevels sellLevels : Vector LevelCells 2048) (calls : List PipelineCall) :
    (PipelineCells.new buyLevels sellLevels).LadderSound calls := by
  rw [← FpgaPipeline.new_cells]
  obtain ⟨hgives, hinv⟩ := FpgaPipeline.callAll_gives (.new _ _) calls
  constructor
  case state =>
    rw [hgives.value]
    exact hinv.sound
  case flushing =>
    intro n
    obtain ⟨hdrain, hinv'⟩ := FpgaPipeline.drain_gives hinv n
    rw [hgives.value, hdrain.value]
    exact hinv'.sound
  case accesses => exact hgives.log

end Tickpipe
