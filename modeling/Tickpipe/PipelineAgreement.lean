import Tickpipe.SlotLadder
import Tickpipe.Transparency

set_option autoImplicit true

namespace Tickpipe

namespace SlotLadder

variable {s : SlotLadder}

/-- The slot a side offers first is the first level of its book. -/
def Offers (s : SlotLadder) (slot? : Option Slot) (book : Ladder lt) (base : UInt32) : Prop :=
  match slot? with
  | none => book.first? = none
  | some slot => ∃ ref n q, (s.levels.get slot).queue = (ref, n) :: q ∧
      slot.At base (s.levels.get slot).price ∧ (s.levels.get slot).headRef = ref ∧
      (s.levels.get slot).headQuantity = n ∧
      book.first? = some ((s.levels.get slot).price, (ref, n) :: q)

theorem Holds.offers {book : Ladder lt} [IsStrictTotalOrder UInt32 lt] (h : s.Holds book base)
    (slot : Slot) (hs : s.bits.test slot = true)
    (hbest : ∀ t, s.bits.test t = true → ∀ p p', Slot.At base slot p → Slot.At base t p' →
      ¬ lt p' p) : s.Offers (some slot) book base := by
  have hne := (h.marks slot).1 hs
  obtain ⟨hhead, -⟩ := PriceLevel.queue_head _ hne 0
  refine ⟨_, _, _, hhead, h.prices slot hne, rfl, rfl, ?_⟩
  rw [h.first?_eq hs hbest, ← hhead]

theorem Holds.bottomSlot {asks : Asks} (h : s.Holds asks base) :
    s.Offers (bottomSlot s.bits) asks base := by
  cases hb : SlotLadder.bottomSlot s.bits with
  | none => exact h.first?_eq_none (Bitmap.bottom_eq_none hb)
  | some slot =>
    obtain ⟨ht, hle⟩ := Bitmap.bottom_eq_some hb
    refine h.offers slot ht ?_
    intro t ht' p p' hp hp' hlt
    exact absurd ((hp'.lt_iff hp).1 hlt) (Fin.not_lt.2 (hle t ht'))

theorem Holds.topSlot {bids : Bids} (h : s.Holds bids base) :
    s.Offers (topSlot s.bits) bids base := by
  cases hb : SlotLadder.topSlot s.bits with
  | none => exact h.first?_eq_none (Bitmap.top_eq_none hb)
  | some slot =>
    obtain ⟨ht, hle⟩ := Bitmap.top_eq_some hb
    refine h.offers slot ht ?_
    intro t ht' p p' hp hp' hlt
    exact absurd ((hp.lt_iff hp').1 hlt) (Fin.not_lt.2 (hle t ht'))

theorem new_holds (levels : Vector PriceLevel (64 * 32)) (base : UInt32) :
    Holds ⟨levels.map PriceLevel.clear, Bitmap.empty⟩ (OrdMap.empty : Ladder lt) base := by
  have hq (slot : Slot) : ((levels.map PriceLevel.clear).get slot).queue = [] :=
    queue_new levels Bitmap.empty slot
  refine ⟨fun slot _ _ => hq slot, fun slot h => absurd (hq slot) h, fun _ h => absurd rfl h,
    ?_, fun _ => nofun⟩
  intro slot
  rw [Bitmap.test_empty]
  exact ⟨nofun, fun h => absurd (hq slot) h⟩

end SlotLadder

/-- The ladders of the pipeline are the books of the engine, and as many matches were made. -/
structure FpgaPipeline.Agrees (p : FpgaPipeline) (e : SoftwareEngine) (base : UInt32) : Prop where
  bids : p.buy.Holds e.bids base
  asks : p.sell.Holds e.asks base
  made : p.matchesMade = e.matchesMade

/-- No price level holds more orders than a slot of the ladder has room for. -/
def SoftwareEngine.Fits (e : SoftwareEngine) : Prop :=
  (∀ l ∈ e.bids.entries, l.2.length ≤ 16) ∧ ∀ l ∈ e.asks.entries, l.2.length ≤ 16

instance (e : SoftwareEngine) : Decidable e.Fits := inferInstanceAs (Decidable (_ ∧ _))

theorem Ladder.length_queue_le {book : Ladder lt} [IsStrictTotalOrder UInt32 lt]
    (h : ∀ l ∈ book.entries, l.2.length ≤ 16) (price : UInt32) :
    (book.queue price).length ≤ 16 := by
  rw [queue]
  cases hg : book.get? price with
  | none => exact Nat.zero_le _
  | some q => exact h _ (book.mem_entries_iff.2 hg)

/-- A bubble passes the engine by. -/
def SoftwareEngine.serve (e : SoftwareEngine) (order : Order) : MatchResult × SoftwareEngine :=
  if order.valid ≠ 0 then e.submit order else ({}, e)

/-- A register that carries an order, routed to the slot of its price unless it is a bubble. -/
structure PipelineRegister.Carries (reg : PipelineRegister) (order : Order) (base : UInt32) :
    Prop where
  carried : reg.order = order
  valid : reg.valid = decide (order.valid ≠ 0)
  routed : order.valid ≠ 0 → reg.levelIndex.At base order.price

namespace FpgaPipeline.Agrees

variable {p : FpgaPipeline} {e : SoftwareEngine} {reg : PipelineRegister} {order : Order}

theorem match_buy (h : p.Agrees e base) (hv : reg.valid = true) (hs : reg.order.side = .buy)
    (hr : reg.result = {}) : (p.stage3Match reg).result = (e.submit reg.order).1 := by
  have ho := h.asks.bottomSlot
  rw [stage3Match]
  dsimp only
  rw [if_pos hv, if_pos hs, bestAsk]
  cases hb : SlotLadder.bottomSlot p.sell.bits with
  | none =>
    rw [hb] at ho
    rw [SoftwareEngine.submit_buy_rest hs]
    · exact hr
    · intro price q hf
      cases ho.symm.trans hf
  | some slot =>
    rw [hb] at ho
    obtain ⟨ref, n, q, hq, -, href, hn, hf⟩ := ho
    have hne : ¬ (p.sell.levels.get slot).isEmpty = true := by
      rw [PriceLevel.isEmpty_iff, hq]
      exact List.cons_ne_nil _ _
    rw [Option.map_some]
    dsimp only
    by_cases hp : (p.sell.levels.get slot).price ≤ reg.order.price
    · rw [if_pos ⟨hne, hp⟩, SoftwareEngine.submit_buy_hit hs hf hp, href, hn]
    · rw [if_neg fun h => hp h.2, SoftwareEngine.submit_buy_rest hs]
      · exact hr
      · intro price q' hf'
        rw [hf] at hf'
        rw [← (Prod.mk.inj (Option.some.inj hf')).1]
        exact hp

theorem match_sell (h : p.Agrees e base) (hv : reg.valid = true) (hs : reg.order.side ≠ .buy)
    (hr : reg.result = {}) : (p.stage3Match reg).result = (e.submit reg.order).1 := by
  have ho := h.bids.topSlot
  rw [stage3Match]
  dsimp only
  rw [if_pos hv, if_neg hs, bestBid]
  cases hb : SlotLadder.topSlot p.buy.bits with
  | none =>
    rw [hb] at ho
    rw [SoftwareEngine.submit_sell_rest hs]
    · exact hr
    · intro price q hf
      cases ho.symm.trans hf
  | some slot =>
    rw [hb] at ho
    obtain ⟨ref, n, q, hq, -, href, hn, hf⟩ := ho
    have hne : ¬ (p.buy.levels.get slot).isEmpty = true := by
      rw [PriceLevel.isEmpty_iff, hq]
      exact List.cons_ne_nil _ _
    rw [Option.map_some]
    dsimp only
    by_cases hp : (p.buy.levels.get slot).price ≥ reg.order.price
    · rw [if_pos ⟨hne, hp⟩, SoftwareEngine.submit_sell_hit hs hf hp, href, hn]
    · rw [if_neg fun h => hp h.2, SoftwareEngine.submit_sell_rest hs]
      · exact hr
      · intro price q' hf'
        rw [hf] at hf'
        rw [← (Prod.mk.inj (Option.some.inj hf')).1]
        exact hp

theorem stage3Match (h : p.Agrees e base) (hc : reg.Carries order base) (hr : reg.result = {}) :
    (p.stage3Match reg).result = (e.serve order).1 := by
  rw [SoftwareEngine.serve]
  by_cases hv : order.valid ≠ 0
  · have hvalid : reg.valid = true := hc.valid.trans (decide_eq_true hv)
    rw [if_pos hv, ← hc.carried]
    by_cases hs : reg.order.side = .buy
    · exact h.match_buy hvalid hs hr
    · exact h.match_sell hvalid hs hr
  · have hvalid : ¬ reg.valid = true := by rw [hc.valid]; exact fun h => hv (of_decide_eq_true h)
    rw [FpgaPipeline.stage3Match]
    dsimp only
    rw [if_neg hvalid, if_neg hv]
    exact hr

theorem execute_buy (h : p.Agrees e base) (reg : PipelineRegister) (hs : reg.order.side = .buy)
    (hr : reg.result = (e.submit reg.order).1) (hat : reg.levelIndex.At base reg.order.price)
    (hroom : (e.submit reg.order).2.Fits) :
    (if reg.result.matched then p.executeMatch reg else p.executeRest reg).Agrees
      (e.submit reg.order).2 base := by
  have ho := h.asks.bottomSlot
  by_cases hit : ∃ price q, e.asks.first? = some (price, q) ∧ price ≤ reg.order.price
  · obtain ⟨price, q', hf', hp⟩ := hit
    cases hb : SlotLadder.bottomSlot p.sell.bits with
    | none =>
      rw [hb] at ho
      cases ho.symm.trans hf'
    | some slot =>
      rw [hb] at ho
      obtain ⟨ref, n, q, hq, hat', -, -, hf⟩ := ho
      rw [← (Prod.mk.inj (Option.some.inj (hf.symm.trans hf'))).1] at hp
      rw [SoftwareEngine.submit_buy_hit hs hf hp] at hr ⊢
      rw [hr, if_pos rfl, executeMatch, if_pos hs, hb]
      dsimp only
      rw [hr]
      exact ⟨h.bids, h.asks.fill hat' hq _, congrArg (· + 1) h.made⟩
  · have hrest := SoftwareEngine.submit_buy_rest hs fun price q hf hp => hit ⟨price, q, hf, hp⟩
    rw [hrest] at hr hroom ⊢
    rw [hr, if_neg Bool.false_ne_true, executeRest, if_pos hs]
    have hlen := Ladder.length_queue_le hroom.1 reg.order.price
    rw [Ladder.queue_pushBack_self, List.length_append] at hlen
    exact ⟨h.bids.rest hat hlen _, h.asks, h.made⟩

theorem execute_sell (h : p.Agrees e base) (reg : PipelineRegister) (hs : reg.order.side ≠ .buy)
    (hr : reg.result = (e.submit reg.order).1) (hat : reg.levelIndex.At base reg.order.price)
    (hroom : (e.submit reg.order).2.Fits) :
    (if reg.result.matched then p.executeMatch reg else p.executeRest reg).Agrees
      (e.submit reg.order).2 base := by
  have ho := h.bids.topSlot
  by_cases hit : ∃ price q, e.bids.first? = some (price, q) ∧ price ≥ reg.order.price
  · obtain ⟨price, q', hf', hp⟩ := hit
    cases hb : SlotLadder.topSlot p.buy.bits with
    | none =>
      rw [hb] at ho
      cases ho.symm.trans hf'
    | some slot =>
      rw [hb] at ho
      obtain ⟨ref, n, q, hq, hat', -, -, hf⟩ := ho
      rw [← (Prod.mk.inj (Option.some.inj (hf.symm.trans hf'))).1] at hp
      rw [SoftwareEngine.submit_sell_hit hs hf hp] at hr ⊢
      rw [hr, if_pos rfl, executeMatch, if_neg hs, hb]
      dsimp only
      rw [hr]
      exact ⟨h.bids.fill hat' hq _, h.asks, congrArg (· + 1) h.made⟩
  · have hrest := SoftwareEngine.submit_sell_rest hs fun price q hf hp => hit ⟨price, q, hf, hp⟩
    rw [hrest] at hr hroom ⊢
    rw [hr, if_neg Bool.false_ne_true, executeRest, if_neg hs]
    have hlen := Ladder.length_queue_le hroom.2 reg.order.price
    rw [Ladder.queue_pushBack_self, List.length_append] at hlen
    exact ⟨h.bids, h.asks.rest hat hlen _, h.made⟩

theorem stage4Execute (h : p.Agrees e base) (hc : reg.Carries order base)
    (hr : reg.result = (e.serve order).1) (hroom : (e.serve order).2.Fits) :
    (p.stage4Execute reg).2.Agrees (e.serve order).2 base := by
  rw [SoftwareEngine.serve] at hr hroom ⊢
  rw [FpgaPipeline.stage4Execute]
  by_cases hv : order.valid ≠ 0
  · have hvalid : reg.valid = true := hc.valid.trans (decide_eq_true hv)
    have hat := hc.routed hv
    rw [if_pos hv, ← hc.carried] at hr hroom ⊢
    rw [← hc.carried] at hat
    dsimp only
    rw [if_pos hvalid]
    by_cases hs : reg.order.side = .buy
    · exact h.execute_buy { reg with stage := 4 } hs hr hat hroom
    · exact h.execute_sell { reg with stage := 4 } hs hr hat hroom
  · have hvalid : ¬ reg.valid = true := by rw [hc.valid]; exact fun h => hv (of_decide_eq_true h)
    dsimp only
    rw [if_neg hvalid, if_neg hv]
    exact h

theorem congr (h : p.Agrees e base) (hq : p.SameLadders q) : FpgaPipeline.Agrees q e base :=
  ⟨hq.buy ▸ h.bids, hq.sell ▸ h.asks, hq.made.trans h.made⟩

end FpgaPipeline.Agrees

namespace FpgaPipeline

variable {p : FpgaPipeline} {reg : PipelineRegister} {base : UInt32}

/-- A price on a tick, within the 2048 slots above the base. -/
def InWindow (base price : UInt32) : Prop :=
  price.toNat % 100 = 0 ∧ base ≤ price ∧ price.toNat - base.toNat < 204800

instance (base price : UInt32) : Decidable (InWindow base price) :=
  inferInstanceAs (Decidable (_ ∧ _))

/-- Every price in the window is at the slot it is routed to. -/
theorem slotOf_at (hp : p.setBase price = p') (hb : p'.basePrice = base)
    (hbase : base.toNat % 100 = 0) (hw : InWindow base price) :
    ∃ slot, p.slotOf price = (some slot, p') ∧ slot.At base price := by
  obtain ⟨hmod, hle, hlt⟩ := hw
  have hoff : ((price - base) / tick).toNat = (price.toNat - base.toNat) / 100 := by
    rw [UInt32.toNat_div, UInt32.toNat_sub_of_le _ _ hle]
    rfl
  have hslot : ((price - base) / tick).toNat < 64 * 32 := by
    rw [hoff]
    omega
  refine ⟨⟨((price - base) / tick).toNat, hslot⟩, ?_, ?_⟩
  · rw [slotOf, hp]
    dsimp only
    rw [hb, if_neg (UInt32.not_lt.2 hle), dif_pos hslot]
  · have hle' := UInt32.le_iff_toNat_le.1 hle
    simp only [Slot.At, hoff]
    omega

theorem windowBase_mod (hp : price.toNat % 100 = 0) : (windowBase price).toNat % 100 = 0 := by
  have hhalf : (1024 * tick).toNat = 102400 := by decide
  rw [windowBase]
  by_cases h : price > 1024 * tick
  · have hle := UInt32.le_of_lt h
    rw [if_pos h, UInt32.toNat_sub_of_le _ _ hle, hhalf]
    have hlt := UInt32.lt_iff_toNat_lt.1 h
    rw [hhalf] at hlt
    omega
  · rw [if_neg h]
    rfl

/-- The base that the first valid order fixes. -/
def openingBase (orders : List Order) : UInt32 :=
  match orders.find? fun o => o.valid ≠ 0 with
  | some o => windowBase o.price
  | none => 0

theorem openingBase_valid (h : order.valid ≠ 0) (orders : List Order) :
    openingBase (order :: orders) = windowBase order.price := by
  rw [openingBase, List.find?_cons_of_pos (p := fun o : Order => decide (o.valid ≠ 0))
    (decide_eq_true h)]

theorem openingBase_bubble (h : order.valid = 0) (orders : List Order) :
    openingBase (order :: orders) = openingBase orders := by
  rw [openingBase, List.find?_cons_of_neg (p := fun o : Order => decide (o.valid ≠ 0))
    (fun hn => of_decide_eq_true hn h), openingBase]

/-- The base is fixed, or the orders still to be routed will fix it. -/
structure Based (p : FpgaPipeline) (orders : List Order) (base : UInt32) : Prop where
  fixed : p.baseSet = true → p.basePrice = base
  unset : p.baseSet = false → p.basePrice = 0 ∧ openingBase orders = base

theorem Based.setBase (h : p.Based (order :: orders) base) (hv : order.valid ≠ 0) :
    (p.setBase order.price).baseSet = true ∧ (p.setBase order.price).basePrice = base := by
  rw [FpgaPipeline.setBase]
  cases hset : p.baseSet with
  | true => exact ⟨hset, h.fixed hset⟩
  | false => exact ⟨rfl, (openingBase_valid hv orders).symm.trans (h.unset hset).2⟩

theorem Based.stage2Route (h : p.Based (order :: orders) base) (reg : PipelineRegister)
    (ho : reg.order = order) (hv : reg.valid = decide (order.valid ≠ 0))
    (hbase : base.toNat % 100 = 0)
    (hw : order.valid ≠ 0 → InWindow base order.price) :
    (p.stage2Route reg).1.Carries order base ∧ (p.stage2Route reg).1.result = reg.result ∧
    (p.stage2Route reg).2.Based orders base := by
  rw [FpgaPipeline.stage2Route]
  dsimp only
  by_cases hvalid : order.valid ≠ 0
  · obtain ⟨hset, hprice⟩ := h.setBase hvalid
    obtain ⟨slot, hs, hat⟩ := slotOf_at rfl hprice hbase (hw hvalid)
    rw [if_pos (hv.trans (decide_eq_true hvalid)), ho, hs]
    refine ⟨⟨rfl, hv, fun _ => hat⟩, rfl, fun _ => hprice, fun hf => ?_⟩
    rw [hset] at hf
    cases hf
  · rw [if_neg fun ht => hvalid (of_decide_eq_true (hv.symm.trans ht))]
    refine ⟨⟨ho, hv, fun hn => absurd hn hvalid⟩, rfl, h.fixed, ?_⟩
    intro hf
    obtain ⟨hz, hopen⟩ := h.unset hf
    exact ⟨hz, (openingBase_bubble (Decidable.not_not.1 hvalid) orders).symm.trans hopen⟩

theorem Based.congr (h : p.Based orders base) (hq : p.SameWindow q) :
    FpgaPipeline.Based q orders base where
  fixed hs := hq.basePrice.trans (h.fixed (hq.baseSet ▸ hs))
  unset hs := by
    obtain ⟨hz, hopen⟩ := h.unset (hq.baseSet ▸ hs)
    exact ⟨hq.basePrice.trans hz, hopen⟩

theorem stage3Match_carries (p : FpgaPipeline) (h : reg.Carries order base) :
    (p.stage3Match reg).Carries order base := by
  rw [stage3Match_eq]
  exact ⟨h.carried, h.valid, h.routed⟩

/-- All stages at once do what `submit` does. -/
theorem Agrees.serve {e : SoftwareEngine} (h : p.Agrees e base)
    (hbased : p.Based (order :: orders) base) (hbase : base.toNat % 100 = 0)
    (hw : order.valid ≠ 0 → InWindow base order.price) (hroom : (e.serve order).2.Fits) :
    (p.serve order).1 = (e.serve order).1 ∧ (p.serve order).2.Agrees (e.serve order).2 base ∧
      (p.serve order).2.Based orders base := by
  obtain ⟨hc, hr, hleft⟩ := hbased.stage2Route (stage1Decode order) rfl rfl hbase hw
  have hmatch := h.stage3Match hc hr
  have hroute := h.congr (p.route_sameLadders order)
  rw [serve_eq]
  refine ⟨hmatch, hroute.stage4Execute (p.stage3Match_carries hc) hmatch hroom, ?_⟩
  exact Based.congr hleft ((p.route order).2.stage4Execute_same _).2.2

theorem Agrees.run {e : SoftwareEngine} {inputs : List Order} (h : p.Agrees e base)
    (hbased : p.Based inputs base) (hbase : base.toNat % 100 = 0)
    (hw : ∀ o ∈ inputs, o.valid ≠ 0 → InWindow base o.price)
    (hfits : Mealy.Always SoftwareEngine.Fits SoftwareEngine.serve e inputs) :
    Mealy.outputs FpgaPipeline.serve p inputs = Mealy.outputs SoftwareEngine.serve e inputs ∧
      (Mealy.after FpgaPipeline.serve p inputs).Agrees
        (Mealy.after SoftwareEngine.serve e inputs) base ∧
      (Mealy.after FpgaPipeline.serve p inputs).Based [] base := by
  induction inputs generalizing p e with
  | nil => exact ⟨rfl, h, hbased⟩
  | cons o inputs ih =>
    obtain ⟨-, hrest⟩ := hfits
    obtain ⟨hout, hnext, hleft⟩ := h.serve hbased hbase (hw o List.mem_cons_self) hrest.head
    obtain ⟨houts, hlast⟩ := ih hnext hleft (fun o ho => hw o (List.mem_cons_of_mem _ ho)) hrest
    refine ⟨?_, hlast⟩
    rw [Mealy.outputs, Mealy.outputs, hout, houts]

/-- Valid orders on ticks of the window fixed by the first, that never overfill a level. -/
structure Admissible (inputs : List Order) : Prop where
  priced : ∀ o ∈ inputs, o.valid ≠ 0 → InWindow (openingBase inputs) o.price
  fits : Mealy.Always SoftwareEngine.Fits SoftwareEngine.serve {} inputs

instance (inputs : List Order) : Decidable (Admissible inputs) :=
  decidable_of_iff (_ ∧ _) ⟨fun h => ⟨h.1, h.2⟩, fun h => ⟨h.priced, h.fits⟩⟩

theorem Admissible.base_mod {inputs : List Order} (h : Admissible inputs) :
    (openingBase inputs).toNat % 100 = 0 := by
  rw [openingBase]
  cases hf : inputs.find? fun o => o.valid ≠ 0 with
  | none => rfl
  | some o =>
    have hv := of_decide_eq_true (List.find?_some (p := fun o : Order => decide (o.valid ≠ 0)) hf)
    exact windowBase_mod (h.priced o (List.mem_of_find?_eq_some hf) hv).1

theorem new_agrees (buyLevels sellLevels : Vector PriceLevel (64 * 32)) (base : UInt32) :
    (new buyLevels sellLevels).Agrees {} base :=
  ⟨SlotLadder.new_holds buyLevels base, SlotLadder.new_holds sellLevels base, rfl⟩

theorem new_based (buyLevels sellLevels : Vector PriceLevel (64 * 32)) (inputs : List Order) :
    (new buyLevels sellLevels).Based inputs (openingBase inputs) where
  fixed hs := by cases hs
  unset _ := ⟨rfl, rfl⟩

/-- The stages in one run like the engine. -/
theorem Admissible.run (buyLevels sellLevels : Vector PriceLevel (64 * 32)) {inputs : List Order}
    (h : Admissible inputs) :
    Mealy.outputs serve (new buyLevels sellLevels) inputs =
        Mealy.outputs SoftwareEngine.serve {} inputs ∧
      (Mealy.after serve (new buyLevels sellLevels) inputs).Agrees
        (Mealy.after SoftwareEngine.serve {} inputs)
        (Mealy.after serve (new buyLevels sellLevels) inputs).basePrice := by
  obtain ⟨hout, hagrees, hbased⟩ := (new_agrees buyLevels sellLevels (openingBase inputs)).run
    (new_based buyLevels sellLevels inputs) h.base_mod h.priced h.fits
  have hbase : (Mealy.after serve (new buyLevels sellLevels) inputs).basePrice =
      openingBase inputs := by
    cases hset : (Mealy.after serve (new buyLevels sellLevels) inputs).baseSet with
    | true => exact hbased.fixed hset
    | false =>
      obtain ⟨hz, hopen⟩ := hbased.unset hset
      exact hz.trans hopen
  rw [hbase]
  exact ⟨hout, hagrees⟩
end FpgaPipeline

/-- The queues of the ladder are the queues of the book, slot for price. -/
def SlotLadder.SameQueues (s : SlotLadder) (book : Ladder lt) (base : UInt32) : Prop :=
  (∀ (slot : Slot) price, slot.At base price → (s.levels.get slot).queue = book.queue price) ∧
  (∀ slot : Slot, (s.levels.get slot).queue ≠ [] → ∃ price, slot.At base price) ∧
  ∀ price, book.queue price ≠ [] → ∃ slot : Slot, slot.At base price

theorem SlotLadder.Holds.sameQueues {s : SlotLadder} {book : Ladder lt} (h : s.Holds book base) :
    s.SameQueues book base :=
  ⟨h.queues, fun slot hs => ⟨_, h.prices slot hs⟩, h.window⟩

/-- The pipeline answers as the software engine does, four clocks later, and drained it holds the
same book. -/
theorem pipeline_agrees_with_engine (buyLevels sellLevels : Vector PriceLevel (64 * 32))
    (inputs : List Order) (h : FpgaPipeline.Admissible inputs) :
    Mealy.outputs FpgaPipeline.clock (.new buyLevels sellLevels) inputs =
      (List.replicate 4 ({} : MatchResult) ++
        Mealy.outputs SoftwareEngine.serve {} inputs).take inputs.length ∧
    ∀ idle : List Order, (∀ o ∈ idle, o.valid = 0) → 3 ≤ idle.length →
      let p := Mealy.after FpgaPipeline.clock (.new buyLevels sellLevels) (inputs ++ idle)
      let e := Mealy.after SoftwareEngine.serve {} inputs
      p.buy.SameQueues e.bids p.basePrice ∧ p.sell.SameQueues e.asks p.basePrice ∧
        p.matchesMade = e.matchesMade := by
  obtain ⟨hout, hagrees⟩ := h.run buyLevels sellLevels
  refine ⟨?_, ?_⟩
  · rw [← hout]
    exact (FpgaPipeline.run_inOrder buyLevels sellLevels inputs).1
  · intro idle hidle hlen
    obtain ⟨hladders, hwindow⟩ := FpgaPipeline.settled buyLevels sellLevels inputs hidle hlen
    have hd := hagrees.congr hladders
    rw [← hwindow.basePrice] at hd
    exact ⟨hd.bids.sameQueues, hd.asks.sameQueues, hd.made⟩

def crossingOrders : List Order :=
  [{ orderRef := 1, side := .buy, quantity := 10, price := 200000, valid := 1 }, {},
   { orderRef := 2, side := .sell, quantity := 4, price := 199900, valid := 1 },
   { orderRef := 3, side := .sell, quantity := 5, price := 200100, valid := 1 }]

theorem crossingOrders_agree :
    let levels : Vector PriceLevel (64 * 32) := Vector.replicate (64 * 32) default
    let p := Mealy.after FpgaPipeline.clock (.new levels levels)
      (crossingOrders ++ FpgaPipeline.threeBubbles)
    let e := Mealy.after SoftwareEngine.serve {} crossingOrders
    (p.buy.SameQueues e.bids p.basePrice ∧ p.sell.SameQueues e.asks p.basePrice ∧
      p.matchesMade = e.matchesMade) ∧
    e.bids.entries = [(200000, [(1, 6)])] ∧ e.asks.entries = [(200100, [(3, 5)])] :=
  ⟨(pipeline_agrees_with_engine _ _ crossingOrders (by decide +kernel)).2
    FpgaPipeline.threeBubbles (by decide) (by decide), by decide +kernel, by decide +kernel⟩

end Tickpipe
