import Tickpipe.SlotLadder
import Tickpipe.Transparency

set_option autoImplicit true

namespace Tickpipe

namespace FpgaPipeline

variable {p q t : FpgaPipeline} {reg : PipelineRegister} {order : Order}

/-- What serving an order does to the ladders: nothing, or it trades with the best opposing level,
or it rests on its own side. -/
theorem serve_cases (p : FpgaPipeline) (order : Order) :
    ((p.route order).1.valid = false ∧ (p.serve order).1 = {} ∧ p.SameLadders (p.serve order).2) ∨
    ((p.route order).1.valid = true ∧ ∃ slot level, p.offered order.side = some slot ∧
      (p.opposite order.side).levels.get slot = level ∧ level.queue ≠ [] ∧
      Exchange.Acceptable order level.price ∧ (p.serve order).1 = hit order level ∧
      (p.serve order).2.own order.side = p.own order.side ∧
      (p.serve order).2.opposite order.side =
        (p.opposite order.side).fill slot (hit order level).quantity) ∨
    ((p.route order).1.valid = true ∧ (p.stage3Match (p.route order).1).result = {} ∧
      (p.serve order).1 = {} ∧
      (p.serve order).2.own order.side = (p.own order.side).rest (p.route order).1.levelIndex order
        (bookSide order.side) ∧
      (p.serve order).2.opposite order.side = p.opposite order.side) := by
  obtain ⟨ho, hr⟩ := p.route_fst order
  obtain ⟨hmo, hmv, hml⟩ := p.stage3Match_same (p.route order).1
  have hsame := p.route_sameLadders order
  have hserve := p.serve_eq order
  rw [stage4Execute_snd, hmv] at hserve
  cases hv : (p.route order).1.valid with
  | false =>
    rw [hv, if_neg Bool.false_ne_true] at hserve
    have hresult : (p.stage3Match (p.route order).1).result = {} := by
      rw [stage3Match_eq, hv]
      exact hr
    rw [hserve, hresult]
    exact Or.inl ⟨rfl, rfl, hsame⟩
  | true =>
    rw [hv, if_pos rfl] at hserve
    have hresult : (p.stage3Match (p.route order).1).result =
        ((p.crossed? order).map (hit order)).getD {} := by
      rw [stage3Match_eq, hv, ho, hr]
      rfl
    cases hc : p.crossed? order with
    | none =>
      have hresult : (p.stage3Match (p.route order).1).result = {} := by
        rw [hresult, hc]
        rfl
      have hrest := (p.route order).2.executeRest_eq (p.stage3Match (p.route order).1)
      rw [hmo, ho, hml, hsame.own] at hrest
      rw [hresult, if_neg Bool.false_ne_true, hrest] at hserve
      rw [hserve]
      exact Or.inr (Or.inr ⟨rfl, hresult, rfl, own_setOwn _ _ _,
        (opposite_setOwn _ _ _).trans (hsame.opposite _)⟩)
    | some level =>
      rw [hc, Option.map_some, Option.getD_some] at hresult
      obtain ⟨slot, hs, hl, hne, ha⟩ := crossed?_eq_some_iff.1 hc
      have hoffered : (p.route order).2.offered (p.stage3Match (p.route order).1).order.side =
          some slot := by
        rw [hmo, ho, hsame.offered]
        exact hs
      have hfill := (p.route order).2.executeMatch_eq _ hoffered
      rw [hmo, ho, hsame.opposite, hresult] at hfill
      rw [hresult, hit_matched, if_pos rfl, hfill] at hserve
      rw [hserve]
      refine Or.inr (Or.inl ⟨rfl, slot, level, hs, hl, mt (PriceLevel.isEmpty_iff _).2 hne, ha, rfl,
        ?_, ?_⟩)
      · exact (own_setOpposite _ _ _).trans (hsame.own _)
      · exact opposite_setOpposite _ _ _

end FpgaPipeline

/-- The other side: every order that is not a buy is a sell. -/
def Side.other (side : Side) : Side := if side = .buy then .sell else .buy

theorem Side.other_eq_buy {side : Side} : side.other = .buy ↔ ¬ side = .buy := by
  rw [other]
  by_cases h : side = .buy
  · rw [if_pos h]
    exact ⟨fun he => Side.noConfusion he, fun hn => absurd h hn⟩
  · rw [if_neg h]
    exact ⟨fun _ => h, fun _ => rfl⟩

/-- The order was valid and came from that side. -/
def Order.From (side : Side) (order : Order) : Prop :=
  order.valid ≠ 0 ∧ (order.side = .buy ↔ side = .buy)

namespace SlotLadder

variable {s : SlotLadder} {history : List Order} {side : Side}

/-- Whatever rests was submitted from that side, at the price of its level. -/
def Priced (s : SlotLadder) (side : Side) (history : List Order) : Prop :=
  ∀ slot, ∀ e ∈ (s.levels.get slot).queue, ∃ o ∈ history,
    o.From side ∧ o.orderRef = e.1 ∧ o.price = (s.levels.get slot).price

theorem Priced.mono (h : s.Priced side history) (hsub : ∀ o ∈ history, o ∈ history') :
    s.Priced side history' := by
  intro slot e he
  obtain ⟨o, ho, hfrom⟩ := h slot e he
  exact ⟨o, hsub o ho, hfrom⟩

theorem Priced.congr (h : s.Priced side history) (he : side' = .buy ↔ side = .buy) :
    s.Priced side' history := by
  intro slot e hmem
  obtain ⟨o, ho, ⟨hv, hs⟩, hrest⟩ := h slot e hmem
  exact ⟨o, ho, ⟨hv, hs.trans he.symm⟩, hrest⟩

theorem Priced.fill (h : s.Priced side history) (slot : Slot) (quantity : UInt32) :
    (s.fill slot quantity).Priced side history := by
  cases hq : (s.levels.get slot).queue with
  | nil =>
    rw [s.fill_empty hq]
    exact h
  | cons e q =>
    obtain ⟨ref, n⟩ := e
    obtain ⟨l, hfill, hprice, hqueue⟩ := s.fill_spec hq quantity
    rw [hfill]
    intro t e he
    rw [Vector.get_put] at he ⊢
    by_cases ht : t = slot
    · subst ht
      rw [if_pos rfl] at he ⊢
      -- what is left was queued before, the head with fewer shares
      have hbefore : ∃ n', (e.1, n') ∈ (s.levels.get t).queue := by
        rw [hqueue] at he
        rw [hq]
        split at he
        · exact ⟨e.2, List.mem_cons_of_mem _ he⟩
        · rcases List.mem_cons.1 he with rfl | he
          · exact ⟨n, List.mem_cons_self⟩
          · exact ⟨e.2, List.mem_cons_of_mem _ he⟩
      obtain ⟨n', hmem⟩ := hbefore
      obtain ⟨o, ho, hfrom, href, hop⟩ := h t _ hmem
      exact ⟨o, ho, hfrom, href, hop.trans hprice.symm⟩
    · rw [if_neg ht] at he ⊢
      exact h t e he

theorem Priced.rest (h : s.Priced side history) {slot : Slot} {order : Order}
    (hfrom : order.From side) (hmix : (s.levels.get slot).queue ≠ [] →
      (s.levels.get slot).queue.length < 16 → (s.levels.get slot).price = order.price)
    (mark : Side) : (s.rest slot order mark).Priced side (history ++ [order]) := by
  have hgrow := h.mono fun o ho => List.mem_append_left [order] ho
  by_cases hroom : (s.levels.get slot).queue.length < 16
  · obtain ⟨l, hrest, hprice, hqueue⟩ := s.rest_spec hroom order mark
    rw [hrest]
    intro t e he
    rw [Vector.get_put] at he ⊢
    by_cases ht : t = slot
    · subst ht
      rw [if_pos rfl] at he ⊢
      rw [hqueue] at he
      rcases List.mem_append.1 he with he | he
      · obtain ⟨o, ho, hof, href, hop⟩ := hgrow t e he
        have hsame := hmix (List.ne_nil_of_mem he) hroom
        exact ⟨o, ho, hof, href, hop.trans (hsame.trans hprice.symm)⟩
      · rw [List.mem_singleton.1 he]
        exact ⟨order, List.mem_append_right _ List.mem_cons_self, hfrom, rfl, hprice.symm⟩
    · rw [if_neg ht] at he ⊢
      exact hgrow t e he
  · rw [s.rest_full hroom]
    exact hgrow

end SlotLadder

namespace FpgaPipeline

variable {p q t : FpgaPipeline} {reg : PipelineRegister} {order : Order} {history : List Order}

theorem own_congr (p : FpgaPipeline) {side side' : Side} (he : side' = .buy ↔ side = .buy) :
    p.own side' = p.own side := by
  rw [own, own]
  simp only [he]

theorem own_other (p : FpgaPipeline) (side : Side) : p.own side.other = p.opposite side := by
  rw [own, opposite]
  by_cases h : side = .buy
  · rw [if_pos h, if_neg fun he => Side.other_eq_buy.1 he h]
  · rw [if_neg h, if_pos (Side.other_eq_buy.2 h)]

/-- The result names a buy and a sell, at a price that both accept. -/
structure Names (r : MatchResult) (buy sell : Order) : Prop where
  bought : buy.side = .buy
  buyer : r.buyOrderRef = buy.orderRef
  buyLimit : r.price ≤ buy.price
  sold : sell.side ≠ .buy
  seller : r.sellOrderRef = sell.orderRef
  sellLimit : sell.price ≤ r.price

instance (r : MatchResult) (buy sell : Order) : Decidable (Names r buy sell) :=
  decidable_of_iff (_ ∧ _ ∧ _ ∧ _ ∧ _ ∧ _)
    ⟨fun ⟨hb, hbr, hbl, hs, hsr, hsl⟩ => ⟨hb, hbr, hbl, hs, hsr, hsl⟩,
      fun ⟨hb, hbr, hbl, hs, hsr, hsl⟩ => ⟨hb, hbr, hbl, hs, hsr, hsl⟩⟩

/-- An order about to be appended to a level that holds orders at another price. -/
def RestsBeside (p : FpgaPipeline) (reg : PipelineRegister) : Prop :=
  let level := (p.own reg.order.side).levels.get reg.levelIndex
  reg.valid = true ∧ reg.result.matched = false ∧ level.queue ≠ [] ∧ level.queue.length < 16 ∧
    level.price ≠ reg.order.price

instance (p : FpgaPipeline) (reg : PipelineRegister) : Decidable (p.RestsBeside reg) :=
  inferInstanceAs (Decidable (_ ∧ _))

/-- Stage 4 is about to put orders of two prices in one level. -/
def MixesPrices (p : FpgaPipeline) : Prop := p.RestsBeside p.matched

instance (p : FpgaPipeline) : Decidable p.MixesPrices := inferInstanceAs (Decidable (_ ∧ _))

def AllPriced (p : FpgaPipeline) (history : List Order) : Prop :=
  ∀ side, (p.own side).Priced side history

theorem AllPriced.opposite (h : p.AllPriced history) (side : Side) :
    (p.opposite side).Priced side.other history := by
  have hown := h side.other
  rw [own_other] at hown
  exact hown

theorem AllPriced.of_sides (side : Side) (hown : (p.own side).Priced side history)
    (hopp : (p.opposite side).Priced side.other history) : p.AllPriced history := by
  intro side'
  by_cases he : side' = .buy ↔ side = .buy
  · rw [p.own_congr he]
    exact hown.congr he
  · have ho : side' = .buy ↔ side.other = .buy := by
      rw [Side.other_eq_buy]
      exact (not_iff_comm.1 (not_iff.1 he)).symm
    rw [p.own_congr ho, own_other]
    exact hopp.congr ho

theorem AllPriced.same (h : p.AllPriced history) (hq : p.SameLadders q) : q.AllPriced history := by
  intro side
  rw [hq.own]
  exact h side

theorem AllPriced.mono (h : p.AllPriced history) (order : Order) :
    p.AllPriced (history ++ [order]) :=
  fun side => (h side).mono fun _ ho => List.mem_append_left _ ho

theorem AllPriced.serve (h : t.AllPriced history)
    (hmix : ¬ t.RestsBeside (t.stage3Match (t.route order).1)) :
    (t.serve order).2.AllPriced (history ++ [order]) := by
  have hgrow := h.mono order
  rcases t.serve_cases order with ⟨-, -, hsame⟩ |
    ⟨hv, slot, level, -, -, -, -, -, hown, hopp⟩ | ⟨hv, hr, -, hown, hopp⟩
  · exact hgrow.same hsame
  · apply AllPriced.of_sides order.side
    · rw [hown]
      exact hgrow order.side
    · rw [hopp]
      exact (hgrow.opposite order.side).fill slot _
  · apply AllPriced.of_sides order.side
    · rw [hown]
      refine (h order.side).rest ⟨t.route_valid hv, Iff.rfl⟩ ?_ _
      intro hne hroom
      by_contra hprice
      obtain ⟨hmo, hmv, hml⟩ := t.stage3Match_same (t.route order).1
      apply hmix
      rw [RestsBeside, hmo, hmv, hml, (t.route_fst order).1, hr]
      exact ⟨hv, rfl, hne, hroom, hprice⟩
    · rw [hopp]
      exact hgrow.opposite order.side

/-- A match names an order of the history at the price it was submitted with. -/
theorem AllPriced.fair (h : t.AllPriced history) (hm : (t.serve order).1.matched = true) :
    order.valid ≠ 0 ∧ ∃ resting ∈ history, resting.valid ≠ 0 ∧
      (t.serve order).1.price = resting.price ∧
      if order.side = .buy then Names (t.serve order).1 order resting
      else Names (t.serve order).1 resting order := by
  rcases t.serve_cases order with ⟨-, hr, -⟩ |
    ⟨hv, slot, level, -, rfl, hne, ha, hhit, -⟩ | ⟨-, -, hr, -⟩
  · rw [hr] at hm
    cases hm
  · refine ⟨t.route_valid hv, ?_⟩
    obtain ⟨hhead, -⟩ := PriceLevel.queue_head _ hne 0
    obtain ⟨o, ho, ⟨hov, hos⟩, href, hop⟩ := h.opposite order.side slot _
      (hhead ▸ List.mem_cons_self)
    rw [hhit, hit]
    by_cases hs : order.side = .buy
    · have hsell : o.side ≠ .buy := fun he => Side.other_eq_buy.1 (hos.1 he) hs
      rw [Exchange.acceptable_buy hs] at ha
      rw [if_pos hs]
      refine ⟨o, ho, hov, hop.symm, ?_⟩
      rw [if_pos hs]
      exact ⟨hs, rfl, ha, hsell, href.symm, UInt32.le_of_eq hop⟩
    · have hbuy : o.side = .buy := hos.2 (Side.other_eq_buy.2 hs)
      rw [Exchange.acceptable_sell hs] at ha
      rw [if_neg hs]
      refine ⟨o, ho, hov, hop.symm, ?_⟩
      rw [if_neg hs]
      exact ⟨hbuy, href.symm, UInt32.le_of_eq hop.symm, hs, rfl, ha⟩
  · rw [hr] at hm
    cases hm

theorem AllPriced.run (h : t.AllPriced history) {orders : List Order}
    (hmix : Mealy.EachStep (fun t o => ¬ t.RestsBeside (t.stage3Match (t.route o).1))
      FpgaPipeline.serve t (orders.take (k + 1)))
    (hr : (Mealy.outputs FpgaPipeline.serve t orders)[k]? = some r) (hm : r.matched = true) :
    ∃ order resting, orders[k]? = some order ∧ order.valid ≠ 0 ∧
      resting ∈ history ++ orders.take k ∧ resting.valid ≠ 0 ∧ r.price = resting.price ∧
      if order.side = .buy then Names r order resting else Names r resting order := by
  induction orders generalizing t history k with
  | nil => cases hr
  | cons o orders ih =>
    cases k with
    | zero =>
      obtain rfl : (t.serve o).1 = r := Option.some.inj hr
      obtain ⟨hv, resting, hmem, hfair⟩ := h.fair hm
      exact ⟨o, resting, rfl, hv, List.mem_append_left _ hmem, hfair⟩
    | succ k =>
      obtain ⟨hhead, htail⟩ := hmix
      obtain ⟨order, resting, hk, hv, hmem, hfair⟩ := ih (h.serve hhead) htail hr
      rw [List.append_assoc] at hmem
      exact ⟨order, resting, hk, hv, hmem, hfair⟩

theorem InOrder.restsBeside (h : InOrder p t o₃ o₂ o₁ r) :
    p.MixesPrices ↔ t.RestsBeside (t.stage3Match (t.route o₃).1) := by
  have hn (r : PipelineRegister) : t.RestsBeside r.untagged ↔ t.RestsBeside r := Iff.rfl
  rw [MixesPrices, ← hn, ← h.matched, hn, RestsBeside, RestsBeside, h.ladders.own]

/-- No order that has been executed was put beside another price. -/
theorem unmixed_serve {inputs : List Order}
    (hmix : Mealy.EachStep (fun p _ => ¬ p.MixesPrices) clock (new buyLevels sellLevels) inputs)
    (hlen : inputs.length = n + 3) :
    Mealy.EachStep (fun t o => ¬ t.RestsBeside (t.stage3Match (t.route o).1)) serve
      (new buyLevels sellLevels) (inputs.take n) := by
  have hserved := Mealy.delayed_each clock serve
    (Q := fun t o => ¬ t.RestsBeside (t.stage3Match (t.route o).1))
    (R := fun p t pending _ r => ∃ o₃ o₂ o₁, pending = [o₃, o₂, o₁] ∧ InOrder p t o₃ o₂ o₁ r)
    ?_ ?_ ⟨{}, {}, {}, rfl, new_inOrder buyLevels sellLevels⟩ hmix
  · rw [hlen] at hserved
    obtain ⟨-, -, -, hrest⟩ := hserved
    rw [serve_bubble _ rfl, serve_bubble _ rfl, serve_bubble _ rfl] at hrest
    exact hrest
  · rintro p t i pending j rest r ⟨o₃, o₂, o₁, hp, hin⟩
    obtain ⟨rfl, rfl⟩ := List.cons.inj hp
    exact ⟨o₂, o₁, j, rfl, hin.clock j⟩
  · rintro p t i pending j rest r ⟨o₃, o₂, o₁, hp, hin⟩ hno
    obtain ⟨rfl, rfl⟩ := List.cons.inj hp
    exact mt hin.restsBeside.2 hno

theorem new_allPriced (buyLevels sellLevels : Vector PriceLevel (64 * 32)) :
    (new buyLevels sellLevels).AllPriced [] := by
  have hempty (levels : Vector PriceLevel (64 * 32)) (side : Side) :
      SlotLadder.Priced ⟨levels.map PriceLevel.clear, Bitmap.empty⟩ side [] := by
    intro slot e he
    rw [SlotLadder.queue_new] at he
    cases he
  intro side
  rw [own]
  split
  · exact hempty buyLevels side
  · exact hempty sellLevels side

/-- In a run that never mixes prices in a level, a match reports the price its resting order was
submitted with, four clocks after the order it meets; both accept that price. -/
theorem fills_at_resting_price (buyLevels sellLevels : Vector PriceLevel (64 * 32))
    (inputs : List Order)
    (hmix : Mealy.EachStep (fun p _ => ¬ p.MixesPrices) clock (new buyLevels sellLevels) inputs)
    (n : Nat) (r : MatchResult)
    (hr : (Mealy.outputs clock (new buyLevels sellLevels) inputs)[n]? = some r)
    (hm : r.matched = true) :
    ∃ k order resting, n = k + 4 ∧ inputs[k]? = some order ∧ order.valid ≠ 0 ∧
      resting ∈ inputs.take k ∧ resting.valid ≠ 0 ∧ r.price = resting.price ∧
      if order.side = .buy then Names r order resting else Names r resting order := by
  have hlt : n < inputs.length := by
    have hn := (List.getElem?_eq_some_iff.1 hr).1
    rw [Mealy.length_outputs] at hn
    exact hn
  rw [(run_inOrder buyLevels sellLevels inputs).1, List.getElem?_take_of_lt hlt] at hr
  by_cases hn : n < 4
  · rw [List.getElem?_append_left (by rw [List.length_replicate]; exact hn),
      List.getElem?_replicate, if_pos hn] at hr
    rw [← Option.some.inj hr] at hm
    cases hm
  · obtain ⟨k, rfl⟩ : ∃ k, n = k + 4 := ⟨n - 4, by omega⟩
    obtain ⟨m, hlen⟩ : ∃ m, inputs.length = m + 3 := ⟨inputs.length - 3, by omega⟩
    rw [List.getElem?_append_right (by rw [List.length_replicate]; omega), List.length_replicate,
      Nat.add_sub_cancel] at hr
    have hserved := (unmixed_serve hmix hlen).take (k + 1)
    rw [List.take_take, Nat.min_eq_left (by omega)] at hserved
    obtain ⟨order, resting, hk, hv, hmem, hfair⟩ :=
      (new_allPriced buyLevels sellLevels).run hserved hr hm
    exact ⟨k, order, resting, rfl, hk, hv, hmem, hfair⟩

/-- Four orders and the bubbles that drain them: the sells at `20.0050` and `20.0010` share a
slot, and the buy meets the first of them at the price of the second. -/
def subTick : List Order :=
  [{ orderRef := 1, side := .buy, quantity := 5, price := 200000, valid := 1 },
   { orderRef := 2, side := .sell, quantity := 5, price := 200050, valid := 1 },
   { orderRef := 3, side := .sell, quantity := 5, price := 200010, valid := 1 },
   { orderRef := 4, side := .buy, quantity := 5, price := 200010, valid := 1 }, {}, {}, {}, {}]

/-- A match sells below the limit of the sell order it names. -/
theorem subTick_mispriced :
    let p := new (Vector.replicate (64 * 32) default) (Vector.replicate (64 * 32) default)
    ∃ r ∈ Mealy.outputs clock p subTick, r.matched = true ∧
      ¬ ∃ buy ∈ subTick, ∃ sell ∈ subTick, Names r buy sell := by
  rw [new_zeroed]
  exact ⟨⟨4, 2, 200010, 5, true⟩, by decide +kernel, rfl, by decide +kernel⟩

theorem backToBack_fills :
    let inputs := backToBack ++ List.replicate 4 ({} : Order)
    ∃ k order resting, 6 = k + 4 ∧ inputs[k]? = some order ∧ order.valid ≠ 0 ∧
      resting ∈ inputs.take k ∧ resting.valid ≠ 0 ∧ 200000 = resting.price ∧
      if order.side = .buy then Names ⟨3, 1, 200000, 6, true⟩ order resting
      else Names ⟨3, 1, 200000, 6, true⟩ resting order :=
  fills_at_resting_price _ _ _ (by rw [new_zeroed]; decide +kernel) 6 ⟨3, 1, 200000, 6, true⟩
    (by rw [new_zeroed]; decide +kernel) rfl

end FpgaPipeline

end Tickpipe
