import Tickpipe.SlotLadder
import Tickpipe.Transparency

set_option autoImplicit true

namespace Tickpipe

namespace FpgaPipeline

variable {p q : FpgaPipeline} {reg : PipelineRegister}

/-- The slot of a price in the window above a base. -/
def slotIn (base price : UInt32) : Option Slot :=
  if price < base then none
  else
    let off := (price - base) / tick
    if h : off.toNat < 64 * 32 then some ⟨off.toNat, h⟩ else none

theorem slotOf_fst (p : FpgaPipeline) (price : UInt32) :
    (p.slotOf price).1 = slotIn (p.setBase price).basePrice price := by
  rw [slotOf, slotIn]
  dsimp only
  split
  · rfl
  · rfl

theorem setBase_set (h : p.baseSet = true) (price : UInt32) : p.setBase price = p :=
  if_pos h

theorem setBase_baseSet (p : FpgaPipeline) (price : UInt32) :
    (p.setBase price).baseSet = true := by
  rw [setBase]
  split
  · assumption
  · rfl

structure Keeps (p q : FpgaPipeline) : Prop where
  set : p.baseSet = true → q.baseSet = true
  base : p.baseSet = true → q.basePrice = p.basePrice

theorem stage2Route_keeps (p : FpgaPipeline) (reg : PipelineRegister) :
    p.Keeps (p.stage2Route reg).2 := by
  rw [stage2Route_eq]
  split
  · have hset := p.setBase_baseSet reg.order.price
    have hbase (h : p.baseSet = true) := congrArg FpgaPipeline.basePrice
      (setBase_set h reg.order.price)
    split
    · exact ⟨fun _ => hset, hbase⟩
    · exact ⟨fun _ => hset, hbase⟩
  · exact ⟨id, fun _ => rfl⟩

/-- A register that is still valid goes to the slot of its price. -/
def Placed (p : FpgaPipeline) (reg : PipelineRegister) : Prop :=
  reg.valid = true → p.baseSet = true ∧ (p.slotOf reg.order.price).1 = some reg.levelIndex

theorem Placed.keep (h : p.Placed reg) (hq : p.Keeps q) : q.Placed reg := by
  intro hv
  obtain ⟨hs, hslot⟩ := h hv
  have hs' := hq.set hs
  rw [slotOf_fst, setBase_set hs] at hslot
  rw [slotOf_fst, setBase_set hs', hq.base hs]
  exact ⟨hs', hslot⟩

theorem stage2Route_placed (p : FpgaPipeline) (reg : PipelineRegister) :
    (p.stage2Route reg).2.Placed (p.stage2Route reg).1 := by
  rw [stage2Route_eq]
  split
  · split
    · next slot hslot =>
      intro _
      have hset := p.setBase_baseSet reg.order.price
      refine ⟨hset, ?_⟩
      rw [slotOf_fst] at hslot ⊢
      rw [setBase_set hset]
      exact hslot
    · intro hv
      cases hv
  · next hinvalid =>
    intro hv
    exact absurd hv hinvalid

/-- The registers behind stage 2 go to the slots of their prices. -/
structure AllPlaced (p : FpgaPipeline) : Prop where
  routed : p.Placed p.routed
  matched : p.Placed p.matched

theorem SameWindow.keeps (h : p.SameWindow q) : p.Keeps q :=
  ⟨fun hs => h.baseSet.trans hs, fun _ => h.basePrice⟩

theorem Keeps.trans (h : p.Keeps q) (h' : q.Keeps r) : p.Keeps r :=
  ⟨fun hs => h'.set (h.set hs), fun hs => (h'.base (h.set hs)).trans (h.base hs)⟩

theorem AllPlaced.clock (h : p.AllPlaced) (incoming : Order) : (p.clock incoming).2.AllPlaced := by
  have hc := p.clock_clocked incoming
  have hkeep := (p.stage2Route_keeps p.decoded).trans hc.window.keeps
  refine ⟨?_, ?_⟩
  · rw [hc.routed]
    exact (p.stage2Route_placed p.decoded).keep hc.window.keeps
  · obtain ⟨ho, hv, hl⟩ := (p.clock incoming).2.stage3Match_same p.routed
    rw [hc.matched, Placed, ho, hv, hl]
    exact h.routed.keep hkeep

def restingLevel (p : FpgaPipeline) (reg : PipelineRegister) : PriceLevel :=
  (p.own reg.order.side).levels.get reg.levelIndex

/-- Stage 4 appends its order to the level of its price. -/
def Appends (p : FpgaPipeline) (incoming : Order) : Prop :=
  let reg := p.matched
  reg.valid = true ∧ (p.slotOf reg.order.price).1 = some reg.levelIndex ∧
    ((p.clock incoming).2.restingLevel reg).queue =
      (p.restingLevel reg).queue ++ [(reg.order.orderRef, reg.order.quantity)]

instance (p : FpgaPipeline) (incoming : Order) : Decidable (p.Appends incoming) :=
  inferInstanceAs (Decidable (_ ∧ _ ∧ _))

/-- Stage 4 is about to rest an order at a level that is full. -/
def FindsFull (p : FpgaPipeline) : Prop :=
  let reg := p.matched
  reg.valid = true ∧ reg.result.matched = false ∧ (p.restingLevel reg).count.val = 16

instance (p : FpgaPipeline) : Decidable p.FindsFull := inferInstanceAs (Decidable (_ ∧ _))

/-- In one clock every valid order moves on or is counted: as a window miss at stage 2, as a match
or as an order appended at stage 4. -/
structure Accounts (p : FpgaPipeline) (incoming : Order) : Prop where
  decoded : incoming.valid ≠ 0 → (p.clock incoming).2.decoded.valid = true ∧
    (p.clock incoming).2.decoded.order = incoming
  routed : p.decoded.valid = true →
    (p.clock incoming).2.windowMisses = p.windowMisses + 1 ∨
    (p.clock incoming).2.routed.valid = true ∧
      (p.clock incoming).2.routed.order = p.decoded.order
  matched : p.routed.valid = true → (p.clock incoming).2.matched.valid = true ∧
    (p.clock incoming).2.matched.order = p.routed.order
  executed : p.matched.valid = true →
    p.matched.result.matched = true ∧
      (p.clock incoming).2.matchesMade = p.matchesMade + 1 ∨ p.Appends incoming

/-- What stage 4 does with a valid order: it counts a match, or appends unless the level is
full. -/
theorem executed_cases (h : p.AllPlaced) (incoming : Order)
    (hv : p.matched.valid = true) :
    (p.matched.result.matched = true ∧
      (p.clock incoming).2.matchesMade = p.matchesMade + 1 ∧
      ¬ p.Appends incoming ∧ ¬ p.FindsFull) ∨
    (p.matched.result.matched = false ∧
      (p.clock incoming).2.matchesMade = p.matchesMade ∧
      (p.Appends incoming ↔ ¬ p.FindsFull)) := by
  have hladders := (p.clock_clocked incoming).ladders
  rw [stage4Execute_snd, if_pos hv] at hladders
  cases hm : p.matched.result.matched with
  | true =>
    rw [hm, if_pos rfl] at hladders
    obtain ⟨hmade, hown⟩ := p.executeMatch_same p.matched
    refine Or.inl ⟨rfl, hladders.made.trans hmade, ?_, ?_⟩
    · rintro ⟨-, -, happ⟩
      rw [restingLevel, restingLevel, hladders.own, hown] at happ
      exact List.cons_ne_nil _ _ (List.append_right_eq_self.1 happ.symm)
    · rintro ⟨-, hno, -⟩
      cases hm.symm.trans hno
  | false =>
    rw [hm, if_neg Bool.false_ne_true, executeRest_eq] at hladders
    refine Or.inr ⟨rfl, hladders.made.trans (matchesMade_setOwn _ _ _), ?_⟩
    have hown := (hladders.own p.matched.order.side).trans (own_setOwn _ _ _)
    by_cases hroom : (p.restingLevel p.matched).queue.length < 16
    · obtain ⟨l, hrest, -, hback⟩ := SlotLadder.rest_spec _ hroom p.matched.order
        (bookSide p.matched.order.side)
      rw [hrest] at hown
      have happ : p.Appends incoming := by
        refine ⟨hv, (h.matched hv).2, ?_⟩
        rw [restingLevel, hown, Vector.get_put_self, hback]
        rfl
      refine ⟨fun _ => ?_, fun _ => happ⟩
      rintro ⟨-, -, hfull⟩
      rw [PriceLevel.length_queue, hfull] at hroom
      exact absurd hroom (by decide)
    · rw [SlotLadder.rest_full _ hroom] at hown
      have hfull : p.FindsFull := by
        refine ⟨hv, hm, ?_⟩
        have hle := (p.restingLevel p.matched).count.isLt
        rw [PriceLevel.length_queue] at hroom
        exact Nat.le_antisymm (Nat.le_of_lt_succ hle) (Nat.not_lt.1 hroom)
      refine ⟨?_, fun hn => absurd hfull hn⟩
      rintro ⟨-, -, happ⟩
      rw [restingLevel, hown] at happ
      exact absurd (List.append_right_eq_self.1 happ.symm) (List.cons_ne_nil _ _)

theorem executed_invalid (incoming : Order) (hv : p.matched.valid = false) :
    (p.clock incoming).2.matchesMade = p.matchesMade ∧ ¬ p.Appends incoming ∧ ¬ p.FindsFull := by
  have hladders := (p.clock_clocked incoming).ladders
  rw [stage4Execute_snd, hv, if_neg Bool.false_ne_true] at hladders
  refine ⟨hladders.made, ?_, ?_⟩
  · rintro ⟨ht, -⟩
    cases hv.symm.trans ht
  · rintro ⟨ht, -⟩
    cases hv.symm.trans ht

/-- Stage 2 counts a register as a miss, or leaves it valid. -/
theorem stage2Route_counts (p : FpgaPipeline) (reg : PipelineRegister) :
    ((p.stage2Route reg).2.windowMisses = p.windowMisses ∧
      (p.stage2Route reg).1.valid = reg.valid) ∨
    ((p.stage2Route reg).2.windowMisses = p.windowMisses + 1 ∧ reg.valid = true ∧
      (p.stage2Route reg).1.valid = false) := by
  have hmisses : (p.setBase reg.order.price).windowMisses = p.windowMisses := by
    rw [setBase]
    split
    · rfl
    · rfl
  rw [stage2Route_eq]
  split
  · next hv =>
    split
    · exact Or.inl ⟨hmisses, rfl⟩
    · exact Or.inr ⟨congrArg (· + 1) hmisses, hv, rfl⟩
  · exact Or.inl ⟨rfl, rfl⟩

/-- The valid orders that stages 2 to 4 have still to serve. -/
def inFlight (p : FpgaPipeline) : Nat :=
  p.decoded.valid.toNat + p.routed.valid.toNat + p.matched.valid.toNat

def appends (p : FpgaPipeline) (incoming : Order) : Nat := if p.Appends incoming then 1 else 0

def drops (p : FpgaPipeline) (_ : Order) : Nat := if p.FindsFull then 1 else 0

/-- A clock takes one order in and lets one match, one append or one full level take it out. -/
theorem clock_balance (h : p.AllPlaced) (incoming : Order) :
    (p.clock incoming).2.inFlight + (p.clock incoming).2.windowMisses +
      (p.clock incoming).2.matchesMade + (p.appends incoming + p.drops incoming) =
    p.inFlight + p.windowMisses + p.matchesMade + if incoming.valid ≠ 0 then 1 else 0 := by
  have hc := p.clock_clocked incoming
  have hdecoded : (p.clock incoming).2.decoded.valid.toNat =
      if incoming.valid ≠ 0 then 1 else 0 := by
    rw [hc.decoded, stage1Decode]
    dsimp only
    by_cases hv : incoming.valid ≠ 0
    · rw [if_pos hv, decide_eq_true hv]
      rfl
    · rw [if_neg hv, decide_eq_false hv]
      rfl
  have hrouted : (p.clock incoming).2.routed.valid.toNat +
      (p.clock incoming).2.windowMisses = p.decoded.valid.toNat + p.windowMisses := by
    rw [hc.routed, hc.window.misses]
    rcases p.stage2Route_counts p.decoded with ⟨hm, hv⟩ | ⟨hm, hv, hv'⟩
    · rw [hm, hv]
    · rw [hm, hv, hv', Bool.toNat_false, Bool.toNat_true]
      omega
  have hmatched : (p.clock incoming).2.matched.valid = p.routed.valid := by
    rw [hc.matched]
    exact ((p.clock incoming).2.stage3Match_same _).2.1
  have hexecuted : (p.clock incoming).2.matchesMade + (p.appends incoming + p.drops incoming) =
      p.matchesMade + p.matched.valid.toNat := by
    rw [appends, drops]
    cases hv : p.matched.valid with
    | false =>
      obtain ⟨hmade, ha, hd⟩ := executed_invalid incoming hv
      rw [hmade, if_neg ha, if_neg hd]
      rfl
    | true =>
      rcases executed_cases h incoming hv with ⟨-, hmade, ha, hd⟩ | ⟨-, hmade, hiff⟩
      · rw [hmade, if_neg ha, if_neg hd]
        rfl
      · rw [hmade]
        by_cases hd : p.FindsFull
        · rw [if_neg fun ha => hiff.1 ha hd, if_pos hd]
          rfl
        · rw [if_pos (hiff.2 hd), if_neg hd]
          rfl
  rw [inFlight, inFlight, hdecoded, hmatched]
  omega

/-- Every valid order is accounted for in a clock exactly when none finds its level full. -/
theorem accounts_iff (h : p.AllPlaced) (incoming : Order) :
    p.Accounts incoming ↔ ¬ p.FindsFull := by
  have hc := p.clock_clocked incoming
  constructor
  · intro ha hfull
    rcases executed_cases h incoming hfull.1 with ⟨-, -, -, hd⟩ | ⟨hm, -, hiff⟩
    · exact hd hfull
    · rcases ha.executed hfull.1 with ⟨hmatched, -⟩ | happ
      · cases hm.symm.trans hmatched
      · exact hiff.1 happ hfull
  · intro hno
    refine ⟨?_, ?_, ?_, ?_⟩
    · intro hv
      rw [hc.decoded]
      exact ⟨decide_eq_true hv, rfl⟩
    · intro hv
      rw [hc.routed, hc.window.misses]
      rcases p.stage2Route_counts p.decoded with ⟨-, hv'⟩ | ⟨hm, -, -⟩
      · exact Or.inr ⟨hv'.trans hv, p.stage2Route_order _⟩
      · exact Or.inl hm
    · intro hv
      rw [hc.matched]
      obtain ⟨ho, hv', -⟩ := (p.clock incoming).2.stage3Match_same p.routed
      exact ⟨hv'.trans hv, ho⟩
    · intro hv
      rcases executed_cases h incoming hv with ⟨hm, hmade, -⟩ | ⟨-, -, hiff⟩
      · exact Or.inl ⟨hm, hmade⟩
      · exact Or.inr (hiff.2 hno)

theorem new_allPlaced (buyLevels sellLevels : Vector PriceLevel (64 * 32)) :
    (new buyLevels sellLevels).AllPlaced where
  routed hv := by cases hv
  matched hv := by cases hv

theorem inFlight_settled (buyLevels sellLevels : Vector PriceLevel (64 * 32)) {idle : List Order}
    (inputs : List Order) (hidle : ∀ o ∈ idle, o.valid = 0) (hlen : 3 ≤ idle.length) :
    (Mealy.after clock (new buyLevels sellLevels) (inputs ++ idle)).inFlight = 0 := by
  obtain ⟨o₃, o₂, o₁, r, h₃, h₂, h₁, hin⟩ :=
    settled_inOrder buyLevels sellLevels inputs hidle hlen
  have hbubble (t : FpgaPipeline) {o : Order} (h : o.valid = 0) : (t.route o).1.valid = false :=
    Bool.eq_false_iff.2 fun hv => t.route_valid hv h
  have h₁ : (stage1Decode o₁).valid = false := decide_eq_false (not_not_intro h₁)
  rw [inFlight, valid_untagged hin.decoded, valid_untagged hin.routed, valid_untagged hin.matched,
    (stage3Match_same _ _).2.1, hbubble _ h₃, hbubble _ h₂, h₁]
  rfl

/-- Drained, the pipeline has missed, matched, appended or dropped every valid order. -/
theorem processed_eq (buyLevels sellLevels : Vector PriceLevel (64 * 32)) {idle : List Order}
    (inputs : List Order) (hidle : ∀ o ∈ idle, o.valid = 0) (hlen : 3 ≤ idle.length) :
    let p := new buyLevels sellLevels
    let stream := inputs ++ idle
    let drained := Mealy.after clock p stream
    drained.ordersProcessed = drained.windowMisses + drained.matchesMade +
      (Mealy.total appends clock p stream + Mealy.total drops clock p stream) := by
  intro p stream drained
  have hinv (s : FpgaPipeline) (i : Order) (h : s.AllPlaced) : (s.clock i).2.AllPlaced := h.clock i
  have hnew : p.AllPlaced := new_allPlaced buyLevels sellLevels
  have hbalance := Mealy.total_balance
    (m := fun p : FpgaPipeline => p.inFlight + p.windowMisses + p.matchesMade)
    hinv (fun _ i h => clock_balance h i) hnew stream
  have hprocessed := Mealy.total_counter (c := ordersProcessed)
    (fun s i => (s.clock_clocked i).processed) p stream
  have hsettled : drained.inFlight = 0 := inFlight_settled buyLevels sellLevels inputs hidle hlen
  have hstart : p.inFlight + p.windowMisses + p.matchesMade = 0 := rfl
  have hcount : p.ordersProcessed = 0 := rfl
  rw [Mealy.total_add] at hbalance
  dsimp only [drained] at hsettled ⊢
  omega

/-- Drained, the pipeline has accounted for every valid order, as a window miss, a match or an
order appended to the level of its price, exactly when no order found its level full. -/
theorem orders_accounted_iff (buyLevels sellLevels : Vector PriceLevel (64 * 32))
    (inputs idle : List Order) (hidle : ∀ o ∈ idle, o.valid = 0) (hlen : 3 ≤ idle.length) :
    let p := new buyLevels sellLevels
    let stream := inputs ++ idle
    let drained := Mealy.after clock p stream
    (Mealy.EachStep Accounts clock p stream ↔
      Mealy.EachStep (fun p _ => ¬ p.FindsFull) clock p stream) ∧
    (drained.ordersProcessed =
        drained.windowMisses + drained.matchesMade + Mealy.total appends clock p stream ↔
      Mealy.EachStep (fun p _ => ¬ p.FindsFull) clock p stream) := by
  intro p stream drained
  have hinv (s : FpgaPipeline) (i : Order) (h : s.AllPlaced) : (s.clock i).2.AllPlaced := h.clock i
  have hnew : p.AllPlaced := new_allPlaced buyLevels sellLevels
  refine ⟨Mealy.eachStep_iff hinv (fun _ i h => accounts_iff h i) hnew stream, ?_⟩
  have hdrops : Mealy.total drops clock p stream = 0 ↔
      Mealy.EachStep (fun p _ => ¬ p.FindsFull) clock p stream := by
    rw [Mealy.total_eq_zero_iff]
    apply Mealy.eachStep_iff hinv ?_ hnew
    intro s i _
    rw [drops]
    split
    · next hf => exact ⟨fun h => absurd h (by decide), fun h => absurd hf h⟩
    · next hf => exact ⟨fun _ => hf, fun _ => rfl⟩
  have hprocessed : drained.ordersProcessed = _ :=
    processed_eq buyLevels sellLevels inputs hidle hlen
  rw [hprocessed, ← hdrops, ← Nat.add_assoc, Nat.add_eq_left]

theorem dropped_unaccounted (buyLevels sellLevels : Vector PriceLevel (64 * 32))
    (inputs idle : List Order) (hidle : ∀ o ∈ idle, o.valid = 0) (hlen : 3 ≤ idle.length)
    (hdrops : Mealy.total drops clock (new buyLevels sellLevels) (inputs ++ idle) ≠ 0) :
    let p := new buyLevels sellLevels
    let stream := inputs ++ idle
    let drained := Mealy.after clock p stream
    drained.ordersProcessed ≠
      drained.windowMisses + drained.matchesMade + Mealy.total appends clock p stream := by
  intro p stream drained he
  have hprocessed := processed_eq buyLevels sellLevels inputs hidle hlen
  exact hdrops (Nat.add_left_cancel
    (Nat.add_left_cancel (hprocessed.symm.trans he : _ = _ + (_ + 0))))

/-- Seventeen buys at one price, one more than a level has room for. -/
def seventeenBuys : List Order :=
  List.replicate 17 { orderRef := 1, side := .buy, quantity := 5, price := 100, valid := 1 }

/-- The last of them is neither missed nor matched nor appended. -/
theorem seventeenth_lost :
    let p := new (Vector.replicate (64 * 32) default) (Vector.replicate (64 * 32) default)
    let stream := seventeenBuys ++ threeBubbles
    let drained := Mealy.after clock p stream
    drained.ordersProcessed ≠
      drained.windowMisses + drained.matchesMade + Mealy.total appends clock p stream :=
  dropped_unaccounted _ _ seventeenBuys threeBubbles (by decide) (by decide)
    (by rw [new_zeroed]; decide +kernel)

theorem backToBack_accounted :
    let p := new (Vector.replicate (64 * 32) default) (Vector.replicate (64 * 32) default)
    let stream := backToBack ++ threeBubbles
    let drained := Mealy.after clock p stream
    Mealy.EachStep Accounts clock p stream ∧
      drained.ordersProcessed =
        drained.windowMisses + drained.matchesMade + Mealy.total appends clock p stream := by
  have hroom : Mealy.EachStep (fun p _ => ¬ p.FindsFull) clock
      (new (Vector.replicate (64 * 32) default) (Vector.replicate (64 * 32) default))
      (backToBack ++ threeBubbles) := by
    rw [new_zeroed]
    decide +kernel
  obtain ⟨haccounts, hcount⟩ := orders_accounted_iff _ _ backToBack threeBubbles (by decide)
    (by decide)
  exact ⟨haccounts.2 hroom, hcount.2 hroom⟩

end FpgaPipeline

end Tickpipe
