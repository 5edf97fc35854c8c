import Tickpipe.PipelineStep
import Tickpipe.Lib.Mealy

set_option autoImplicit true

namespace Tickpipe

/-- What a register carries, whatever stage it is at. -/
def PipelineRegister.untagged (reg : PipelineRegister) : PipelineRegister := { reg with stage := 0 }

namespace FpgaPipeline

/-- Stages 1 and 2 at once. -/
def route (p : FpgaPipeline) (order : Order) : PipelineRegister × FpgaPipeline :=
  p.stage2Route (stage1Decode order)

/-- All stages for one order, with no other order in flight. -/
def serve (p : FpgaPipeline) (order : Order) : MatchResult × FpgaPipeline :=
  let (reg, p) := p.route order
  let (reg, p) := p.stage4Execute (p.stage3Match reg)
  ((stage5Respond reg).result, p)

variable {p q t : FpgaPipeline} {reg reg' : PipelineRegister} {order : Order}

theorem order_untagged (h : reg.untagged = reg'.untagged) : reg.order = reg'.order := by
  have hn (r : PipelineRegister) : r.untagged.order = r.order := rfl
  rw [← hn, h, hn]

theorem valid_untagged (h : reg.untagged = reg'.untagged) : reg.valid = reg'.valid := by
  have hn (r : PipelineRegister) : r.untagged.valid = r.valid := rfl
  rw [← hn, h, hn]

theorem result_untagged (h : reg.untagged = reg'.untagged) : reg.result = reg'.result := by
  have hn (r : PipelineRegister) : r.untagged.result = r.result := rfl
  rw [← hn, h, hn]

theorem stage2Route_untagged (p : FpgaPipeline) (h : reg.untagged = reg'.untagged) :
    p.stage2Route reg = p.stage2Route reg' := by
  have hn (r : PipelineRegister) : p.stage2Route r.untagged = p.stage2Route r := rfl
  rw [← hn, h, hn]

theorem stage3Match_untagged (p : FpgaPipeline) (h : reg.untagged = reg'.untagged) :
    p.stage3Match reg = p.stage3Match reg' := by
  have hn (r : PipelineRegister) : p.stage3Match r.untagged = p.stage3Match r := rfl
  rw [← hn, h, hn]

theorem stage4Execute_untagged (p : FpgaPipeline) (h : reg.untagged = reg'.untagged) :
    p.stage4Execute reg = p.stage4Execute reg' := by
  have hn (r : PipelineRegister) : p.stage4Execute r.untagged = p.stage4Execute r := rfl
  rw [← hn, h, hn]

theorem route_sameLadders (p : FpgaPipeline) (order : Order) : p.SameLadders (p.route order).2 :=
  (p.stage2Route_same _).2.2

theorem serve_eq (p : FpgaPipeline) (order : Order) :
    p.serve order = ((p.stage3Match (p.route order).1).result,
      ((p.route order).2.stage4Execute (p.stage3Match (p.route order).1)).2) := by
  rw [← (p.route_sameLadders order).stage3Match, serve]
  dsimp only
  rw [stage4Execute_fst]
  rfl

theorem route_fst (p : FpgaPipeline) (order : Order) :
    (p.route order).1.order = order ∧ (p.route order).1.result = {} := by
  rw [route, stage2Route_eq]
  split
  · split
    · exact ⟨rfl, rfl⟩
    · exact ⟨rfl, rfl⟩
  · exact ⟨rfl, rfl⟩

/-- A routed register is valid only with a valid order. -/
theorem route_valid (p : FpgaPipeline) (h : (p.route order).1.valid = true) : order.valid ≠ 0 := by
  intro hv
  have hdecode : (stage1Decode order).valid = false := decide_eq_false (not_not_intro hv)
  rw [route, stage2Route_eq, hdecode, if_neg Bool.false_ne_true] at h
  exact Bool.false_ne_true h

theorem route_bubble (p : FpgaPipeline) (h : order.valid = 0) : (p.route order).2 = p := by
  have hv : decide (order.valid ≠ 0) = false := decide_eq_false (not_not_intro h)
  rw [route, stage2Route, stage1Decode]
  dsimp only
  rw [hv]
  rfl

theorem serve_bubble (p : FpgaPipeline) (h : order.valid = 0) : p.serve order = ({}, p) := by
  have hv : decide (order.valid ≠ 0) = false := decide_eq_false (not_not_intro h)
  rw [serve, route, stage2Route, stage1Decode]
  dsimp only
  rw [hv]
  rfl

/-- The registers hold what is left to do for the orders in flight: `o₁` is decoded, `o₂` routed
and `o₃` matched, and `r` is the next output. The state `t` has served every order before them. -/
structure InOrder (p t : FpgaPipeline) (o₃ o₂ o₁ : Order) (r : MatchResult) : Prop where
  executed : p.executed.result = r
  ladders : t.SameLadders p
  window : ((t.route o₃).2.route o₂).2.SameWindow p
  matched : p.matched.untagged = (t.stage3Match (t.route o₃).1).untagged
  routed : p.routed.untagged = ((t.route o₃).2.route o₂).1.untagged
  decoded : p.decoded.untagged = (stage1Decode o₁).untagged

/-- One clock serves the oldest order in flight. -/
theorem InOrder.clock (h : InOrder p t o₃ o₂ o₁ r) (incoming : Order) :
    InOrder (p.clock incoming).2 (t.serve o₃).2 o₂ o₁ incoming (t.serve o₃).1 := by
  have hc := p.clock_clocked incoming
  have hserve := t.serve_eq o₃
  have hladders : (t.serve o₃).2.SameLadders (p.clock incoming).2 := by
    have hexec := ((t.route_sameLadders o₃).symm.trans h.ladders).stage4Execute p.matched
    rw [hserve]
    dsimp only
    rw [← stage4Execute_untagged _ h.matched]
    exact hexec.trans hc.ladders
  -- the window that `o₃` left is not touched by its execution
  have hleft : (t.route o₃).2.SameWindow (t.serve o₃).2 := by
    rw [hserve]
    exact ((t.route o₃).2.stage4Execute_same _).2.2
  obtain ⟨hreg₂, hwin₂⟩ := hleft.stage2Route (stage1Decode o₂)
  obtain ⟨hreg₁, hwin₁⟩ := hwin₂.stage2Route (stage1Decode o₁)
  obtain ⟨hreg, hwin⟩ := h.window.stage2Route (stage1Decode o₁)
  have hdecoded := p.stage2Route_untagged h.decoded
  refine ⟨?_, hladders, ?_, ?_, ?_, congrArg _ hc.decoded⟩
  · rw [hc.executed, stage4Execute_fst, hserve]
    exact result_untagged h.matched
  · have hq := hc.window
    rw [hdecoded] at hq
    exact hwin₁.symm.trans (hwin.trans hq)
  · rw [hc.matched, hladders.stage3Match, stage3Match_untagged _ h.routed]
    exact congrArg (fun r => ((t.serve o₃).2.stage3Match r).untagged) hreg₂.symm
  · rw [hc.routed, hdecoded]
    exact congrArg PipelineRegister.untagged (hreg.trans hreg₁.symm)

theorem new_inOrder (buyLevels sellLevels : Vector PriceLevel (64 * 32)) :
    InOrder (new buyLevels sellLevels) (new buyLevels sellLevels) {} {} {} {} :=
  ⟨rfl, .refl _, .refl _, rfl, rfl, rfl⟩

def threeBubbles : List Order := [{}, {}, {}]

/-- The pipeline runs behind the stages in one, with three bubbles ahead of the first order. -/
theorem run_inOrder (buyLevels sellLevels : Vector PriceLevel (64 * 32)) (inputs : List Order) :
    Mealy.outputs clock (new buyLevels sellLevels) inputs =
      (List.replicate 4 ({} : MatchResult) ++
        Mealy.outputs serve (new buyLevels sellLevels) inputs).take inputs.length ∧
    ∃ o₃ o₂ o₁ r, (threeBubbles ++ inputs).drop inputs.length = [o₃, o₂, o₁] ∧
      InOrder (Mealy.after clock (new buyLevels sellLevels) inputs)
        (Mealy.after serve (new buyLevels sellLevels)
          ((threeBubbles ++ inputs).take inputs.length)) o₃ o₂ o₁ r := by
  have hd := @Mealy.delayed _ _ _ _ _ _ _ _ inputs _ clock serve
    (fun p t pending _ r => ∃ o₃ o₂ o₁, pending = [o₃, o₂, o₁] ∧ InOrder p t o₃ o₂ o₁ r)
    ?_ ⟨{}, {}, {}, rfl, new_inOrder buyLevels sellLevels⟩
  · obtain ⟨ho, r, o₃, o₂, o₁, hp, hin⟩ := hd
    exact ⟨ho, o₃, o₂, o₁, r, hp, hin⟩
  · rintro p t i pending j rest r ⟨o₃, o₂, o₁, hp, hin⟩
    obtain ⟨rfl, rfl⟩ := List.cons.inj hp
    exact ⟨hin.executed, o₂, o₁, j, rfl, hin.clock j⟩

theorem after_bubbles {idle : List Order} (p : FpgaPipeline) (h : ∀ o ∈ idle, o.valid = 0) :
    Mealy.after serve p idle = p := by
  induction idle with
  | nil => rfl
  | cons o idle ih =>
    rw [Mealy.after, serve_bubble p (h o List.mem_cons_self)]
    exact ih fun o ho => h o (List.mem_cons_of_mem _ ho)

def validOrders (stream : List Order) : List Order := stream.filter (·.valid ≠ 0)

theorem validOrders_bubble (h : order.valid = 0) (stream : List Order) :
    validOrders (order :: stream) = validOrders stream :=
  List.filter_cons_of_neg (decide_eq_true_iff.not.2 (not_not_intro h))

theorem validOrders_valid (h : order.valid ≠ 0) (stream : List Order) :
    validOrders (order :: stream) = order :: validOrders stream :=
  List.filter_cons_of_pos (decide_eq_true h)

theorem after_validOrders (p : FpgaPipeline) (stream : List Order) :
    Mealy.after serve p (validOrders stream) = Mealy.after serve p stream := by
  induction stream generalizing p with
  | nil => rfl
  | cons o stream ih =>
    by_cases hv : o.valid = 0
    · rw [validOrders_bubble hv, Mealy.after, serve_bubble p hv, ih]
    · rw [validOrders_valid hv, Mealy.after, Mealy.after, ih]

/-- The results beside the valid orders of a stream. -/
def resultsOf (stream : List Order) (results : List MatchResult) : List MatchResult :=
  ((stream.zip results).filter (·.1.valid ≠ 0)).map Prod.snd

theorem resultsOf_bubble (h : order.valid = 0) (stream : List Order) (r : MatchResult)
    (results : List MatchResult) :
    resultsOf (order :: stream) (r :: results) = resultsOf stream results :=
  congrArg (List.map Prod.snd)
    (List.filter_cons_of_neg (decide_eq_true_iff.not.2 (not_not_intro h)))

theorem resultsOf_valid (h : order.valid ≠ 0) (stream : List Order) (r : MatchResult)
    (results : List MatchResult) :
    resultsOf (order :: stream) (r :: results) = r :: resultsOf stream results :=
  congrArg (List.map Prod.snd) (List.filter_cons_of_pos (decide_eq_true h))

theorem resultsOf_serve (p : FpgaPipeline) (stream : List Order) :
    resultsOf stream (Mealy.outputs serve p stream) =
      Mealy.outputs serve p (validOrders stream) := by
  induction stream generalizing p with
  | nil => rfl
  | cons o stream ih =>
    rw [Mealy.outputs]
    by_cases hv : o.valid = 0
    · rw [resultsOf_bubble hv, validOrders_bubble hv, serve_bubble p hv, ih]
    · rw [resultsOf_valid hv, validOrders_valid hv, Mealy.outputs, ih]

/-- The results of the valid orders of a stream: each comes out four clocks later. -/
def answers (p : FpgaPipeline) (stream : List Order) : List MatchResult :=
  resultsOf stream ((Mealy.outputs clock p stream).drop 4)

theorem resultsOf_bubbles {idle : List Order} (h : ∀ o ∈ idle, o.valid = 0)
    (results : List MatchResult) : resultsOf idle results = [] := by
  induction idle generalizing results with
  | nil => rfl
  | cons o idle ih =>
    cases results with
    | nil => rfl
    | cons r results =>
      rw [resultsOf_bubble (h o List.mem_cons_self)]
      exact ih (fun o ho => h o (List.mem_cons_of_mem _ ho)) results

/-- Bubbles at the end of a stream need no results. -/
theorem resultsOf_take {idle : List Order} (h : ∀ o ∈ idle, o.valid = 0) (inputs : List Order)
    (results : List MatchResult) (hn : inputs.length ≤ n) :
    resultsOf (inputs ++ idle) (results.take n) = resultsOf (inputs ++ idle) results := by
  induction inputs generalizing results n with
  | nil => exact (resultsOf_bubbles h _).trans (resultsOf_bubbles h _).symm
  | cons o inputs ih =>
    cases n with
    | zero => cases hn
    | succ n =>
      cases results with
      | nil => rfl
      | cons r results =>
        have hrest := ih results (Nat.le_of_succ_le_succ hn)
        rw [List.take_succ_cons, List.cons_append]
        by_cases hv : o.valid = 0
        · rw [resultsOf_bubble hv, resultsOf_bubble hv, hrest]
        · rw [resultsOf_valid hv, resultsOf_valid hv, hrest]

theorem answers_eq (buyLevels sellLevels : Vector PriceLevel (64 * 32)) {idle : List Order}
    (inputs : List Order) (hidle : ∀ o ∈ idle, o.valid = 0) (hlen : 4 ≤ idle.length) :
    answers (new buyLevels sellLevels) (inputs ++ idle) =
      Mealy.outputs serve (new buyLevels sellLevels) (validOrders (inputs ++ idle)) := by
  have hle : inputs.length ≤ (inputs ++ idle).length - 4 := by
    rw [List.length_append]
    omega
  have hdelay (results : List MatchResult) :
      (List.replicate 4 ({} : MatchResult) ++ results).drop 4 = results := rfl
  rw [answers, (run_inOrder buyLevels sellLevels (inputs ++ idle)).1, List.drop_take, hdelay,
    resultsOf_take hidle inputs _ hle, resultsOf_serve]

/-- What is left of the stream once all but three bubbles have been served. -/
theorem split_idle (inputs : List Order) {idle : List Order} (hlen : 3 ≤ idle.length) :
    ∃ front back, idle = front ++ back ∧
      (threeBubbles ++ (inputs ++ idle)).take (inputs ++ idle).length =
        threeBubbles ++ inputs ++ front ∧
      (threeBubbles ++ (inputs ++ idle)).drop (inputs ++ idle).length = back := by
  have hsplit := List.take_append_drop (idle.length - 3) idle
  have hback : (idle.drop (idle.length - 3)).length = 3 := by rw [List.length_drop]; omega
  have hn : (inputs ++ idle).length =
      (threeBubbles ++ inputs ++ idle.take (idle.length - 3)).length := by
    simp only [List.length_append, List.length_take, threeBubbles, List.length_cons,
      List.length_nil]
    omega
  have hstream : threeBubbles ++ (inputs ++ idle) =
      (threeBubbles ++ inputs ++ idle.take (idle.length - 3)) ++ idle.drop (idle.length - 3) := by
    rw [List.append_assoc _ _ (idle.drop _), hsplit, List.append_assoc]
  refine ⟨_, _, hsplit.symm, ?_, ?_⟩
  · rw [hstream, hn, List.take_left]
  · rw [hstream, hn, List.drop_left]

/-- After three bubbles every order has been executed, and only bubbles are in flight. -/
theorem settled_inOrder (buyLevels sellLevels : Vector PriceLevel (64 * 32)) {idle : List Order}
    (inputs : List Order) (hidle : ∀ o ∈ idle, o.valid = 0) (hlen : 3 ≤ idle.length) :
    ∃ o₃ o₂ o₁ r, o₃.valid = 0 ∧ o₂.valid = 0 ∧ o₁.valid = 0 ∧
      InOrder (Mealy.after clock (new buyLevels sellLevels) (inputs ++ idle))
        (Mealy.after serve (new buyLevels sellLevels) inputs) o₃ o₂ o₁ r := by
  obtain ⟨-, o₃, o₂, o₁, r, hp, hin⟩ := run_inOrder buyLevels sellLevels (inputs ++ idle)
  obtain ⟨front, back, rfl, htake, hdrop⟩ := split_idle inputs hlen
  have hfront (o : Order) (ho : o ∈ front) : o.valid = 0 := hidle o (List.mem_append_left _ ho)
  have hback (o : Order) (ho : o ∈ [o₃, o₂, o₁]) : o.valid = 0 :=
    hidle o (List.mem_append_right _ (hdrop.symm.trans hp ▸ ho))
  have hserved : Mealy.after serve (new buyLevels sellLevels) (threeBubbles ++ inputs ++ front) =
      Mealy.after serve (new buyLevels sellLevels) inputs := by
    rw [Mealy.after_append, after_bubbles _ hfront, Mealy.after_append]
    rfl
  rw [htake, hserved] at hin
  obtain ⟨h₃, hback⟩ := List.forall_mem_cons.1 hback
  obtain ⟨h₂, hback⟩ := List.forall_mem_cons.1 hback
  exact ⟨o₃, o₂, o₁, r, h₃, h₂, hback o₁ List.mem_cons_self, hin⟩

theorem settled (buyLevels sellLevels : Vector PriceLevel (64 * 32)) {idle : List Order}
    (inputs : List Order) (hidle : ∀ o ∈ idle, o.valid = 0) (hlen : 3 ≤ idle.length) :
    (Mealy.after serve (new buyLevels sellLevels) inputs).SameLadders
        (Mealy.after clock (new buyLevels sellLevels) (inputs ++ idle)) ∧
      (Mealy.after serve (new buyLevels sellLevels) inputs).SameWindow
        (Mealy.after clock (new buyLevels sellLevels) (inputs ++ idle)) := by
  obtain ⟨o₃, o₂, o₁, r, h₃, h₂, -, hin⟩ :=
    settled_inOrder buyLevels sellLevels inputs hidle hlen
  have hwindow := hin.window
  rw [route_bubble _ h₃, route_bubble _ h₂] at hwindow
  exact ⟨hin.ladders, hwindow⟩

def flushInputs : List Order := List.replicate 5 {}

theorem flush_after (p : FpgaPipeline) : p.flush.2 = Mealy.after clock p flushInputs := by
  simp only [flush, Nat.fold_succ, Nat.fold_zero, flushInputs, List.replicate, Mealy.after]

/-- The stream that drains the pipeline after each order. -/
def drainEach (orders : List Order) : List Order := orders.flatMap (· :: flushInputs)

theorem validOrders_drainEach {orders : List Order} (h : ∀ o ∈ orders, o.valid ≠ 0) :
    validOrders (drainEach orders) = orders := by
  induction orders with
  | nil => rfl
  | cons o orders ih =>
    have hrest := ih fun o ho => h o (List.mem_cons_of_mem _ ho)
    rw [drainEach, List.flatMap_cons, List.cons_append, validOrders_valid (h o List.mem_cons_self)]
    exact congrArg (o :: ·) hrest

/-- A stream that leaves no order in flight. -/
def Drains (stream : List Order) : Prop :=
  stream = [] ∨ ∃ inputs idle, stream = inputs ++ idle ∧ (∀ o ∈ idle, o.valid = 0) ∧
    4 ≤ idle.length

theorem drainEach_drains (orders : List Order) : Drains (drainEach orders) := by
  rcases List.eq_nil_or_concat orders with rfl | ⟨orders, o, rfl⟩
  · exact Or.inl rfl
  · refine Or.inr ⟨drainEach orders ++ [o], flushInputs, ?_, by decide, by decide⟩
    rw [drainEach, List.concat_eq_append, List.flatMap_append, List.append_assoc]
    rfl

theorem Drains.answers (buyLevels sellLevels : Vector PriceLevel (64 * 32)) (h : Drains stream) :
    answers (new buyLevels sellLevels) stream =
      Mealy.outputs serve (new buyLevels sellLevels) (validOrders stream) := by
  rcases h with rfl | ⟨inputs, idle, rfl, hidle, hlen⟩
  · rfl
  · exact answers_eq buyLevels sellLevels inputs hidle hlen

theorem Drains.same (buyLevels sellLevels : Vector PriceLevel (64 * 32)) (h : Drains stream) :
    (Mealy.after serve (new buyLevels sellLevels) (validOrders stream)).SameLadders
        (Mealy.after clock (new buyLevels sellLevels) stream) ∧
      (Mealy.after serve (new buyLevels sellLevels) (validOrders stream)).SameWindow
        (Mealy.after clock (new buyLevels sellLevels) stream) := by
  rcases h with rfl | ⟨inputs, idle, rfl, hidle, hlen⟩
  · exact ⟨.refl _, .refl _⟩
  · rw [after_validOrders, Mealy.after_append serve, after_bubbles _ hidle]
    exact settled buyLevels sellLevels inputs hidle (Nat.le_of_succ_le hlen)

/-- A match that waits for stage 4 names the head of the very level that stage 4 takes the shares
from in the next clock, and that head has as many. -/
def NamesHead (p : FpgaPipeline) : Prop :=
  let reg := p.matched
  reg.valid = true → reg.result.matched = true →
    ∃ slot level, p.offered reg.order.side = some slot ∧
      (p.opposite reg.order.side).levels.get slot = level ∧ ¬ level.isEmpty = true ∧
      reg.result = hit reg.order level ∧ reg.result.quantity ≤ level.headQuantity ∧
      ∀ incoming, (p.clock incoming).2.opposite reg.order.side =
        (p.opposite reg.order.side).fill slot reg.result.quantity

theorem hit_quantity (order : Order) (level : PriceLevel) :
    (hit order level).quantity ≤ level.headQuantity := by
  have hmin : (min order.quantity level.headQuantity).toNat ≤ level.headQuantity.toNat := by
    rw [UInt32.toNat_min]
    exact Nat.min_le_right _ _
  rw [hit]
  split
  · exact UInt32.le_iff_toNat_le.2 hmin
  · exact UInt32.le_iff_toNat_le.2 hmin

theorem stage3Match_matched (p : FpgaPipeline) (reg : PipelineRegister) (hr : reg.result = {})
    (hm : (p.stage3Match reg).result.matched = true) :
    ∃ level, p.crossed? reg.order = some level ∧
      (p.stage3Match reg).result = hit reg.order level := by
  rw [stage3Match_eq, hr] at hm ⊢
  dsimp only at hm ⊢
  split at hm
  · next hv =>
    rw [if_pos hv]
    cases hc : p.crossed? reg.order with
    | none =>
      rw [hc] at hm
      cases hm
    | some level => exact ⟨level, rfl, rfl⟩
  · cases hm

theorem InOrder.namesHead (h : InOrder p t o₃ o₂ o₁ r) : p.NamesHead := by
  intro hv hm
  obtain ⟨ho, hr⟩ := t.route_fst o₃
  have hresult := result_untagged h.matched
  have horder : p.matched.order = (t.route o₃).1.order := by
    rw [order_untagged h.matched, stage3Match_eq]
  rw [hresult] at hm
  obtain ⟨level, hc, hhit⟩ := t.stage3Match_matched _ hr hm
  rw [← h.ladders.crossed?, ← horder] at hc
  rw [← hresult, ← horder] at hhit
  rw [← hresult] at hm
  obtain ⟨slot, hs, hl, hne, -⟩ := crossed?_eq_some_iff.1 hc
  refine ⟨slot, level, hs, hl, hne, hhit, ?_, ?_⟩
  · rw [hhit]
    exact hit_quantity _ level
  · intro incoming
    have hq := (p.clock_clocked incoming).ladders.opposite p.matched.order.side
    rw [stage4Execute_snd, if_pos hv, if_pos hm, p.executeMatch_eq _ hs] at hq
    exact hq.trans (p.opposite_setOpposite _ _)

/-- Bubbles between the orders make no difference: each order gets the result it gets when the
pipeline is drained after every order, and the run ends with the same ladders and window. Whatever
is clocked in, a match names the head that stage 4 takes the shares from. -/
theorem pipelining_transparent (buyLevels sellLevels : Vector PriceLevel (64 * 32))
    (inputs idle : List Order) (hidle : ∀ o ∈ idle, o.valid = 0) (hlen : 4 ≤ idle.length) :
    let p := new buyLevels sellLevels
    let spaced := inputs ++ idle
    let drained := drainEach (validOrders inputs)
    answers p spaced = answers p drained ∧
    (answers p spaced).length = (validOrders inputs).length ∧
    (Mealy.after clock p drained).SameLadders (Mealy.after clock p spaced) ∧
    (Mealy.after clock p drained).SameWindow (Mealy.after clock p spaced) ∧
    ∀ seen, (Mealy.after clock p seen).NamesHead := by
  intro p spaced drained
  have hspaced : Drains spaced := Or.inr ⟨inputs, idle, rfl, hidle, hlen⟩
  have hvalid : validOrders spaced = validOrders inputs := by
    have hbubbles : validOrders idle = [] :=
      List.filter_eq_nil_iff.2 fun o ho => decide_eq_true_iff.not.2 (not_not_intro (hidle o ho))
    rw [validOrders, List.filter_append, ← validOrders, ← validOrders, hbubbles, List.append_nil]
  have hdrained : validOrders drained = validOrders inputs :=
    validOrders_drainEach fun o ho => of_decide_eq_true (List.mem_filter.1 ho).2
  have hs := hspaced.answers buyLevels sellLevels
  have hd := (drainEach_drains (validOrders inputs)).answers buyLevels sellLevels
  obtain ⟨hls, hws⟩ := hspaced.same buyLevels sellLevels
  obtain ⟨hld, hwd⟩ := (drainEach_drains (validOrders inputs)).same buyLevels sellLevels
  rw [hvalid] at hs hls hws
  rw [hdrained] at hd hld hwd
  refine ⟨hs.trans hd.symm, ?_, hld.symm.trans hls, hwd.symm.trans hws, ?_⟩
  · rw [hs, Mealy.length_outputs]
  · intro seen
    obtain ⟨-, o₃, o₂, o₁, r, -, hin⟩ := run_inOrder buyLevels sellLevels seen
    exact hin.namesHead

/-- A sell, and two buys that follow it without a bubble and share it. -/
def backToBack : List Order :=
  [{ orderRef := 1, side := .sell, quantity := 10, price := 200000, valid := 1 },
   { orderRef := 2, side := .buy, quantity := 4, price := 200000, valid := 1 },
   { orderRef := 3, side := .buy, quantity := 9, price := 200000, valid := 1 }]

theorem backToBack_transparent :
    let p := new (Vector.replicate (64 * 32) default) (Vector.replicate (64 * 32) default)
    let spaced := backToBack ++ List.replicate 4 ({} : Order)
    let drained := drainEach (validOrders backToBack)
    (answers p spaced = answers p drained ∧
      (answers p spaced).length = (validOrders backToBack).length ∧
      (Mealy.after clock p drained).SameLadders (Mealy.after clock p spaced) ∧
      (Mealy.after clock p drained).SameWindow (Mealy.after clock p spaced) ∧
      ∀ seen, (Mealy.after clock p seen).NamesHead) ∧
    answers p spaced =
      [({} : MatchResult), ⟨2, 1, 200000, 4, true⟩, ⟨3, 1, 200000, 6, true⟩] := by
  refine ⟨pipelining_transparent _ _ backToBack _ (by decide) (by decide), ?_⟩
  rw [new_zeroed]
  decide +kernel

end FpgaPipeline

end Tickpipe
