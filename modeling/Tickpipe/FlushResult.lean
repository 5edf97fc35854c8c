import Tickpipe.Transparency

set_option autoImplicit true

namespace Tickpipe

inductive PipelineCall where
  | clock (incoming : Order)
  | flush

def PipelineCall.inputs : PipelineCall → List Order
  | .clock incoming => [incoming]
  | .flush => FpgaPipeline.flushInputs

namespace FpgaPipeline

def call (p : FpgaPipeline) : PipelineCall → FpgaPipeline
  | .clock incoming => (p.clock incoming).2
  | .flush => p.flush.2

def callAll (p : FpgaPipeline) (calls : List PipelineCall) : FpgaPipeline := calls.foldl call p

theorem callAll_eq (p : FpgaPipeline) (calls : List PipelineCall) :
    p.callAll calls = Mealy.after clock p (calls.flatMap PipelineCall.inputs) := by
  induction calls generalizing p with
  | nil => rfl
  | cons c calls ih =>
    rw [List.flatMap_cons, Mealy.after_append, callAll, List.foldl_cons, ← callAll, ih]
    cases c with
    | clock incoming => rfl
    | flush => rw [call, flush_after, PipelineCall.inputs]

/-- What a run with explicit bubbles returns for an order: the output of the fourth clock behind
its own. -/
def answerOf (p : FpgaPipeline) (order : Order) : MatchResult :=
  ((Mealy.after clock (p.clock order).2 threeBubbles).clock {}).1

/-- An order that the stages would drop or put into the book: its price is outside of the window,
or it crosses no level. -/
def Unanswered (p : FpgaPipeline) (order : Order) : Prop :=
  (p.slotOf order.price).1 = none ∨ p.crossed? order = none

instance (p : FpgaPipeline) (order : Order) : Decidable (p.Unanswered order) :=
  inferInstanceAs (Decidable (_ ∨ _))

variable {p t : FpgaPipeline} {order : Order}

theorem serve_fst (p : FpgaPipeline) (h : order.valid ≠ 0) :
    (p.serve order).1 = if (p.slotOf order.price).1.isSome then
      ((p.crossed? order).map (hit order)).getD {} else {} := by
  obtain ⟨horder, hresult⟩ := p.route_fst order
  have hvalid : (p.route order).1.valid = (p.slotOf order.price).1.isSome := by
    have hdecode : (stage1Decode order).valid = true := decide_eq_true h
    have hprice : (stage1Decode order).order.price = order.price := rfl
    rw [route, stage2Route_eq, if_pos hdecode, hprice]
    cases (p.slotOf order.price).1 with
    | none => rfl
    | some slot => exact hdecode
  rw [serve_eq, stage3Match_eq]
  dsimp only
  rw [horder, hresult, hvalid]

theorem serve_eq_empty_iff (p : FpgaPipeline) (h : order.valid ≠ 0) :
    (p.serve order).1 = {} ↔ p.Unanswered order := by
  rw [serve_fst p h, Unanswered]
  cases (p.slotOf order.price).1 with
  | none => exact ⟨fun _ => .inl rfl, fun _ => rfl⟩
  | some slot =>
    cases p.crossed? order with
    | none => exact ⟨fun _ => .inr rfl, fun _ => rfl⟩
    | some level =>
      constructor
      · intro hempty
        have hmatched := congrArg MatchResult.matched hempty
        exact absurd ((hit_matched order level).symm.trans hmatched) (by decide)
      · rintro (hslot | hlevel)
        · cases hslot
        · cases hlevel

/-- An order injected behind others is answered from the book that they leave. -/
theorem InOrder.answerOf (h : InOrder p t o₃ o₂ o₁ r) (order : Order) :
    p.answerOf order = ((Mealy.after serve t [o₃, o₂, o₁]).serve order).1 := by
  have hlast := (((h.clock order).clock {}).clock {}).clock {}
  rw [FpgaPipeline.answerOf, clock_fst]
  simp only [threeBubbles, Mealy.after]
  exact hlast.executed

/-- The last of the five bubbles of a flush brings out the first. -/
theorem InOrder.flush (h : InOrder p t o₃ o₂ o₁ r) (order : Order) :
    (p.clock order).2.flush.1 = {} := by
  have hlast := ((((h.clock order).clock {}).clock {}).clock {}).clock {}
  have hresult := hlast.executed
  rw [serve_bubble _ rfl] at hresult
  simp only [FpgaPipeline.flush, Nat.fold_succ, Nat.fold_zero]
  rw [clock_fst]
  exact hresult

/-- After three bubbles the book is what the orders in flight left. -/
theorem InOrder.drained (h : InOrder p t o₃ o₂ o₁ r) (order : Order) :
    (Mealy.after FpgaPipeline.clock p threeBubbles).Unanswered order ↔
      (Mealy.after serve t [o₃, o₂, o₁]).Unanswered order := by
  have hlast := ((h.clock {}).clock {}).clock {}
  have hwindow := hlast.window
  rw [route_bubble _ rfl, route_bubble _ rfl] at hwindow
  have hslot := hwindow.slotOf order.price
  have hlevel := hlast.ladders.crossed? order
  have hiff {q q' : FpgaPipeline} (hs : (q'.slotOf order.price).1 = (q.slotOf order.price).1)
      (hl : q'.crossed? order = q.crossed? order) : q'.Unanswered order ↔ q.Unanswered order := by
    rw [Unanswered, Unanswered, hs, hl]
  exact hiff hslot hlevel

theorem callAll_inOrder (buyLevels sellLevels : Vector PriceLevel (64 * 32))
    (calls : List PipelineCall) :
    ∃ t o₃ o₂ o₁ r, InOrder ((new buyLevels sellLevels).callAll calls) t o₃ o₂ o₁ r := by
  obtain ⟨-, o₃, o₂, o₁, r, -, hin⟩ :=
    run_inOrder buyLevels sellLevels (calls.flatMap PipelineCall.inputs)
  rw [← callAll_eq] at hin
  exact ⟨_, o₃, o₂, o₁, r, hin⟩

end FpgaPipeline

/-- `flush` returns the answer to the last order exactly when that is the empty answer: once the
orders in flight have been executed, the last one misses the window or crosses nothing. -/
theorem flush_delivers_iff (buyLevels sellLevels : Vector PriceLevel (64 * 32))
    (calls : List PipelineCall) (order : Order) (hvalid : order.valid ≠ 0) :
    let p := (FpgaPipeline.new buyLevels sellLevels).callAll calls
    (p.clock order).2.flush.1 = p.answerOf order ↔
      (Mealy.after FpgaPipeline.clock p FpgaPipeline.threeBubbles).Unanswered order := by
  intro p
  obtain ⟨t, o₃, o₂, o₁, r, hin⟩ :=
    FpgaPipeline.callAll_inOrder buyLevels sellLevels calls
  rw [hin.flush order, hin.answerOf order, hin.drained order, eq_comm]
  exact FpgaPipeline.serve_eq_empty_iff _ hvalid

def restingSell : Order :=
  { orderRef := 1, side := .sell, quantity := 10, price := 200000, valid := 1 }

/-- A sell that rests is answered with nothing, and so is its `flush`. -/
theorem restingSell_delivered :
    let p := (FpgaPipeline.new (Vector.replicate (64 * 32) default)
      (Vector.replicate (64 * 32) default)).callAll []
    (p.clock restingSell).2.flush.1 = p.answerOf restingSell := by
  apply (flush_delivers_iff _ _ [] restingSell (by decide)).2
  rw [FpgaPipeline.new_zeroed]
  decide +kernel

def crossingBuy : Order :=
  { orderRef := 2, side := .buy, quantity := 10, price := 200000, valid := 1 }

/-- A buy that takes all of a resting sell is answered with the match, and `flush` returns none. -/
theorem crossingBuy_lost :
    let p := (FpgaPipeline.new (Vector.replicate (64 * 32) default)
      (Vector.replicate (64 * 32) default)).callAll [.clock restingSell, .flush]
    p.answerOf crossingBuy = ⟨2, 1, 200000, 10, true⟩ ∧
      (p.clock crossingBuy).2.flush.1 = {} := by
  rw [FpgaPipeline.new_zeroed]
  decide +kernel

end Tickpipe
