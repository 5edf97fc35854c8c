import Tickpipe.Microprice

set_option autoImplicit true

namespace Tickpipe

open Mealy (after kept)
open Checked (signed signed_of_fits Agree)

structure Top where
  bidPx : UInt32
  bidQty : UInt32
  askPx : UInt32
  askQty : UInt32
deriving DecidableEq

namespace Top

/-- The book is two-sided and uncrossed. -/
def TwoSided (top : Top) : Prop :=
  ¬ (top.bidPx = 0 ∨ top.askPx = 0 ∨ top.bidQty = 0 ∨ top.askQty = 0) ∧ ¬ top.bidPx ≥ top.askPx

def event (top : Top) : MarketEvent := .book top.bidPx top.bidQty top.askPx top.askQty

/-- The top after a call, when it was `last` before it. -/
def next (last : Option Top) : MarketEvent → Option Top
  | .book bidPx bidQty askPx askQty => some ⟨bidPx, bidQty, askPx, askQty⟩
  | .trade _ _ _ => last

def repeats (last : Option Top) : MarketEvent → Bool
  | .book bidPx bidQty askPx askQty => last = some ⟨bidPx, bidQty, askPx, askQty⟩
  | .trade _ _ _ => false

end Top

/-- The calls without those of `on_book` that repeat the top of the one before. -/
def skipUnchanged (last : Option Top) (events : List MarketEvent) : List MarketEvent :=
  kept Top.repeats Top.next last events

/-- All metrics but the counts of updates. -/
def Metrics.uncounted (m : Metrics) : Metrics := { m with bookUpdates := 0, degenerateBooks := 0 }

namespace Microstructure

def uncounted (s : Microstructure) : Microstructure := { s with m := s.m.uncounted }

/-- The state with the top that the next call of `on_book` is compared with. -/
def withTop (s : Microstructure) (top : Top) : Microstructure :=
  { s with pb := top.bidPx, qb := top.bidQty, pa := top.askPx, qa := top.askQty }

section Counts

variable {s s' : Microstructure}

theorem eq_of_uncounted (h : s.uncounted = s'.uncounted) :
    s' = { s with m := { s.m with
      bookUpdates := s'.m.bookUpdates
      degenerateBooks := s'.m.degenerateBooks } } := by
  obtain ⟨⟨⟩⟩ := s
  obtain ⟨⟨⟩⟩ := s'
  cases h
  rfl

theorem quote_uncounted (h : s.uncounted = s'.uncounted) (bidPx bidQty askPx askQty : UInt32) :
    Agree uncounted (s.quote bidPx bidQty askPx askQty) (s'.quote bidPx bidQty askPx askQty) := by
  rw [eq_of_uncounted h, quote_eq_prices, quote_eq_prices]
  exact .bind fun prices => .bind fun ofi => .pure rfl

theorem addReturn_uncounted (h : s.uncounted = s'.uncounted) (prev mid : Int) :
    Agree uncounted (s.addReturn prev mid) (s'.addReturn prev mid) := by
  rw [eq_of_uncounted h, addReturn, addReturn]
  exact .bind fun x => .bind fun r => .bind fun square => .bind fun square => .bind fun sum =>
    .bind fun root => .pure rfl

theorem volatility_uncounted (h : s.uncounted = s'.uncounted) (bidPx askPx : UInt32) :
    Agree uncounted (s.volatility bidPx askPx) (s'.volatility bidPx askPx) := by
  have hprev : s.havePrev = s'.havePrev := by rw [eq_of_uncounted h]
  have hmid : s.prevMid1e4X2 = s'.prevMid1e4X2 := by rw [eq_of_uncounted h]
  rw [volatility, volatility, hprev, hmid]
  refine .bind fun mid => ?_
  refine .next (.ite Iff.rfl (addReturn_uncounted h _ mid) (.pure h)) fun t t' ht => ?_
  rw [eq_of_uncounted ht]
  exact .pure rfl

theorem withTop_uncounted (h : s.uncounted = s'.uncounted) (top : Top) :
    (s.withTop top).uncounted = (s'.withTop top).uncounted := by
  rw [eq_of_uncounted h]
  rfl

theorem onBook_uncounted (h : s.uncounted = s'.uncounted) (bidPx bidQty askPx askQty : UInt32) :
    (s.onBook bidPx bidQty askPx askQty).2.uncounted =
      (s'.onBook bidPx bidQty askPx askQty).2.uncounted := by
  rw [onBook, onBook]
  split
  · exact h
  · split
    · rw [eq_of_uncounted h]
      rfl
    · have hvolatility : Agree uncounted
          ((s.quote bidPx bidQty askPx askQty).value.volatility bidPx askPx)
          ((s'.quote bidPx bidQty askPx askQty).value.volatility bidPx askPx) :=
        volatility_uncounted (quote_uncounted h bidPx bidQty askPx askQty) bidPx askPx
      exact withTop_uncounted hvolatility ⟨bidPx, bidQty, askPx, askQty⟩

theorem addSpread_uncounted (h : s.uncounted = s'.uncounted) (mid : Int) (px : UInt32) :
    Agree uncounted (s.addSpread mid px) (s'.addSpread mid px) := by
  rw [eq_of_uncounted h, addSpread, addSpread]
  exact .bind fun double => .bind fun d => .bind fun d => .bind fun d => .bind fun sum => .pure rfl

theorem addImpact_uncounted (h : s.uncounted = s'.uncounted) (mid v : Int) :
    Agree uncounted (s.addImpact mid v) (s'.addImpact mid v) := by
  rw [eq_of_uncounted h, addImpact, addImpact]
  refine .bind fun dp => .bind fun product => .bind fun sumDpV => .bind fun square =>
    .bind fun square => .bind fun sumVSq => .ite Iff.rfl ?_ (.pure rfl)
  exact .bind fun num => .bind fun den => .bind fun q => .bind fun lambda => .pure rfl

theorem trade_uncounted (h : s.uncounted = s'.uncounted) (px qty : UInt32)
    (buyerInitiated : Bool) :
    Agree uncounted (s.trade px qty buyerInitiated) (s'.trade px qty buyerInitiated) := by
  have hpb : s.pb = s'.pb := by rw [eq_of_uncounted h]
  have hpa : s.pa = s'.pa := by rw [eq_of_uncounted h]
  rw [trade, trade, hpb, hpa]
  refine .bind fun mid => (addSpread_uncounted h mid px).next fun t t' ht => .bind fun v => ?_
  have hmid : t.prevTradeMidX2 = t'.prevTradeMidX2 := by rw [eq_of_uncounted ht]
  rw [hmid]
  refine .next (.ite Iff.rfl (addImpact_uncounted ht mid v) (.pure ht)) fun u u' hu => ?_
  rw [eq_of_uncounted hu]
  exact .pure rfl

theorem onTrade_uncounted (h : s.uncounted = s'.uncounted) (px qty : UInt32)
    (buyerInitiated : Bool) : (s.onTrade px qty buyerInitiated).2.uncounted =
      (s'.onTrade px qty buyerInitiated).2.uncounted := by
  have hprev : s.havePrev = s'.havePrev := by rw [eq_of_uncounted h]
  have hpb : s.pb = s'.pb := by rw [eq_of_uncounted h]
  have hpa : s.pa = s'.pa := by rw [eq_of_uncounted h]
  rw [onTrade, onTrade, hprev, hpb, hpa]
  split
  · exact h
  · exact trade_uncounted h px qty buyerInitiated

theorem step_uncounted (s s' : Microstructure) (event : MarketEvent)
    (h : s.uncounted = s'.uncounted) :
    (s.step event).2.uncounted = (s'.step event).2.uncounted := by
  cases event with
  | book bidPx bidQty askPx askQty => exact onBook_uncounted h bidPx bidQty askPx askQty
  | trade px qty buyerInitiated => exact onTrade_uncounted h px qty buyerInitiated

end Counts

/-- What `on_book` leaves behind and a trade does not touch. -/
structure BookPart where
  top : Top
  havePrev : Bool
  prevMid : Int
  prices : Prices
  ofi : Int

def bookPart (s : Microstructure) : BookPart where
  top := ⟨s.pb, s.qb, s.pa, s.qa⟩
  havePrev := s.havePrev
  prevMid := s.prevMid1e4X2
  prices := ⟨s.m.microprice1e8, s.m.mid1e8, s.m.microMinusMid1e8⟩
  ofi := s.m.ofi

def partOf (top : Top) (ofi : Int) : BookPart where
  top := top
  havePrev := true
  prevMid := (top.bidPx.toNat + top.askPx.toNat : Nat)
  prices := (prices top.bidPx top.bidQty top.askPx top.askQty).value
  ofi := ofi

/-- What holds after the last call with `last`. -/
structure Settled (last : Option Top) (s : Microstructure) : Prop where
  ofi : s.m.ofi.bmod (2 ^ 64) = s.m.ofi
  part : ∀ top ∈ last, top.TwoSided → s.bookPart = partOf top s.m.ofi

section Step

variable {s : Microstructure} {top : Top}

theorem trade_bookPart (px qty : UInt32) (buyerInitiated : Bool) :
    (s.trade px qty buyerInitiated).Yields fun s' => s'.bookPart = s.bookPart := by
  have hspread (mid : Int) : (s.addSpread mid px).Yields fun s' => s'.bookPart = s.bookPart := by
    rw [addSpread]
    exact .bind fun double => .bind fun d => .bind fun d => .bind fun d => .bind fun sum =>
      .pure rfl
  have himpact (t : Microstructure) (mid v : Int) :
      (t.addImpact mid v).Yields fun s' => s'.bookPart = t.bookPart := by
    rw [addImpact]
    refine .bind fun dp => .bind fun product => .bind fun sumDpV => .bind fun square =>
      .bind fun square => .bind fun sumVSq => ?_
    dsimp only
    split
    · exact .bind fun num => .bind fun den => .bind fun q => .bind fun lambda => .pure rfl
    · exact .pure rfl
  rw [trade]
  refine .bind fun mid => (hspread mid).next fun t ht => .bind fun v => ?_
  have hnext : (if t.prevTradeMidX2 > 0 then t.addImpact mid v else pure t).Yields
      fun s' => s'.bookPart = s.bookPart := by
    split
    · exact (himpact t mid v).imp fun s' h => h.trans ht
    · exact .pure ht
  exact hnext.next fun u hu => .pure hu

theorem Settled.onTrade (h : s.Settled last) (px qty : UInt32) (buyerInitiated : Bool) :
    (s.onTrade px qty buyerInitiated).2.Settled last := by
  rw [Microstructure.onTrade]
  split
  · exact h
  · have hpart : (s.trade px qty buyerInitiated).value.bookPart = s.bookPart :=
      trade_bookPart px qty buyerInitiated
    have hofi : (s.trade px qty buyerInitiated).value.m.ofi = s.m.ofi :=
      congrArg BookPart.ofi hpart
    dsimp only
    constructor
    · rw [hofi]
      exact h.ofi
    · rw [hpart, hofi]
      exact h.part

theorem imbalance_range (s : Microstructure) (bidPx bidQty askPx askQty : UInt32) :
    (s.imbalance bidPx bidQty askPx askQty).Yields fun ofi => ofi.bmod (2 ^ 64) = ofi := by
  rw [imbalance]
  exact .bind fun e => .bind fun e => .bind fun e => .bind fun e => Int.bmod_bmod

theorem onBook_bookPart (h : s.m.ofi.bmod (2 ^ 64) = s.m.ofi) (htop : top.TwoSided) :
    let s' := (s.step top.event).2
    s'.m.ofi.bmod (2 ^ 64) = s'.m.ofi ∧ s'.bookPart = partOf top s'.m.ofi := by
  rw [Top.event, step, Microstructure.onBook, if_neg htop.1, if_neg htop.2]
  obtain ⟨sum, root, hv⟩ := volatility_value
    (s.quote top.bidPx top.bidQty top.askPx top.askQty).value top.bidPx top.askPx
  have hofi : (if s.havePrev then s.imbalance top.bidPx top.bidQty top.askPx top.askQty
      else pure s.m.ofi).Yields fun ofi => ofi.bmod (2 ^ 64) = ofi := by
    split
    · exact imbalance_range s _ _ _ _
    · exact .pure h
  dsimp only
  rw [hv, quote_eq_prices, partOf]
  generalize prices top.bidPx top.bidQty top.askPx top.askQty = p
  generalize (if s.havePrev then s.imbalance top.bidPx top.bidQty top.askPx top.askQty
    else pure s.m.ofi) = ofi at hofi
  exact ⟨hofi, rfl⟩

theorem Settled.onBook (h : s.Settled last) (top : Top) :
    (s.step top.event).2.Settled (some top) := by
  by_cases htop : top.TwoSided
  · obtain ⟨hofi, hpart⟩ := onBook_bookPart h.ofi htop
    refine ⟨hofi, ?_⟩
    rintro _ ⟨⟩ -
    exact hpart
  · have hofi : (s.step top.event).2.m.ofi = s.m.ofi := by
      rw [Top.event, step, Microstructure.onBook]
      split
      · rfl
      · next hz =>
        rw [if_pos (not_not.1 fun hl => htop ⟨hz, hl⟩)]
    refine ⟨?_, ?_⟩
    · rw [hofi]
      exact h.ofi
    · rintro _ ⟨⟩ htop'
      exact absurd htop' htop

/-- The flow from a top to itself is zero. -/
theorem imbalance_repeated (h : s.m.ofi.bmod (2 ^ 64) = s.m.ofi) :
    (s.imbalance s.pb s.qb s.pa s.qa).value = s.m.ofi := by
  have hqb := s.qb.toNat_lt
  have hqa := s.qa.toNat_lt
  rw [imbalance, if_pos UInt32.le_rfl, signed_of_fits (by omega) (by omega), Checked.pure_bind,
    if_pos UInt32.le_rfl, signed_of_fits (by omega) (by omega), Checked.pure_bind,
    if_pos UInt32.le_rfl, signed_of_fits (by omega) (by omega), Checked.pure_bind,
    if_pos UInt32.le_rfl, signed_of_fits (by omega) (by omega), Checked.pure_bind, Int.sub_self,
    Int.zero_sub, Int.add_left_neg, Int.add_zero]
  exact h

theorem quote_repeated (h : s.Settled (some ⟨s.pb, s.qb, s.pa, s.qa⟩))
    (htop : (⟨s.pb, s.qb, s.pa, s.qa⟩ : Top).TwoSided) :
    (s.quote s.pb s.qb s.pa s.qa).value =
      { s with m := { s.m with bookUpdates := s.m.bookUpdates + 1 } } := by
  have hpart := h.part _ rfl htop
  rw [bookPart, partOf, BookPart.mk.injEq] at hpart
  obtain ⟨-, hprev, -, hprices, -⟩ := hpart
  have hofi := imbalance_repeated h.ofi
  rw [quote_eq_prices, if_pos hprev]
  generalize prices s.pb s.qb s.pa s.qa = p at hprices
  generalize s.imbalance s.pb s.qb s.pa s.qa = c at hofi
  obtain ⟨p, _⟩ := p
  obtain ⟨c, _⟩ := c
  obtain rfl : _ = p := hprices
  obtain rfl : c = _ := hofi
  rfl

/-- A call that repeats the last top changes the counts only. -/
theorem Settled.repeated (h : s.Settled (some top)) :
    (s.step top.event).2.uncounted = s.uncounted := by
  by_cases htop : top.TwoSided
  · have hpart := h.part top rfl htop
    obtain rfl : ⟨s.pb, s.qb, s.pa, s.qa⟩ = top := congrArg BookPart.top hpart
    have hprev : s.havePrev = true := congrArg BookPart.havePrev hpart
    have hmid : s.prevMid1e4X2 = (s.pb.toNat + s.pa.toNat : Nat) := congrArg BookPart.prevMid hpart
    have hstill : ¬ (s.havePrev ∧ s.prevMid1e4X2 > 0 ∧
        ((s.pb.toNat + s.pa.toNat : Nat) : Int) ≠ s.prevMid1e4X2) :=
      fun hmove => hmove.2.2 hmid.symm
    rw [Top.event, step, Microstructure.onBook, if_neg htop.1, if_neg htop.2]
    dsimp only
    rw [quote_repeated h htop, volatility, midX2_eq, Checked.pure_bind, if_neg hstill,
      Checked.pure_bind, ← hmid, ← hprev]
    rfl
  · rw [Top.event, step, Microstructure.onBook]
    split
    · rfl
    · next hz =>
      rw [if_pos (not_not.1 fun hl => htop ⟨hz, hl⟩)]
      rfl

end Step

theorem skipUnchanged_uncounted (h : s.Settled last) (events : List MarketEvent) :
    (after step s events).uncounted = (after step s (skipUnchanged last events)).uncounted := by
  apply Mealy.after_kept step_uncounted _ _ h rfl
  · intro last s event h
    cases event with
    | book bidPx bidQty askPx askQty => exact h.onBook ⟨bidPx, bidQty, askPx, askQty⟩
    | trade px qty buyerInitiated => exact h.onTrade px qty buyerInitiated
  · intro last s event h hrepeats
    cases event with
    | book bidPx bidQty askPx askQty =>
      obtain rfl := of_decide_eq_true hrepeats
      exact h.repeated
    | trade px qty buyerInitiated => cases hrepeats

theorem Settled.new : Settled none {} where
  ofi := rfl
  part top htop := by cases htop

theorem skipUnchanged_driver (events : List MarketEvent) :
    (after step {} events).m.uncounted =
      (after step {} (skipUnchanged (some ⟨0, 0, 0, 0⟩) events)).m.uncounted := by
  have hsettled : Settled (some ⟨0, 0, 0, 0⟩) {} := by
    refine ⟨rfl, ?_⟩
    rintro _ ⟨⟩ htop
    exact absurd (.inl rfl) htop.1
  exact congrArg Microstructure.m (skipUnchanged_uncounted hsettled events)

/-- At every point of a run the metrics are those of the run that skips the unchanged tops. -/
theorem skipUnchanged_sound (events : List MarketEvent) (n : Nat) :
    skipUnchanged none (events.take n) <+: skipUnchanged none events ∧
      (after step {} (events.take n)).m.uncounted =
        (after step {} (skipUnchanged none (events.take n))).m.uncounted := by
  refine ⟨Mealy.kept_take_prefix _ _ _ events n, ?_⟩
  exact congrArg Microstructure.m (skipUnchanged_uncounted Settled.new (events.take n))

end Microstructure

end Tickpipe
