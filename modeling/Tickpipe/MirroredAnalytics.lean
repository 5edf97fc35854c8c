import Tickpipe.AnalyticsRefinement
import Tickpipe.SideSymmetry

set_option autoImplicit true

namespace Tickpipe

open Mealy (after)
open Microstructure (Bounded microNum microDen signedVolume spreadOf)

/-- The highest price, which stands opposite no price at all. -/
def priceCap : Nat := 2 ^ 32 - 1

theorem toNat_complement (p : UInt32) : ((~~~p).toNat : Int) = priceCap - p.toNat := by
  have hp := p.toNat_lt
  rw [UInt32.toNat_not, priceCap]
  have hsize : UInt32.size = 2 ^ 32 := rfl
  omega

/-- Neither a price of zero, which stands for no price, nor the one opposite it. -/
def Inner (p : UInt32) : Prop := p ≠ 0 ∧ ~~~p ≠ 0

instance (p : UInt32) : Decidable (Inner p) := inferInstanceAs (Decidable (_ ∧ _))

/-- The call that a market with its sides swapped and its prices upside down makes. -/
def MarketEvent.reflect : MarketEvent → MarketEvent
  | .book bidPx bidQty askPx askQty => .book (~~~askPx) askQty (~~~bidPx) bidQty
  | .trade px qty buyerInitiated => .trade (~~~px) qty (!buyerInitiated)

/-- The prices of a book have one opposite them. -/
def MarketEvent.Quoted : MarketEvent → Prop
  | .book bidPx _ askPx _ => Inner bidPx ∧ Inner askPx
  | .trade _ _ _ => True

instance : DecidablePred MarketEvent.Quoted
  | .book bidPx _ askPx _ => inferInstanceAs (Decidable (Inner bidPx ∧ Inner askPx))
  | .trade _ _ _ => .isTrue trivial

/-- The metrics of a market and of its reflection: all that do not say which side is which are the
same, the imbalance changes its sign, and so does the lean of the microprice, whose rounding down
may cost a unit. -/
structure Metrics.Opposes (m m' : Metrics) : Prop where
  bookUpdates : m'.bookUpdates = m.bookUpdates
  degenerateBooks : m'.degenerateBooks = m.degenerateBooks
  trades : m'.trades = m.trades
  spread : m'.effectiveSpreadSum1e4 = m.effectiveSpreadSum1e4
  spreadN : m'.effectiveSpreadN = m.effectiveSpreadN
  samples : m'.returnSamples = m.returnSamples
  lambda : m'.kyleLambda1e12 = m.kyleLambda1e12
  ofi : m'.ofi = -m.ofi
  mid : 0 < m.bookUpdates → m.mid1e8 + m'.mid1e8 = priceCap * 10000
  lean : m'.microMinusMid1e8 = -m.microMinusMid1e8 ∨
    m'.microMinusMid1e8 = -m.microMinusMid1e8 - 1

namespace Microstructure

variable {s s' : Microstructure} {n : Nat}

structure Opposes (s s' : Microstructure) : Prop where
  metrics : s.m.Opposes s'.m
  havePrev : s'.havePrev = s.havePrev
  inner : s.havePrev = true → Inner s.pb ∧ Inner s.pa
  top : s.havePrev = true → s'.pb = ~~~s.pa ∧ s'.pa = ~~~s.pb ∧ s'.qb = s.qa ∧ s'.qa = s.qb
  prevMid : s.havePrev = true → s.prevMid1e4X2 = s.lastMid ∧ s'.prevMid1e4X2 = s'.lastMid
  prevTradeMid : s.prevTradeMidX2 = 0 ∧ s'.prevTradeMidX2 = 0 ∨
    0 < s.prevTradeMidX2 ∧ 0 < s'.prevTradeMidX2 ∧
      s.prevTradeMidX2 + s'.prevTradeMidX2 = 2 * priceCap
  sumDpV : s'.sumDpV = s.sumDpV
  sumVSq : s'.sumVSq = s.sumVSq

theorem Opposes.new : Opposes {} {} where
  metrics := ⟨rfl, rfl, rfl, rfl, rfl, rfl, rfl, rfl, fun h => (by cases h), .inl rfl⟩
  havePrev := rfl
  inner h := by cases h
  top h := by cases h
  prevMid h := by cases h
  prevTradeMid := .inl ⟨rfl, rfl⟩
  sumDpV := rfl
  sumVSq := rfl

section Book

variable {bidPx bidQty askPx askQty : UInt32}

/-- The two microprices add up to the cap, but for what both divisions leave out. -/
theorem micro_reflect (hb : bidQty ≠ 0) :
    let micro := (microNum bidPx bidQty askPx askQty : Int).tdiv (microDen bidQty askQty)
    let micro' := (microNum (~~~askPx) askQty (~~~bidPx) bidQty : Int).tdiv (microDen askQty bidQty)
    micro + micro' = priceCap * 10000 ∨ micro + micro' = priceCap * 10000 - 1 := by
  have hsum : (microNum bidPx bidQty askPx askQty : Int) +
      microNum (~~~askPx) askQty (~~~bidPx) bidQty =
      priceCap * 10000 * (microDen bidQty askQty : Nat) := by
    rw [microNum, microNum, microDen]
    push_cast
    rw [toNat_complement, toNat_complement]
    ring
  have hcomm : microDen askQty bidQty = microDen bidQty askQty := Nat.add_comm _ _
  rw [hcomm]
  exact Truncation.tdiv_add_tdiv (Int.natCast_nonneg _) (Int.natCast_nonneg _)
    (microDen_pos askQty hb) hsum

theorem flow_reflect (ht : s'.pb = ~~~s.pa ∧ s'.pa = ~~~s.pb ∧ s'.qb = s.qa ∧ s'.qa = s.qb) :
    s'.flow (~~~askPx) askQty (~~~bidPx) bidQty = -s.flow bidPx bidQty askPx askQty := by
  obtain ⟨hpb, hpa, hqb, hqa⟩ := ht
  rw [flow, flow, hpb, hpa, hqb, hqa]
  simp only [ge_iff_le, SoftwareEngine.complement_le_iff]
  split_ifs <;> omega

theorem Opposes.imbalance (h : Opposes s s') :
    (if s'.havePrev then s'.m.ofi + s'.flow (~~~askPx) askQty (~~~bidPx) bidQty else s'.m.ofi) =
      -(if s.havePrev then s.m.ofi + s.flow bidPx bidQty askPx askQty else s.m.ofi) := by
  rw [h.havePrev, h.metrics.ofi]
  cases hp : s.havePrev with
  | true =>
    rw [if_pos rfl, if_pos rfl, flow_reflect (h.top hp)]
    omega
  | false => rw [if_neg Bool.false_ne_true, if_neg Bool.false_ne_true]

theorem Opposes.lastMid (h : Opposes s s') (hp : s.havePrev = true) :
    0 < s.lastMid ∧ 0 < s'.lastMid ∧ s.lastMid + s'.lastMid = 2 * priceCap := by
  obtain ⟨hb, ha⟩ := h.inner hp
  obtain ⟨hpb, hpa, -, -⟩ := h.top hp
  have hbid := toNat_complement s.pb
  have hask := toNat_complement s.pa
  have hb0 := toNat_pos hb.1
  have hb0' := toNat_pos hb.2
  rw [Microstructure.lastMid, Microstructure.lastMid, hpb, hpa]
  omega

theorem Opposes.returns (h : Opposes s s') {mid mid' : Int} (hmid : mid + mid' = 2 * priceCap) :
    (s'.havePrev ∧ s'.prevMid1e4X2 > 0 ∧ mid' ≠ s'.prevMid1e4X2) ↔
      (s.havePrev ∧ s.prevMid1e4X2 > 0 ∧ mid ≠ s.prevMid1e4X2) := by
  rw [h.havePrev]
  apply and_congr_right
  intro hp
  obtain ⟨hprev, hprev'⟩ := h.prevMid hp
  obtain ⟨hpos, hpos', hsum⟩ := h.lastMid hp
  rw [hprev, hprev']
  omega

theorem Opposes.onBook (h : Opposes s s') (hs : Bounded n s) (hs' : Bounded n s') (hn : n < 2 ^ 29)
    (hbid : Inner bidPx) (hask : Inner askPx) :
    Opposes (s.onBook bidPx bidQty askPx askQty).2
      (s'.onBook (~~~askPx) askQty (~~~bidPx) bidQty).2 := by
  have hzero : (~~~askPx = 0 ∨ ~~~bidPx = 0 ∨ askQty = 0 ∨ bidQty = 0) ↔
      (bidPx = 0 ∨ askPx = 0 ∨ bidQty = 0 ∨ askQty = 0) := by
    rw [or_iff_right hask.2, or_iff_right hbid.2, or_iff_right hbid.1, or_iff_right hask.1, or_comm]
  have hlt : ~~~askPx ≥ ~~~bidPx ↔ bidPx ≥ askPx := SoftwareEngine.complement_le_iff bidPx askPx
  by_cases hz : bidPx = 0 ∨ askPx = 0 ∨ bidQty = 0 ∨ askQty = 0
  · rw [Microstructure.onBook, if_pos hz, Microstructure.onBook, if_pos (hzero.2 hz)]
    exact h
  · by_cases hl : bidPx ≥ askPx
    · rw [Microstructure.onBook, if_neg hz, if_pos hl, Microstructure.onBook, if_neg (hz ∘ hzero.1),
        if_pos (hlt.2 hl)]
      have hm := h.metrics
      exact { h with metrics := { hm with
        degenerateBooks := congrArg (· + 1) hm.degenerateBooks } }
    · have hb : bidQty ≠ 0 := fun h => hz (.inr (.inr (.inl h)))
      obtain ⟨exact, sum, root, hnext⟩ := Microstructure.onBook_eq bidPx bidQty askPx askQty
        (hs.ofi.trans (by omega)) hz hl
      obtain ⟨exact', sum', root', hnext'⟩ := Microstructure.onBook_eq (~~~askPx) askQty (~~~bidPx)
        bidQty (hs'.ofi.trans (by omega)) (hz ∘ hzero.1) (hl ∘ hlt.1)
      rw [hnext, hnext']
      have hmid : ((bidPx.toNat + askPx.toNat : Nat) : Int) +
          ((~~~askPx).toNat + (~~~bidPx).toNat : Nat) = 2 * priceCap := by
        push_cast
        rw [toNat_complement, toNat_complement]
        ring
      have hmoves := h.returns hmid
      have hm := h.metrics
      exact {
        metrics := {
          bookUpdates := congrArg (· + 1) hm.bookUpdates
          degenerateBooks := hm.degenerateBooks
          trades := hm.trades
          spread := hm.spread
          spreadN := hm.spreadN
          samples := if_congr hmoves (congrArg (· + 1) hm.samples) hm.samples
          lambda := hm.lambda
          ofi := h.imbalance
          mid := fun _ => by
            dsimp only [withQuote]
            omega
          lean := by
            have hmicro := @micro_reflect bidPx bidQty askPx askQty hb
            dsimp only [withQuote] at hmicro ⊢
            omega }
        havePrev := rfl
        inner := fun _ => ⟨hbid, hask⟩
        top := fun _ => ⟨rfl, rfl, rfl, rfl⟩
        prevMid := fun _ => ⟨rfl, rfl⟩
        prevTradeMid := h.prevTradeMid
        sumDpV := h.sumDpV
        sumVSq := h.sumVSq }

end Book

section Trade

variable (px qty : UInt32) (buyerInitiated : Bool)

theorem signedVolume_reflect :
    signedVolume qty (!buyerInitiated) = -signedVolume qty buyerInitiated := by
  rw [signedVolume, signedVolume]
  cases buyerInitiated with
  | true => rw [Bool.not_true, if_neg Bool.false_ne_true, if_pos rfl]
  | false => rw [Bool.not_false, if_pos rfl, if_neg Bool.false_ne_true, Int.neg_neg]

/-- A price is as far from the one mid as the price opposite it from the other. -/
theorem spreadOf_reflect {mid mid' : Int} (hmid : mid + mid' = 2 * priceCap) :
    spreadOf mid' (~~~px) = spreadOf mid px := by
  have hpx := toNat_complement px
  rw [spreadOf, spreadOf]
  omega

theorem Opposes.withSpread (h : Opposes s s') (hp : s.havePrev = true) :
    Opposes (s.withSpread px) (s'.withSpread (~~~px)) := by
  have hm := h.metrics
  have hspread := spreadOf_reflect px (h.lastMid hp).2.2
  exact { h with metrics := { hm with
    trades := congrArg (· + 1) hm.trades
    spread := by
      dsimp only [Microstructure.withSpread]
      rw [hspread, hm.spread]
    spreadN := congrArg (· + 1) hm.spreadN } }

/-- The move and the volume both change their signs. -/
theorem Opposes.withImpact (h : Opposes s s') {dp dp' v v' : Int} (hdp : dp' = -dp)
    (hv : v' = -v) : Opposes (s.withImpact dp v) (s'.withImpact dp' v') := by
  have hsum : s'.sumDpV + dp' * v' = s.sumDpV + dp * v := by
    rw [h.sumDpV, hdp, hv, Int.neg_mul_neg]
  have hsq : s'.sumVSq + v'.natAbs ^ 2 = s.sumVSq + v.natAbs ^ 2 := by
    rw [h.sumVSq, hv, Int.natAbs_neg]
  have hm := h.metrics
  exact { h with
    metrics := { hm with
      lambda := by
        dsimp only [Microstructure.withImpact]
        rw [hsum, hsq, hm.lambda] }
    sumDpV := hsum
    sumVSq := hsq }

theorem Opposes.onTrade (h : Opposes s s') (hs : Bounded n s) (hs' : Bounded n s')
    (hn : n < 2 ^ 29) : Opposes (s.onTrade px qty buyerInitiated).2
      (s'.onTrade (~~~px) qty (!buyerInitiated)).2 := by
  cases hp : s.havePrev with
  | false =>
    rw [Microstructure.onTrade, if_pos (.inl (by rw [hp]; exact Bool.false_ne_true)),
      Microstructure.onTrade, if_pos (.inl (by rw [h.havePrev, hp]; exact Bool.false_ne_true))]
    exact h
  | true =>
    obtain ⟨hb, ha⟩ := h.inner hp
    obtain ⟨hpb, hpa, -, -⟩ := h.top hp
    obtain ⟨hpos, hpos', hsum⟩ := h.lastMid hp
    have hquoted : ¬ (¬ s.havePrev = true ∨ s.pb = 0 ∨ s.pa = 0) := by
      rintro (hn | hn | hn)
      · exact hn hp
      · exact hb.1 hn
      · exact ha.1 hn
    have hquoted' : ¬ (¬ s'.havePrev = true ∨ s'.pb = 0 ∨ s'.pa = 0) := by
      rw [h.havePrev, hpb, hpa]
      rintro (hn | hn | hn)
      · exact hn hp
      · exact ha.2 hn
      · exact hb.2 hn
    rw [Microstructure.onTrade, if_neg hquoted, Microstructure.onTrade, if_neg hquoted',
      trade_eq px qty buyerInitiated hs hn, trade_eq (~~~px) qty (!buyerInitiated) hs' hn]
    have hspread := h.withSpread px hp
    have hmids : Opposes
        (if s.prevTradeMidX2 > 0 then (s.withSpread px).withImpact
          (s.lastMid - s.prevTradeMidX2) (signedVolume qty buyerInitiated) else s.withSpread px)
        (if s'.prevTradeMidX2 > 0 then (s'.withSpread (~~~px)).withImpact
          (s'.lastMid - s'.prevTradeMidX2) (signedVolume qty (!buyerInitiated))
        else s'.withSpread (~~~px)) := by
      rcases h.prevTradeMid with ⟨hz, hz'⟩ | ⟨hlt, hlt', hadd⟩
      · rw [if_neg (by omega), if_neg (by omega)]
        exact hspread
      · rw [if_pos hlt, if_pos hlt']
        exact hspread.withImpact (by omega) (signedVolume_reflect qty buyerInitiated)
    exact { hmids with prevTradeMid := .inr ⟨hpos, hpos', hsum⟩ }

end Trade

theorem Opposes.step (h : Opposes s s') (hs : Bounded n s) (hs' : Bounded n s') (hn : n < 2 ^ 29)
    {event : MarketEvent} (hq : event.Quoted) :
    Opposes (s.step event).2 (s'.step event.reflect).2 := by
  cases event with
  | book bidPx bidQty askPx askQty => exact h.onBook hs hs' hn hq.1 hq.2
  | trade px qty buyerInitiated => exact h.onTrade px qty buyerInitiated hs hs' hn

theorem Opposes.run (h : Opposes s s') (hs : Bounded n s) (hs' : Bounded n s')
    (events : List MarketEvent) (hq : ∀ event ∈ events, event.Quoted)
    (hn : n + events.length ≤ 2 ^ 29) : Opposes (after Microstructure.step s events)
      (after Microstructure.step s' (events.map (·.reflect))) := by
  induction events generalizing n s s' with
  | nil => exact h
  | cons event events ih =>
    rw [List.length_cons] at hn
    have hstep := h.step hs hs' (by omega) (hq event List.mem_cons_self)
    exact ih hstep (hs.step (by omega) event).2 (hs'.step (by omega) event.reflect).2
      (fun event' hmem => hq event' (List.mem_cons_of_mem _ hmem)) (by omega)

end Microstructure

/-- The analytics favour no side: of a market whose sides are swapped and whose prices stand
upside down they report the same, with the order flow imbalance and the lean of the microprice
turned around. -/
theorem analytics_favour_no_side (events : List MarketEvent) (hq : ∀ event ∈ events, event.Quoted)
    (hlen : events.length ≤ 2 ^ 29) :
    (after Microstructure.step {} events).m.Opposes
      (after Microstructure.step {} (events.map (·.reflect))).m :=
  (Microstructure.Opposes.new.run Bounded.new Bounded.new events hq (by omega)).metrics

theorem sampleDay_favours_no_side :
    (after Microstructure.step {} sampleDay).m.Opposes
      (after Microstructure.step {} (sampleDay.map (·.reflect))).m := by
  apply analytics_favour_no_side sampleDay <;> decide

end Tickpipe
