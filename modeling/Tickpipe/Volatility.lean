import Tickpipe.AnalyticsBounds
import Tickpipe.IntegerSqrt
import Tickpipe.LogSeries

set_option autoImplicit true

namespace Tickpipe.Microstructure

open Checked (signed unsigned quotient signed_of_fits signed_eq_pure_iff unsigned_of_fits
  unsigned_eq_pure_iff quotient_eq_pure_iff bind_eq_pure_iff)
open Mealy (after outputs EachStep total)

section Return

variable {prev mid : Int}

def exactReturn (prev mid : Int) : Int := ((mid - prev) * scale).tdiv prev

theorem exactReturn_ge (hprev : 0 < prev) (hmid : 0 ≤ mid) : -scale ≤ exactReturn prev mid := by
  rcases le_total prev mid with hle | hle
  · have hnum : 0 ≤ (mid - prev) * scale := mul_nonneg (sub_nonneg.2 hle) scale_pos.le
    have hnonneg : 0 ≤ exactReturn prev mid := Int.tdiv_nonneg hnum hprev.le
    have hscale := scale_pos
    omega
  · have habs : |(mid - prev) * scale| ≤ scale * prev := by
      rw [abs_mul, abs_of_nonpos (sub_nonpos.2 hle), abs_of_pos scale_pos, mul_comm]
      exact mul_le_mul_of_nonneg_left (by omega) scale_pos.le
    exact (abs_le.1 (Truncation.abs_tdiv_le hprev habs)).1

theorem exactReturn_le_iff (hprev : 0 < prev) : exactReturn prev mid ≤ maxReturn ↔
    (mid - prev) * scale < (maxReturn + 1) * prev := by
  rcases le_total prev mid with hle | hle
  · have hnum : 0 ≤ (mid - prev) * scale := mul_nonneg (sub_nonneg.2 hle) scale_pos.le
    rw [exactReturn, Int.tdiv_eq_ediv_of_nonneg hnum, ← Int.lt_add_one_iff,
      Int.ediv_lt_iff_lt_mul hprev]
  · have hnum : (mid - prev) * scale ≤ 0 :=
      mul_nonpos_of_nonpos_of_nonneg (sub_nonpos.2 hle) scale_pos.le
    have hmax : (0 : Int) < (maxReturn + 1) * prev := mul_pos (by decide) hprev
    have hquot : exactReturn prev mid ≤ 0 := by
      have hneg : 0 ≤ (-((mid - prev) * scale)).tdiv prev :=
        Int.tdiv_nonneg (neg_nonneg.2 hnum) hprev.le
      rw [Int.neg_tdiv] at hneg
      exact neg_nonneg.1 hneg
    have hpos : 0 ≤ maxReturn := by decide
    exact ⟨fun _ => hnum.trans_lt hmax, fun _ => hquot.trans hpos⟩

theorem return1e12_eq_pure_iff (hprev : 0 < prev ∧ prev < 2 ^ 33) (hmid : 0 ≤ mid ∧ mid < 2 ^ 33) :
    return1e12 prev mid = pure x ↔ exactReturn prev mid < 2 ^ 63 ∧ x = exactReturn prev mid := by
  have hge := exactReturn_ge hprev.1 hmid.1
  rw [return1e12, signed_of_fits (by omega) (by omega), Checked.pure_bind,
    signed_of_fits (by rw [scale]; omega) (by rw [scale]; omega), Checked.pure_bind,
    Checked.quotient_of_ne hprev.1.ne', Checked.pure_bind, ← exactReturn, signed_eq_pure_iff]
  rw [scale] at hge
  constructor
  · rintro ⟨hfits, rfl⟩
    exact ⟨by omega, rfl⟩
  · rintro ⟨hlt, rfl⟩
    exact ⟨by omega, rfl⟩

end Return

def withReturn (s : Microstructure) (x : Int) : Microstructure :=
  let sum := s.sumSqRet1e18 + (series x).natAbs ^ 2
  { s with
    sumSqRet1e18 := sum
    m := { s.m with
      returnSamples := s.m.returnSamples + 1
      realizedVol1e9 := sum.sqrt / 1000 } }

/-- A move is added exactly when its series fits and the sum has room for its square. -/
theorem addReturn_eq_pure_iff {s s' : Microstructure} (hprev : 0 < prev ∧ prev < 2 ^ 33)
    (hmid : 0 ≤ mid ∧ mid < 2 ^ 33) : s.addReturn prev mid = pure s' ↔
      (exactReturn prev mid ≤ maxReturn ∧
        s.sumSqRet1e18 + (series (exactReturn prev mid)).natAbs ^ 2 < 2 ^ 128) ∧
      s' = s.withReturn (exactReturn prev mid) := by
  have hge := exactReturn_ge hprev.1 hmid.1
  have hsquare (r : Int) : r * r = (r.natAbs ^ 2 : Nat) := by
    rw [Nat.pow_two, ← Int.natAbs_mul_self]
  constructor
  · intro h
    rw [addReturn] at h
    simp only [bind_eq_pure_iff, return1e12_eq_pure_iff hprev hmid] at h
    obtain ⟨_, ⟨-, rfl⟩, r, hr, _, hsq, square, hcast, sum, hsum, root, hroot, hs'⟩ := h
    obtain ⟨hle, rfl⟩ := (log1p1e12_eq_pure_iff hge).1 hr
    obtain ⟨-, rfl⟩ := signed_eq_pure_iff.1 hsq
    obtain ⟨-, hcast⟩ := unsigned_eq_pure_iff.1 hcast
    obtain ⟨⟨-, hlt⟩, hsum⟩ := unsigned_eq_pure_iff.1 hsum
    rw [hsquare, Int.natCast_inj] at hcast
    have hsum' : s.sumSqRet1e18 + (series (exactReturn prev mid)).natAbs ^ 2 = sum := by omega
    have hfits : sum < 2 ^ 128 := by omega
    rw [isqrt128_eq hfits, Checked.pure_inj] at hroot
    rw [Checked.pure_inj] at hs'
    refine ⟨⟨hle, hsum'.trans_lt hfits⟩, ?_⟩
    rw [← hs', withReturn, hsum', hroot]
  · rintro ⟨⟨hle, hlt⟩, rfl⟩
    have hlow := series_ge_of_le hge hle
    have hhigh := series_lt hge
    have hlog := (log1p1e12_eq_pure_iff hge).2 ⟨hle, rfl⟩
    have hreturn := (return1e12_eq_pure_iff hprev hmid).2
      ⟨hle.trans_lt (by decide), rfl⟩
    have hsq : (series (exactReturn prev mid)).natAbs ^ 2 ≤ (2 ^ 63) ^ 2 :=
      Nat.pow_le_pow_left (by omega) 2
    rw [addReturn, hreturn, Checked.pure_bind, hlog, Checked.pure_bind, hsquare,
      signed_of_fits (by omega) (by omega), Checked.pure_bind, unsigned_of_fits rfl (by omega),
      Checked.pure_bind, unsigned_of_fits (Int.natCast_add _ _).symm hlt, Checked.pure_bind,
      isqrt128_eq hlt]
    rfl

section Run

/-- The doubled mids before and after an update that makes a return. -/
def move (s : Microstructure) : MarketEvent → Option (Int × Int)
  | .book bidPx bidQty askPx askQty =>
    let mid : Int := (bidPx.toNat + askPx.toNat : Nat)
    if (bidPx = 0 ∨ askPx = 0 ∨ bidQty = 0 ∨ askQty = 0) ∨ bidPx ≥ askPx then none
    else if s.havePrev ∧ s.prevMid1e4X2 > 0 ∧ mid ≠ s.prevMid1e4X2 then some (s.prevMid1e4X2, mid)
    else none
  | .trade _ _ _ => none

def squareOf (s : Microstructure) (event : MarketEvent) : Nat :=
  match s.move event with
  | some (prev, mid) => (series (exactReturn prev mid)).natAbs ^ 2
  | none => 0

/-- A call moves the mid up by no more than the largest return. -/
def Modest (s : Microstructure) (event : MarketEvent) : Prop :=
  ∀ prev mid, s.move event = some (prev, mid) → (mid - prev) * scale < (maxReturn + 1) * prev

structure InRange (s : Microstructure) : Prop where
  prevMid : s.prevMid1e4X2 < 2 ^ 33
  sum : s.sumSqRet1e18 < 2 ^ 128

section Step

variable {s : Microstructure} (bidPx bidQty askPx askQty : UInt32)

/-- The volatility and what it is computed from are the same. -/
structure SameVolatility (s s' : Microstructure) : Prop where
  havePrev : s'.havePrev = s.havePrev
  prevMid : s'.prevMid1e4X2 = s.prevMid1e4X2
  sum : s'.sumSqRet1e18 = s.sumSqRet1e18

theorem SameVolatility.trans (h : SameVolatility s s') (h' : SameVolatility s' s'') :
    SameVolatility s s'' :=
  ⟨h'.havePrev.trans h.havePrev, h'.prevMid.trans h.prevMid, h'.sum.trans h.sum⟩

/-- Exact or not, an update leaves the volatility as it is until its last part. -/
theorem quote_same : (s.quote bidPx bidQty askPx askQty).Yields s.SameVolatility := by
  rw [quote]
  exact .bind fun micro => .bind fun sum => .bind fun mid => .bind fun lean => .bind fun ofi =>
    .pure ⟨rfl, rfl, rfl⟩

/-- The return that an update makes is exact when it and the sum of squares have room. -/
theorem volatility_return (hs : InRange s)
    (h : s.havePrev ∧ s.prevMid1e4X2 > 0 ∧
      ((bidPx.toNat + askPx.toNat : Nat) : Int) ≠ s.prevMid1e4X2) :
    let x := exactReturn s.prevMid1e4X2 (bidPx.toNat + askPx.toNat : Nat)
    ((s.volatility bidPx askPx).exact = true ↔
      x ≤ maxReturn ∧ s.sumSqRet1e18 + (series x).natAbs ^ 2 < 2 ^ 128) ∧
    ((s.volatility bidPx askPx).exact = true →
      (s.volatility bidPx askPx).value.sumSqRet1e18 =
        s.sumSqRet1e18 + (series x).natAbs ^ 2) := by
  intro x
  have hb := bidPx.toNat_lt
  have ha := askPx.toNat_lt
  have hmid : 0 ≤ ((bidPx.toNat + askPx.toNat : Nat) : Int) ∧
      ((bidPx.toNat + askPx.toNat : Nat) : Int) < 2 ^ 33 := by omega
  have hiff (s' : Microstructure) : s.addReturn s.prevMid1e4X2 _ = pure s' ↔ _ :=
    addReturn_eq_pure_iff ⟨h.2.1, hs.prevMid⟩ hmid
  rw [volatility, midX2_eq, Checked.pure_bind, if_pos h, Checked.exact_bind_pure,
    Checked.exact_iff]
  constructor
  · constructor
    · rintro ⟨s', hs'⟩
      exact ((hiff s').1 hs').1
    · intro hroom
      exact ⟨_, (hiff _).2 ⟨hroom, rfl⟩⟩
  · rintro ⟨s', hs'⟩
    obtain ⟨-, rfl⟩ := (hiff s').1 hs'
    rw [hs']
    rfl

/-- An update makes no return where the book was not two-sided before or its mid has not moved. -/
theorem volatility_still (h : ¬ (s.havePrev ∧ s.prevMid1e4X2 > 0 ∧
      ((bidPx.toNat + askPx.toNat : Nat) : Int) ≠ s.prevMid1e4X2)) :
    (s.volatility bidPx askPx).exact = true ∧
      (s.volatility bidPx askPx).value.sumSqRet1e18 = s.sumSqRet1e18 := by
  rw [volatility, midX2_eq, Checked.pure_bind, if_neg h]
  exact ⟨rfl, rfl⟩

theorem volatility_prevMid : (s.volatility bidPx askPx).value.prevMid1e4X2 < 2 ^ 33 := by
  obtain ⟨sum, root, h⟩ := volatility_value s bidPx askPx
  have hb := bidPx.toNat_lt
  have ha := askPx.toNat_lt
  rw [h]
  dsimp only
  omega

/-- A call computes the volatility exactly when its move is modest and the sum has room. -/
def Exactly (s : Microstructure) (event : MarketEvent) (r : Exact × Microstructure) : Prop :=
  (r.1.volatility = true ↔
    s.Modest event ∧ s.sumSqRet1e18 + s.squareOf event < 2 ^ 128) ∧
  (r.1.volatility = true → r.2.prevMid1e4X2 < 2 ^ 33 ∧
    r.2.sumSqRet1e18 = s.sumSqRet1e18 + s.squareOf event)

theorem exactly_of_no_move (hs : InRange s) (hm : s.move event = none)
    (hr : r.1.volatility = true) (hmid : r.2.prevMid1e4X2 < 2 ^ 33)
    (hsum : r.2.sumSqRet1e18 = s.sumSqRet1e18) : s.Exactly event r := by
  have hmodest : s.Modest event := by
    intro prev mid h
    rw [hm] at h
    cases h
  have hzero : s.squareOf event = 0 := by rw [squareOf, hm]
  rw [Exactly, hzero, Nat.add_zero]
  exact ⟨⟨fun _ => ⟨hmodest, hs.sum⟩, fun _ => hr⟩, fun _ => ⟨hmid, hsum⟩⟩

theorem exactly_of_move (hm : s.move event = some (prev, mid)) (hprev : 0 < prev)
    (hexact : r.1.volatility = true ↔ exactReturn prev mid ≤ maxReturn ∧
      s.sumSqRet1e18 + (series (exactReturn prev mid)).natAbs ^ 2 < 2 ^ 128)
    (hmid : r.2.prevMid1e4X2 < 2 ^ 33)
    (hsum : r.1.volatility = true → r.2.sumSqRet1e18 =
      s.sumSqRet1e18 + (series (exactReturn prev mid)).natAbs ^ 2) : s.Exactly event r := by
  have hmodest : s.Modest event ↔ exactReturn prev mid ≤ maxReturn := by
    rw [exactReturn_le_iff hprev, Modest]
    constructor
    · exact fun h => h prev mid hm
    · intro h prev' mid' hm'
      obtain ⟨rfl, rfl⟩ := Prod.mk.inj (Option.some.inj (hm.symm.trans hm'))
      exact h
  have hsquare : s.squareOf event = (series (exactReturn prev mid)).natAbs ^ 2 := by
    rw [squareOf, hm]
  rw [Exactly, hmodest, hsquare]
  exact ⟨hexact, fun h => ⟨hmid, hsum h⟩⟩

theorem onBook_exactly (hs : InRange s) :
    s.Exactly (.book bidPx bidQty askPx askQty) (s.onBook bidPx bidQty askPx askQty) := by
  by_cases hskip : (bidPx = 0 ∨ askPx = 0 ∨ bidQty = 0 ∨ askQty = 0) ∨ bidPx ≥ askPx
  · have hm : s.move (.book bidPx bidQty askPx askQty) = none := by
      rw [move]
      exact if_pos hskip
    rw [onBook]
    by_cases hz : bidPx = 0 ∨ askPx = 0 ∨ bidQty = 0 ∨ askQty = 0
    · rw [if_pos hz]
      exact exactly_of_no_move hs hm rfl hs.prevMid rfl
    · rw [if_neg hz, if_pos (hskip.resolve_left hz)]
      exact exactly_of_no_move hs hm rfl hs.prevMid rfl
  · obtain ⟨hz, hl⟩ := not_or.1 hskip
    rw [onBook, if_neg hz, if_neg hl]
    have hsame : s.SameVolatility (s.quote bidPx bidQty askPx askQty).value :=
      quote_same bidPx bidQty askPx askQty
    dsimp only
    generalize (s.quote bidPx bidQty askPx askQty).exact = analytics
    generalize (s.quote bidPx bidQty askPx askQty).value = q at hsame
    obtain ⟨hprev, hmid, hsq⟩ := hsame
    by_cases hc : s.havePrev ∧ s.prevMid1e4X2 > 0 ∧
        ((bidPx.toNat + askPx.toNat : Nat) : Int) ≠ s.prevMid1e4X2
    · have hm : s.move (.book bidPx bidQty askPx askQty) =
          some (s.prevMid1e4X2, ((bidPx.toNat + askPx.toNat : Nat) : Int)) := by
        rw [move]
        exact (if_neg hskip).trans (if_pos hc)
      have hq : InRange q := ⟨hmid ▸ hs.prevMid, hsq ▸ hs.sum⟩
      rw [← hprev, ← hmid] at hc
      obtain ⟨hexact, hsum⟩ := volatility_return bidPx askPx hq hc
      have hnext := volatility_prevMid (s := q) bidPx askPx
      rw [hmid, hsq] at hexact hsum
      generalize q.volatility bidPx askPx = v at hexact hsum hnext
      exact exactly_of_move hm (hmid ▸ hc.2.1) hexact hnext hsum
    · have hm : s.move (.book bidPx bidQty askPx askQty) = none := by
        rw [move]
        exact (if_neg hskip).trans (if_neg hc)
      rw [← hprev, ← hmid] at hc
      obtain ⟨hexact, hsum⟩ := volatility_still bidPx askPx hc
      have hnext := volatility_prevMid (s := q) bidPx askPx
      generalize q.volatility bidPx askPx = v at hexact hsum hnext
      exact exactly_of_no_move hs hm hexact hnext (hsum.trans hsq)

theorem addSpread_same (mid : Int) (px : UInt32) :
    (s.addSpread mid px).Yields s.SameVolatility := by
  rw [addSpread]
  exact .bind fun double => .bind fun d => .bind fun d => .bind fun d => .bind fun sum =>
    .pure ⟨rfl, rfl, rfl⟩

theorem addImpact_same (mid v : Int) : (s.addImpact mid v).Yields s.SameVolatility := by
  rw [addImpact]
  refine .bind fun dp => .bind fun product => .bind fun sumDpV => .bind fun square =>
    .bind fun square => .bind fun sumVSq => ?_
  dsimp only
  split
  · exact .bind fun num => .bind fun den => .bind fun q => .bind fun lambda =>
      .pure ⟨rfl, rfl, rfl⟩
  · exact .pure ⟨rfl, rfl, rfl⟩

theorem trade_same (px qty : UInt32) (buyerInitiated : Bool) :
    (s.trade px qty buyerInitiated).Yields s.SameVolatility := by
  rw [trade]
  refine .bind fun mid => (addSpread_same mid px).next fun s' hspread => .bind fun v => ?_
  have himpact : (if s'.prevTradeMidX2 > 0 then s'.addImpact mid v else pure s').Yields
      s.SameVolatility := by
    split
    · exact (addImpact_same mid v).imp fun _ h => hspread.trans h
    · exact .pure hspread
  exact himpact.next fun s'' h => .pure ⟨h.havePrev, h.prevMid, h.sum⟩

theorem onTrade_exactly (hs : InRange s) (px qty : UInt32) (buyerInitiated : Bool) :
    s.Exactly (.trade px qty buyerInitiated) (s.onTrade px qty buyerInitiated) := by
  rw [onTrade]
  split
  · exact exactly_of_no_move hs rfl rfl hs.prevMid rfl
  · have hsame := trade_same (s := s) px qty buyerInitiated
    exact exactly_of_no_move hs rfl rfl (hsame.prevMid.trans_lt hs.prevMid) hsame.sum

theorem step_exactly (hs : InRange s) (event : MarketEvent) : s.Exactly event (s.step event) := by
  cases event with
  | book bidPx bidQty askPx askQty => exact onBook_exactly bidPx bidQty askPx askQty hs
  | trade px qty buyerInitiated => exact onTrade_exactly hs px qty buyerInitiated

end Step

theorem run_exact_iff {s : Microstructure} (hs : InRange s) (events : List MarketEvent) :
    (∀ exact ∈ outputs step s events, exact.volatility = true) ↔
      EachStep Modest step s events ∧ s.sumSqRet1e18 + total squareOf step s events < 2 ^ 128 := by
  induction events generalizing s with
  | nil => exact ⟨fun _ => ⟨trivial, hs.sum⟩, fun _ exact hmem => by cases hmem⟩
  | cons event events ih =>
    obtain ⟨hflag, hnext⟩ := step_exactly hs event
    rw [outputs, List.forall_mem_cons, EachStep, total]
    constructor
    · rintro ⟨hexact, hrest⟩
      obtain ⟨hmodest, hroom⟩ := hflag.1 hexact
      obtain ⟨hmid, hsum⟩ := hnext hexact
      obtain ⟨hall, htotal⟩ := (ih ⟨hmid, hsum ▸ hroom⟩).1 hrest
      exact ⟨⟨hmodest, hall⟩, by omega⟩
    · rintro ⟨⟨hmodest, hall⟩, htotal⟩
      have hexact := hflag.2 ⟨hmodest, by omega⟩
      obtain ⟨hmid, hsum⟩ := hnext hexact
      exact ⟨hexact, (ih ⟨hmid, by omega⟩).2 ⟨hall, by omega⟩⟩

theorem InRange.new : InRange {} := ⟨by decide, by decide⟩

section Small

variable {s : Microstructure} {event : MarketEvent} {prev mid : Int}

/-- A call moves the mid up by no more than a factor of 17. -/
def Small (s : Microstructure) (event : MarketEvent) : Prop :=
  ∀ prev mid, s.move event = some (prev, mid) → mid ≤ 17 * prev

theorem move_bounds (h : s.move event = some (prev, mid)) : 0 < prev ∧ 0 ≤ mid := by
  cases event with
  | book bidPx bidQty askPx askQty =>
    rw [move] at h
    split at h
    · cases h
    · split at h
      · next hc =>
        obtain ⟨rfl, rfl⟩ := Prod.mk.inj (Option.some.inj h)
        exact ⟨hc.2.1, Int.natCast_nonneg _⟩
      · cases h
  | trade px qty buyerInitiated => cases h

theorem abs_exactReturn_le (hprev : 0 < prev) (hmid : 0 ≤ mid) (h : mid ≤ 17 * prev) :
    |exactReturn prev mid| ≤ 16 * scale := by
  apply Truncation.abs_tdiv_le hprev
  have hmove : |mid - prev| ≤ 16 * prev := by
    rw [abs_le]
    omega
  rw [abs_mul, abs_of_pos scale_pos, mul_right_comm]
  exact mul_le_mul_of_nonneg_right hmove scale_pos.le

/-- The square of the return of a small move. -/
def maxSquare : Nat := 17894000000000000 ^ 2

theorem Small.squareOf_le (h : Small s event) : s.squareOf event ≤ maxSquare := by
  rw [squareOf]
  split
  · next prev mid hm =>
    obtain ⟨hprev, hmid⟩ := move_bounds hm
    have hle := abs_series_le (abs_exactReturn_le hprev hmid (h prev mid hm))
    rw [scale, Int.abs_eq_natAbs] at hle
    apply Nat.pow_le_pow_left
    omega
  · exact Nat.zero_le _

theorem Small.modest (h : Small s event) : s.Modest event := by
  intro prev mid hm
  obtain ⟨hprev, hmid⟩ := move_bounds hm
  have hle := h prev mid hm
  rw [scale, maxReturn]
  omega

theorem total_squareOf_lt (hlen : events.length ≤ 2 ^ 20) (h : EachStep Small step {} events) :
    total squareOf step {} events < 2 ^ 128 := by
  have htotal := h.total_le fun _ _ => Small.squareOf_le
  calc total squareOf step {} events ≤ events.length * maxSquare := htotal
    _ ≤ 2 ^ 20 * maxSquare := Nat.mul_le_mul_right _ hlen
    _ < 2 ^ 128 := by decide

end Small

/-- The volatility never wraps exactly when no update moves the doubled mid up by more than the
largest return and the squared returns add up to less than `2 ^ 128`. Over `2 ^ 20` calls that is
so when no update moves it up by more than a factor of 17. -/
theorem volatility_exact_iff (events : List MarketEvent) :
    ((∀ exact ∈ outputs step {} events, exact.volatility = true) ↔
      EachStep Modest step {} events ∧ total squareOf step {} events < 2 ^ 128) ∧
    (events.length ≤ 2 ^ 20 → EachStep Small step {} events →
      ∀ exact ∈ outputs step {} events, exact.volatility = true) := by
  have hiff := run_exact_iff InRange.new events
  rw [Nat.zero_add] at hiff
  refine ⟨hiff, fun hlen h => hiff.2 ⟨h.imp fun _ _ => Small.modest, ?_⟩⟩
  exact total_squareOf_lt hlen h

/-- From the smallest book to the widest. -/
def wideJump : List MarketEvent := [.book 1 1 2 1, .book 4294967294 1 4294967295 1]

/-- The return of this jump does not fit in 64 bits. -/
theorem wideJump_wraps :
    2 ^ 63 ≤ exactReturn 3 8589934589 ∧
      ¬ ∀ exact ∈ outputs step {} wideJump, exact.volatility = true := by
  decide +kernel

end Run

end Tickpipe.Microstructure
