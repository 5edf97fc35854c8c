import Tickpipe.RiskIsolation
import Tickpipe.Lib.Totals

set_option autoImplicit true

namespace Tickpipe

open Mealy (after EachStep)

/-- A risk engine at work: fills are reported for orders that it accepted. -/
structure RiskDesk where
  engine : RiskEngine
  /-- The orders accepted so far, each with the quantity that is still open. -/
  orders : List (Order × Nat)

inductive DeskAction where
  | check (order : Order)
  /-- A fill of the `i`-th accepted order. -/
  | fill (i : Nat) (quantity : UInt32)
  | setReferencePrice (stock : Stock) (price : UInt32)
deriving DecidableEq

namespace RiskEngine

/-- What `check` tests, on what is kept for the instrument. -/
def Passes (r : RiskEngine) (order : Order) : Prop :=
  let account := (r.lookup order.stock).getD {}
  screen order = none ∧ assess account.refPrice account.netPosition order = .accepted

instance (r : RiskEngine) (order : Order) : Decidable (r.Passes order) :=
  inferInstanceAs (Decidable (_ ∧ _))

def WithinLimit (r : RiskEngine) : Prop :=
  ∀ i : Fin maxInstruments, i < r.instrumentCount →
    -maxNetPosition ≤ (r.positions.get i).netPosition ∧
      (r.positions.get i).netPosition ≤ maxNetPosition

instance (r : RiskEngine) : Decidable r.WithinLimit := inferInstanceAs (Decidable (∀ _, _))

def position (r : RiskEngine) (name : Stock) : Int := ((r.lookup name).getD {}).netPosition

end RiskEngine

namespace RiskDesk

def new : RiskDesk := ⟨.new, []⟩

def step (d : RiskDesk) : DeskAction → Option RiskResult × RiskDesk
  | .check order =>
    let (result, engine) := d.engine.check order
    (some result,
      { engine
        orders := if result = .accepted then d.orders ++ [(order, order.quantity.toNat)]
          else d.orders })
  | .fill i quantity =>
    match d.orders[i]? with
    | some (order, left) =>
      (none,
        { engine := d.engine.onFill order.stock order.side quantity
          orders := d.orders.set i (order, left - quantity.toNat) })
    | none => (none, d)
  | .setReferencePrice stock price =>
    (none, { d with engine := d.engine.setReferencePrice stock price })

/-- A fill is of an accepted order, for no more than is open of it. -/
def Admissible (d : RiskDesk) : DeskAction → Prop
  | .check _ => True
  | .fill i quantity => ∃ x ∈ d.orders[i]?, quantity.toNat ≤ x.2
  | .setReferencePrice _ _ => True

instance (d : RiskDesk) : (a : DeskAction) → Decidable (d.Admissible a)
  | .check _ => inferInstanceAs (Decidable True)
  | .fill i quantity => inferInstanceAs (Decidable (∃ x ∈ d.orders[i]?, quantity.toNat ≤ x.2))
  | .setReferencePrice _ _ => inferInstanceAs (Decidable True)

/-- The open quantity of the accepted orders of one direction. -/
def openOf (d : RiskDesk) (buy : Bool) (name : Stock) : Nat :=
  (d.orders.map fun x => if decide (x.1.side = .buy) = buy ∧ x.1.stock = name then x.2 else 0).sum

/-- A quantity as seen in a direction. -/
def toward (buy : Bool) (x : Int) : Int := if buy then x else -x

/-- The position in a direction if all that is open in that direction gets filled. -/
def exposure (d : RiskDesk) (buy : Bool) (name : Stock) : Int :=
  toward buy (d.engine.position name) + d.openOf buy name

/-- An order that passes the check leaves room for what is open already. -/
def Backed (d : RiskDesk) : DeskAction → Prop
  | .check order =>
    d.engine.Passes order →
      d.exposure (order.side = .buy) order.stock + order.quantity.toNat ≤ maxNetPosition
  | .fill _ _ => True
  | .setReferencePrice _ _ => True

instance (d : RiskDesk) : (a : DeskAction) → Decidable (d.Backed a)
  | .check order => inferInstanceAs (Decidable (d.engine.Passes order → _ ≤ _))
  | .fill _ _ => inferInstanceAs (Decidable True)
  | .setReferencePrice _ _ => inferInstanceAs (Decidable True)

end RiskDesk

namespace DeskAction

/-- What the risk engine is asked besides the fills. -/
def request : DeskAction → Option RiskCall
  | .check order => some (.check order)
  | .fill _ _ => none
  | .setReferencePrice stock price => some (.setReferencePrice stock price)

def requests (actions : List DeskAction) : List RiskCall := actions.filterMap request

def instruments (actions : List DeskAction) : Finset Stock := RiskCall.registered (requests actions)

def IsFill : DeskAction → Prop
  | .fill _ _ => True
  | _ => False

end DeskAction

def RiskCall.moves : RiskCall → Int
  | .check _ => 0
  | .onFill _ side quantity => RiskDesk.toward (side = .buy) quantity.toNat
  | .setReferencePrice _ _ => 0

namespace RiskEngine

variable {r : RiskEngine}

theorem screen_ne_accepted (order : Order) : screen order ≠ some .accepted := by
  rw [screen]
  split
  · decide
  · split <;> decide

theorem Valid.check_iff (hr : r.Valid)
    (h : (RiskCall.check order).registers = true → r.Admits order.stock) :
    (r.check order).1 = .accepted ↔ r.Passes order := by
  obtain ⟨ho, -⟩ := hr.step (.check order) h
  rw [RiskCall.step, RiskCall.own] at ho
  rw [Passes]
  cases hs : screen order with
  | some reason =>
    rw [hs] at ho
    rw [Option.some.inj ho]
    constructor
    · rintro rfl
      exact absurd hs (screen_ne_accepted order)
    · intro hp
      cases hp.1
  | none =>
    rw [hs] at ho
    rw [Option.some.inj ho]
    exact ⟨fun hp => ⟨rfl, hp⟩, fun hp => hp.2⟩

theorem own_netPosition (a : Option Account) (c : RiskCall) :
    ((c.own a).2.getD {}).netPosition = (a.getD {}).netPosition + c.moves := by
  cases c with
  | check order =>
    rw [RiskCall.own]
    cases screen order with
    | some reason => exact (Int.add_zero _).symm
    | none => exact (Int.add_zero _).symm
  | onFill stock side quantity =>
    rw [RiskCall.own, RiskCall.moves, RiskDesk.toward, Option.getD_some, Account.filled]
    by_cases hs : side = .buy
    · rw [if_pos hs, if_pos (decide_eq_true hs)]
    · rw [if_neg hs, if_neg (by simpa using hs)]
      rfl
  | setReferencePrice stock price => exact (Int.add_zero _).symm

theorem Valid.position_step (hr : r.Valid) (c : RiskCall)
    (h : c.registers = true → r.Admits c.stock) (name : Stock) :
    (c.step r).2.position name = r.position name + if name = c.stock then c.moves else 0 := by
  rw [position, (hr.step c h).2, position]
  by_cases he : name = c.stock
  · rw [he, Function.update_self, own_netPosition, if_pos rfl]
  · rw [Function.update_of_ne he, if_neg he, Int.add_zero]

theorem Valid.isSome_step (hr : r.Valid) (c : RiskCall)
    (h : c.registers = true → r.Admits c.stock) (name : Stock) :
    ((c.step r).2.lookup name).isSome ↔
      (r.lookup name).isSome ∨ (c.registers = true ∧ name = c.stock) := by
  rw [(hr.step c h).2]
  by_cases he : name = c.stock
  · rw [he, Function.update_self, RiskCall.own_isSome, and_iff_left rfl]
  · rw [Function.update_of_ne he]
    exact (or_iff_left fun hn => he hn.2).symm

end RiskEngine

namespace RiskDesk

variable {d : RiskDesk}

/-- The desk has room for the requests to come, an account for each order it accepted, and no
order that was filled too often. -/
structure Sound (d : RiskDesk) (requests : List RiskCall) : Prop where
  follows : RiskCall.Follows d.engine d.engine.lookup requests
  known : ∀ x ∈ d.orders, (d.engine.lookup x.1.stock).isSome
  unfilled : ∀ x ∈ d.orders, x.2 ≤ x.1.quantity.toNat

/-- A request that reaches the engine leaves the orders before it as they were. -/
theorem Sound.request (h : d.Sound (c :: requests)) (orders : List (Order × Nat))
    (horders : ∀ x ∈ orders, x ∈ d.orders ∨ c.registers = true ∧ x.1.stock = c.stock ∧
      x.2 ≤ x.1.quantity.toNat) :
    Sound { engine := (c.step d.engine).2, orders } requests := by
  have hv := h.follows.valid
  have hstep := h.follows.step.2
  refine ⟨⟨hstep.valid, rfl, hstep.room⟩, ?_, ?_⟩
  · intro x hx
    rw [hv.isSome_step c h.follows.admits]
    rcases horders x hx with hx | ⟨hreg, hname, -⟩
    · exact .inl (h.known x hx)
    · exact .inr ⟨hreg, hname⟩
  · intro x hx
    rcases horders x hx with hx | ⟨-, -, hle⟩
    · exact h.unfilled x hx
    · exact hle

/-- What an order counts for in `openOf`. -/
def share (buy : Bool) (name : Stock) (x : Order × Nat) : Nat :=
  if decide (x.1.side = .buy) = buy ∧ x.1.stock = name then x.2 else 0

theorem openOf_append (engine engine' : RiskEngine) (orders : List (Order × Nat)) (x : Order × Nat)
    (buy : Bool) (name : Stock) :
    openOf ⟨engine', orders ++ [x]⟩ buy name =
      openOf ⟨engine, orders⟩ buy name + share buy name x := by
  rw [openOf, List.map_append, List.sum_append]
  rfl

theorem openOf_set (engine engine' : RiskEngine) {orders : List (Order × Nat)}
    (hx : orders[i]? = some x) (y : Order × Nat) (buy : Bool) (name : Stock) :
    openOf ⟨engine', orders.set i y⟩ buy name + share buy name x =
      openOf ⟨engine, orders⟩ buy name + share buy name y :=
  Totals.sum_set_add orders (share buy name) hx y

/-- The state after a check, and what it does to the exposures. -/
theorem Sound.check (h : d.Sound (.check order :: requests)) :
    Sound (d.step (.check order)).2 requests ∧
      ∀ buy name, (d.step (.check order)).2.exposure buy name = d.exposure buy name +
        if d.engine.Passes order then share buy name (order, order.quantity.toNat) else 0 := by
  have hv := h.follows.valid
  have hadmits := h.follows.admits
  have hposition := hv.position_step (.check order) hadmits
  have hstep : (d.step (.check order)).2 = ⟨((RiskCall.check order).step d.engine).2,
      if d.engine.Passes order then d.orders ++ [(order, order.quantity.toNat)] else d.orders⟩ :=
    congrArg (RiskDesk.mk _) (if_congr (hv.check_iff hadmits) rfl rfl)
  rw [hstep]
  refine ⟨h.request _ ?_, ?_⟩
  · intro x hx
    split at hx
    · next hp =>
      have hreg : (RiskCall.check order).registers = true := congrArg Option.isNone hp.1
      rcases List.mem_append.1 hx with hx | hx
      · exact .inl hx
      · rw [List.mem_singleton.1 hx]
        exact .inr ⟨hreg, rfl, Nat.le_refl _⟩
    · exact .inl hx
  · intro buy name
    rw [exposure, exposure, hposition, RiskCall.moves, ite_self, Int.add_zero]
    split
    · rw [openOf_append d.engine, Int.natCast_add, Int.add_assoc]
    · exact (Int.add_zero _).symm

theorem Sound.setReferencePrice (h : d.Sound (.setReferencePrice stock price :: requests)) :
    Sound (d.step (.setReferencePrice stock price)).2 requests ∧
      ∀ buy name, (d.step (.setReferencePrice stock price)).2.exposure buy name =
        d.exposure buy name := by
  have hposition := h.follows.valid.position_step (.setReferencePrice stock price) h.follows.admits
  refine ⟨h.request _ fun x hx => .inl hx, fun buy name => ?_⟩
  have hsame := hposition name
  rw [RiskCall.moves, ite_self, Int.add_zero] at hsame
  exact congrArg (fun p => toward buy p + (d.openOf buy name : Int)) hsame

/-- What a fill does: it moves the position and takes as much from what is open. -/
theorem Sound.fill (h : d.Sound requests) (hx : d.orders[i]? = some (order, left))
    (hle : quantity.toNat ≤ left) :
    Sound (d.step (.fill i quantity)).2 requests ∧
      (∀ name, (d.step (.fill i quantity)).2.engine.position name = d.engine.position name +
        if name = order.stock then toward (order.side = .buy) quantity.toNat else 0) ∧
      ∀ buy name, (d.step (.fill i quantity)).2.openOf buy name +
        share buy name (order, quantity.toNat) = d.openOf buy name := by
  have hv := h.follows.valid
  have hmem := List.mem_of_getElem? hx
  have hadmits : (RiskCall.onFill order.stock order.side quantity).registers = true →
      d.engine.Admits order.stock := fun _ => .inl (h.known _ hmem)
  have hstep : (d.step (.fill i quantity)).2 =
      ⟨((RiskCall.onFill order.stock order.side quantity).step d.engine).2,
        d.orders.set i (order, left - quantity.toNat)⟩ := by
    rw [step, hx]
    rfl
  have hsome (name : Stock) := hv.isSome_step
    (.onFill order.stock order.side quantity) hadmits name
  rw [hstep]
  refine ⟨⟨⟨hv.step_valid _, rfl, ?_⟩, ?_, ?_⟩, ?_, ?_⟩
  · have hnames : ((RiskCall.onFill order.stock order.side quantity).step d.engine).2.names ⊆
        d.engine.names := by
      intro name hname
      rw [(hv.step_valid _).mem_names_iff, hsome] at hname
      rw [hv.mem_names_iff]
      rcases hname with hname | ⟨-, rfl⟩
      · exact hname
      · exact h.known _ hmem
    exact (Finset.card_le_card (Finset.union_subset_union_left hnames)).trans h.follows.room
  · intro x hx'
    rw [hsome]
    rcases List.mem_or_eq_of_mem_set hx' with hx' | rfl
    · exact .inl (h.known x hx')
    · exact .inl (h.known (order, left) hmem)
  · intro x hx'
    rcases List.mem_or_eq_of_mem_set hx' with hx' | rfl
    · exact h.unfilled x hx'
    · exact (Nat.sub_le _ _).trans (h.unfilled _ hmem)
  · exact hv.position_step (.onFill order.stock order.side quantity) hadmits
  · intro buy name
    have hset := openOf_set d.engine
      ((RiskCall.onFill order.stock order.side quantity).step d.engine).2 hx
      (order, left - quantity.toNat) buy name
    simp only [share] at hset ⊢
    split at hset
    · next hc =>
      rw [if_pos hc]
      have hopen : openOf ⟨d.engine, d.orders⟩ buy name = d.openOf buy name := rfl
      omega
    · next hc =>
      rw [if_neg hc]
      exact hset

theorem new_sound (h : (DeskAction.instruments actions).card ≤ maxInstruments) :
    new.Sound (DeskAction.requests actions) where
  follows := by
    have hnone : RiskEngine.new.lookup = fun _ => none := funext fun _ => RiskEngine.new_lookup
    have hf := RiskCall.new_follows h
    exact ⟨hf.valid, rfl, hf.room⟩
  known x hx := by cases hx
  unfilled x hx := by cases hx

theorem toward_add (buy : Bool) (x y : Int) : toward buy (x + y) = toward buy x + toward buy y := by
  cases buy with
  | true => rfl
  | false => exact Int.neg_add

theorem toward_zero (buy : Bool) : toward buy 0 = 0 := by cases buy <;> rfl

/-- A fill moves what is open into the position, and lets the other direction ease. -/
theorem Sound.fill_exposure (h : d.Sound requests) (hx : d.orders[i]? = some (order, left))
    (hle : quantity.toNat ≤ left) (buy : Bool) (name : Stock) :
    (d.step (.fill i quantity)).2.exposure buy name ≤ d.exposure buy name := by
  obtain ⟨-, hp, ho⟩ := h.fill hx hle
  have hopen := ho buy name
  rw [exposure, exposure, hp, toward_add, ← hopen, share]
  by_cases hname : name = order.stock
  · rw [if_pos hname]
    cases buy with
    | true =>
      cases decide (order.side = .buy) with
      | true => simp only [toward, hname, and_self, ↓reduceIte]; omega
      | false => simp only [toward, reduceCtorEq, false_and, ↓reduceIte]; omega
    | false =>
      cases decide (order.side = .buy) with
      | true => simp only [toward, reduceCtorEq, false_and, ↓reduceIte]; omega
      | false => simp only [toward, hname, and_self, ↓reduceIte, Bool.false_eq_true]; omega
  · rw [if_neg hname, toward_zero, if_neg fun hc => hname hc.2.symm]
    omega

/-- Whatever is filled of what is open, no position can leave its limit. -/
def Covered (d : RiskDesk) : Prop := ∀ buy name, d.exposure buy name ≤ maxNetPosition

theorem Covered.withinLimit (h : d.Covered) (hv : d.engine.Valid) : d.engine.WithinLimit := by
  intro i hi
  have hl : d.engine.lookup (d.engine.name i) = some (d.engine.account i) :=
    hv.lookup_eq_some_iff.2 ⟨i, hi, rfl, rfl⟩
  have hp : d.engine.position (d.engine.name i) = (d.engine.positions.get i).netPosition := by
    rw [RiskEngine.position, hl]
    rfl
  have hlong := h true (d.engine.name i)
  have hshort := h false (d.engine.name i)
  rw [exposure, hp] at hlong hshort
  simp only [toward, ↓reduceIte, Bool.false_eq_true] at hlong hshort
  omega

theorem Covered.step (hc : d.Covered) (h : d.Sound (DeskAction.requests (a :: actions)))
    (ha : d.Admissible a) (hb : d.Backed a) : (d.step a).2.Covered := by
  cases a with
  | check order =>
    obtain ⟨-, he⟩ := h.check
    intro buy name
    rw [he, share]
    split
    · next hp =>
      split
      · next hdir =>
        obtain ⟨rfl, rfl⟩ := hdir
        exact hb hp
      · exact (Int.add_zero _).trans_le (hc buy name)
    · exact (Int.add_zero _).trans_le (hc buy name)
  | fill i quantity =>
    obtain ⟨⟨order, left⟩, hx, hle⟩ := ha
    intro buy name
    exact (h.fill_exposure hx hle buy name).trans (hc buy name)
  | setReferencePrice stock price =>
    obtain ⟨-, he⟩ := h.setReferencePrice
    intro buy name
    rw [he]
    exact hc buy name

theorem Sound.step (h : d.Sound (DeskAction.requests (a :: actions))) (ha : d.Admissible a) :
    Sound (d.step a).2 (DeskAction.requests actions) := by
  cases a with
  | check order => exact h.check.1
  | fill i quantity =>
    obtain ⟨⟨order, left⟩, hx, hle⟩ := ha
    exact (h.fill hx hle).1
  | setReferencePrice stock price => exact h.setReferencePrice.1

theorem Covered.run (hc : d.Covered) (h : d.Sound (DeskAction.requests actions))
    (ha : EachStep Admissible RiskDesk.step d actions)
    (hb : EachStep Backed RiskDesk.step d actions) :
    (after RiskDesk.step d actions).Covered ∧ Sound (after RiskDesk.step d actions) [] := by
  induction actions generalizing d with
  | nil => exact ⟨hc, h⟩
  | cons a actions ih => exact ih (hc.step h ha.1 hb.1) (h.step ha.1) ha.2 hb.2

theorem toward_toward (buy : Bool) (x : Int) : toward buy (toward buy x) = x := by
  cases buy with
  | true => rfl
  | false => exact Int.neg_neg x

theorem withinLimit_position (h : d.engine.WithinLimit) (hv : d.engine.Valid) (buy : Bool)
    (name : Stock) : toward buy (d.engine.position name) ≤ maxNetPosition := by
  rw [RiskEngine.position]
  cases hl : d.engine.lookup name with
  | none =>
    rw [Option.getD_none, toward_zero]
    decide
  | some a =>
    obtain ⟨i, hi, -, rfl⟩ := hv.lookup_eq_some_iff.1 hl
    obtain ⟨hlow, hhigh⟩ := h i hi
    cases buy with
    | true => exact hhigh
    | false => exact Int.neg_le_of_neg_le hlow

theorem Sound.mono (h : d.Sound requests) : d.Sound [] where
  follows := ⟨h.follows.valid, rfl,
    (Finset.card_le_card (Finset.union_subset_union_right (Finset.empty_subset _))).trans
      h.follows.room⟩
  known := h.known
  unfilled := h.unfilled

/-- The open orders of a direction can all be filled, one after another. -/
theorem Sound.exhaust (h : d.Sound []) (buy : Bool) (name : Stock) :
    ∃ fills : List DeskAction, (∀ a ∈ fills, a.IsFill) ∧ EachStep Admissible RiskDesk.step d fills ∧
      (after RiskDesk.step d fills).Sound [] ∧
      toward buy ((after RiskDesk.step d fills).engine.position name) = d.exposure buy name := by
  induction hm : d.openOf buy name using Nat.strong_induction_on generalizing d with
  | _ m ih =>
    subst hm
    by_cases hz : d.openOf buy name = 0
    · refine ⟨[], fun a ha => ?_, True.intro, h, ?_⟩
      · cases ha
      · rw [exposure, hz]
        exact (Int.add_zero _).symm
    · obtain ⟨n, hn, hpos⟩ := List.exists_mem_ne_zero_of_sum_ne_zero hz
      obtain ⟨x, hx, rfl⟩ := List.mem_map.1 hn
      obtain ⟨order, left⟩ := x
      have hdir : decide (order.side = .buy) = buy ∧ order.stock = name := by
        by_contra hc
        exact hpos (if_neg hc)
      obtain ⟨hbuy, rfl⟩ := hdir
      obtain ⟨i, hi⟩ := List.mem_iff_getElem?.1 hx
      have hlt : left < 2 ^ 32 := (h.unfilled _ hx).trans_lt order.quantity.toNat_lt
      have hq : (UInt32.ofNat left).toNat = left := UInt32.toNat_ofNat_of_lt' hlt
      obtain ⟨hs, hp, ho⟩ := h.fill hi hq.le
      have hopen := ho buy order.stock
      have hposition := hp order.stock
      rw [share, if_pos ⟨hbuy, rfl⟩, hq] at hopen
      rw [if_pos rfl, hq, hbuy] at hposition
      rw [if_pos ⟨hbuy, rfl⟩] at hpos
      have hless : (d.step (.fill i (UInt32.ofNat left))).2.openOf buy order.stock <
          d.openOf buy order.stock := by
        dsimp only at hpos
        omega
      obtain ⟨fills, hfills, hadm, hsound, hreach⟩ := ih _ hless hs rfl
      refine ⟨.fill i (UInt32.ofNat left) :: fills, ?_, ⟨⟨(order, left), hi, hq.le⟩, hadm⟩,
        hsound, ?_⟩
      · intro a ha
        rcases List.mem_cons.1 ha with rfl | ha
        · exact True.intro
        · exact hfills a ha
      · rw [after, hreach, exposure, exposure, hposition, toward_add, toward_toward, ← hopen]
        omega

/-- A run in which the limit holds whatever is filled backs every order that it accepts. -/
theorem Sound.backed (h : d.Sound (DeskAction.requests actions))
    (ha : EachStep Admissible RiskDesk.step d actions)
    (hlimit : ∀ n fills, (∀ a ∈ fills, DeskAction.IsFill a) →
      EachStep Admissible RiskDesk.step (after RiskDesk.step d (actions.take n)) fills →
      (after RiskDesk.step d (actions.take n ++ fills)).engine.WithinLimit) :
    EachStep Backed RiskDesk.step d actions := by
  induction actions generalizing d with
  | nil => trivial
  | cons a actions ih =>
    refine ⟨?_, ih (h.step ha.1) ha.2 fun n => hlimit (n + 1)⟩
    cases a with
    | check order =>
      intro hp
      obtain ⟨hs, he⟩ := h.check
      obtain ⟨fills, hfills, hadm, hsound, hreach⟩ :=
        hs.mono.exhaust (order.side = .buy) order.stock
      have hwithin := withinLimit_position (hlimit 1 fills hfills hadm) hsound.follows.valid
        (order.side = .buy) order.stock
      rw [List.take_succ_cons, List.take_zero, List.singleton_append, after, hreach, he, if_pos hp,
        share, if_pos ⟨rfl, rfl⟩] at hwithin
      exact hwithin
    | fill i quantity => exact True.intro
    | setReferencePrice stock price => exact True.intro

end RiskDesk

theorem RiskDesk.new_covered : RiskDesk.new.Covered := by
  intro buy name
  have hposition : RiskDesk.new.engine.position name = 0 := by
    rw [RiskEngine.position]
    exact congrArg (fun a => (Option.getD a {}).netPosition) RiskEngine.new_lookup
  have hopen : RiskDesk.new.openOf buy name = 0 := rfl
  rw [exposure, hposition, toward_zero, hopen]
  decide

theorem RiskDesk.backed_of_isFill (d : RiskDesk) {a : DeskAction} (h : a.IsFill) : d.Backed a := by
  cases a with
  | check order => cases h
  | fill i quantity => exact True.intro
  | setReferencePrice stock price => cases h

theorem instruments_subset (actions : List DeskAction) (n : Nat)
    (hfills : ∀ a ∈ fills, DeskAction.IsFill a) :
    DeskAction.instruments (actions.take n ++ fills) ⊆ DeskAction.instruments actions := by
  intro name hname
  obtain ⟨c, hc, hreg⟩ := RiskCall.mem_registered_iff.1 hname
  obtain ⟨a, ha, hreq⟩ := List.mem_filterMap.1 hc
  refine RiskCall.mem_registered_iff.2 ⟨c, List.mem_filterMap.2 ⟨a, ?_, hreq⟩, hreg⟩
  rcases List.mem_append.1 ha with ha | ha
  · exact List.mem_of_mem_take ha
  · cases a with
    | check order => cases hfills _ ha
    | fill i quantity => cases hreq
    | setReferencePrice stock price => cases hfills _ ha

open RiskDesk in
/-- The position limit holds in every state of a run, and whatever is filled in it, exactly when
each accepted order leaves room for the orders that are still open. -/
theorem position_limit_iff (actions : List DeskAction)
    (hn : (DeskAction.instruments actions).card ≤ maxInstruments)
    (ha : EachStep Admissible step .new actions) :
    (∀ n fills, (∀ a ∈ fills, DeskAction.IsFill a) →
        EachStep Admissible step (after step .new (actions.take n)) fills →
        (after step .new (actions.take n ++ fills)).engine.WithinLimit) ↔
      EachStep Backed step .new actions := by
  constructor
  · intro h
    exact (new_sound hn).backed ha h
  · intro hb n fills hfills hadm
    have hsound : RiskDesk.new.Sound (DeskAction.requests (actions.take n ++ fills)) :=
      new_sound ((Finset.card_le_card (instruments_subset actions n hfills)).trans hn)
    have hbacked := (hb.take n).append
      (EachStep.of_forall fun d a h => backed_of_isFill d (hfills a h))
    obtain ⟨hc, hs⟩ := new_covered.run hsound ((ha.take n).append hadm) hbacked
    exact hc.withinLimit hs.follows.valid

/-- An order and its fill in two parts, then one the other way. -/
def twoOrders : List DeskAction :=
  [.check { quantity := 10000, price := 1, side := .buy }, .fill 0 4000, .fill 0 6000,
    .check { quantity := 500, price := 1, side := .sell }]

open RiskDesk in
theorem twoOrders_within :
    EachStep Backed step .new twoOrders ∧ (after step .new twoOrders).engine.WithinLimit := by
  have hb : EachStep Backed step .new twoOrders := by decide +kernel
  refine ⟨hb, (position_limit_iff twoOrders ?_ ?_).2 hb 4 [] ?_ True.intro⟩
  · decide +kernel
  · decide +kernel
  · intro a ha
    cases ha

/-- Eleven orders of the largest size pass the check one after another, and all of them fill. -/
theorem outstanding_orders_breach :
    let order : Order := { quantity := 10000, price := 1, side := .buy }
    let actions := List.replicate 11 (.check order) ++ (List.range 11).map fun i => .fill i 10000
    EachStep RiskDesk.Admissible RiskDesk.step .new actions ∧
      (DeskAction.instruments actions).card ≤ maxInstruments ∧
      ¬ (after RiskDesk.step .new actions).engine.WithinLimit := by
  decide +kernel

end Tickpipe
