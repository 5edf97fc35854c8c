import Tickpipe.RiskEngine
import Tickpipe.Lib.Keyed

set_option autoImplicit true

namespace Tickpipe

/-- What is kept for an instrument. -/
structure Account where
  netPosition : Int := 0
  grossBought : UInt64 := 0
  grossSold : UInt64 := 0
  refPrice : UInt32 := 0
deriving DecidableEq

def Account.filled (a : Account) (side : Side) (quantity : UInt32) : Account :=
  if side = .buy then
    { a with
      netPosition := a.netPosition + quantity.toNat
      grossBought := a.grossBought + quantity.toUInt64 }
  else
    { a with
      netPosition := a.netPosition - quantity.toNat
      grossSold := a.grossSold + quantity.toUInt64 }

/-- A call as the instrument it names sees it; at first nothing is kept for an instrument. -/
def RiskCall.own (a : Option Account) : RiskCall → Option RiskResult × Option Account
  | .check order =>
    match RiskEngine.screen order with
    | some reason => (some reason, a)
    | none =>
      let account := a.getD {}
      (some (RiskEngine.assess account.refPrice account.netPosition order), some account)
  | .onFill _ side quantity => (none, some ((a.getD {}).filled side quantity))
  | .setReferencePrice _ price => (none, some { a.getD {} with refPrice := price })

abbrev AccountMap := Stock → Option Account

namespace RiskEngine

variable {r r' : RiskEngine} {stock : Stock} {i : Fin maxInstruments}

def name (r : RiskEngine) (i : Fin maxInstruments) : Stock := (r.positions.get i).stock

def account (r : RiskEngine) (i : Fin maxInstruments) : Account where
  netPosition := (r.positions.get i).netPosition
  grossBought := (r.positions.get i).grossBought
  grossSold := (r.positions.get i).grossSold
  refPrice := r.refPrices.get i

/-- What the engine keeps for an instrument. -/
def lookup (r : RiskEngine) : AccountMap := fun stock => (r.scan stock).map r.account

/-- No name has two entries, and nothing was written where no name is yet. -/
structure Valid (r : RiskEngine) : Prop where
  distinct : ∀ i j : Fin maxInstruments, i < r.instrumentCount → j < r.instrumentCount →
    r.name i = r.name j → i = j
  fresh : ∀ i : Fin maxInstruments, r.instrumentCount ≤ i →
    (r.account i).grossBought = 0 ∧ (r.account i).grossSold = 0 ∧ (r.account i).refPrice = 0

theorem new_valid : new.Valid where
  distinct i _ hi := absurd hi (Nat.not_lt_zero i)
  fresh i _ := by
    have hp : new.positions.get i = {} := Vector.getElem_replicate i.isLt
    have hr : new.refPrices.get i = 0 := Vector.getElem_replicate i.isLt
    rw [account, hp, hr]
    exact ⟨rfl, rfl, rfl⟩

theorem scan_eq_none_iff :
    r.scan stock = none ↔ ∀ i : Fin maxInstruments, i < r.instrumentCount → r.name i ≠ stock := by
  rw [scan, List.find?_eq_none]
  constructor
  · intro h i hi hn
    exact h i (List.mem_finRange i) (decide_eq_true ⟨hi, hn⟩)
  · intro h i _ hd
    exact h i (of_decide_eq_true hd).1 (of_decide_eq_true hd).2

theorem of_scan (h : r.scan stock = some i) : i < r.instrumentCount ∧ r.name i = stock := by
  rw [scan] at h
  have hfound := List.find?_some h
  exact of_decide_eq_true hfound

theorem Valid.scan_iff (hr : r.Valid) :
    r.scan stock = some i ↔ i < r.instrumentCount ∧ r.name i = stock := by
  refine ⟨of_scan, fun ⟨hi, hn⟩ => ?_⟩
  cases hs : r.scan stock with
  | none => exact absurd hn (scan_eq_none_iff.1 hs i hi)
  | some j =>
    obtain ⟨hj, hnj⟩ := of_scan hs
    rw [hr.distinct j i hj hi (hnj.trans hn.symm)]

theorem lookup_eq_none_iff : r.lookup stock = none ↔ r.scan stock = none := Option.map_eq_none_iff

theorem new_lookup : new.lookup stock = none := by
  apply lookup_eq_none_iff.2
  apply scan_eq_none_iff.2
  intro i hi
  exact absurd hi (Nat.not_lt_zero i)

/-- The lookup depends on the names in use and on their accounts. -/
theorem Valid.lookup_eq_some_iff (hr : r.Valid) : r.lookup stock = some a ↔
    ∃ i : Fin maxInstruments, i < r.instrumentCount ∧ r.name i = stock ∧ r.account i = a := by
  rw [lookup, Option.map_eq_some_iff]
  simp only [hr.scan_iff, and_assoc]

/-- One entry was written to, not its name. -/
structure Touched (i : Fin maxInstruments) (r r' : RiskEngine) : Prop where
  count : r'.instrumentCount = r.instrumentCount
  name : ∀ j, r'.name j = r.name j
  other : ∀ j, j ≠ i → r'.account j = r.account j

theorem Touched.valid (h : Touched i r r') (hi : i < r.instrumentCount) (hr : r.Valid) :
    r'.Valid where
  distinct j k hj hk hn := by
    rw [h.count] at hj hk
    rw [h.name, h.name] at hn
    exact hr.distinct j k hj hk hn
  fresh j hj := by
    rw [h.count] at hj
    have hne : j ≠ i := by
      rintro rfl
      exact absurd hi (Nat.not_lt.2 hj)
    rw [h.other j hne]
    exact hr.fresh j hj

theorem Touched.scan (h : Touched i r r') (stock : Stock) : r'.scan stock = r.scan stock := by
  rw [RiskEngine.scan, RiskEngine.scan, h.count]
  congr 1
  funext j
  exact congrArg (fun n => decide (j < r.instrumentCount ∧ n = stock)) (h.name j)

theorem Touched.lookup (h : Touched i r r') (hs : r.scan stock = some i) :
    r'.lookup = Function.update r.lookup stock (some (r'.account i)) := by
  funext stock'
  by_cases he : stock' = stock
  · subst he
    rw [Function.update_self, RiskEngine.lookup, h.scan, hs]
    rfl
  · rw [Function.update_of_ne he, RiskEngine.lookup, RiskEngine.lookup, h.scan]
    cases hs' : r.scan stock' with
    | none => rfl
    | some j =>
      have hne : j ≠ i := by
        rintro rfl
        exact he ((of_scan hs').2.symm.trans (of_scan hs).2)
      exact congrArg some (h.other j hne)

theorem create_name_self (h : r.instrumentCount < maxInstruments) :
    (r.create stock h).name ⟨r.instrumentCount, h⟩ = stock := by
  rw [name, create, Vector.get_put_self]

theorem create_get_ne (h : r.instrumentCount < maxInstruments) (hi : i.val ≠ r.instrumentCount) :
    (r.create stock h).positions.get i = r.positions.get i :=
  Vector.get_put_ne _ (fun he => hi (congrArg Fin.val he)) _

theorem create_account_ne (h : r.instrumentCount < maxInstruments)
    (hi : i.val ≠ r.instrumentCount) : (r.create stock h).account i = r.account i := by
  rw [account, create_get_ne h hi]
  rfl

theorem Valid.create_account_self (hr : r.Valid) (h : r.instrumentCount < maxInstruments) :
    (r.create stock h).account ⟨r.instrumentCount, h⟩ = {} := by
  obtain ⟨hb, hs, hp⟩ := hr.fresh ⟨r.instrumentCount, h⟩ (Nat.le_refl _)
  rw [account, create, Vector.get_put_self]
  exact Account.mk.injEq .. ▸ ⟨rfl, hb, hs, hp⟩

/-- An entry of the grown table is an old one or the new one. -/
theorem lt_create (h : r.instrumentCount < maxInstruments)
    (hi : i < (r.create stock h).instrumentCount) :
    i < r.instrumentCount ∨ i = ⟨r.instrumentCount, h⟩ := by
  rcases Nat.lt_succ_iff_lt_or_eq.1 hi with hlt | he
  · exact .inl hlt
  · exact .inr (Fin.ext he)

theorem create_name_ne (h : r.instrumentCount < maxInstruments) (hi : i < r.instrumentCount) :
    (r.create stock h).name i = r.name i :=
  congrArg PositionEntry.stock (create_get_ne h (Nat.ne_of_lt hi))

theorem Valid.create (hr : r.Valid) (hs : r.scan stock = none)
    (h : r.instrumentCount < maxInstruments) : (r.create stock h).Valid where
  distinct i j hi hj hn := by
    have hnew := scan_eq_none_iff.1 hs
    rcases lt_create h hi with hi | rfl
    · rcases lt_create h hj with hj | rfl
      · rw [create_name_ne h hi, create_name_ne h hj] at hn
        exact hr.distinct i j hi hj hn
      · rw [create_name_ne h hi, create_name_self] at hn
        exact absurd hn (hnew i hi)
    · rcases lt_create h hj with hj | rfl
      · rw [create_name_ne h hj, create_name_self] at hn
        exact absurd hn.symm (hnew j hj)
      · rfl
  fresh i hi := by
    have hlt : r.instrumentCount < i := hi
    rw [create_account_ne h (Nat.ne_of_gt hlt)]
    exact hr.fresh i (Nat.le_of_lt hlt)

theorem Valid.create_lookup (hr : r.Valid) (hs : r.scan stock = none)
    (h : r.instrumentCount < maxInstruments) :
    (r.create stock h).lookup = Function.update r.lookup stock (some {}) := by
  have hv := hr.create hs h
  funext stock'
  apply Option.ext
  intro a
  rw [hv.lookup_eq_some_iff]
  by_cases he : stock' = stock
  · subst he
    rw [Function.update_self, Option.some.injEq]
    constructor
    · rintro ⟨i, hi, hn, rfl⟩
      rcases lt_create h hi with hi | rfl
      · rw [create_name_ne h hi] at hn
        exact absurd hn (scan_eq_none_iff.1 hs i hi)
      · exact (hr.create_account_self h).symm
    · rintro rfl
      exact ⟨⟨r.instrumentCount, h⟩, Nat.lt_succ_self _, create_name_self h,
        hr.create_account_self h⟩
  · rw [Function.update_of_ne he, hr.lookup_eq_some_iff]
    constructor
    · rintro ⟨i, hi, hn, rfl⟩
      rcases lt_create h hi with hi | rfl
      · rw [create_name_ne h hi] at hn
        exact ⟨i, hi, hn, (create_account_ne h (Nat.ne_of_lt hi)).symm⟩
      · rw [create_name_self] at hn
        exact absurd hn.symm he
    · rintro ⟨i, hi, hn, rfl⟩
      exact ⟨i, Nat.lt_succ_of_lt hi, (create_name_ne h hi).trans hn,
        create_account_ne h (Nat.ne_of_lt hi)⟩

/-- Whatever the entry that `find_or_create` gives, it is one in use. -/
theorem Valid.findOrCreate_valid (hr : r.Valid) (stock : Stock) :
    (r.findOrCreate stock).2.Valid ∧
      (r.findOrCreate stock).1 < (r.findOrCreate stock).2.instrumentCount := by
  rw [RiskEngine.findOrCreate]
  cases hs : r.scan stock with
  | some i => exact ⟨hr, (of_scan hs).1⟩
  | none =>
    dsimp only
    split
    · next hroom => exact ⟨hr.create hs hroom, Nat.lt_succ_self _⟩
    · next hfull =>
      have hpos : 0 < maxInstruments := by decide
      exact ⟨hr, Nat.lt_of_lt_of_le hpos (Nat.not_lt.1 hfull)⟩

/-- The name has an entry, or there is room for one. -/
def Admits (r : RiskEngine) (stock : Stock) : Prop :=
  (r.lookup stock).isSome ∨ r.instrumentCount < maxInstruments

/-- `find_or_create` gives the entry of the name, opening an account where there is none. -/
theorem Valid.findOrCreate (hr : r.Valid) (h : r.Admits stock) :
    (r.findOrCreate stock).2.scan stock = some (r.findOrCreate stock).1 ∧
      (r.findOrCreate stock).2.account (r.findOrCreate stock).1 = (r.lookup stock).getD {} ∧
      (r.findOrCreate stock).2.lookup =
        Function.update r.lookup stock (some ((r.lookup stock).getD {})) := by
  rw [RiskEngine.findOrCreate]
  cases hs : r.scan stock with
  | some i =>
    have hl : r.lookup stock = some (r.account i) := congrArg (Option.map r.account) hs
    refine ⟨hs, ?_, ?_⟩
    · rw [hl]
      rfl
    · rw [hl, Option.getD_some, ← hl, Function.update_eq_self]
  | none =>
    have hl : r.lookup stock = none := lookup_eq_none_iff.2 hs
    have hroom : r.instrumentCount < maxInstruments := by
      rcases h with h | h
      · rw [hl] at h
        cases h
      · exact h
    dsimp only
    rw [dif_pos hroom, hl]
    have hv := hr.create hs hroom
    exact ⟨hv.scan_iff.2 ⟨Nat.lt_succ_self _, create_name_self hroom⟩,
      hr.create_account_self hroom, hr.create_lookup hs hroom⟩

end RiskEngine

end Tickpipe
