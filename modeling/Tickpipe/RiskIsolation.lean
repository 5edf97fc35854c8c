import Tickpipe.RiskAccounts
import Mathlib.Data.Finset.Card
import Mathlib.Data.Fintype.Card

set_option autoImplicit true

namespace Tickpipe

open Mealy (outputs after)
open Keyed (inputsAt outputsAt)

namespace RiskEngine

variable {r r' : RiskEngine} {stock : Stock} {i : Fin maxInstruments}

theorem count_lookup (r : RiskEngine) (result : RiskResult) :
    (r.count result).lookup = r.lookup := by
  rw [count]
  split <;> rfl

theorem Valid.count (hr : r.Valid) (result : RiskResult) : (r.count result).Valid := by
  rw [RiskEngine.count]
  split
  · exact ⟨hr.distinct, hr.fresh⟩
  · exact ⟨hr.distinct, hr.fresh⟩

theorem touched_fill (r : RiskEngine) (i : Fin maxInstruments) (side : Side) (quantity : UInt32) :
    Touched i r { r with positions := r.positions.put i (filled (r.positions.get i) side quantity) }
    where
  count := rfl
  name j := by
    rw [name, Vector.get_put]
    split
    · next he =>
      rw [he, filled]
      split <;> rfl
    · rfl
  other j hj := by
    rw [account, Vector.get_put_ne _ hj]
    rfl

theorem touched_refPrice (r : RiskEngine) (i : Fin maxInstruments) (price : UInt32) :
    Touched i r { r with refPrices := r.refPrices.put i price } where
  count := rfl
  name _ := rfl
  other j hj := by
    rw [account, Vector.get_put_ne _ hj]
    rfl

theorem account_fill (r : RiskEngine) (i : Fin maxInstruments) (side : Side) (quantity : UInt32) :
    account
        { r with positions := r.positions.put i (filled (r.positions.get i) side quantity) } i =
      (r.account i).filled side quantity := by
  rw [account, Vector.get_put_self, filled, Account.filled]
  split <;> rfl

theorem account_refPrice (r : RiskEngine) (i : Fin maxInstruments) (price : UInt32) :
    account { r with refPrices := r.refPrices.put i price } i =
      { r.account i with refPrice := price } := by
  rw [account, Vector.get_put_self]
  rfl

theorem Valid.step_valid (hr : r.Valid) (c : RiskCall) : (c.step r).2.Valid := by
  cases c with
  | check order =>
    rw [RiskCall.step, check]
    cases screen order with
    | some reason => exact hr.count reason
    | none => exact (hr.findOrCreate_valid order.stock).1.count _
  | onFill stock side quantity =>
    obtain ⟨hv, hi⟩ := hr.findOrCreate_valid stock
    exact (touched_fill _ _ side quantity).valid hi hv
  | setReferencePrice stock price =>
    obtain ⟨hv, hi⟩ := hr.findOrCreate_valid stock
    exact (touched_refPrice _ _ price).valid hi hv

theorem Valid.run (hr : r.Valid) (calls : List RiskCall) : (after RiskCall.step r calls).Valid := by
  induction calls generalizing r with
  | nil => exact hr
  | cons c calls ih => exact ih (hr.step_valid c)

/-- A call does to the account it names what it should, and to no other. -/
theorem Valid.step (hr : r.Valid) (c : RiskCall) (h : c.registers = true → r.Admits c.stock) :
    (c.step r).1 = (c.own (r.lookup c.stock)).1 ∧
      (c.step r).2.lookup =
        Function.update r.lookup c.stock (c.own (r.lookup c.stock)).2 := by
  cases c with
  | check order =>
    rw [RiskCall.step, RiskCall.own, check]
    cases hscreen : screen order with
    | some reason =>
      refine ⟨rfl, ?_⟩
      dsimp only
      rw [count_lookup, Function.update_eq_self]
    | none =>
      have hadmits := h (congrArg Option.isNone hscreen)
      obtain ⟨-, ha, hl⟩ := hr.findOrCreate hadmits
      have hassess := congrArg (fun a => assess a.refPrice a.netPosition order) ha
      exact ⟨congrArg some hassess, (count_lookup _ _).trans hl⟩
  | onFill stock side quantity =>
    obtain ⟨hs, ha, hl⟩ := hr.findOrCreate (h rfl)
    refine ⟨rfl, ((touched_fill _ _ side quantity).lookup hs).trans ?_⟩
    rw [hl, Function.update_idem, account_fill, ha]
    rfl
  | setReferencePrice stock price =>
    obtain ⟨hs, ha, hl⟩ := hr.findOrCreate (h rfl)
    refine ⟨rfl, ((touched_refPrice _ _ price).lookup hs).trans ?_⟩
    rw [hl, Function.update_idem, account_refPrice, ha]
    rfl

def names (r : RiskEngine) : Finset Stock :=
  (Finset.univ.filter fun i : Fin maxInstruments => i < r.instrumentCount).image r.name

theorem Valid.mem_names_iff (hr : r.Valid) : stock ∈ r.names ↔ (r.lookup stock).isSome := by
  rw [names, Finset.mem_image, Option.isSome_iff_exists]
  simp only [hr.lookup_eq_some_iff, Finset.mem_filter, Finset.mem_univ, true_and]
  constructor
  · rintro ⟨i, hi, hn⟩
    exact ⟨_, i, hi, hn, rfl⟩
  · rintro ⟨_, i, hi, hn, -⟩
    exact ⟨i, hi, hn⟩

theorem card_names_le (r : RiskEngine) : r.names.card ≤ maxInstruments := by
  have hle := Finset.card_image_le (s := Finset.univ.filter
    fun i : Fin maxInstruments => i < r.instrumentCount) (f := r.name)
  have hfin := Finset.card_filter_le Finset.univ
    fun i : Fin maxInstruments => (i : Nat) < r.instrumentCount
  rw [Finset.card_univ, Fintype.card_fin] at hfin
  exact hle.trans hfin

/-- In a full table every entry has a name of its own. -/
theorem Valid.card_names (hr : r.Valid) (hfull : r.instrumentCount = maxInstruments) :
    r.names.card = maxInstruments := by
  have hall (i : Fin maxInstruments) : i.val < r.instrumentCount := by
    rw [hfull]
    exact i.isLt
  rw [names, Finset.card_image_of_injOn, Finset.filter_true_of_mem fun i _ => hall i,
    Finset.card_univ, Fintype.card_fin]
  intro i _ j _ hn
  exact hr.distinct i j (hall i) (hall j) hn

theorem Valid.admits (hr : r.Valid) (h : (insert stock r.names).card ≤ maxInstruments) :
    r.Admits stock := by
  by_cases hmem : stock ∈ r.names
  · exact .inl (hr.mem_names_iff.1 hmem)
  · rw [Finset.card_insert_of_notMem hmem] at h
    refine .inr (Nat.lt_of_le_of_ne r.bound fun hfull => ?_)
    rw [hr.card_names hfull] at h
    exact Nat.not_succ_le_self _ h

end RiskEngine

namespace RiskCall

def registered (calls : List RiskCall) : Finset Stock :=
  ((calls.filter (·.registers)).map (·.stock)).toFinset

theorem mem_registered_iff {name : Stock} :
    name ∈ registered calls ↔ ∃ c ∈ calls, c.registers = true ∧ c.stock = name := by
  rw [registered, List.mem_toFinset, List.mem_map]
  simp only [List.mem_filter, and_assoc]

theorem own_isSome (a : Option Account) (c : RiskCall) :
    (c.own a).2.isSome ↔ a.isSome ∨ c.registers = true := by
  cases c with
  | check order =>
    rw [own, registers]
    cases RiskEngine.screen order with
    | some reason => simp
    | none => simp
  | onFill => simp [own, registers]
  | setReferencePrice => simp [own, registers]

theorem run_own_isSome (a : Option Account) (calls : List RiskCall) :
    (after own a calls).isSome ↔ a.isSome ∨ ∃ c ∈ calls, c.registers = true := by
  induction calls generalizing a with
  | nil => simp [after]
  | cons c calls ih =>
    rw [after, ih, own_isSome, or_assoc]
    simp only [List.mem_cons, exists_eq_or_imp]

/-- The engine answers as the accounts do, and has room for the names to come. -/
structure Follows (r : RiskEngine) (accounts : AccountMap) (calls : List RiskCall) : Prop where
  valid : r.Valid
  accounts : r.lookup = accounts
  room : (r.names ∪ registered calls).card ≤ maxInstruments

theorem Follows.admits {r : RiskEngine} {t : AccountMap} (h : Follows r t (c :: calls))
    (hc : c.registers = true) : r.Admits c.stock := by
  apply h.valid.admits
  apply le_trans (Finset.card_le_card _) h.room
  apply Finset.insert_subset
  · exact Finset.mem_union_right _ (mem_registered_iff.2 ⟨c, List.mem_cons_self, hc, rfl⟩)
  · exact Finset.subset_union_left

theorem Follows.step {r : RiskEngine} {t : AccountMap} (h : Follows r t (c :: calls)) :
    (c.step r).1 = (Keyed.step stock own t c).1 ∧
      Follows (c.step r).2 (Keyed.step stock own t c).2 calls := by
  have hadmits := h.admits
  obtain ⟨hr, rfl, hroom⟩ := h
  have hv := hr.step_valid c
  obtain ⟨ho, hl⟩ := hr.step c hadmits
  refine ⟨ho, hv, hl, le_trans (Finset.card_le_card ?_) hroom⟩
  intro name hname
  rw [Finset.mem_union, hv.mem_names_iff, hl] at hname
  rw [Finset.mem_union, hr.mem_names_iff]
  rcases hname with hname | hname
  · by_cases he : name = c.stock
    · subst he
      rw [Function.update_self, own_isSome] at hname
      rcases hname with hname | hname
      · exact .inl hname
      · exact .inr (mem_registered_iff.2 ⟨c, List.mem_cons_self, hname, rfl⟩)
    · rw [Function.update_of_ne he] at hname
      exact .inl hname
  · obtain ⟨c', hc', hreg⟩ := mem_registered_iff.1 hname
    exact .inr (mem_registered_iff.2 ⟨c', List.mem_cons_of_mem c hc', hreg⟩)

theorem new_follows (h : (registered calls).card ≤ maxInstruments) :
    Follows .new (fun _ => none) calls := by
  have hnone : RiskEngine.new.lookup = fun _ => none :=
    funext fun _ => RiskEngine.new_lookup
  refine ⟨RiskEngine.new_valid, hnone, ?_⟩
  have hempty : RiskEngine.new.names = ∅ := by
    apply Finset.eq_empty_of_forall_notMem
    intro name hname
    rw [RiskEngine.new_valid.mem_names_iff, hnone] at hname
    cases hname
  rw [hempty, Finset.empty_union]
  exact h

/-- While its table has room for all names, the engine is one account for each of them. -/
theorem run_follows (calls : List RiskCall) (h : (registered calls).card ≤ maxInstruments) :
    outputs step .new calls = outputs (Keyed.step stock own) (fun _ => none) calls ∧
      Follows (after step .new calls) (after (Keyed.step stock own) (fun _ => none) calls) [] :=
  Mealy.simulation (fun _ _ _ _ => Follows.step) (new_follows h)

/-- What a run answers on an instrument and keeps for it does not depend on the calls that name
others. -/
def Isolated (calls : List RiskCall) (name : Stock) : Prop :=
  outputsAt stock name step .new calls = outputs step .new (inputsAt stock name calls) ∧
    (after step .new calls).lookup name = (after step .new (inputsAt stock name calls)).lookup name

/-- The accounts, one machine for each name. -/
theorem own_projects (calls : List RiskCall) (name : Stock) :
    outputsAt stock name (Keyed.step stock own) (fun _ => none) calls =
        outputs own none (inputsAt stock name calls) ∧
      after (Keyed.step stock own) (fun _ => none) calls name =
        after own none (inputsAt stock name calls) :=
  Keyed.projects (fun _ => none) calls name

/-- A run on one instrument alone. -/
theorem run_alone (calls : List RiskCall) (name : Stock) :
    outputs step .new (inputsAt stock name calls) = outputs own none (inputsAt stock name calls) ∧
      (after step .new (inputsAt stock name calls)).lookup name =
        after own none (inputsAt stock name calls) := by
  have hkey : ∀ c ∈ inputsAt stock name calls, c.stock = name :=
    fun c hc => Keyed.key_of_mem_inputsAt hc
  have hone : (registered (inputsAt stock name calls)).card ≤ maxInstruments := by
    have hsub : registered (inputsAt stock name calls) ⊆ {name} := by
      intro name' hname'
      obtain ⟨c, hc, -, rfl⟩ := mem_registered_iff.1 hname'
      exact Finset.mem_singleton.2 (hkey c hc)
    exact (Finset.card_le_card hsub).trans
      ((Finset.card_singleton name).trans_le (by decide))
  obtain ⟨ho, hf⟩ := run_follows _ hone
  obtain ⟨hpo, hpa⟩ := own_projects (inputsAt stock name calls) name
  have hidem : inputsAt stock name (inputsAt stock name calls) = inputsAt stock name calls :=
    List.filter_eq_self.2 fun c hc => decide_eq_true (hkey c hc)
  rw [hidem] at hpo hpa
  rw [Keyed.outputsAt_of_all hkey] at hpo
  exact ⟨ho.trans hpo, (congrFun hf.accounts name).trans hpa⟩

theorem isolated_of_card_le (h : (registered calls).card ≤ maxInstruments) (name : Stock) :
    Isolated calls name := by
  obtain ⟨ho, hf⟩ := run_follows calls h
  obtain ⟨hpo, hpa⟩ := own_projects calls name
  obtain ⟨hao, haa⟩ := run_alone calls name
  refine ⟨?_, ?_⟩
  · rw [hao, ← hpo, outputsAt, outputsAt, ho]
  · rw [haa, ← hpa, hf.accounts]

/-- Every name that registers has its account when no other name interferes with it. -/
theorem registered_subset_names (h : ∀ name, Isolated calls name) :
    registered calls ⊆ (after step .new calls).names := by
  have hv := RiskEngine.new_valid.run calls
  intro name hname
  obtain ⟨c, hc, hreg, he⟩ := mem_registered_iff.1 hname
  have hmem : c ∈ inputsAt stock name calls := List.mem_filter.2 ⟨hc, decide_eq_true he⟩
  rw [hv.mem_names_iff, (h name).2, (run_alone calls name).2, run_own_isSome]
  exact .inr ⟨c, hmem, hreg⟩

end RiskCall

open RiskCall in
/-- No instrument interferes with another exactly when the names that get as far as the table all
have room there. -/
theorem instruments_isolated_iff (calls : List RiskCall) :
    (∀ name, Isolated calls name) ↔ (registered calls).card ≤ maxInstruments := by
  constructor
  · intro h
    exact (Finset.card_le_card (registered_subset_names h)).trans (RiskEngine.card_names_le _)
  · intro h name
    exact isolated_of_card_le h name

section Overflow

open RiskCall

def numbered (n : Nat) : Stock := Vector.replicate 8 (UInt8.ofNat n)

theorem numbered_inj (hm : m < 256) (hn : n < 256) (h : numbered m = numbered n) : m = n := by
  have hbyte : UInt8.ofNat m = UInt8.ofNat n := (Vector.replicate_inj.1 h).resolve_left (by decide)
  have hnat := congrArg UInt8.toNat hbyte
  rwa [UInt8.toNat_ofNat_of_lt' hm, UInt8.toNat_ofNat_of_lt' hn] at hnat

/-- The largest position that the limit allows, bought in each of `n` instruments. -/
def buyEach (n : Nat) : List RiskCall :=
  (List.range n).map fun i => .onFill (numbered i) .buy 100000

/-- The first `n` entries hold a full position each. -/
structure Bought (n : Nat) (r : RiskEngine) : Prop where
  valid : r.Valid
  count : r.instrumentCount = n
  name : ∀ i : Fin maxInstruments, i < n → r.name i = numbered i
  account : ∀ i : Fin maxInstruments, i < n →
    r.account i = { netPosition := 100000, grossBought := 100000 }

theorem Bought.scan (h : Bought n r) (hn : n ≤ maxInstruments) : r.scan (numbered n) = none := by
  apply RiskEngine.scan_eq_none_iff.2
  intro i hi he
  rw [h.count] at hi
  rw [h.name i hi] at he
  have hlt : maxInstruments < 256 := by decide
  exact Nat.ne_of_lt hi (numbered_inj (by omega) (by omega) he)

theorem Bought.step (h : Bought n r) (hn : n < maxInstruments) :
    Bought (n + 1) (r.onFill (numbered n) .buy 100000) := by
  have hroom : r.instrumentCount < maxInstruments := h.count ▸ hn
  have hf : r.findOrCreate (numbered n) =
      (⟨r.instrumentCount, hroom⟩, r.create (numbered n) hroom) := by
    rw [RiskEngine.findOrCreate, h.scan (Nat.le_of_lt hn)]
    exact dif_pos hroom
  have htouched := RiskEngine.touched_fill (r.create (numbered n) hroom)
    ⟨r.instrumentCount, hroom⟩ .buy 100000
  have hv := h.valid.step_valid (.onFill (numbered n) .buy 100000)
  rw [RiskCall.step] at hv
  rw [RiskEngine.onFill, hf] at hv ⊢
  refine ⟨hv, congrArg (· + 1) h.count, ?_, ?_⟩
  · intro i hi
    rw [htouched.name]
    by_cases he : i = ⟨r.instrumentCount, hroom⟩
    · rw [he, RiskEngine.create_name_self]
      exact congrArg numbered h.count.symm
    · have hne : i.val ≠ r.instrumentCount := fun h' => he (Fin.ext h')
      have hlt : i.val < n := by
        rw [h.count] at hne
        omega
      rw [RiskEngine.create_name_ne hroom (h.count ▸ hlt), h.name i hlt]
  · intro i hi
    by_cases he : i = ⟨r.instrumentCount, hroom⟩
    · rw [he, RiskEngine.account_fill, h.valid.create_account_self hroom]
      rfl
    · have hne : i.val ≠ r.instrumentCount := fun h' => he (Fin.ext h')
      have hlt : i.val < n := by
        rw [h.count] at hne
        omega
      rw [htouched.other i he, RiskEngine.create_account_ne hroom hne, h.account i hlt]

theorem bought_after (n : Nat) (hn : n ≤ maxInstruments) :
    Bought n (after step .new (buyEach n)) := by
  induction n with
  | zero =>
    exact ⟨RiskEngine.new_valid, rfl, fun i hi => absurd hi (Nat.not_lt_zero i),
      fun i hi => absurd hi (Nat.not_lt_zero i)⟩
  | succ n ih =>
    rw [buyEach, List.range_succ, List.map_append, Mealy.after_append]
    exact (ih (Nat.le_of_succ_le hn)).step hn

theorem Bought.check (h : Bought maxInstruments r) (hscreen : RiskEngine.screen order = none)
    (hstock : order.stock = numbered maxInstruments) :
    (r.check order).1 = RiskEngine.assess 0 100000 order := by
  have hf : r.findOrCreate order.stock = (⟨0, by decide⟩, r) := by
    rw [hstock, RiskEngine.findOrCreate, h.scan (Nat.le_refl _)]
    exact dif_neg (by rw [h.count]; exact Nat.lt_irrefl _)
  have hfirst := h.account ⟨0, by decide⟩ (by decide)
  rw [RiskEngine.check, hscreen, hf]
  exact congrArg (fun a => RiskEngine.assess a.refPrice a.netPosition order) hfirst

/-- With a full table an order on a new instrument is judged by the position of the first one. -/
theorem full_table_interferes :
    let order : Order := { quantity := 10000, price := 1, side := .buy, stock := numbered 128 }
    let calls := buyEach 128 ++ [.check order]
    outputsAt RiskCall.stock (numbered 128) step .new calls = [some .exceedsPosition] ∧
      outputs step .new (inputsAt RiskCall.stock (numbered 128) calls) = [some .accepted] ∧
      ¬ ∀ name, Isolated calls name := by
  intro order calls
  have hb := bought_after 128 (Nat.le_refl _)
  have hothers : ∀ c ∈ buyEach 128, c.stock ≠ numbered 128 := by decide +kernel
  have hcheck : ((after step .new (buyEach 128)).check order).1 = .exceedsPosition :=
    (hb.check rfl rfl).trans (by decide)
  have hfull : outputsAt RiskCall.stock (numbered 128) step .new calls =
      [some .exceedsPosition] := by
    have hkey : (RiskCall.check order).stock = numbered 128 := rfl
    rw [Keyed.outputsAt_append, Keyed.outputsAt_of_none hothers, Keyed.outputsAt_cons_self hkey,
      RiskCall.step, hcheck]
    rfl
  have halone : outputs step .new (inputsAt RiskCall.stock (numbered 128) calls) =
      [some .accepted] := by
    decide +kernel
  refine ⟨hfull, halone, fun h => ?_⟩
  have hsame := (h (numbered 128)).1
  rw [hfull, halone] at hsame
  cases hsame

end Overflow

end Tickpipe
