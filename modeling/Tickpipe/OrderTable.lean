import Tickpipe.BookState
import Tickpipe.Lib.LinearProbe

set_option autoImplicit true

namespace Tickpipe
open LinearProbe

namespace BookState

/-- The table as a probe sees it. -/
def cells (b : BookState k) (i : Nat) : Cell UInt64 :=
  if h : i < 2 ^ k then
    match b.state.get ⟨i, h⟩ with
    | .empty => .empty
    | .tombstone => .tombstone
    | .occupied => .full (b.slots.get ⟨i, h⟩).orderRef
  else .empty

/-- The cell where probing for a reference starts, before masking. -/
def home (ref : UInt64) : Nat := (hashRef ref).toNat

def lookup (b : BookState k) (ref : UInt64) : Option RestingOrder :=
  (b.find ref).1.map fun idx => b.slots.get idx

theorem masked_val (k i : Nat) : (masked k i).val = i % 2 ^ k :=
  Nat.and_two_pow_sub_one_eq_mod i k

theorem masked_cellAt (k h d : Nat) : (masked k (h + d)).val = cellAt (2 ^ k) h d :=
  masked_val k (h + d)

theorem masked_next (k h d : Nat) : masked k (masked k (h + d) + 1) = masked k (h + (d + 1)) := by
  apply Fin.ext
  rw [masked_val, masked_val, masked_val, Nat.mod_add_mod, Nat.add_assoc]

theorem cells_fin (b : BookState k) (i : Fin (2 ^ k)) : b.cells i =
    match b.state.get i with
    | .empty => .empty
    | .tombstone => .tombstone
    | .occupied => .full (b.slots.get i).orderRef := by
  rw [cells, dif_pos i.isLt]

theorem cells_masked (b : BookState k) (h d : Nat) : b.cells (cellAt (2 ^ k) h d) =
    match b.state.get (masked k (h + d)) with
    | .empty => .empty
    | .tombstone => .tombstone
    | .occupied => .full (b.slots.get (masked k (h + d))).orderRef :=
  (congrArg b.cells (masked_cellAt k h d).symm).trans (cells_fin b _)

theorem cells_empty_iff (b : BookState k) (i : Fin (2 ^ k)) :
    b.cells i = .empty ↔ b.state.get i = .empty := by
  rw [cells_fin]
  cases b.state.get i <;> simp only [reduceCtorEq]

theorem cells_full_iff (b : BookState k) (i : Fin (2 ^ k)) (ref : UInt64) :
    b.cells i = .full ref ↔ b.state.get i = .occupied ∧ (b.slots.get i).orderRef = ref := by
  rw [cells_fin]
  cases b.state.get i <;> simp only [reduceCtorEq, false_and, Cell.full.injEq, true_and]

/-- The loop of `find` is a probe of the cells. -/
theorem findLoop_eq (b : BookState k) (ref : UInt64) (h fuel d : Nat) :
    b.findLoop ref fuel (masked k (h + d)) d =
      match probe b.cells (2 ^ k) h ref fuel d with
      | .hit e => some (masked k (h + e), e)
      | _ => none := by
  induction fuel generalizing d with
  | zero => rfl
  | succ fuel ih =>
    have hc := cells_masked b h d
    rw [findLoop, probe]
    cases hs : b.state.get (masked k (h + d)) with
    | empty =>
      rw [hs] at hc
      rw [hc]
    | tombstone =>
      rw [hs] at hc
      rw [hc]
      simp only [masked_next, ih]
    | occupied =>
      rw [hs] at hc
      rw [hc]
      by_cases hr : (b.slots.get (masked k (h + d))).orderRef = ref
      · simp only [if_pos hr]
      · simp only [if_neg hr, masked_next, ih]

theorem find_eq (b : BookState k) (ref : UInt64) :
    b.find ref =
      match probe b.cells (2 ^ k) (home ref) ref (2 ^ k) 0 with
      | .hit e => (some (masked k (home ref + e)), b.raiseMaxProbe e)
      | _ => (none, b) := by
  have h := findLoop_eq b ref (home ref) (2 ^ k) 0
  rw [Nat.add_zero] at h
  rw [find, show (hashRef ref).toNat = home ref from rfl, h]
  cases probe b.cells (2 ^ k) (home ref) ref (2 ^ k) 0 <;> rfl

theorem find_slots (b : BookState k) (ref : UInt64) : (b.find ref).2.slots = b.slots := by
  rw [find_eq]
  split <;> rfl

theorem find_state (b : BookState k) (ref : UInt64) : (b.find ref).2.state = b.state := by
  rw [find_eq]
  split <;> rfl

theorem find_digest (b : BookState k) (ref : UInt64) : (b.find ref).2.digest = b.digest := by
  rw [find_eq]
  split <;> rfl

theorem find_live (b : BookState k) (ref : UInt64) :
    (b.find ref).2.stats.live = b.stats.live := by
  rw [find_eq]
  split <;> rfl

/-- `insert` reuses the first tombstone it met, if any, and otherwise the empty cell. -/
theorem insertLoop_spec (b : BookState k) (ref : UInt64) (h fuel d : Nat)
    (reuse : Option (Fin (2 ^ k)))
    (hr : ∀ i, reuse = some i → ∃ c < d, i = masked k (h + c) ∧ b.state.get i = .tombstone) :
    match probe b.cells (2 ^ k) h ref fuel d with
    | .hit e => b.insertLoop ref fuel (masked k (h + d)) d reuse = .overwrite (masked k (h + e))
    | .vacant e => ∃ c ≤ e, b.state.get (masked k (h + c)) ≠ .occupied ∧
        b.insertLoop ref fuel (masked k (h + d)) d reuse = .place (masked k (h + c)) e
    | .exhausted => b.insertLoop ref fuel (masked k (h + d)) d reuse = .full := by
  induction fuel generalizing d reuse with
  | zero => rfl
  | succ fuel ih =>
    have hc := cells_masked b h d
    rw [insertLoop, probe]
    have hlater : ∀ i, reuse = some i →
        ∃ c < d + 1, i = masked k (h + c) ∧ b.state.get i = .tombstone := by
      intro i hi
      obtain ⟨c, hcd, hic⟩ := hr i hi
      exact ⟨c, Nat.lt_succ_of_lt hcd, hic⟩
    cases hs : b.state.get (masked k (h + d)) with
    | empty =>
      rw [hs] at hc
      rw [hc]
      cases reuse with
      | none => exact ⟨d, Nat.le_refl d, by rw [hs]; decide, rfl⟩
      | some i =>
        obtain ⟨c, hcd, hic, ht⟩ := hr i rfl
        subst hic
        exact ⟨c, Nat.le_of_lt hcd, by rw [ht]; decide, rfl⟩
    | tombstone =>
      rw [hs] at hc
      rw [hc]
      simp only [masked_next]
      apply ih
      intro i hi
      cases reuse with
      | none =>
        have hid : masked k (h + d) = i := Option.some.inj hi
        subst hid
        exact ⟨d, Nat.lt_succ_self d, rfl, hs⟩
      | some j => exact hlater i hi
    | occupied =>
      rw [hs] at hc
      rw [hc]
      by_cases hk : (b.slots.get (masked k (h + d))).orderRef = ref
      · simp only [if_pos hk]
      · simp only [if_neg hk, masked_next]
        exact ih (d + 1) reuse hlater

variable {k : Nat} {b b' : BookState k} {ref : UInt64} {ro : RestingOrder} {idx : Fin (2 ^ k)}

/-- The table invariant: the probe chains hold and `live` counts the occupied slots. -/
structure Valid (b : BookState k) : Prop where
  chained : Chained (2 ^ k) home b.cells
  live : b.stats.live = occupied (2 ^ k) b.cells

/-- `find` returns exactly the occupied slot that holds the reference. -/
theorem Valid.find_iff (hb : b.Valid) (ref : UInt64) (i : Fin (2 ^ k)) :
    (b.find ref).1 = some i ↔ b.state.get i = .occupied ∧ (b.slots.get i).orderRef = ref := by
  rw [← cells_full_iff]
  constructor
  · intro hf
    rw [find_eq] at hf
    cases hp : probe b.cells (2 ^ k) (home ref) ref (2 ^ k) 0 with
    | hit e =>
      rw [hp] at hf
      have hi : masked k (home ref + e) = i := Option.some.inj hf
      rw [← hi, masked_cellAt]
      exact (hit_holds hp).2
    | vacant => rw [hp] at hf; cases hf
    | exhausted => rw [hp] at hf; cases hf
  · intro hi
    obtain ⟨d, hd, hdi, hp⟩ := hb.chained.probe_hit i.isLt hi
    rw [find_eq, hp]
    apply congrArg some
    apply Fin.ext
    rw [masked_cellAt, hdi]

theorem Valid.lookup_iff (hb : b.Valid) (ref : UInt64) (ro : RestingOrder) :
    b.lookup ref = some ro ↔
      ∃ i : Fin (2 ^ k), b.state.get i = .occupied ∧ b.slots.get i = ro ∧ ro.orderRef = ref := by
  rw [lookup, Option.map_eq_some_iff]
  constructor
  · rintro ⟨i, hi, rfl⟩
    obtain ⟨ho, hr⟩ := (hb.find_iff ref i).1 hi
    exact ⟨i, ho, rfl, hr⟩
  · rintro ⟨i, ho, rfl, hr⟩
    exact ⟨i, (hb.find_iff ref i).2 ⟨ho, hr⟩, rfl⟩

theorem Valid.lookup_none_iff (hb : b.Valid) (ref : UInt64) :
    b.lookup ref = none ↔ ∀ i, i < 2 ^ k → b.cells i ≠ .full ref := by
  rw [Option.eq_none_iff_forall_ne_some]
  constructor
  · intro hn i hi hc
    obtain ⟨ho, hr⟩ := (cells_full_iff b ⟨i, hi⟩ ref).1 hc
    exact hn _ ((hb.lookup_iff ref _).2 ⟨⟨i, hi⟩, ho, rfl, hr⟩)
  · intro hn ro h
    obtain ⟨i, ho, rfl, hr⟩ := (hb.lookup_iff ref ro).1 h
    exact hn i i.isLt ((cells_full_iff b i ref).2 ⟨ho, hr⟩)

/-- Validity and lookups see only the slots, their states and the live count. -/
theorem Valid.congr (hb : b.Valid) (hs : b'.slots = b.slots) (ht : b'.state = b.state)
    (hl : b'.stats.live = b.stats.live) : b'.Valid := by
  have hc : b'.cells = b.cells := by
    funext i
    simp only [cells, hs, ht]
  exact ⟨by rw [hc]; exact hb.chained, by rw [hl, hc]; exact hb.live⟩

theorem lookup_congr (hs : b'.slots = b.slots) (ht : b'.state = b.state) :
    b'.lookup = b.lookup := by
  have hc : b'.cells = b.cells := by
    funext i
    simp only [cells, hs, ht]
  funext ref
  rw [lookup, lookup, find_eq, find_eq, hc]
  split <;> simp only [hs]

/-- Two tables that agree outside one slot. -/
def SameExcept (idx : Fin (2 ^ k)) (b b' : BookState k) : Prop :=
  ∀ i : Fin (2 ^ k), i ≠ idx → b'.state.get i = b.state.get i ∧ b'.slots.get i = b.slots.get i

/-- Storing an order where nothing else was live changes the map at its reference only. -/
theorem Valid.lookup_store (hb : b.Valid) (hb' : b'.Valid) (hx : SameExcept idx b b')
    (ho : b'.state.get idx = .occupied)
    (hold : b.state.get idx = .occupied →
      (b.slots.get idx).orderRef = (b'.slots.get idx).orderRef) :
    b'.lookup = Function.update b.lookup (b'.slots.get idx).orderRef (some (b'.slots.get idx)) := by
  funext ref
  apply Option.ext
  intro ro
  rw [hb'.lookup_iff]
  by_cases hr : ref = (b'.slots.get idx).orderRef
  · subst hr
    rw [Function.update_self, Option.some.injEq]
    constructor
    · rintro ⟨i, hi, hro, href⟩
      have hfi := (hb'.find_iff _ i).2 ⟨hi, by rw [hro, href]⟩
      have hfx := (hb'.find_iff _ idx).2 ⟨ho, rfl⟩
      rw [hfi] at hfx
      rw [← Option.some.inj hfx, hro]
    · intro hro
      exact ⟨idx, ho, hro, by rw [← hro]⟩
  · rw [Function.update_of_ne hr, hb.lookup_iff]
    constructor
    · rintro ⟨i, hi, rfl, href⟩
      have hne : i ≠ idx := by
        intro hii
        subst hii
        exact hr href.symm
      obtain ⟨hs, ht⟩ := hx i hne
      exact ⟨i, by rw [← hs, hi], ht.symm, href⟩
    · rintro ⟨i, hi, rfl, href⟩
      have hne : i ≠ idx := by
        intro hii
        subst hii
        exact hr (href.symm.trans (hold hi))
      obtain ⟨hs, ht⟩ := hx i hne
      exact ⟨i, by rw [hs, hi], ht, href⟩

theorem Valid.lookup_drop (hb : b.Valid) (hb' : b'.Valid) (hx : SameExcept idx b b')
    (ho : b.state.get idx = .occupied) (hn : b'.state.get idx ≠ .occupied) :
    b'.lookup = Function.update b.lookup (b.slots.get idx).orderRef none := by
  funext ref
  apply Option.ext
  intro ro
  rw [hb'.lookup_iff]
  have hback (i : Fin (2 ^ k)) (hi : b'.state.get i = .occupied) :
      b.state.get i = .occupied ∧ b'.slots.get i = b.slots.get i := by
    have hne : i ≠ idx := by
      intro hii
      subst hii
      exact hn hi
    obtain ⟨hs, ht⟩ := hx i hne
    exact ⟨by rw [← hs, hi], ht⟩
  by_cases hr : ref = (b.slots.get idx).orderRef
  · subst hr
    rw [Function.update_self]
    refine ⟨?_, nofun⟩
    rintro ⟨i, hi, rfl, href⟩
    obtain ⟨hs, ht⟩ := hback i hi
    have hfi := (hb.find_iff _ i).2 ⟨hs, by rw [← ht, href]⟩
    have hfx := (hb.find_iff _ idx).2 ⟨ho, rfl⟩
    rw [hfi] at hfx
    rw [Option.some.inj hfx] at hi
    exact absurd hi hn
  · rw [Function.update_of_ne hr, hb.lookup_iff]
    constructor
    · rintro ⟨i, hi, rfl, href⟩
      obtain ⟨hs, ht⟩ := hback i hi
      exact ⟨i, hs, ht.symm, href⟩
    · rintro ⟨i, hi, rfl, href⟩
      have hne : i ≠ idx := by
        intro hii
        subst hii
        exact hr href.symm
      obtain ⟨hs, ht⟩ := hx i hne
      exact ⟨i, by rw [hs, hi], ht, href⟩

theorem cells_eq_update (hx : SameExcept idx b b') :
    b'.cells = Function.update b.cells idx (b'.cells idx) := by
  funext i
  by_cases hi : i = idx
  · subst hi
    rw [Function.update_self]
  · rw [Function.update_of_ne hi]
    by_cases hlt : i < 2 ^ k
    · obtain ⟨hs, ht⟩ := hx ⟨i, hlt⟩ (fun he => hi (congrArg Fin.val he))
      have hc := cells_fin b ⟨i, hlt⟩
      have hc' := cells_fin b' ⟨i, hlt⟩
      rw [hs, ht] at hc'
      exact hc'.trans hc.symm
    · simp only [cells, dif_neg hlt]

theorem Valid.insert_cases (hb : b.Valid) (ro : RestingOrder) :
    (∃ idx : Fin (2 ^ k), b.state.get idx = .occupied ∧ (b.slots.get idx).orderRef = ro.orderRef ∧
      b.insert ro = (true, { b with slots := b.slots.put idx ro })) ∨
    (∃ (idx : Fin (2 ^ k)) (probes : Nat), b.state.get idx ≠ .occupied ∧
      b.lookup ro.orderRef = none ∧ (∃ i : Fin (2 ^ k), b.state.get i = .empty) ∧
      Chained (2 ^ k) home (Function.update b.cells idx (.full ro.orderRef)) ∧
      b.insert ro = (true, { b with
        slots := b.slots.put idx ro
        state := b.state.put idx .occupied
        stats := b.stats.countLive probes })) ∨
    (b.lookup ro.orderRef = none ∧ (∀ i : Fin (2 ^ k), b.state.get i ≠ .empty) ∧
      b.insert ro = (false, { b with
        stats := { b.stats with tableFull := b.stats.tableFull + 1 } })) := by
  have hl := insertLoop_spec b ro.orderRef (home ro.orderRef) (2 ^ k) 0 none
    (fun i hi => by cases hi)
  rw [Nat.add_zero] at hl
  have hx := probe_explains b.cells (2 ^ k) (home ro.orderRef) ro.orderRef (2 ^ k) 0
  cases hp : probe b.cells (2 ^ k) (home ro.orderRef) ro.orderRef (2 ^ k) 0 with
  | hit e =>
    rw [hp] at hl
    obtain ⟨-, hh⟩ := hit_holds hp
    rw [← masked_cellAt, cells_full_iff] at hh
    exact .inl ⟨_, hh.1, hh.2, by rw [insert, ← home, hl]⟩
  | vacant e =>
    rw [hp] at hl hx
    obtain ⟨c, hce, ho, hl⟩ := hl
    obtain ⟨-, he, hempty, hpass⟩ := hx
    have habs := hb.chained.absent (fun d hd => by rw [hp] at hd; cases hd)
    have hfill := hb.chained.fill habs (show c < 2 ^ k by omega)
      (fun j hj => (hpass j (Nat.zero_le _) (by omega)).1)
    rw [← masked_cellAt] at hfill hempty
    rw [cells_empty_iff] at hempty
    exact .inr (.inl ⟨_, e, ho, (hb.lookup_none_iff _).2 habs, ⟨_, hempty⟩, hfill,
      by rw [insert, ← home, hl]⟩)
  | exhausted =>
    rw [hp] at hl
    have habs := hb.chained.absent (fun d hd => by rw [hp] at hd; cases hd)
    refine .inr (.inr ⟨(hb.lookup_none_iff _).2 habs, ?_, by rw [insert, ← home, hl]⟩)
    intro i hempty
    exact (probe_exhausted_iff habs).1 hp i i.isLt ((cells_empty_iff b i).2 hempty)

theorem sameExcept_slots (b : BookState k) (idx : Fin (2 ^ k)) (ro : RestingOrder) :
    SameExcept idx b { b with slots := b.slots.put idx ro } := by
  intro i hi
  exact ⟨rfl, Vector.get_put_ne _ hi _⟩

theorem sameExcept_store (b : BookState k) (idx : Fin (2 ^ k)) (ro : RestingOrder)
    (st : SlotState) (stats : Stats) : SameExcept idx b
      { b with slots := b.slots.put idx ro, state := b.state.put idx st, stats := stats } := by
  intro i hi
  exact ⟨Vector.get_put_ne _ hi _, Vector.get_put_ne _ hi _⟩

theorem sameExcept_state (b : BookState k) (idx : Fin (2 ^ k)) (st : SlotState) (stats : Stats) :
    SameExcept idx b { b with state := b.state.put idx st, stats := stats } := by
  intro i hi
  exact ⟨Vector.get_put_ne _ hi _, rfl⟩

/-- Rewriting an occupied slot under its own reference leaves the cells as they were. -/
theorem Valid.rewrite (hb : b.Valid) (ho : b.state.get idx = .occupied)
    (hr : (b.slots.get idx).orderRef = ro.orderRef) :
    ({ b with slots := b.slots.put idx ro } : BookState k).Valid := by
  have hself : ({ b with slots := b.slots.put idx ro } : BookState k).cells idx = b.cells idx := by
    rw [(cells_full_iff b idx _).2 ⟨ho, hr⟩, cells_full_iff]
    refine ⟨ho, ?_⟩
    simp only [Vector.get_put_self]
  have hc := cells_eq_update (sameExcept_slots b idx ro)
  rw [hself, Function.update_eq_self] at hc
  exact ⟨by rw [hc]; exact hb.chained, by rw [hc]; exact hb.live⟩

theorem Valid.lookup_rewrite (hb : b.Valid) (ho : b.state.get idx = .occupied)
    (hr : (b.slots.get idx).orderRef = ro.orderRef) :
    ({ b with slots := b.slots.put idx ro } : BookState k).lookup =
      Function.update b.lookup ro.orderRef (some ro) := by
  have h := hb.lookup_store (hb.rewrite ho hr) (sameExcept_slots b idx ro) ho
  simp only [Vector.get_put_self] at h
  exact h fun _ => hr

theorem Valid.place (hb : b.Valid) (hn : b.state.get idx ≠ .occupied)
    (hc : Chained (2 ^ k) home (Function.update b.cells idx (.full ro.orderRef))) :
    ({ b with
        slots := b.slots.put idx ro
        state := b.state.put idx .occupied
        stats := b.stats.countLive probes } : BookState k).Valid := by
  have hx := cells_eq_update (sameExcept_store b idx ro .occupied (b.stats.countLive probes))
  have hself := (cells_full_iff
      { b with
        slots := b.slots.put idx ro
        state := b.state.put idx .occupied
        stats := b.stats.countLive probes } idx ro.orderRef).2
    ⟨Vector.get_put_self _ idx _, by rw [Vector.get_put_self]⟩
  rw [hself] at hx
  refine ⟨by rw [hx]; exact hc, ?_⟩
  rw [hx, occupied_fill idx.isLt, ← hb.live]
  · rfl
  · cases hcell : b.cells idx with
    | empty => rfl
    | tombstone => rfl
    | full r => exact absurd ((cells_full_iff b idx r).1 hcell).1 hn

theorem Valid.insert_valid (hb : b.Valid) (ro : RestingOrder) : (b.insert ro).2.Valid := by
  rcases hb.insert_cases ro with ⟨idx, ho, hr, he⟩ | ⟨idx, probes, hn, -, -, hc, he⟩ | ⟨-, -, he⟩
  · rw [he]; exact hb.rewrite ho hr
  · rw [he]; exact hb.place hn hc
  · rw [he]; exact hb.congr rfl rfl rfl

/-- A successful `insert` binds the reference; a failed one changes no binding. -/
theorem Valid.insert_lookup (hb : b.Valid) (ro : RestingOrder) : (b.insert ro).2.lookup =
    if (b.insert ro).1 then Function.update b.lookup ro.orderRef (some ro) else b.lookup := by
  have hv := hb.insert_valid ro
  rcases hb.insert_cases ro with ⟨idx, ho, hr, he⟩ | ⟨idx, probes, hn, -, -, hc, he⟩ | ⟨-, -, he⟩
  · rw [he]; exact hb.lookup_rewrite ho hr
  · rw [he] at hv ⊢
    have hx := sameExcept_store b idx ro .occupied (b.stats.countLive probes)
    have h := hb.lookup_store hv hx
    simp only [Vector.get_put_self] at h
    exact h True.intro fun ho => absurd ho hn
  · rw [he]; exact lookup_congr rfl rfl

/-- `insert` refuses exactly the new references of a table without an empty slot. -/
theorem Valid.insert_false_iff (hb : b.Valid) (ro : RestingOrder) : (b.insert ro).1 = false ↔
    b.lookup ro.orderRef = none ∧ ∀ i : Fin (2 ^ k), b.state.get i ≠ .empty := by
  rcases hb.insert_cases ro with ⟨idx, ho, hr, he⟩ | ⟨idx, probes, hn, hl, ⟨i, hi⟩, hc, he⟩ |
    ⟨hl, hne, he⟩
  · rw [he]
    refine ⟨nofun, ?_⟩
    rintro ⟨hl, -⟩
    rw [(hb.lookup_iff _ _).2 ⟨idx, ho, rfl, hr⟩] at hl
    cases hl
  · rw [he]
    exact ⟨nofun, fun h => absurd hi (h.2 i)⟩
  · rw [he]
    exact ⟨fun _ => ⟨hl, hne⟩, fun _ => rfl⟩

theorem insert_digest (b : BookState k) (ro : RestingOrder) :
    (b.insert ro).2.digest = b.digest := by
  rw [insert]
  split <;> rfl

theorem Valid.erase_cases (hb : b.Valid) (ref : UInt64) :
    (∃ idx : Fin (2 ^ k), b.state.get idx = .occupied ∧ (b.slots.get idx).orderRef = ref ∧
      b.erase ref = (true, { b with
        state := b.state.put idx .tombstone
        stats := { b.stats with live := b.stats.live - 1 } })) ∨
    (b.lookup ref = none ∧ b.erase ref = (false, b)) := by
  have hl := findLoop_eq b ref (home ref) (2 ^ k) 0
  rw [Nat.add_zero] at hl
  cases hp : probe b.cells (2 ^ k) (home ref) ref (2 ^ k) 0 with
  | hit e =>
    rw [hp] at hl
    obtain ⟨-, hh⟩ := hit_holds hp
    rw [← masked_cellAt, cells_full_iff] at hh
    exact .inl ⟨_, hh.1, hh.2, by rw [erase, ← home, hl]⟩
  | vacant e =>
    rw [hp] at hl
    have habs := hb.chained.absent (fun d hd => by rw [hp] at hd; cases hd)
    exact .inr ⟨(hb.lookup_none_iff _).2 habs, by rw [erase, ← home, hl]⟩
  | exhausted =>
    rw [hp] at hl
    have habs := hb.chained.absent (fun d hd => by rw [hp] at hd; cases hd)
    exact .inr ⟨(hb.lookup_none_iff _).2 habs, by rw [erase, ← home, hl]⟩

/-- The count decremented by `erase` is the count of a table with an occupied slot. -/
theorem Valid.live_pos (hb : b.Valid) (ho : b.state.get idx = .occupied) : 0 < b.stats.live := by
  have hf := (cells_full_iff b idx _).2 ⟨ho, rfl⟩
  have hs := occupied_erase idx.isLt (t := b.cells) (Cell.isFull_iff.2 ⟨_, hf⟩)
  rw [hb.live]
  omega

theorem Valid.erase_valid (hb : b.Valid) (ref : UInt64) : (b.erase ref).2.Valid := by
  rcases hb.erase_cases ref with ⟨idx, ho, hr, he⟩ | ⟨-, he⟩
  · have hx := cells_eq_update (sameExcept_state b idx .tombstone
      { b.stats with live := b.stats.live - 1 })
    have hself : ({ b with
        state := b.state.put idx .tombstone
        stats := { b.stats with live := b.stats.live - 1 } } : BookState k).cells idx =
          .tombstone := by
      rw [cells_fin]
      simp only [Vector.get_put_self]
    rw [hself] at hx
    have hs := occupied_erase idx.isLt (t := b.cells)
      (Cell.isFull_iff.2 ⟨_, (cells_full_iff b idx _).2 ⟨ho, rfl⟩⟩)
    rw [he]
    refine ⟨by rw [hx]; exact hb.chained.erase idx, ?_⟩
    have hl := hb.live
    rw [hx]
    change b.stats.live - 1 = _
    omega
  · rw [he]; exact hb

theorem Valid.erase_lookup (hb : b.Valid) (ref : UInt64) :
    (b.erase ref).2.lookup = Function.update b.lookup ref none := by
  have hv := hb.erase_valid ref
  rcases hb.erase_cases ref with ⟨idx, ho, hr, he⟩ | ⟨hl, he⟩
  · rw [he] at hv ⊢
    have h := hb.lookup_drop hv (sameExcept_state b idx .tombstone _) ho
      (by simp only [Vector.get_put_self]; exact nofun)
    rw [hr] at h
    exact h
  · rw [he, ← hl, Function.update_eq_self]

theorem erase_digest (b : BookState k) (ref : UInt64) : (b.erase ref).2.digest = b.digest := by
  rw [erase]
  split <;> rfl

theorem Valid.find_valid (hb : b.Valid) (ref : UInt64) : (b.find ref).2.Valid :=
  hb.congr (find_slots b ref) (find_state b ref) (find_live b ref)

theorem find_lookup (b : BookState k) (ref : UInt64) : (b.find ref).2.lookup = b.lookup :=
  lookup_congr (find_slots b ref) (find_state b ref)

end BookState

end Tickpipe
