import Tickpipe.Lib.OrdMap
import Tickpipe.Lib.Pairwise

set_option autoImplicit true

/-! Items in order of arrival, served best key first and among equal keys earliest first, and the
ordered map of queues that indexes them. -/

namespace Priority

variable {key : α → κ}

section Queues

variable [DecidableEq κ] {view : α → β} {lt : κ → κ → Prop}

/-- The items with one key, as the map queues them. -/
def queueAt (key : α → κ) (view : α → β) (l : List α) (k : κ) : List β :=
  (l.filter (key · = k)).map view

/-- The map holds the items queue by queue, and no empty queue. -/
def Indexes (key : α → κ) (view : α → β) (m : OrdMap κ lt (List β)) (l : List α) : Prop :=
  ∀ k, m.get? k = if queueAt key view l k = [] then none else some (queueAt key view l k)

theorem indexes_empty : Indexes key view (OrdMap.empty : OrdMap κ lt (List β)) [] := fun _ => rfl

theorem queueAt_ne_nil {l : List α} (ha : a ∈ l) : queueAt key view l (key a) ≠ [] := by
  intro h
  have hnil : l.filter (key · = key a) = [] := List.map_eq_nil_iff.1 h
  have hmem : a ∈ l.filter (key · = key a) := List.mem_filter.2 ⟨ha, decide_eq_true rfl⟩
  rw [hnil] at hmem
  cases hmem

theorem Indexes.get?_of_mem {m : OrdMap κ lt (List β)} {l : List α} (h : Indexes key view m l)
    (ha : a ∈ l) : m.get? (key a) = some (queueAt key view l (key a)) := by
  rw [h, if_neg (queueAt_ne_nil ha)]

theorem Indexes.exists_of_get? {m : OrdMap κ lt (List β)} {l : List α} (h : Indexes key view m l)
    (hk : m.get? k = some q) : q = queueAt key view l k ∧ ∃ a ∈ l, key a = k := by
  rw [h] at hk
  split at hk
  · cases hk
  · next hne =>
    cases hk
    refine ⟨rfl, ?_⟩
    obtain ⟨b, hb⟩ := List.exists_mem_of_ne_nil _ hne
    obtain ⟨a, ha, -⟩ := List.mem_map.1 hb
    obtain ⟨hmem, hkey⟩ := List.mem_filter.1 ha
    exact ⟨a, hmem, of_decide_eq_true hkey⟩

theorem queueAt_append (l l' : List α) (k : κ) :
    queueAt key view (l ++ l') k = queueAt key view l k ++ queueAt key view l' k := by
  rw [queueAt, List.filter_append, List.map_append]
  rfl

/-- Change the item with a stamp in place, or drop it. -/
def amend (stamp : α → Nat) (i : Nat) (f : α → Option α) (l : List α) : List α :=
  l.filterMap fun a => if stamp a = i then f a else some a

variable {stamp : α → Nat} {f : α → Option α}

theorem amend_cons_self (h : stamp a = i) (l : List α) :
    amend stamp i f (a :: l) = (f a).toList ++ amend stamp i f l := by
  rw [amend, List.filterMap_cons, if_pos h]
  cases f a with
  | none => rfl
  | some b => rfl

theorem amend_cons_ne (h : stamp a ≠ i) (l : List α) :
    amend stamp i f (a :: l) = a :: amend stamp i f l := by
  rw [amend, List.filterMap_cons, if_neg h]
  rfl

theorem amend_of_not_mem {l : List α} (h : ∀ a ∈ l, stamp a ≠ i) : amend stamp i f l = l := by
  induction l with
  | nil => rfl
  | cons a l ih =>
    rw [amend_cons_ne (h a List.mem_cons_self), ih fun b hb => h b (List.mem_cons_of_mem _ hb)]

theorem filter_key_pos (h : key a = k) (l : List α) :
    (a :: l).filter (key · = k) = a :: l.filter (key · = k) :=
  List.filter_cons_of_pos (decide_eq_true h)

theorem filter_key_neg (h : key a ≠ k) (l : List α) :
    (a :: l).filter (key · = k) = l.filter (key · = k) :=
  List.filter_cons_of_neg fun hn => h (of_decide_eq_true hn)

theorem filter_amend (hf : ∀ a b, f a = some b → key b = key a) (i : Nat) (l : List α) (k : κ) :
    (amend stamp i f l).filter (key · = k) = amend stamp i f (l.filter (key · = k)) := by
  induction l with
  | nil => rfl
  | cons a l ih =>
    by_cases hi : stamp a = i
    · rw [amend_cons_self hi, List.filter_append, ih]
      by_cases hk : key a = k
      · rw [filter_key_pos hk, amend_cons_self hi]
        cases hfa : f a with
        | none => rfl
        | some b =>
          have hb : key b = k := (hf a b hfa).trans hk
          rw [Option.toList_some, filter_key_pos hb, List.filter_nil]
      · rw [filter_key_neg hk]
        cases hfa : f a with
        | none => rfl
        | some b =>
          have hb : key b ≠ k := fun hb => hk ((hf a b hfa).symm.trans hb)
          rw [Option.toList_some, filter_key_neg hb, List.filter_nil, List.nil_append]
    · rw [amend_cons_ne hi]
      by_cases hk : key a = k
      · rw [filter_key_pos hk, filter_key_pos hk, amend_cons_ne hi, ih]
      · rw [filter_key_neg hk, filter_key_neg hk, ih]

theorem eq_of_stamp {l : List α} (hl : l.Pairwise (stamp · < stamp ·)) (ha : a ∈ l) (hb : b ∈ l)
    (h : stamp a = stamp b) : a = b := by
  by_contra hne
  rcases Tickpipe.Pairwise.rel_or_rel hl ha hb hne with hlt | hlt
  · exact absurd h (Nat.ne_of_lt hlt)
  · exact absurd h.symm (Nat.ne_of_lt hlt)

/-- Amending the head of a queue changes that queue only. -/
theorem queueAt_amend_self {l : List α} (hf : ∀ a b, f a = some b → key b = key a)
    (hl : l.Pairwise (stamp · < stamp ·)) (hq : l.filter (key · = key a) = a :: rest) :
    queueAt key view (amend stamp (stamp a) f l) (key a) =
      ((f a).toList ++ rest).map view := by
  have hsub : (a :: rest).Pairwise (stamp · < stamp ·) := hq ▸ hl.filter _
  rw [queueAt, filter_amend hf, hq, amend_cons_self rfl, amend_of_not_mem]
  intro b hb
  exact Nat.ne_of_gt ((List.pairwise_cons.1 hsub).1 b hb)

theorem queueAt_amend_ne {l : List α} (hf : ∀ a b, f a = some b → key b = key a)
    (hl : l.Pairwise (stamp · < stamp ·)) (ha : a ∈ l) (hk : k ≠ key a) :
    queueAt key view (amend stamp (stamp a) f l) k = queueAt key view l k := by
  rw [queueAt, filter_amend hf, amend_of_not_mem, queueAt]
  intro b hb hs
  obtain ⟨hmem, hkey⟩ := List.mem_filter.1 hb
  rw [eq_of_stamp hl hmem ha hs] at hkey
  exact hk (of_decide_eq_true hkey).symm

theorem mem_amend {l : List α} (h : b ∈ amend stamp i f l) :
    b ∈ l ∨ ∃ a ∈ l, f a = some b := by
  obtain ⟨a, ha, hb⟩ := List.mem_filterMap.1 h
  split at hb
  · exact .inr ⟨a, ha, hb⟩
  · cases hb
    exact .inl ha

theorem pairwise_amend {l : List α} (hf : ∀ a b, f a = some b → stamp b = stamp a)
    (hl : l.Pairwise (stamp · < stamp ·)) : (amend stamp i f l).Pairwise (stamp · < stamp ·) := by
  apply List.Pairwise.filterMap _ _ hl
  have hstamp (a b : α) (h : (if stamp a = i then f a else some a) = some b) :
      stamp b = stamp a := by
    split at h
    · exact hf a b h
    · rw [Option.some.inj h]
  intro a a' haa' b hb b' hb'
  rw [hstamp a b hb, hstamp a' b' hb']
  exact haa'

end Queues

variable {lt : κ → κ → Prop} [DecidableRel lt]

/-- The earliest of the items with the best key. -/
def best (lt : κ → κ → Prop) [DecidableRel lt] (key : α → κ) : List α → Option α
  | [] => none
  | a :: l =>
    match best lt key l with
    | none => some a
    | some b => if lt (key b) (key a) then some b else some a

theorem best_eq_none_iff (l : List α) : best lt key l = none ↔ l = [] := by
  cases l with
  | nil => exact ⟨fun _ => rfl, fun _ => rfl⟩
  | cons a l =>
    constructor
    · intro h
      rw [best] at h
      split at h
      · cases h
      · split at h <;> cases h
    · intro h
      cases h

theorem mem_of_best {l : List α} (h : best lt key l = some a) : a ∈ l := by
  induction l generalizing a with
  | nil => cases h
  | cons c l ih =>
    rw [best] at h
    cases hb : best lt key l with
    | none =>
      rw [hb] at h
      cases h
      exact List.mem_cons_self
    | some b =>
      rw [hb] at h
      dsimp only at h
      split at h
      · cases h
        exact List.mem_cons_of_mem _ (ih hb)
      · cases h
        exact List.mem_cons_self

variable [IsStrictTotalOrder κ lt]

/-- No item has a better key. -/
theorem not_lt_of_best {l : List α} (h : best lt key l = some a) (hc : c ∈ l) :
    ¬ lt (key c) (key a) := by
  induction l generalizing a with
  | nil => cases hc
  | cons d l ih =>
    rw [best] at h
    cases hb : best lt key l with
    | none =>
      rw [hb] at h
      cases h
      rw [(best_eq_none_iff l).1 hb, List.mem_singleton] at hc
      subst hc
      exact irrefl _
    | some b =>
      rw [hb] at h
      dsimp only at h
      split at h
      case isTrue hlt =>
        cases h
        rcases List.mem_cons.1 hc with rfl | hc
        · exact asymm hlt
        · exact ih hb hc
      case isFalse hge =>
        cases h
        rcases List.mem_cons.1 hc with rfl | hc
        · exact irrefl _
        · intro hlt
          rcases trichotomous_of lt (key b) (key d) with hbd | he | hdb
          · exact hge hbd
          · exact ih hb hc (he ▸ hlt)
          · exact ih hb hc (trans_of lt hlt hdb)

/-- Among the items with its key it came first. -/
theorem head_of_best [DecidableEq κ] {l : List α} (h : best lt key l = some a) :
    ∃ rest, l.filter (key · = key a) = a :: rest := by
  induction l generalizing a with
  | nil => cases h
  | cons d l ih =>
    rw [best] at h
    cases hb : best lt key l with
    | none =>
      rw [hb] at h
      cases h
      exact ⟨_, List.filter_cons_of_pos (decide_eq_true rfl)⟩
    | some b =>
      rw [hb] at h
      dsimp only at h
      split at h
      case isTrue hlt =>
        cases h
        obtain ⟨rest, hr⟩ := ih hb
        refine ⟨rest, ?_⟩
        rw [List.filter_cons_of_neg, hr]
        intro he
        rw [of_decide_eq_true he] at hlt
        exact irrefl _ hlt
      case isFalse =>
        cases h
        exact ⟨_, List.filter_cons_of_pos (decide_eq_true rfl)⟩

variable [DecidableEq κ] {view : α → β}

/-- The first queue of the map is the one of the best item. -/
theorem Indexes.first? {m : OrdMap κ lt (List β)} {l : List α} (h : Indexes key view m l) :
    m.first? = (best lt key l).map fun a => (key a, queueAt key view l (key a)) := by
  cases hb : best lt key l with
  | none =>
    apply m.first?_eq_none_iff.2
    intro k
    rw [h, (best_eq_none_iff l).1 hb]
    rfl
  | some a =>
    apply m.first?_eq_some_iff.2
    refine ⟨h.get?_of_mem (mem_of_best hb), ?_⟩
    intro k q hk
    obtain ⟨-, c, hc, rfl⟩ := h.exists_of_get? hk
    rcases trichotomous_of lt (key a) (key c) with hlt | he | hgt
    · exact .inr hlt
    · exact .inl he.symm
    · exact absurd hgt (not_lt_of_best hb hc)

end Priority
