import Tickpipe.BookMap
import Tickpipe.Ladder

set_option autoImplicit true

namespace Tickpipe

/-- A live order with the position of its Add in the run and whether the engine saw that Add. -/
structure Live where
  order : RestingOrder
  stamp : Nat
  withheld : Bool

def Live.ref (l : Live) : UInt64 := l.order.orderRef

def Live.entry (l : Live) : UInt64 × UInt32 := (l.order.orderRef, l.order.quantity)

/-- The order rests in the engine at this side and price. -/
def Live.rests (buy : Bool) (price : UInt32) (l : Live) : Bool :=
  !l.withheld && decide (l.order.side = .buy) == buy && decide (l.order.price = price)

def Live.resize (l : Live) (n : UInt32) : Live :=
  { l with order := { l.order with quantity := n } }

theorem Live.entry_eq (l : Live) : l.entry = (l.ref, l.order.quantity) := rfl

/-- The live orders in the order of their Adds: what table and engine both implement. -/
abbrev Blotter := List Live

namespace Blotter

def refs (L : Blotter) : List UInt64 := L.map Live.ref

def toMap : Blotter → OrderMap
  | [] => fun _ => none
  | l :: L => Function.update (toMap L) l.ref (some l.order)

def queue (L : Blotter) (buy : Bool) (price : UInt32) : Level :=
  (L.filter (Live.rests buy price)).map Live.entry

/-- Rewrite the quantity of a reference in its place, removing the order on `none`. -/
def alter (f : UInt32 → Option UInt32) (ref : UInt64) : Blotter → Blotter
  | [] => []
  | l :: L =>
    if l.ref = ref then
      match f l.order.quantity with
      | none => L
      | some n => l.resize n :: L
    else l :: alter f ref L

theorem toMap_eq_none_iff (L : Blotter) : L.toMap ref = none ↔ ref ∉ L.refs := by
  induction L with
  | nil => simp only [toMap, refs, List.map_nil, List.not_mem_nil, not_false_eq_true]
  | cons l L ih =>
    rw [toMap, refs, List.map_cons, List.mem_cons, not_or]
    by_cases hr : ref = l.ref
    · subst hr
      rw [Function.update_self]
      exact ⟨nofun, fun h => absurd rfl h.1⟩
    · rw [Function.update_of_ne hr, ih]
      exact ⟨fun h => ⟨hr, h⟩, fun h => h.2⟩

theorem mem_of_toMap {L : Blotter} (h : L.toMap ref = some ro) :
    ∃ l ∈ L, l.ref = ref ∧ l.order = ro := by
  induction L with
  | nil => cases h
  | cons l L ih =>
    rw [toMap] at h
    by_cases hr : ref = l.ref
    · subst hr
      rw [Function.update_self] at h
      exact ⟨l, List.mem_cons_self, rfl, Option.some.inj h⟩
    · rw [Function.update_of_ne hr] at h
      obtain ⟨l', hl', h'⟩ := ih h
      exact ⟨l', List.mem_cons_of_mem _ hl', h'⟩

theorem toMap_of_mem {L : Blotter} (hn : L.refs.Nodup) (h : l ∈ L) :
    L.toMap l.ref = some l.order := by
  induction L with
  | nil => cases h
  | cons a L ih =>
    rw [refs, List.map_cons, List.nodup_cons] at hn
    rcases List.mem_cons.1 h with rfl | h
    · exact Function.update_self _ _ _
    · rw [toMap, Function.update_of_ne, ih hn.2 h]
      intro he
      exact hn.1 (he ▸ List.mem_map_of_mem h)

theorem toMap_append_new {L : Blotter} (h : l.ref ∉ L.refs) :
    toMap (L ++ [l]) = Function.update L.toMap l.ref (some l.order) := by
  induction L with
  | nil => rfl
  | cons a L ih =>
    rw [refs, List.map_cons, List.mem_cons, not_or] at h
    rw [List.cons_append, toMap, ih h.2, toMap, Function.update_comm h.1]

theorem toMap_alter {L : Blotter} (hn : L.refs.Nodup) (h : L.toMap ref = some ro) :
    toMap (L.alter f ref) = Function.update L.toMap ref
      ((f ro.quantity).map fun n => { ro with quantity := n }) := by
  induction L with
  | nil => cases h
  | cons l L ih =>
    rw [refs, List.map_cons, List.nodup_cons] at hn
    rw [toMap] at h
    rw [alter]
    by_cases hr : l.ref = ref
    · subst hr
      rw [Function.update_self] at h
      have ho := Option.some.inj h
      rw [if_pos rfl, toMap, Function.update_idem, ← ho]
      cases f l.order.quantity with
      | none =>
        have hnone := (toMap_eq_none_iff L).2 hn.1
        rw [Option.map_none, ← hnone, Function.update_eq_self]
      | some n => rfl
    · rw [Function.update_of_ne (fun he => hr he.symm)] at h
      rw [if_neg hr, toMap, toMap, ih hn.2 h, Function.update_comm hr]

theorem refs_alter_sublist (f : UInt32 → Option UInt32) (ref : UInt64) (L : Blotter) :
    (L.alter f ref).refs.Sublist L.refs := by
  induction L with
  | nil => exact .slnil
  | cons l L ih =>
    rw [alter]
    split
    · cases f l.order.quantity with
      | none => exact List.sublist_cons_self _ _
      | some n => exact List.Sublist.refl _
    · exact ih.cons_cons _

/-- Every order left after an alteration is an old one, up to the quantity of the altered one. -/
theorem mem_alter {L : Blotter} (h : l ∈ L.alter f ref) : l ∈ L ∨
    ∃ l' ∈ L, l'.ref = ref ∧ ∃ n, f l'.order.quantity = some n ∧ l = l'.resize n := by
  induction L with
  | nil => cases h
  | cons a L ih =>
    rw [alter] at h
    split at h
    · next hr =>
      cases hf : f a.order.quantity with
      | none =>
        rw [hf] at h
        exact .inl (List.mem_cons_of_mem _ h)
      | some n =>
        rw [hf] at h
        rcases List.mem_cons.1 h with h | h
        · exact .inr ⟨a, List.mem_cons_self, hr, n, hf, h⟩
        · exact .inl (List.mem_cons_of_mem _ h)
    · rcases List.mem_cons.1 h with h | h
      · exact .inl (h ▸ List.mem_cons_self)
      · rcases ih h with h | ⟨l', hl', h⟩
        · exact .inl (List.mem_cons_of_mem _ h)
        · exact .inr ⟨l', List.mem_cons_of_mem _ hl', h⟩

theorem stamps_alter_sublist (f : UInt32 → Option UInt32) (ref : UInt64) (L : Blotter) :
    ((L.alter f ref).map Live.stamp).Sublist (L.map Live.stamp) := by
  induction L with
  | nil => exact .slnil
  | cons l L ih =>
    rw [alter]
    split
    · cases f l.order.quantity with
      | none => exact List.sublist_cons_self _ _
      | some n => exact List.Sublist.refl _
    · exact ih.cons_cons _

theorem mem_queue_iff (L : Blotter) (buy : Bool) (price : UInt32) (e : UInt64 × UInt32) :
    e ∈ L.queue buy price ↔ ∃ l ∈ L, l.rests buy price = true ∧ l.entry = e := by
  rw [queue, List.mem_map]
  constructor
  · rintro ⟨l, hl, he⟩
    obtain ⟨hl, hr⟩ := List.mem_filter.1 hl
    exact ⟨l, hl, hr, he⟩
  · rintro ⟨l, hl, hr, he⟩
    exact ⟨l, List.mem_filter.2 ⟨hl, hr⟩, he⟩

theorem queue_refs (L : Blotter) (buy : Bool) (price : UInt32) :
    (L.queue buy price).map Prod.fst = (L.filter (Live.rests buy price)).map Live.ref := by
  rw [queue, List.map_map]
  rfl

theorem mem_queue_refs_iff (L : Blotter) (buy : Bool) (price : UInt32) :
    ref ∈ (L.queue buy price).map Prod.fst ↔
      ∃ l ∈ L, l.rests buy price = true ∧ l.ref = ref := by
  rw [queue_refs, List.mem_map]
  constructor
  · rintro ⟨l, hl, he⟩
    obtain ⟨hl, hr⟩ := List.mem_filter.1 hl
    exact ⟨l, hl, hr, he⟩
  · rintro ⟨l, hl, hr, he⟩
    exact ⟨l, List.mem_filter.2 ⟨hl, hr⟩, he⟩

theorem queue_cons_pos (h : l.rests buy price = true) (L : Blotter) :
    queue (l :: L) buy price = l.entry :: L.queue buy price := by
  rw [queue, List.filter_cons_of_pos h]
  rfl

theorem queue_cons_neg (h : ¬ l.rests buy price = true) (L : Blotter) :
    queue (l :: L) buy price = L.queue buy price := by
  rw [queue, List.filter_cons_of_neg h]
  rfl

/-- An alteration of the blotter is the same alteration of each queue. -/
theorem queue_alter {L : Blotter} (hn : L.refs.Nodup) (buy : Bool) (price : UInt32) :
    (L.alter f ref).queue buy price =
      (Level.alter f ref (L.queue buy price)).getD (L.queue buy price) := by
  induction L with
  | nil => rfl
  | cons l L ih =>
    rw [refs, List.map_cons, List.nodup_cons] at hn
    rw [alter]
    by_cases hr : l.ref = ref
    · subst hr
      have hq : l.ref ∉ (queue L buy price).map Prod.fst := by
        intro hm
        obtain ⟨l', hl', -, he⟩ := (mem_queue_refs_iff L buy price).1 hm
        exact hn.1 (he ▸ List.mem_map_of_mem hl')
      rw [if_pos rfl]
      by_cases hb : l.rests buy price = true
      · rw [queue_cons_pos hb, Live.entry_eq, Level.alter, if_pos rfl]
        cases f l.order.quantity with
        | none => rfl
        | some n => exact queue_cons_pos (l := l.resize n) hb L
      · rw [queue_cons_neg hb, (Level.alter_eq_none_iff _).2 hq]
        cases f l.order.quantity with
        | none => rfl
        | some n => exact queue_cons_neg (l := l.resize n) hb L
    · have ih := ih hn.2
      rw [if_neg hr]
      by_cases hb : l.rests buy price = true
      · rw [queue_cons_pos hb, queue_cons_pos hb, ih, Live.entry_eq, Level.alter, if_neg hr]
        cases Level.alter f ref (queue L buy price) <;> rfl
      · rw [queue_cons_neg hb, queue_cons_neg hb, ih]

theorem queue_append (L : Blotter) (l : Live) (buy : Bool) (price : UInt32) :
    queue (L ++ [l]) buy price =
      L.queue buy price ++ if l.rests buy price then [l.entry] else [] := by
  rw [queue, List.filter_append, List.map_append]
  apply congrArg (queue L buy price ++ ·)
  by_cases hb : l.rests buy price = true
  · rw [if_pos hb]
    exact queue_cons_pos hb []
  · rw [if_neg hb]
    exact queue_cons_neg hb []

end Blotter

end Tickpipe
