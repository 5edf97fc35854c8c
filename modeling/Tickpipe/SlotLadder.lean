import Tickpipe.Pipeline
import Tickpipe.Ladder

set_option autoImplicit true

namespace Tickpipe

namespace PriceLevel

def queue (l : PriceLevel) : Level :=
  List.ofFn fun i : Fin l.count.val =>
    have : i.val < 16 := by omega
    (l.orderRefs[i.val], l.quantities[i.val])

@[simp] theorem length_queue (l : PriceLevel) : l.queue.length = l.count.val :=
  List.length_ofFn

theorem getElem_queue (l : PriceLevel) (i : Nat) (h : i < l.queue.length) (hi : i < 16) :
    l.queue[i] = (l.orderRefs[i], l.quantities[i]) :=
  List.getElem_ofFn _

theorem queue_eq_nil_iff (l : PriceLevel) : l.queue = [] ↔ l.count = 0 := by
  rw [← List.length_eq_zero_iff, length_queue]
  exact ⟨fun h => Fin.ext h, congrArg Fin.val⟩

theorem isEmpty_iff (l : PriceLevel) : l.isEmpty = true ↔ l.queue = [] := by
  rw [queue_eq_nil_iff, isEmpty, decide_eq_true_eq]

@[simp] theorem queue_clear (l : PriceLevel) : l.clear.queue = [] :=
  (queue_eq_nil_iff _).2 rfl

theorem queue_pushBack (l : PriceLevel) (h : l.count.val < 16) (order : Order) (side : Side) :
    (l.pushBack h order side).queue = l.queue ++ [(order.orderRef, order.quantity)] := by
  apply List.ext_getElem
  · rw [length_queue, List.length_append, length_queue]
    rfl
  · intro i hi hi'
    have hlt : i < l.count.val + 1 := by rw [length_queue] at hi; exact hi
    rw [getElem_queue _ i hi (by omega), List.getElem_append]
    dsimp only [pushBack]
    by_cases he : i < l.queue.length
    · have hne : l.count.val ≠ i := by rw [length_queue] at he; omega
      rw [dif_pos he, getElem_queue _ i he (by omega), Vector.getElem_set_ne _ _ hne,
        Vector.getElem_set_ne _ _ hne]
    · have heq : i = l.count.val := by rw [length_queue] at he; omega
      subst heq
      rw [dif_neg he, Vector.getElem_set_self, Vector.getElem_set_self, List.getElem_singleton]

theorem shiftForward_succ (a : Vector α 16) (n : Nat) (hn : n + 1 < 16) :
    shiftForward a (n + 1) hn =
      (shiftForward a n (by omega)).set n (shiftForward a n (by omega))[n + 1] := by
  rw [shiftForward, Nat.fold_succ]
  rfl

/-- The shift moves every element up to the `n`-th one place forward. -/
theorem getElem_shiftForward (a : Vector α 16) (n : Nat) (hn : n < 16) (j : Nat) (hj : j < 16) :
    (shiftForward a n hn)[j] = if h : j < n then a[j + 1] else a[j] := by
  induction n generalizing j with
  | zero => rw [shiftForward, Nat.fold_zero, dif_neg (Nat.not_lt_zero j)]
  | succ n ih =>
    rw [getElem_congr_coll (shiftForward_succ a n hn)]
    by_cases he : n = j
    · subst he
      rw [Vector.getElem_set_self, dif_pos (Nat.lt_succ_self n), ih (by omega) _ (by omega),
        dif_neg (by omega)]
    · rw [Vector.getElem_set_ne _ _ he, ih (by omega) _ hj]
      by_cases hlt : j < n
      · rw [dif_pos hlt, dif_pos (by omega)]
      · rw [dif_neg hlt, dif_neg (by omega)]

theorem queue_popFront (l : PriceLevel) : l.popFront.queue = l.queue.tail := by
  apply List.ext_getElem
  · rw [length_queue, List.length_tail, length_queue]
    rfl
  · intro i hi hi'
    have hlt : i < l.count.val - 1 := by rw [length_queue] at hi; exact hi
    rw [getElem_queue _ i hi (by omega), List.getElem_tail, getElem_queue _ _ _ (by omega)]
    dsimp only [popFront]
    rw [getElem_shiftForward _ _ _ _ (by omega), getElem_shiftForward _ _ _ _ (by omega),
      dif_pos hlt, dif_pos hlt]

/-- A level that is not empty has a head, whose quantity can be written apart. -/
theorem queue_head (l : PriceLevel) (h : l.queue ≠ []) (left : UInt32) :
    l.queue = (l.headRef, l.headQuantity) :: l.queue.tail ∧
    (l.setHead left).queue = (l.headRef, left) :: l.queue.tail := by
  have hc : 0 < l.queue.length := List.length_pos_iff.2 h
  refine ⟨?_, ?_⟩
  · have hhead : l.queue[0] = (l.headRef, l.headQuantity) := getElem_queue l 0 hc _
    rw [← hhead, ← List.head_eq_getElem h]
    exact (List.cons_head_tail h).symm
  · apply List.ext_getElem
    · rw [length_queue, List.length_cons, List.length_tail, Nat.sub_add_cancel hc, length_queue]
      rfl
    · intro i hi hi'
      have hi16 : i < 16 := by rw [length_queue] at hi; omega
      rw [getElem_queue _ i hi hi16]
      dsimp only [setHead]
      cases i with
      | zero =>
        rw [List.getElem_cons_zero, Vector.getElem_set_self]
        rfl
      | succ i =>
        rw [List.getElem_cons_succ, List.getElem_tail, getElem_queue _ _ _ hi16,
          Vector.getElem_set_ne _ _ (Nat.succ_ne_zero i).symm]

end PriceLevel

/-- A slot stands for a price of the window. -/
def Slot.At (base : UInt32) (slot : Slot) (price : UInt32) : Prop :=
  price.toNat = base.toNat + 100 * slot.val

theorem Slot.At.price_eq {slot : Slot} (h : slot.At base price) (h' : slot.At base price') :
    price = price' :=
  UInt32.toNat_inj.1 (h.trans h'.symm)

theorem Slot.At.slot_eq {slot slot' : Slot} (h : slot.At base price) (h' : slot'.At base price) :
    slot = slot' := by
  rw [At] at h h'
  apply Fin.ext
  omega

theorem Slot.At.lt_iff {slot slot' : Slot} (h : slot.At base price) (h' : slot'.At base price') :
    price < price' ↔ slot < slot' := by
  rw [At] at h h'
  rw [UInt32.lt_iff_toNat_lt, Fin.lt_def]
  omega

namespace SlotLadder

theorem queue_new (levels : Vector PriceLevel (64 * 32)) (bits : Bitmap 32) (slot : Slot) :
    ((SlotLadder.mk (levels.map PriceLevel.clear) bits).levels.get slot).queue = [] := by
  have hget : (levels.map PriceLevel.clear).get slot = (levels.get slot).clear :=
    Vector.getElem_map PriceLevel.clear slot.isLt
  rw [hget, PriceLevel.queue_clear]

/-- Taking shares from the head of a level writes that level, and clears its bit with its last
order. -/
theorem fill_spec (s : SlotLadder) {slot : Slot}
    (hq : (s.levels.get slot).queue = (ref, n) :: q) (quantity : UInt32) :
    ∃ l, s.fill slot quantity =
        ⟨s.levels.put slot l, if l.queue = [] then clearBit s.bits slot else s.bits⟩ ∧
      l.price = (s.levels.get slot).price ∧
      l.queue = if n - quantity = 0 then q else (ref, n - quantity) :: q := by
  have hne : (s.levels.get slot).queue ≠ [] := by rw [hq]; exact List.cons_ne_nil _ _
  have hempty : ¬ (s.levels.get slot).isEmpty = true :=
    fun he => hne ((PriceLevel.isEmpty_iff _).1 he)
  obtain ⟨hhead, hset⟩ := PriceLevel.queue_head _ hne (n - quantity)
  rw [hq, List.tail_cons] at hset hhead
  obtain ⟨hr, hn⟩ := Prod.mk.inj (List.cons.inj hhead).1
  rw [fill]
  dsimp only
  rw [if_neg hempty, ← hn]
  have hprice : ((s.levels.get slot).setHead (n - quantity)).price =
      (s.levels.get slot).price := rfl
  generalize (s.levels.get slot).setHead (n - quantity) = l at hset hprice ⊢
  by_cases hleft : n - quantity = 0
  · have hpop := PriceLevel.queue_popFront l
    rw [hset, List.tail_cons] at hpop
    refine ⟨l.popFront, ?_, hprice, ?_⟩
    · rw [if_pos hleft]
      simp only [PriceLevel.queue_eq_nil_iff]
    · rw [if_pos hleft, hpop]
  · refine ⟨l, ?_, hprice, ?_⟩
    · rw [if_neg hleft, if_neg]
      rw [hset]
      exact List.cons_ne_nil _ _
    · rw [if_neg hleft, hset, hr]

theorem fill_empty (s : SlotLadder) {slot : Slot} (hq : (s.levels.get slot).queue = [])
    (quantity : UInt32) : s.fill slot quantity = s := by
  rw [fill]
  dsimp only
  rw [if_pos ((PriceLevel.isEmpty_iff _).2 hq)]

/-- Resting an order at a slot with room writes its level and sets its bit. -/
theorem rest_spec (s : SlotLadder) {slot : Slot} (hroom : (s.levels.get slot).queue.length < 16)
    (order : Order) (side : Side) :
    ∃ l, s.rest slot order side = ⟨s.levels.put slot l, setBit s.bits slot⟩ ∧
      l.price = order.price ∧
      l.queue = (s.levels.get slot).queue ++ [(order.orderRef, order.quantity)] := by
  rw [PriceLevel.length_queue] at hroom
  refine ⟨(s.levels.get slot).pushBack hroom order side, ?_, rfl,
    PriceLevel.queue_pushBack _ hroom order side⟩
  rw [rest, dif_pos hroom]

theorem rest_full (s : SlotLadder) {slot : Slot}
    (hfull : ¬ (s.levels.get slot).queue.length < 16) (order : Order) (side : Side) :
    s.rest slot order side = s := by
  rw [PriceLevel.length_queue] at hfull
  rw [rest, dif_neg hfull]

/-- A bit is set exactly for a slot whose level holds an order. -/
def Marked (s : SlotLadder) : Prop :=
  ∀ slot, s.bits.test slot = true ↔ (s.levels.get slot).queue ≠ []

theorem test_rest (bits : Bitmap 32) (slot : Slot) {l : PriceLevel} (hl : l.queue ≠ []) (t : Slot) :
    (setBit bits slot).test t = if t = slot then !decide (l.queue = []) else bits.test t := by
  rw [setBit, Bitmap.test_set, decide_eq_false hl]
  by_cases he : t = slot
  · rw [if_pos he, decide_eq_true he, Bool.or_true]
    rfl
  · rw [if_neg he, decide_eq_false he, Bool.or_false]

theorem test_fill {bits : Bitmap 32} {slot : Slot} (hmark : bits.test slot = true) (l : PriceLevel)
    (t : Slot) : (if l.queue = [] then clearBit bits slot else bits).test t =
      if t = slot then !decide (l.queue = []) else bits.test t := by
  by_cases hz : l.queue = []
  · rw [if_pos hz, clearBit, Bitmap.test_clear, decide_eq_true hz]
    by_cases he : t = slot
    · rw [if_pos he, decide_eq_true he, Bool.not_true, Bool.and_false]
    · rw [if_neg he, decide_eq_false he, Bool.not_false, Bool.and_true]
  · rw [if_neg hz, decide_eq_false hz]
    by_cases he : t = slot
    · rw [if_pos he, he, hmark, Bool.not_false]
    · rw [if_neg he]

namespace Marked

variable {s : SlotLadder} {slot : Slot}

theorem put (h : s.Marked) (l : PriceLevel) {bits : Bitmap 32}
    (hb : ∀ t, bits.test t = if t = slot then !decide (l.queue = []) else s.bits.test t) :
    Marked ⟨s.levels.put slot l, bits⟩ := by
  intro t
  rw [Vector.get_put, hb]
  by_cases he : t = slot
  · rw [if_pos he, if_pos he, Bool.not_eq_true', decide_eq_false_iff_not]
  · rw [if_neg he, if_neg he]
    exact h t

theorem rest (h : s.Marked) (slot : Slot) (order : Order) (side : Side) :
    (s.rest slot order side).Marked := by
  by_cases hroom : (s.levels.get slot).queue.length < 16
  · obtain ⟨l, hrest, -, hqueue⟩ := s.rest_spec hroom order side
    have hne : l.queue ≠ [] := by
      rw [hqueue]
      exact List.append_ne_nil_of_right_ne_nil _ (List.cons_ne_nil _ _)
    rw [hrest]
    exact h.put l (test_rest s.bits slot hne)
  · rw [s.rest_full hroom]
    exact h

theorem fill (h : s.Marked) (slot : Slot) (quantity : UInt32) : (s.fill slot quantity).Marked := by
  cases hq : (s.levels.get slot).queue with
  | nil =>
    rw [s.fill_empty hq]
    exact h
  | cons e q =>
    have hmark : s.bits.test slot = true := (h slot).2 (hq ▸ List.cons_ne_nil e q)
    obtain ⟨l, hfill, -, -⟩ := s.fill_spec hq quantity
    rw [hfill]
    exact h.put l (test_fill hmark l)

end Marked

/-- A side of the pipeline holds the same queues as a side of the engine. -/
structure Holds (s : SlotLadder) (book : Ladder lt) (base : UInt32) : Prop where
  queues : ∀ (slot : Slot) price, slot.At base price → (s.levels.get slot).queue = book.queue price
  prices : ∀ slot : Slot, (s.levels.get slot).queue ≠ [] → slot.At base (s.levels.get slot).price
  window : ∀ price, book.queue price ≠ [] → ∃ slot : Slot, slot.At base price
  marks : ∀ slot, s.bits.test slot = true ↔ (s.levels.get slot).queue ≠ []
  tight : book.Tight

namespace Holds

variable {s : SlotLadder} {lt : UInt32 → UInt32 → Prop} {book : Ladder lt} {slot : Slot}

/-- An occupied slot is a level of the book. -/
theorem get?_price (h : s.Holds book base) (hs : (s.levels.get slot).queue ≠ []) :
    book.get? (s.levels.get slot).price = some (s.levels.get slot).queue := by
  have hq := h.queues slot _ (h.prices slot hs)
  rw [h.tight.get?_eq, ← hq, if_neg hs]

/-- A level of the book is an occupied slot. -/
theorem slot_of_level (h : s.Holds book base) (hg : book.get? price = some q) :
    ∃ slot : Slot, slot.At base price ∧ (s.levels.get slot).queue ≠ [] := by
  have hq : book.queue price = q := by rw [Ladder.queue, hg, Option.getD_some]
  have hne : q ≠ [] := by
    rintro rfl
    exact h.tight price hg
  obtain ⟨slot, hat⟩ := h.window price (hq ▸ hne)
  refine ⟨slot, hat, ?_⟩
  rw [h.queues slot price hat, hq]
  exact hne

variable [IsStrictTotalOrder UInt32 lt]

/-- The first level of the book is the occupied slot that no other one precedes. -/
theorem first?_eq (h : s.Holds book base) (hs : s.bits.test slot = true)
    (hbest : ∀ t, s.bits.test t = true → ∀ p p', Slot.At base slot p → Slot.At base t p' →
      ¬ lt p' p) :
    book.first? = some ((s.levels.get slot).price, (s.levels.get slot).queue) := by
  have hne := (h.marks slot).1 hs
  refine book.first?_eq_some_iff.2 ⟨h.get?_price hne, ?_⟩
  intro price q hg
  obtain ⟨t, hat, ht⟩ := h.slot_of_level hg
  have hnot := hbest t ((h.marks t).2 ht) _ _ (h.prices slot hne) hat
  rcases trichotomous_of lt (s.levels.get slot).price price with hlt | heq | hgt
  · exact .inr hlt
  · exact .inl heq.symm
  · exact absurd hgt hnot

theorem first?_eq_none (h : s.Holds book base) (hn : ∀ t, s.bits.test t = false) :
    book.first? = none := by
  refine book.first?_eq_none_iff.2 ?_
  intro price
  cases hg : book.get? price with
  | none => rfl
  | some q =>
    obtain ⟨slot, -, hne⟩ := h.slot_of_level hg
    rw [← h.marks, hn slot] at hne
    cases hne

variable [DecidableRel lt]

/-- Changing the level of one slot follows a change of its queue. -/
theorem settle (h : s.Holds book base) (hat : slot.At base price) (l : PriceLevel)
    (hp : l.queue ≠ [] → l.price = price) (bits : Bitmap 32)
    (hb : ∀ t, bits.test t = if t = slot then !decide (l.queue = []) else s.bits.test t) :
    SlotLadder.Holds ⟨s.levels.put slot l, bits⟩ (book.settle price l.queue) base := by
  refine ⟨?_, ?_, ?_, ?_, h.tight.settle price l.queue⟩
  · intro t p ht
    rw [Vector.get_put]
    by_cases he : t = slot
    · subst he
      rw [if_pos rfl, ht.price_eq hat, Ladder.queue_settle_self]
    · have hne : p ≠ price := by
        rintro rfl
        exact he (ht.slot_eq hat)
      rw [if_neg he, h.queues t p ht, Ladder.queue_settle_ne _ hne]
  · intro t ht
    rw [Vector.get_put] at ht ⊢
    by_cases he : t = slot
    · subst he
      rw [if_pos rfl] at ht ⊢
      rw [hp ht]
      exact hat
    · rw [if_neg he] at ht ⊢
      exact h.prices t ht
  · intro p hne
    by_cases he : p = price
    · exact ⟨slot, he ▸ hat⟩
    · rw [Ladder.queue_settle_ne _ he] at hne
      exact h.window p hne
  · exact Marked.put h.marks l hb

/-- Resting an order at a slot with room pushes it on its level. -/
theorem rest (h : s.Holds book base) {order : Order} (hat : slot.At base order.price)
    (hroom : (book.queue order.price).length < 16) (side : Side) :
    (s.rest slot order side).Holds
      (book.pushBack order.price (order.orderRef, order.quantity)) base := by
  have hq := h.queues slot _ hat
  rw [← hq] at hroom
  obtain ⟨l, hrest, hprice, hback⟩ := s.rest_spec hroom order side
  have hne : l.queue ≠ [] := by
    rw [hback]
    exact List.append_ne_nil_of_right_ne_nil _ (List.cons_ne_nil _ _)
  rw [hrest, Ladder.pushBack_eq_settle, ← hq, ← hback]
  exact h.settle hat l (fun _ => hprice) _ (test_rest s.bits slot hne)

/-- Taking the shares of a match from a slot takes them from the head of its level. -/
theorem fill (h : s.Holds book base) (hat : slot.At base price)
    (hq : (s.levels.get slot).queue = (ref, n) :: q) (quantity : UInt32) :
    (s.fill slot (min quantity n)).Holds
      (SoftwareEngine.hitHead book price ref n quantity q) base := by
  have hne : (s.levels.get slot).queue ≠ [] := by rw [hq]; exact List.cons_ne_nil _ _
  have hmark := (h.marks slot).2 hne
  obtain ⟨l, hfill, hlp, hlq⟩ := s.fill_spec hq (min quantity n)
  have hprice := hlp.trans ((h.prices slot hne).price_eq hat)
  rw [SoftwareEngine.hitHead, hfill, ← hlq]
  exact h.settle hat l (fun _ => hprice) _ (test_fill hmark l)

end Holds

end SlotLadder

end Tickpipe
