import Tickpipe.StatsAccounting
import Tickpipe.ReplayStats
import Tickpipe.Lib.Keyed

set_option autoImplicit true

namespace Tickpipe

open Mealy (after outputs)
open Keyed (inputsAt outputsAt)

namespace OrderMap

/-- The operations of a message depend on the references that it touches only. -/
theorem emit_congr {m m' : OrderMap} (h : ∀ ref, msg.touches ref → m ref = m' ref) (room : Bool) :
    emit m msg room = emit m' msg room := by
  rw [emit, emit]
  cases ha : msg.action with
  | add | trade | none => rfl
  | execute | cancel | delete | replace =>
    have href := h msg.orderRef (by simp [Order.touches, ha])
    simp only [href]

theorem update_agrees {m m' : OrderMap} {P : UInt64 → Prop} (h : ∀ ref, P ref → m ref = m' ref)
    (a : UInt64) (v : Option RestingOrder) (hr : P ref) :
    Function.update m a v ref = Function.update m' a v ref := by
  rw [Function.update_apply, Function.update_apply, h ref hr]

/-- Maps that agree on some references, those of a message among them, agree on them after it. -/
theorem step_agrees {m m' : OrderMap} {P : UInt64 → Prop} (h : ∀ ref, P ref → m ref = m' ref)
    (hmsg : ∀ ref, msg.touches ref → P ref) (room : Bool) (hr : P ref) :
    m.step msg room ref = m'.step msg room ref := by
  rw [step, step]
  cases ha : msg.action with
  | add =>
    cases room with
    | false => exact h ref hr
    | true => exact update_agrees h _ _ hr
  | delete => exact update_agrees h _ _ hr
  | execute | cancel =>
    have href := h msg.orderRef (hmsg _ (by simp [Order.touches, ha]))
    dsimp only
    rw [take, take, href]
    cases m' msg.orderRef with
    | none => exact h ref hr
    | some ro => exact update_agrees h _ _ hr
  | replace =>
    have href := h msg.orderRef (hmsg _ (by simp [Order.touches, ha]))
    have hremoved : ∀ ref, P ref → m.remove msg.orderRef ref = m'.remove msg.orderRef ref :=
      fun ref hr => update_agrees h _ _ hr
    dsimp only
    rw [replace, replace, href]
    cases m' msg.orderRef with
    | none => exact h ref hr
    | some ro =>
      cases room with
      | false => exact hremoved ref hr
      | true => exact update_agrees hremoved _ _ hr
  | trade | none => exact h ref hr

end OrderMap

namespace BookState

variable {k : Nat} {b : BookState k}

theorem resolve_stats (b : BookState k) (msg : Order) :
    (b.resolve msg).2.stats = (b.resolveImpl msg).2.stats := by
  rw [resolve]
  split
  case h_1 h => rw [h]
  case h_2 h => rw [h]

theorem Stats.Drains.tableFull (h : Stats.Drains k s t) : t.tableFull = s.tableFull := by
  rw [h.counters]

theorem resolveAdd_refused (h : (b.resolveAdd msg).1 = none) :
    (b.resolveAdd msg).2.stats.tableFull = b.stats.tableFull + 1 := by
  have hinsert := b.insert_stats ⟨msg.orderRef, msg.quantity, msg.price, msg.side, msg.stock⟩
  rw [resolveAdd] at h ⊢
  split at h
  case h_1 b' hi =>
    rw [hi] at hinsert
    obtain ⟨hfalse, -⟩ | ⟨-, hfull⟩ := hinsert
    · cases hfalse
    · exact congrArg Stats.tableFull hfull
  case h_2 => cases h

theorem resolveReplace_refused (h : (b.resolveReplace msg).1 = some [op]) :
    (b.resolveReplace msg).2.stats.tableFull = b.stats.tableFull + 1 := by
  have hfind := (b.find_drains msg.orderRef).tableFull
  rw [resolveReplace] at h ⊢
  split at h
  case h_1 => cases h
  case h_2 idx b' hf =>
    have herase := (b'.erase_drains msg.orderRef).tableFull
    have hinsert := (b'.erase msg.orderRef).2.insert_stats (OrderMap.renew msg (b'.slots.get idx))
    rw [hf] at hfind
    rw [OrderMap.renew] at hinsert
    dsimp only at h ⊢
    split at h
    case h_1 b'' hi =>
      rw [hi] at hinsert
      obtain ⟨hfalse, -⟩ | ⟨-, hfull⟩ := hinsert
      · cases hfalse
      · rw [hfull]
        dsimp only
        rw [herase, ← hfind]
    case h_2 => cases h

/-- A message that is not counted as refused finds room. -/
theorem Valid.resolve_room (hb : b.Valid)
    (h : (b.resolve msg).2.stats.tableFull = b.stats.tableFull) : b.room msg = true := by
  rw [← Bool.not_eq_false]
  intro hroom
  have hemit := hb.resolve_emit msg
  rw [resolve_stats] at h
  rw [resolve_fst, hroom] at hemit
  rw [room, OrderMap.hasRoom] at hroom
  rw [resolveImpl] at h hemit
  rw [OrderMap.emit] at hemit
  cases ha : msg.action with
  | add =>
    rw [ha] at h hemit
    have hfull := resolveAdd_refused hemit
    dsimp only at h
    omega
  | replace =>
    rw [ha] at h hemit hroom
    dsimp only at h hemit hroom
    cases hl : b.lookup msg.orderRef with
    | none => simp only [hl, Option.isNone_none, Bool.true_or, Bool.true_eq_false] at hroom
    | some ro =>
      rw [hl] at hemit
      have hfull := resolveReplace_refused hemit
      omega
  | execute | cancel | delete | trade | none =>
    rw [ha] at hroom
    cases hroom

/-- A table of all messages next to one of those under the locates that are kept: they agree on
the orders under these, and neither refuses a message still to come. -/
structure Follows (owner : UInt64 → UInt16) (keep : UInt16 → Bool) (b : BookState k)
    (own : BookState k') (msgs : List Order) : Prop where
  valid : b.Valid
  own_valid : own.Valid
  agree : ∀ ref, keep (owner ref) = true → b.lookup ref = own.lookup ref
  owned : ∀ msg ∈ msgs, ∀ ref, msg.touches ref → owner ref = msg.stockLocate
  room : (after resolve b msgs).stats.tableFull = b.stats.tableFull
  own_room :
    (after resolve own (inputsAt (fun msg => keep msg.stockLocate) true msgs)).stats.tableFull =
      own.stats.tableFull

theorem tableFull_head
    (h : (after resolve b (msg :: msgs)).stats.tableFull = b.stats.tableFull) :
    (b.resolve msg).2.stats.tableFull = b.stats.tableFull ∧
      (after resolve (b.resolve msg).2 msgs).stats.tableFull =
        (b.resolve msg).2.stats.tableFull := by
  have hhead := (b.resolve_counts msg).tallies.refused
  have htail := ((b.resolve msg).2.run_tallies msgs).refused
  rw [after] at h
  omega

theorem Follows.keeps {own : BookState k'} (h : Follows owner keep b own (msg :: msgs))
    (hk : keep msg.stockLocate = true) :
    (b.resolve msg).1 = (own.resolve msg).1 ∧
      Follows owner keep (b.resolve msg).2 (own.resolve msg).2 msgs := by
  have hown := h.owned msg List.mem_cons_self
  have htouched : ∀ ref, msg.touches ref → keep (owner ref) = true := by
    intro ref hr
    rw [hown ref hr, hk]
  have hkept := h.own_room
  rw [inputsAt, List.filter_cons_of_pos (by simpa using hk)] at hkept
  obtain ⟨hroom, hrest⟩ := tableFull_head h.room
  obtain ⟨hroom', hrest'⟩ := tableFull_head hkept
  have hrooms : b.room msg = own.room msg := by
    rw [h.valid.resolve_room hroom, h.own_valid.resolve_room hroom']
  have hout : (b.resolve msg).1 = (own.resolve msg).1 := by
    rw [h.valid.resolve_emit, h.own_valid.resolve_emit, hrooms]
    exact OrderMap.emit_congr (fun ref hr => h.agree ref (htouched ref hr)) _
  refine ⟨hout, h.valid.resolve_valid msg, h.own_valid.resolve_valid msg, ?_,
    fun m hm => h.owned m (List.mem_cons_of_mem msg hm), hrest, hrest'⟩
  intro ref hr
  rw [h.valid.resolve_lookup, h.own_valid.resolve_lookup, hrooms]
  exact OrderMap.step_agrees (P := fun ref => keep (owner ref) = true) h.agree htouched _ hr

theorem Follows.drops {own : BookState k'} (h : Follows owner keep b own (msg :: msgs))
    (hk : keep msg.stockLocate ≠ true) : Follows owner keep (b.resolve msg).2 own msgs := by
  have hown := h.owned msg List.mem_cons_self
  have hkept := h.own_room
  rw [inputsAt, List.filter_cons_of_neg (by simpa using hk)] at hkept
  refine ⟨h.valid.resolve_valid msg, h.own_valid, ?_,
    fun m hm => h.owned m (List.mem_cons_of_mem msg hm), (tableFull_head h.room).2, hkept⟩
  intro ref hr
  rw [h.valid.resolve_lookup, OrderMap.step_other, h.agree ref hr]
  intro ht
  rw [hown ref ht] at hr
  exact hk hr

/-- The messages under the locates that are kept resolve alone as they do among all. -/
theorem resolve_purged {own : BookState k'} (h : Follows owner keep b own msgs) :
    outputsAt (fun msg => keep msg.stockLocate) true resolve b msgs =
        outputs resolve own (inputsAt (fun msg => keep msg.stockLocate) true msgs) ∧
      ∀ ref, keep (owner ref) = true → (after resolve b msgs).lookup ref =
        (after resolve own (inputsAt (fun msg => keep msg.stockLocate) true msgs)).lookup ref := by
  obtain ⟨houtputs, hafter⟩ := Keyed.outputsAt_purged (R := Follows owner keep) (k := true)
    (fun _ _ msg _ h (hk : keep msg.stockLocate = true) => h.keeps hk)
    (fun _ _ msg _ h (hk : keep msg.stockLocate ≠ true) => h.drops hk) h
  exact ⟨houtputs, hafter.agree⟩

end BookState

namespace ItchParser

def order? (msg : Body) : Option Order := (parse {} msg).1

theorem parse_fst (c : Counts) (msg : Body) : (parse c msg).1 = order? msg := by
  rw [order?, parse, parse]
  split
  · rfl
  · dsimp only
    split
    · rfl
    · split
      · rfl
      · split
        · rfl
        · split
          · rfl
          · rfl

theorem decode_locate (h : decode data out = some order) : order.stockLocate = out.stockLocate := by
  rw [decode] at h
  split at h
  all_goals cases h
  all_goals rfl

theorem order?_locate (h : order? msg = some order) :
    11 ≤ msg.length ∧ order.stockLocate = readBe16 msg 1 := by
  rw [order?, parse] at h
  split at h
  case isTrue => cases h
  case isFalse hlen =>
    dsimp only at h
    refine ⟨Nat.le_of_not_lt hlen, ?_⟩
    split at h
    · cases h
    · split at h
      · cases h
      · split at h
        · cases h
        · split at h
          · next hd =>
            cases h
            exact decode_locate hd
          · cases h

end ItchParser

/-- A message that `feed` keeps. -/
def NamesSymbol (msg : Body) : Prop := msg.length = 39 ∧ letter (byte msg 0) = 'R'

instance (msg : Body) : Decidable (NamesSymbol msg) :=
  inferInstanceAs (Decidable (_ ∧ _))

namespace SymbolDirectory

theorem feed_of_not_names (d : SymbolDirectory) (h : ¬ NamesSymbol msg) : d.feed msg = none := by
  rw [feed, if_pos (not_and_or.1 h)]

def fed (d : SymbolDirectory) (msgs : List Body) : SymbolDirectory :=
  msgs.foldl (fun d msg => (d.feed msg).getD d) d

end SymbolDirectory

namespace ItchReplay

open ItchParser (order?)

variable {msgs : List Body}

theorem learned_some (d : SymbolDirectory) (msgs : List Body) :
    learned (some d) msgs = some (d.fed msgs) := by
  induction msgs generalizing d with
  | nil => rfl
  | cons msg msgs ih => exact ih ((d.feed msg).getD d)

theorem learned_none (msgs : List Body) : learned none msgs = none := by
  induction msgs with
  | nil => rfl
  | cons msg msgs ih => exact ih

theorem reachesParser_some {s : ItchReplay} (hs : s.directory = some d) (msg : Body) :
    s.reachesParser msg =
      ((d.feed msg).isNone && !(msg.length ≥ 3 && !d.isSubscribed (readBe16 msg 1))) := by
  rw [reachesParser, hs]

theorem handle_orders (s : ItchReplay) (msg : Body) :
    (s.handle msg).orders =
      s.orders ++ if s.reachesParser msg then (order? msg).toList else [] := by
  have hparse := ItchParser.parse_fst s.counts msg
  rw [handle]
  cases hs : s.directory with
  | none =>
    dsimp only
    rw [hparse, reachesParser, hs, if_pos rfl]
    cases order? msg with
    | none => exact (List.append_nil s.orders).symm
    | some order => rfl
  | some d =>
    have hreach := reachesParser_some hs msg
    dsimp only
    cases hd : d.feed msg with
    | some d' =>
      rw [hd, Option.isNone_some, Bool.false_and] at hreach
      rw [hreach]
      exact (List.append_nil s.orders).symm
    | none =>
      rw [hd, Option.isNone_none, Bool.true_and] at hreach
      dsimp only
      rw [hparse, hreach]
      by_cases hf : msg.length ≥ 3 ∧ d.isSubscribed (readBe16 msg 1) = false
      · simp [hf]
      · rw [if_neg hf, if_pos (by simpa using not_and_or.1 hf)]
        cases order? msg with
        | none => exact (List.append_nil s.orders).symm
        | some order => rfl

theorem orders_unparsed (s : ItchReplay) (h : ∀ msg ∈ msgs, order? msg = none) :
    (msgs.foldl handle s).orders = s.orders := by
  induction msgs generalizing s with
  | nil => rfl
  | cons msg msgs ih =>
    rw [List.foldl_cons, ih _ fun m hm => h m (List.mem_cons_of_mem msg hm), handle_orders,
      h msg List.mem_cons_self]
    simp

theorem orders_unfiltered (s : ItchReplay) (hs : s.directory = none) (msgs : List Body) :
    (msgs.foldl handle s).orders = s.orders ++ msgs.filterMap order? := by
  induction msgs generalizing s with
  | nil => exact (List.append_nil s.orders).symm
  | cons msg msgs ih =>
    have hnext : (s.handle msg).directory = none := by rw [directory_handle, hs]; rfl
    rw [List.foldl_cons, ih _ hnext, handle_orders, reachesParser, hs, if_pos rfl,
      List.append_assoc]
    cases ho : order? msg with
    | none => rw [List.filterMap_cons_none ho]; rfl
    | some order => rw [List.filterMap_cons_some ho]; rfl

theorem orders_filtered (s : ItchReplay) (hs : s.directory = some d)
    (h : ∀ msg ∈ msgs, ¬ NamesSymbol msg) :
    (msgs.foldl handle s).orders =
      s.orders ++ (msgs.filterMap order?).filter (d.isSubscribed ·.stockLocate) := by
  induction msgs generalizing s with
  | nil => exact (List.append_nil s.orders).symm
  | cons msg msgs ih =>
    have hfeed := d.feed_of_not_names (h msg List.mem_cons_self)
    have hnext : (s.handle msg).directory = some d := by
      rw [directory_handle, hs, Option.map_some, hfeed]
      rfl
    rw [List.foldl_cons, ih _ hnext fun m hm => h m (List.mem_cons_of_mem msg hm), handle_orders,
      reachesParser, hs, List.append_assoc]
    cases ho : order? msg with
    | none =>
      rw [List.filterMap_cons_none ho]
      simp
    | some order =>
      obtain ⟨hlen, hlocate⟩ := ItchParser.order?_locate ho
      rw [List.filterMap_cons_some ho, List.filter_cons, hlocate]
      have hlong : 3 ≤ msg.length := by omega
      simp [hfeed, hlong]
      cases d.isSubscribed (readBe16 msg 1) with
      | true => rfl
      | false => rfl

end ItchReplay

/-- A book kept of the subscribed symbols alone is the part of the whole book that is theirs: in a
file that names its symbols before the first order, the filter passes just their messages on,
each of which resolves to the same operations and leaves the same orders as in a replay of
everything. -/
theorem subscribed_book_agrees (slots : Vector RestingOrder (2 ^ k))
    (slots' : Vector RestingOrder (2 ^ k')) (d : SymbolDirectory) (owner : UInt64 → UInt16)
    (hfile : messages file = head ++ tail)
    (hhead : ∀ msg ∈ head, ItchParser.order? msg = none)
    (htail : ∀ msg ∈ tail, ¬ NamesSymbol msg)
    (howned : ∀ msg ∈ (ItchReplay.replayAll 0 file {}).orders, ∀ ref, msg.touches ref →
      owner ref = msg.stockLocate)
    (hroom : (after BookState.resolve (.new slots)
      (ItchReplay.replayAll 0 file {}).orders).stats.tableFull = 0)
    (hroom' : (after BookState.resolve (.new slots')
      (ItchReplay.replayAll 0 file { directory := some d }).orders).stats.tableFull = 0) :
    let subscribed := (d.fed head).isSubscribed
    let all := (ItchReplay.replayAll 0 file {}).orders
    let own := (ItchReplay.replayAll 0 file { directory := some d }).orders
    own = all.filter (fun msg => subscribed msg.stockLocate) ∧
      outputs BookState.resolve (.new slots') own =
        outputsAt (fun msg => subscribed msg.stockLocate) true BookState.resolve (.new slots) all ∧
      ∀ ref, subscribed (owner ref) = true →
        (after BookState.resolve (.new slots') own).lookup ref =
          (after BookState.resolve (.new slots) all).lookup ref := by
  intro subscribed all own
  have hall : all = tail.filterMap ItchParser.order? := by
    have hhead' := ItchReplay.orders_unparsed {} hhead
    have hnone : (head.foldl ItchReplay.handle {}).directory = none := by
      rw [ItchReplay.directory_foldl, ItchReplay.learned_none]
    change (ItchReplay.replayAll 0 file {}).orders = _
    rw [replayAll_eq, hfile, List.foldl_append, ItchReplay.orders_unfiltered _ hnone, hhead']
    rfl
  have hown : own = all.filter fun msg => subscribed msg.stockLocate := by
    have hhead' := ItchReplay.orders_unparsed { directory := some d } hhead
    have hsome : (head.foldl ItchReplay.handle { directory := some d }).directory =
        some (d.fed head) := by
      rw [ItchReplay.directory_foldl, ItchReplay.learned_some]
    change (ItchReplay.replayAll 0 file { directory := some d }).orders = _
    rw [replayAll_eq, hfile, List.foldl_append, ItchReplay.orders_filtered _ hsome htail, hhead',
      hall]
    rfl
  have hinputs : inputsAt (fun msg => subscribed msg.stockLocate) true all = own := by
    rw [hown, inputsAt]
    simp
  have hfollows : BookState.Follows owner subscribed (BookState.new slots) (BookState.new slots')
      all :=
    ⟨BookState.new_valid slots, BookState.new_valid slots',
      fun ref _ => by rw [BookState.new_lookup, BookState.new_lookup], howned, hroom,
      by rw [hinputs]; exact hroom'⟩
  obtain ⟨houtputs, hlookup⟩ := BookState.resolve_purged hfollows
  rw [hinputs] at houtputs hlookup
  exact ⟨hown, houtputs.symm, fun ref hr => (hlookup ref hr).symm⟩

def twoSymbols : List UInt8 :=
  let add (locate ref : UInt8) : Body :=
    [65, 0, locate] ++ List.replicate 15 0 ++ [ref, 66, 0, 0, 0, 10] ++ List.replicate 8 65 ++
      [0, 0, 0, 100]
  let delete (locate ref : UInt8) : Body := [68, 0, locate] ++ List.replicate 15 0 ++ [ref]
  ItchReplay.framed ([82, 0, 1] ++ List.replicate 36 32) ++ ItchReplay.framed (add 1 7) ++
    ItchReplay.framed (add 2 8) ++ ItchReplay.framed (delete 1 7)

/-- The subscription to a blank name, as it waits for the message that names it. -/
def forBlank : SymbolDirectory := { SymbolDirectory.new with pending := [SymbolDirectory.blank] }

theorem twoSymbols_agree :
    let own := (ItchReplay.replayAll 0 twoSymbols { directory := some forBlank }).orders
    own.map (·.action) = [.add, .delete] ∧
      outputs BookState.resolve (.new (Vector.replicate (2 ^ 0) default)) own =
        outputsAt (fun msg => (forBlank.fed ((messages twoSymbols).take 1)).isSubscribed
          msg.stockLocate) true BookState.resolve (.new (Vector.replicate (2 ^ 1) default))
          (ItchReplay.replayAll 0 twoSymbols {}).orders := by
  have howned : ∀ msg ∈ (ItchReplay.replayAll 0 twoSymbols {}).orders,
      msg.action ≠ .replace ∧
        (if msg.orderRef = 7 then 1 else 2 : UInt16) = msg.stockLocate := by
    decide +kernel
  have hagree := subscribed_book_agrees (Vector.replicate (2 ^ 1) default)
    (Vector.replicate (2 ^ 0) default) forBlank (fun ref => if ref = 7 then 1 else 2)
    (List.take_append_drop 1 (messages twoSymbols)).symm (by decide +kernel) (by decide +kernel)
    (by
      intro msg hmsg ref ht
      obtain ⟨ha, hl⟩ := howned msg hmsg
      rw [Order.touches.eq_def] at ht
      cases hact : msg.action with
      | replace => exact absurd hact ha
      | add | execute | cancel | delete =>
        rw [hact] at ht
        obtain rfl := ht
        exact hl
      | trade | none =>
        rw [hact] at ht
        exact ht.elim)
    (by decide +kernel) (by decide +kernel)
  exact ⟨by decide +kernel, hagree.2.1⟩

end Tickpipe
