import Tickpipe.SymbolDirectory
import Mathlib.Data.List.Nodup
import Mathlib.Data.Finset.Card

set_option autoImplicit true

namespace Tickpipe

inductive DirectoryCall where
  | subscribe (symbol : Option (List UInt8))
  | feed (data : Body)

namespace DirectoryCall

/-- The name that a call subscribes, padded. -/
def name? : DirectoryCall → Option Stock
  | .subscribe symbol => symbol.map SymbolDirectory.pad8
  | .feed _ => none

/-- The locate and the symbol that an `R` carries. -/
def binding? : DirectoryCall → Option (UInt16 × Stock)
  | .subscribe _ => none
  | .feed data =>
    if data.length ≠ 39 ∨ letter (byte data 0) ≠ 'R' then none
    else some (readBe16 data 1, readStock data 11)

def names (calls : List DirectoryCall) : List Stock := calls.filterMap name?

def entries (calls : List DirectoryCall) : List (UInt16 × Stock) := calls.filterMap binding?

end DirectoryCall

/-- The names that no entry carries. -/
def waiting (names : List Stock) (entries : List (UInt16 × Stock)) : Finset Stock :=
  (names.filter fun s => s ∉ entries.map Prod.snd).toFinset

theorem mem_waiting : s ∈ waiting names entries ↔ s ∈ names ∧ ∀ l, (l, s) ∉ entries := by
  rw [waiting, List.mem_toFinset, List.mem_filter, decide_eq_true_iff, List.mem_map]
  apply and_congr_right
  intro _
  exact ⟨fun h l hl => h ⟨(l, s), hl, rfl⟩, fun h ⟨⟨l, s'⟩, hl, hs⟩ => h l (hs ▸ hl)⟩

/-- Each locate carries one symbol, and each symbol one locate. -/
def Consistent (entries : List (UInt16 × Stock)) : Prop :=
  ∀ e ∈ entries, ∀ e' ∈ entries, e.1 = e'.1 ↔ e.2 = e'.2

theorem consistent_singleton (e : UInt16 × Stock) : Consistent [e] := by
  intro a ha b hb
  rw [List.mem_singleton.1 ha, List.mem_singleton.1 hb]
  exact iff_of_true rfl rfl

theorem Consistent.of_subset (h : Consistent entries) (hs : entries' ⊆ entries) :
    Consistent entries' :=
  fun e he e' he' => h e (hs he) e' (hs he')

namespace SymbolDirectory

variable {d d' : SymbolDirectory}

theorem mem_locates (l : UInt16) : l ∈ locates :=
  List.mem_map.2 ⟨l.toNat, List.mem_range'_1.2 ⟨Nat.zero_le _, l.toNat_lt⟩, UInt16.ofNat_toNat⟩

theorem nodup_locates : locates.Nodup := by
  apply List.Nodup.map_on _ List.nodup_range'
  intro a ha b hb hab
  have hmod := congrArg UInt16.toNat hab
  have ha : a < 2 ^ 16 := (List.mem_range'_1.1 ha).2
  have hb : b < 2 ^ 16 := (List.mem_range'_1.1 hb).2
  rw [UInt16.toNat_ofNat', UInt16.toNat_ofNat', Nat.mod_eq_of_lt ha, Nat.mod_eq_of_lt hb] at hmod
  exact hmod

/-- To mark one more element of a list raises its count. -/
theorem countP_update [DecidableEq α] {l : List α} (hn : l.Nodup) (ha : a ∈ l) (f : α → Bool) :
    l.countP (Function.update f a true) = l.countP f + if f a then 0 else 1 := by
  induction l with
  | nil => cases ha
  | cons b l ih =>
    obtain ⟨hb, hn⟩ := List.nodup_cons.1 hn
    rw [List.countP_cons, List.countP_cons]
    by_cases hab : b = a
    · have hrest : l.countP (Function.update f a true) = l.countP f := by
        apply List.countP_congr
        intro c hc
        have hca : c ≠ a := by
          rintro rfl
          exact hb (hab ▸ hc)
        rw [Function.update_of_ne hca]
      rw [hrest, hab, Function.update_self]
      cases f a <;> rfl
    · rw [ih hn (List.mem_of_ne_of_mem (fun h => hab h.symm) ha), Function.update_of_ne hab]
      exact Nat.add_right_comm _ _ _

theorem symbolOf_eq_some_iff : d.symbolOf l = some s ↔ d.known l = true ∧ d.symbols l = s := by
  rw [symbolOf]
  cases d.known l with
  | true => exact ⟨fun h => ⟨rfl, Option.some.inj h⟩, fun h => congrArg some h.2⟩
  | false => exact ⟨nofun, nofun⟩

theorem symbolOf_of_scan (h : d.scan want = some l) : d.symbolOf l = some want := by
  have hl := List.find?_some h
  rw [Bool.and_eq_true, decide_eq_true_iff] at hl
  exact symbolOf_eq_some_iff.2 hl

theorem not_symbolOf_of_scan (h : d.scan want = none) (l : UInt16) : d.symbolOf l ≠ some want := by
  intro hl
  apply List.find?_eq_none.1 h l (mem_locates l)
  rw [Bool.and_eq_true, decide_eq_true_iff]
  exact symbolOf_eq_some_iff.1 hl

/-- Marking a locate changes nothing but the marks. -/
theorem markSubscribed_eq (d : SymbolDirectory) (l : UInt16) :
    d.markSubscribed l = { d with
      subscribed := Function.update d.subscribed l true
      subscribedCount := d.subscribedCount + if d.subscribed l then 0 else 1 } := by
  rw [markSubscribed]
  cases h : d.subscribed l with
  | true =>
    have hsub : Function.update d.subscribed l true = d.subscribed := h ▸ Function.update_eq_self ..
    rw [if_pos rfl, if_pos rfl, hsub]
    rfl
  | false => rfl

theorem symbolOf_markSubscribed (d : SymbolDirectory) (l : UInt16) :
    (d.markSubscribed l).symbolOf = d.symbolOf := by
  rw [markSubscribed_eq]
  rfl

theorem isSubscribed_eq (h : d.all = false) : d.isSubscribed = d.subscribed := by
  funext l
  rw [isSubscribed, h, Bool.false_or]

theorem all_markSubscribed (d : SymbolDirectory) (l : UInt16) :
    (d.markSubscribed l).all = d.all := by
  rw [markSubscribed_eq]

theorem isSubscribed_markSubscribed (h : d.all = false) (l : UInt16) :
    (d.markSubscribed l).isSubscribed = Function.update d.isSubscribed l true := by
  have hm := (d.all_markSubscribed l).trans h
  rw [isSubscribed_eq hm, isSubscribed_eq h, markSubscribed_eq]

theorem subscribedCount_markSubscribed (h : d.all = false)
    (hcount : d.subscribedCount = locates.countP d.isSubscribed) (l : UInt16) :
    (d.markSubscribed l).subscribedCount = locates.countP (d.markSubscribed l).isSubscribed := by
  rw [isSubscribed_markSubscribed h, countP_update nodup_locates (mem_locates l), ← hcount,
    isSubscribed_eq h, markSubscribed_eq]

/-- The name that waits first is taken out, in whatever order the rest is left. -/
theorem settlePending_some {pending rest : List Stock}
    (h : settlePending want pending = some rest) : (want :: rest).Perm pending := by
  rw [settlePending] at h
  cases hi : pending.findIdx? (· = want) with
  | none =>
    rw [hi] at h
    cases h
  | some i =>
    obtain ⟨hlt, hwant, -⟩ := List.findIdx?_eq_some_iff_getElem.1 hi
    rw [decide_eq_true_iff] at hwant
    cases hl : pending.getLast? with
    | none =>
      rw [hi, hl] at h
      cases h
    | some last =>
      rw [hi, hl] at h
      obtain ⟨init, rfl⟩ := List.getLast?_eq_some_iff.1 hl
      cases h
      rw [List.length_append, List.length_singleton] at hlt
      by_cases hlast : i < init.length
      · rw [List.getElem_append_left hlast] at hwant
        rw [List.set_append_left i last hlast, List.dropLast_concat]
        calc want :: init.set i last
          _ |>.Perm (want :: last :: init.eraseIdx i) :=
            (List.set_perm_cons_eraseIdx hlast last).cons want
          _ |>.Perm (last :: want :: init.eraseIdx i) := List.Perm.swap ..
          _ |>.Perm (last :: init) := (hwant ▸ List.getElem_cons_eraseIdx_perm hlast).cons last
          _ |>.Perm (init ++ [last]) := (List.perm_append_singleton last init).symm
      · obtain rfl : i = init.length := by omega
        rw [List.getElem_concat_length rfl] at hwant
        rw [List.set_append_right _ _ (Nat.le_refl _), Nat.sub_self, List.set_cons_zero,
          List.dropLast_concat, hwant]
        exact (List.perm_append_singleton want init).symm

theorem settlePending_none {pending : List Stock} (h : settlePending want pending = none) :
    want ∉ pending := by
  intro hw
  rw [settlePending] at h
  cases hi : pending.findIdx? (· = want) with
  | none => exact of_decide_eq_false (List.findIdx?_eq_none_iff.1 hi want hw) rfl
  | some i =>
    cases hl : pending.getLast? with
    | none =>
      rw [List.getLast?_eq_none_iff.1 hl] at hw
      cases hw
    | some last =>
      rw [hi, hl] at h
      cases h

/-- What a directory is to hold after the calls that subscribed the names and fed the entries. -/
structure Describes (names : List Stock) (entries : List (UInt16 × Stock)) (d : SymbolDirectory) :
    Prop where
  known : ∀ l s, d.symbolOf l = some s ↔ (l, s) ∈ entries
  knownCount : d.knownCount = locates.countP d.known
  subscribed : ∀ l, d.isSubscribed l = true ↔ ∃ s, d.symbolOf l = some s ∧ s ∈ names
  subscribedCount : d.subscribedCount = locates.countP d.isSubscribed
  once : d.pending.Nodup
  unmatched : ∀ s, s ∈ d.pending ↔ s ∈ waiting names entries
  all : d.all = false
  blank : ∀ l, d.known l = false → d.symbols l = blank

theorem new_count : locates.countP (fun _ => false) = 0 :=
  List.countP_eq_zero.2 fun _ _ => Bool.false_ne_true

theorem new_describes : Describes [] [] new where
  known _ _ := ⟨nofun, nofun⟩
  knownCount := new_count.symm
  subscribed _ := ⟨nofun, nofun⟩
  subscribedCount := new_count.symm
  once := List.nodup_nil
  unmatched _ := ⟨nofun, nofun⟩
  all := rfl
  blank _ _ := rfl

theorem Describes.length_pending (h : Describes names entries d) :
    d.pending.length = (waiting names entries).card := by
  have hset : d.pending.toFinset = waiting names entries := by
    ext s
    rw [List.mem_toFinset, h.unmatched]
  rw [← hset, List.toFinset_card_of_nodup h.once]

theorem waiting_snoc (names : List Stock) (entries : List (UInt16 × Stock)) :
    s ∈ waiting (names ++ [want]) entries ↔
      s ∈ waiting names entries ∨ s = want ∧ ∀ l, (l, want) ∉ entries := by
  rw [mem_waiting, mem_waiting, List.mem_append, List.mem_singleton]
  constructor
  · rintro ⟨hs | rfl, he⟩
    · exact Or.inl ⟨hs, he⟩
    · exact Or.inr ⟨rfl, he⟩
  · rintro (⟨hs, he⟩ | ⟨rfl, he⟩)
    · exact ⟨Or.inl hs, he⟩
    · exact ⟨Or.inr rfl, he⟩

/-- A name that has a locate is subscribed there. -/
theorem Describes.subscribe_known (h : Describes names entries d) (hc : Consistent entries)
    (hl : d.symbolOf l = some want) :
    Describes (names ++ [want]) entries (d.markSubscribed l) where
  known l' s := by
    rw [symbolOf_markSubscribed]
    exact h.known l' s
  knownCount := by
    rw [markSubscribed_eq]
    exact h.knownCount
  subscribedCount := subscribedCount_markSubscribed h.all h.subscribedCount l
  once := by
    rw [markSubscribed_eq]
    exact h.once
  all := (d.all_markSubscribed l).trans h.all
  blank := by
    rw [markSubscribed_eq]
    exact h.blank
  unmatched s := by
    rw [waiting_snoc, markSubscribed_eq]
    refine (h.unmatched s).trans ⟨Or.inl, fun hs => hs.resolve_right ?_⟩
    rintro ⟨-, hn⟩
    exact hn l ((h.known l want).1 hl)
  subscribed l' := by
    rw [isSubscribed_markSubscribed h.all, symbolOf_markSubscribed]
    by_cases hll : l' = l
    · subst hll
      rw [Function.update_self]
      exact ⟨fun _ => ⟨want, hl, List.mem_append_right _ List.mem_cons_self⟩, fun _ => rfl⟩
    · rw [Function.update_of_ne hll, h.subscribed]
      constructor
      · rintro ⟨s, hs, hn⟩
        exact ⟨s, hs, List.mem_append_left _ hn⟩
      · rintro ⟨s, hs, hn⟩
        rcases List.mem_append.1 hn with hn | hn
        · exact ⟨s, hs, hn⟩
        · rw [List.mem_singleton.1 hn] at hs
          have he := (h.known l' want).1 hs
          exact absurd ((hc _ he _ ((h.known l want).1 hl)).2 rfl) hll

theorem Describes.park (h : Describes names entries d) (hl : ∀ l, d.symbolOf l ≠ some want)
    (hw : want ∉ waiting names entries) :
    Describes (names ++ [want]) entries { d with pending := d.pending ++ [want] } := by
  have hnone : ∀ l, (l, want) ∉ entries := fun l he => hl l ((h.known l want).2 he)
  refine { h with subscribed := ?_, once := ?_, unmatched := ?_ }
  · intro l
    refine (h.subscribed l).trans ⟨?_, ?_⟩
    · rintro ⟨s, hs, hn⟩
      exact ⟨s, hs, List.mem_append_left _ hn⟩
    · rintro ⟨s, hs, hn⟩
      rcases List.mem_append.1 hn with hn | hn
      · exact ⟨s, hs, hn⟩
      · rw [List.mem_singleton.1 hn] at hs
        exact absurd hs (hl l)
  · exact List.nodup_append'.2 ⟨h.once, List.nodup_singleton want, by
      rw [List.disjoint_singleton]
      exact fun hp => hw ((h.unmatched want).1 hp)⟩
  · intro s
    rw [waiting_snoc, List.mem_append, List.mem_singleton, h.unmatched]
    exact or_congr_right ⟨fun hs => ⟨hs, hnone⟩, fun hs => hs.1⟩

def learn (d : SymbolDirectory) (l : UInt16) (s : Stock) : SymbolDirectory :=
  { d with
    knownCount := if d.known l then d.knownCount else d.knownCount + 1
    symbols := Function.update d.symbols l s
    known := Function.update d.known l true }

theorem known_learn (d : SymbolDirectory) (l : UInt16) (s : Stock) :
    (d.learn l s).known = Function.update d.known l true := rfl

theorem symbols_learn (d : SymbolDirectory) (l : UInt16) (s : Stock) :
    (d.learn l s).symbols = Function.update d.symbols l s := rfl

theorem symbolOf_learn_self (d : SymbolDirectory) (l : UInt16) (s : Stock) :
    (d.learn l s).symbolOf l = some s := by
  apply symbolOf_eq_some_iff.2
  exact ⟨Function.update_self .., Function.update_self ..⟩

theorem symbolOf_learn_ne (d : SymbolDirectory) (s : Stock) (h : l' ≠ l) :
    (d.learn l s).symbolOf l' = d.symbolOf l' := by
  rw [symbolOf, symbolOf, known_learn, symbols_learn, Function.update_of_ne h,
    Function.update_of_ne h]

/-- An entry that keeps the entries consistent. -/
theorem Consistent.snoc (hc : Consistent (entries ++ [(l, s)])) (he : (l', s') ∈ entries) :
    l' = l ↔ s' = s :=
  hc (l', s') (List.mem_append_left _ he) (l, s) (List.mem_append_right _ List.mem_cons_self)

theorem Describes.learn_known (h : Describes names entries d)
    (hc : Consistent (entries ++ [(l, s)])) (l' : UInt16) (s' : Stock) :
    (d.learn l s).symbolOf l' = some s' ↔ (l', s') ∈ entries ++ [(l, s)] := by
  rw [List.mem_append, List.mem_singleton, Prod.mk.injEq]
  by_cases hl : l' = l
  · subst hl
    rw [symbolOf_learn_self]
    constructor
    · exact fun hs => Or.inr ⟨rfl, (Option.some.inj hs).symm⟩
    · rintro (he | ⟨-, rfl⟩)
      · exact congrArg some ((Consistent.snoc hc he).1 rfl).symm
      · rfl
  · rw [symbolOf_learn_ne d s hl, h.known]
    exact ⟨Or.inl, fun hs => hs.resolve_right fun hs => hl hs.1⟩

theorem Describes.learn_knownCount (h : Describes names entries d) (l : UInt16) (s : Stock) :
    (d.learn l s).knownCount = locates.countP (d.learn l s).known := by
  have hcount := countP_update nodup_locates (mem_locates l) d.known
  rw [learn, hcount, ← h.knownCount]
  cases d.known l <;> rfl

theorem Describes.learn_blank (h : Describes names entries d) (s : Stock)
    (hl : (d.learn l s).known l' = false) : (d.learn l s).symbols l' = SymbolDirectory.blank := by
  by_cases hll : l' = l
  · rw [known_learn, hll, Function.update_self] at hl
    cases hl
  · rw [known_learn, Function.update_of_ne hll] at hl
    rw [symbols_learn, Function.update_of_ne hll, h.blank l' hl]

theorem waiting_fed (names : List Stock) (entries : List (UInt16 × Stock)) :
    s' ∈ waiting names (entries ++ [(l, s)]) ↔ s' ∈ waiting names entries ∧ s' ≠ s := by
  rw [mem_waiting, mem_waiting, and_assoc]
  apply and_congr_right
  intro _
  constructor
  · intro h
    exact ⟨fun l' hl => h l' (List.mem_append_left _ hl), fun hs =>
      h l (List.mem_append_right _ (hs ▸ List.mem_cons_self))⟩
  · rintro ⟨h, hs⟩ l' hl
    rcases List.mem_append.1 hl with hl | hl
    · exact h l' hl
    · exact hs (Prod.mk.inj (List.mem_singleton.1 hl)).2

theorem Describes.fed_idle (h : Describes names entries d) (hc : Consistent (entries ++ [(l, s)]))
    (hs : s ∉ d.pending) : Describes names (entries ++ [(l, s)]) (d.learn l s) where
  known := h.learn_known hc
  knownCount := h.learn_knownCount l s
  blank l' := h.learn_blank s
  all := h.all
  once := h.once
  subscribedCount := h.subscribedCount
  unmatched s' := by
    rw [waiting_fed, ← h.unmatched]
    exact ⟨fun hp => ⟨hp, fun he => hs (he ▸ hp)⟩, fun hp => hp.1⟩
  subscribed l' := by
    have hsub := h.subscribed l'
    by_cases hl : l' = l
    · subst hl
      rw [symbolOf_learn_self]
      refine hsub.trans ⟨?_, ?_⟩
      · rintro ⟨s', hs', hn⟩
        exact ⟨s', congrArg some ((Consistent.snoc hc ((h.known l' s').1 hs')).1 rfl).symm, hn⟩
      · rintro ⟨s', hs', hn⟩
        cases hs'
        -- a subscribed name that does not wait has been carried before, for this locate
        have hold : s ∉ waiting names entries := mt (h.unmatched s).2 hs
        rw [mem_waiting, not_and, not_forall] at hold
        obtain ⟨l, hl⟩ := hold hn
        rw [Classical.not_not] at hl
        obtain rfl := (Consistent.snoc hc hl).2 rfl
        exact ⟨s, (h.known l s).2 hl, hn⟩
    · rw [symbolOf_learn_ne d s hl]
      exact hsub

theorem Describes.fed_settled (h : Describes names entries d)
    (hc : Consistent (entries ++ [(l, s)])) {rest : List Stock} (hp : (s :: rest).Perm d.pending) :
    Describes names (entries ++ [(l, s)])
      { (d.learn l s).markSubscribed l with pending := rest } where
  known l' s' := by
    have hknown := h.learn_known hc l' s'
    rw [← symbolOf_markSubscribed _ l] at hknown
    exact hknown
  knownCount := by
    rw [markSubscribed_eq]
    exact h.learn_knownCount l s
  subscribedCount := subscribedCount_markSubscribed (d := d.learn l s) h.all h.subscribedCount l
  once := (List.nodup_cons.1 (hp.nodup_iff.2 h.once)).2
  all := (all_markSubscribed _ l).trans h.all
  blank l' := by
    rw [markSubscribed_eq]
    exact h.learn_blank s
  unmatched s' := by
    rw [waiting_fed, ← h.unmatched, ← hp.mem_iff, List.mem_cons]
    have hrest := (List.nodup_cons.1 (hp.nodup_iff.2 h.once)).1
    exact ⟨fun hs => ⟨Or.inr hs, fun he => hrest (he ▸ hs)⟩, fun hs => hs.1.resolve_left hs.2⟩
  subscribed l' := by
    have hmarked := isSubscribed_markSubscribed (d := d.learn l s) h.all l
    have hsymbol := symbolOf_markSubscribed (d.learn l s) l
    have hnames : s ∈ names :=
      (mem_waiting.1 ((h.unmatched s).1 (hp.subset List.mem_cons_self))).1
    have hgoal : ((d.learn l s).markSubscribed l).isSubscribed l' = true ↔
        ∃ s', ((d.learn l s).markSubscribed l).symbolOf l' = some s' ∧ s' ∈ names := by
      rw [hmarked, hsymbol]
      by_cases hl : l' = l
      · subst hl
        rw [Function.update_self]
        exact ⟨fun _ => ⟨s, symbolOf_learn_self d l' s, hnames⟩, fun _ => rfl⟩
      · rw [Function.update_of_ne hl, symbolOf_learn_ne d s hl]
        exact h.subscribed l'
    exact hgoal

def call (d : SymbolDirectory) : DirectoryCall → SymbolDirectory
  | .subscribe symbol => (d.subscribe symbol).2
  | .feed data => (d.feed data).getD d

theorem feed_eq (d : SymbolDirectory) (data : Body) :
    d.feed data = (DirectoryCall.feed data).binding?.map fun e =>
      match settlePending e.2 d.pending with
      | some pending => { (d.learn e.1 e.2).markSubscribed e.1 with pending := pending }
      | none => d.learn e.1 e.2 := by
  rw [feed, DirectoryCall.binding?]
  split
  · rfl
  · dsimp only [Option.map_some]
    cases settlePending (readStock data 11) d.pending <;> rfl

theorem Describes.feed (h : Describes names entries d)
    (hc : Consistent (entries ++ (DirectoryCall.feed data).binding?.toList)) :
    Describes names (entries ++ (DirectoryCall.feed data).binding?.toList)
      (d.call (.feed data)) := by
  rw [call, feed_eq]
  cases he : (DirectoryCall.feed data).binding? with
  | none =>
    rw [Option.toList_none, List.append_nil]
    exact h
  | some e =>
    rw [he] at hc
    rw [Option.map_some, Option.getD_some]
    cases hs : settlePending e.2 d.pending with
    | none => exact h.fed_idle hc (settlePending_none hs)
    | some rest => exact h.fed_settled hc (settlePending_some hs)

/-- A name that waits already changes nothing where the table refuses it. -/
theorem Describes.again (h : Describes names entries d) (hw : want ∈ waiting names entries) :
    Describes (names ++ [want]) entries d := by
  have hn := (mem_waiting.1 hw).1
  have hnames (s : Stock) : s ∈ names ++ [want] ↔ s ∈ names := by
    rw [List.mem_append, List.mem_singleton]
    exact or_iff_left_of_imp fun hs => hs ▸ hn
  refine { h with subscribed := ?_, unmatched := ?_ }
  · intro l
    simp only [hnames]
    exact h.subscribed l
  · intro s
    rw [mem_waiting, hnames, ← mem_waiting]
    exact h.unmatched s

theorem subscribe_of_scan (h : d.scan (pad8 text) = some l) :
    d.subscribe (some text) = (true, d.markSubscribed l) := by
  rw [subscribe, h]

theorem subscribe_of_not_scan (h : d.scan (pad8 text) = none) :
    d.subscribe (some text) =
      if d.pending.length ≥ maxPending then (false, d)
      else (true, { d with pending := d.pending ++ [pad8 text] }) := by
  rw [subscribe, h]

theorem Describes.subscribe (h : Describes names entries d) (hc : Consistent entries)
    (text : List UInt8)
    (hn : pad8 text ∈ waiting names entries → maxPending ≤ (waiting names entries).card)
    (hw : (waiting (names ++ [pad8 text]) entries).card ≤ maxPending) :
    Describes (names ++ [pad8 text]) entries (d.call (.subscribe (some text))) := by
  rw [call]
  cases hs : d.scan (pad8 text) with
  | some l =>
    rw [subscribe_of_scan hs]
    exact h.subscribe_known hc (symbolOf_of_scan hs)
  | none =>
    have hl := not_symbolOf_of_scan hs
    rw [subscribe_of_not_scan hs]
    split
    · next hfull =>
      apply h.again
      -- a table that is full holds all the names that may wait
      by_contra hnew
      have hin : pad8 text ∈ waiting (names ++ [pad8 text]) entries :=
        (waiting_snoc names entries).2
          (Or.inr ⟨rfl, fun l he => hl l ((h.known l _).2 he)⟩)
      have hsub : insert (pad8 text) (waiting names entries) ⊆
          waiting (names ++ [pad8 text]) entries :=
        Finset.insert_subset hin fun s hs => (waiting_snoc names entries).2 (Or.inl hs)
      have hcard := Finset.card_le_card hsub
      rw [Finset.card_insert_of_notMem hnew, ← h.length_pending] at hcard
      omega
    · next hroom =>
      apply h.park hl
      intro hin
      rw [h.length_pending] at hroom
      exact hroom (hn hin)

/-- A name that is subscribed while it waits stands twice in the table, unless that is full. -/
theorem Describes.full_of_twice (h : Describes names entries d)
    (h' : Describes (names ++ [pad8 text]) entries (d.call (.subscribe (some text))))
    (hin : pad8 text ∈ waiting names entries) : maxPending ≤ (waiting names entries).card := by
  have hnone : d.scan (pad8 text) = none := by
    cases hs : d.scan (pad8 text) with
    | none => rfl
    | some l =>
      exact absurd ((h.known l _).1 (symbolOf_of_scan hs)) ((mem_waiting.1 hin).2 l)
  rw [← h.length_pending]
  by_contra hroom
  have honce := h'.once
  rw [call, subscribe_of_not_scan hnone, if_neg hroom] at honce
  exact (List.nodup_append.1 honce).2.2 _ ((h.unmatched _).2 hin) _ List.mem_cons_self rfl

/-- Two directories that agree in everything but the order of the names that wait. -/
def SameUpToOrder (d d' : SymbolDirectory) : Prop :=
  { d with pending := [] } = { d' with pending := [] } ∧ d.pending.Perm d'.pending

/-- The names and the entries determine the directory, but for the order of the names that wait. -/
theorem Describes.same (h : Describes names entries d) (h' : Describes names' entries' d')
    (hn : ∀ s, s ∈ names ↔ s ∈ names') (he : ∀ e, e ∈ entries ↔ e ∈ entries') :
    d.SameUpToOrder d' := by
  have hsymbol : d.symbolOf = d'.symbolOf := by
    funext l
    apply Option.ext
    intro s
    rw [h.known, h'.known, he]
  have hknown : d.known = d'.known := by
    funext l
    have hl := congrFun hsymbol l
    rw [symbolOf, symbolOf] at hl
    cases hd : d.known l <;> cases hd' : d'.known l <;> rw [hd, hd'] at hl <;>
      first | rfl | cases hl
  have hsymbols : d.symbols = d'.symbols := by
    funext l
    have hl := congrFun hsymbol l
    rw [symbolOf, symbolOf, ← hknown] at hl
    cases hd : d.known l with
    | false => rw [h.blank l hd, h'.blank l (hknown ▸ hd)]
    | true =>
      rw [hd] at hl
      exact Option.some.inj hl
  have hsubscribed : d.isSubscribed = d'.isSubscribed := by
    funext l
    apply Bool.eq_iff_iff.2
    rw [h.subscribed, h'.subscribed, hsymbol]
    simp only [hn]
  have hmarks : d.subscribed = d'.subscribed :=
    (isSubscribed_eq h.all).symm.trans (hsubscribed.trans (isSubscribed_eq h'.all))
  have hcounts : d.knownCount = d'.knownCount ∧ d.subscribedCount = d'.subscribedCount :=
    ⟨by rw [h.knownCount, h'.knownCount, hknown],
      by rw [h.subscribedCount, h'.subscribedCount, hsubscribed]⟩
  refine ⟨?_, (List.perm_ext_iff_of_nodup h.once h'.once).2 fun s => ?_⟩
  · obtain ⟨symbols, known, subscribed, pending, knownCount, subscribedCount, all⟩ := d
    obtain ⟨symbols', known', subscribed', pending', knownCount', subscribedCount', all'⟩ := d'
    obtain rfl : symbols = symbols' := hsymbols
    obtain rfl : known = known' := hknown
    obtain rfl : subscribed = subscribed' := hmarks
    obtain rfl : knownCount = knownCount' := hcounts.1
    obtain rfl : subscribedCount = subscribedCount' := hcounts.2
    obtain rfl : all = all' := h.all.trans h'.all.symm
    rfl
  · rw [h.unmatched, h'.unmatched, mem_waiting, mem_waiting, hn]
    simp only [he]

end SymbolDirectory

namespace DirectoryCall

theorem names_snoc (calls : List DirectoryCall) (c : DirectoryCall) :
    names (calls ++ [c]) = names calls ++ c.name?.toList := by
  rw [names, List.filterMap_append]
  cases h : c.name? with
  | none => rw [List.filterMap_cons_none h]; rfl
  | some s => rw [List.filterMap_cons_some h]; rfl

theorem entries_snoc (calls : List DirectoryCall) (c : DirectoryCall) :
    entries (calls ++ [c]) = entries calls ++ c.binding?.toList := by
  rw [entries, List.filterMap_append]
  cases h : c.binding? with
  | none => rw [List.filterMap_cons_none h]; rfl
  | some e => rw [List.filterMap_cons_some h]; rfl

def waitingAfter (calls : List DirectoryCall) : Finset Stock :=
  waiting (names calls) (entries calls)

/-- There is always room for the names that wait. -/
def Roomy (calls : List DirectoryCall) : Prop :=
  ∀ pre, pre <+: calls → (waitingAfter pre).card ≤ SymbolDirectory.maxPending

/-- No call subscribes a name that waits already, while the table has room for it again. -/
def NoneTwice (calls : List DirectoryCall) : Prop :=
  ∀ pre c, pre ++ [c] <+: calls → ∀ s ∈ c.name?, s ∈ waitingAfter pre →
    SymbolDirectory.maxPending ≤ (waitingAfter pre).card

end DirectoryCall

namespace SymbolDirectory
open DirectoryCall

def run (calls : List DirectoryCall) : SymbolDirectory := calls.foldl call new

/-- All along some calls the directory holds what it should. -/
def DescribedAlong (calls : List DirectoryCall) : Prop :=
  ∀ pre, pre <+: calls → Describes (names pre) (entries pre) (run pre)

theorem run_snoc (calls : List DirectoryCall) (c : DirectoryCall) :
    run (calls ++ [c]) = (run calls).call c := List.foldl_concat ..

theorem Describes.snoc {calls : List DirectoryCall}
    (h : Describes (names calls) (entries calls) d) (c : DirectoryCall)
    (hc : Consistent (entries (calls ++ [c])))
    (hn : ∀ s ∈ c.name?, s ∈ waitingAfter calls → maxPending ≤ (waitingAfter calls).card)
    (hw : (waitingAfter (calls ++ [c])).card ≤ maxPending) :
    Describes (names (calls ++ [c])) (entries (calls ++ [c])) (d.call c) := by
  rw [waitingAfter] at hw
  rw [names_snoc, entries_snoc] at hw ⊢
  rw [entries_snoc] at hc
  cases c with
  | feed data =>
    have hfed := h.feed hc
    rw [show (DirectoryCall.feed data).name? = none from rfl, Option.toList_none, List.append_nil]
    exact hfed
  | subscribe symbol =>
    rw [show (DirectoryCall.subscribe symbol).binding? = none from rfl, Option.toList_none,
      List.append_nil] at hc hw ⊢
    cases symbol with
    | none =>
      rw [show (DirectoryCall.subscribe none).name? = none from rfl, Option.toList_none,
        List.append_nil]
      exact h
    | some text => exact h.subscribe hc text (hn _ rfl) hw

/-- The directory is as it should be all along where no name is subscribed while it waits. -/
theorem describedAlong_iff {calls : List DirectoryCall} (hc : Consistent (entries calls))
    (hw : Roomy calls) : DescribedAlong calls ↔ NoneTwice calls := by
  constructor
  · intro h pre c hp s hs hin
    have hbefore := h pre ((List.prefix_append pre [c]).trans hp)
    have hafter := h (pre ++ [c]) hp
    rw [run_snoc, names_snoc, entries_snoc] at hafter
    cases c with
    | feed data => cases hs
    | subscribe symbol =>
      cases symbol with
      | none => cases hs
      | some text =>
        cases hs
        have hentry : entries pre ++ (DirectoryCall.subscribe (some text)).binding?.toList =
            entries pre := List.append_nil _
        rw [hentry] at hafter
        exact hbefore.full_of_twice hafter hin
  · intro hn pre hp
    induction pre using List.reverseRecOn with
    | nil => exact new_describes
    | append_singleton pre c ih =>
      rw [run_snoc]
      have hpre := (List.prefix_append pre [c]).trans hp
      have hsub : entries (pre ++ [c]) ⊆ entries calls := (hp.filterMap binding?).subset
      exact (ih hpre).snoc c (hc.of_subset hsub) (hn pre c hp) (hw _ hp)

end SymbolDirectory

open DirectoryCall SymbolDirectory

/-- When a name is subscribed does not matter, in any two orders of the same calls, exactly where
neither order subscribes a name that waits already. -/
theorem subscription_timeless_iff (calls calls' : List DirectoryCall) (hp : calls.Perm calls')
    (hc : Consistent (entries calls)) (hw : Roomy calls) (hw' : Roomy calls') :
    (DescribedAlong calls ∧ DescribedAlong calls' ∧ (run calls).SameUpToOrder (run calls')) ↔
      NoneTwice calls ∧ NoneTwice calls' := by
  have hn (s : Stock) : s ∈ names calls ↔ s ∈ names calls' := (hp.filterMap name?).mem_iff
  have he (e : UInt16 × Stock) : e ∈ entries calls ↔ e ∈ entries calls' :=
    (hp.filterMap binding?).mem_iff
  have hc' : Consistent (entries calls') := hc.of_subset fun e he' => (he e).2 he'
  rw [describedAlong_iff hc hw, describedAlong_iff hc' hw', ← and_assoc]
  apply and_iff_left_of_imp
  rintro ⟨htwice, htwice'⟩
  have h := (describedAlong_iff hc hw).2 htwice calls (List.prefix_refl calls)
  have h' := (describedAlong_iff hc' hw').2 htwice' calls' (List.prefix_refl calls')
  exact h.same h' hn he

theorem DirectoryCall.roomy_of_length {calls : List DirectoryCall}
    (h : calls.length ≤ maxPending) : Roomy calls := by
  intro pre hp
  calc (waitingAfter pre).card
    _ ≤ ((names pre).filter _).length := List.toFinset_card_le _
    _ ≤ (names pre).length := List.length_filter_le ..
    _ ≤ pre.length := List.length_filterMap_le ..
    _ ≤ calls.length := hp.length_le
    _ ≤ maxPending := h

theorem SymbolDirectory.scan_of_unknown {d : SymbolDirectory} (h : ∀ l, d.known l = false)
    (want : Stock) : d.scan want = none := by
  apply List.find?_eq_none.2
  intro l _
  rw [h l]
  exact Bool.false_ne_true

/-- While no locate is known, every name waits. -/
theorem SymbolDirectory.call_of_unknown {d : SymbolDirectory} (h : ∀ l, d.known l = false)
    (hroom : d.pending.length < maxPending) (text : List UInt8) :
    d.call (.subscribe (some text)) = { d with pending := d.pending ++ [pad8 text] } := by
  rw [call, subscribe_of_not_scan (scan_of_unknown h _), if_neg (Nat.not_le.2 hroom)]

def acme : List UInt8 := [65, 67, 77, 69]

def acmeEntry : DirectoryCall :=
  .feed ([82, 0, 1] ++ List.replicate 8 0 ++ acme ++ List.replicate 4 32 ++ List.replicate 20 0)

theorem acme_timeless :
    let first := [.subscribe (some acme), acmeEntry]
    let last := [acmeEntry, .subscribe (some acme)]
    (DescribedAlong first ∧ DescribedAlong last ∧ (run first).SameUpToOrder (run last)) ↔
      NoneTwice first ∧ NoneTwice last := by
  apply subscription_timeless_iff
  · exact List.Perm.swap ..
  · exact consistent_singleton (1, pad8 acme)
  · exact roomy_of_length (by decide)
  · exact roomy_of_length (by decide)

def askedTwice : List DirectoryCall := [.subscribe (some acme), .subscribe (some acme), acmeEntry]

/-- A name that was asked for twice before its `R` is still unmatched after it. -/
theorem askedTwice_unmatched :
    Consistent (entries askedTwice) ∧ Roomy askedTwice ∧
      pad8 acme ∈ (entries askedTwice).map Prod.snd ∧
      (run askedTwice).unmatched 0 = some (pad8 acme) ∧ ¬ DescribedAlong askedTwice := by
  let waits : SymbolDirectory := { new with pending := [pad8 acme] }
  let waitsTwice : SymbolDirectory := { new with pending := [pad8 acme, pad8 acme] }
  have hfirst : new.call (.subscribe (some acme)) = waits :=
    call_of_unknown (fun _ => rfl) (by decide) acme
  have hsecond : waits.call (.subscribe (some acme)) = waitsTwice :=
    call_of_unknown (fun _ => rfl) (by decide) acme
  have hrun : run askedTwice = waitsTwice.call acmeEntry := by
    rw [run, askedTwice, List.foldl_cons, hfirst, List.foldl_cons, hsecond]
    rfl
  have hleft : (run askedTwice).pending = [pad8 acme] := by
    rw [hrun]
    decide +kernel
  have hentries : entries askedTwice = [(1, pad8 acme)] := by decide +kernel
  rw [unmatched, hleft, hentries]
  refine ⟨consistent_singleton _, roomy_of_length (by decide), List.mem_singleton_self _, rfl, ?_⟩
  intro h
  have hwaits := ((h askedTwice (List.prefix_refl _)).unmatched (pad8 acme)).1
    (hleft ▸ List.mem_singleton_self _)
  exact (mem_waiting.1 hwaits).2 1 (hentries ▸ List.mem_singleton_self _)

end Tickpipe
