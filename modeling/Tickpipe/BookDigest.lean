import Tickpipe.SoftwareEngine
import Tickpipe.Lib.Blocks

set_option autoImplicit true

namespace Tickpipe

def entryWords (entry : UInt64 × UInt32) : List UInt64 := [entry.1, entry.2.toUInt64]

/-- What a level adds to the digest: its price, then its queue. -/
def levelWords (level : UInt32 × Level) : List UInt64 :=
  level.1.toUInt64 :: level.2.flatMap entryWords

namespace Ladder

variable {lt : UInt32 → UInt32 → Prop}

/-- The `walk` lambda of `book_digest`. -/
def walk (h : UInt64) (book : Ladder lt) : UInt64 :=
  book.entries.foldl (fun h level =>
    level.2.foldl (fun h entry => fold (fold h entry.1) entry.2.toUInt64)
      (fold h level.1.toUInt64)) h

def words (book : Ladder lt) : List UInt64 := book.entries.flatMap levelWords

theorem walk_eq (h : UInt64) (book : Ladder lt) : book.walk h = book.words.foldl fold h := by
  have hqueue (q : Level) (h : UInt64) :
      q.foldl (fun h entry => fold (fold h entry.1) entry.2.toUInt64) h =
        (q.flatMap entryWords).foldl fold h := by
    induction q generalizing h with
    | nil => rfl
    | cons entry q ih =>
      rw [List.foldl_cons, ih, List.flatMap_cons, List.foldl_append, entryWords, List.foldl_cons,
        List.foldl_cons, List.foldl_nil]
  rw [walk, words]
  induction book.entries generalizing h with
  | nil => rfl
  | cons level entries ih =>
    rw [List.foldl_cons, ih, List.flatMap_cons, List.foldl_append, hqueue, levelWords,
      List.foldl_cons]

/-- The lengths of the queues, level by level. -/
def shape (book : Ladder lt) : List Nat := book.entries.map fun level => level.2.length

theorem entryWords_inj {a b : UInt64 × UInt32} (h : entryWords a = entryWords b) : a = b := by
  obtain ⟨href, h⟩ := List.cons.inj h
  exact Prod.ext href (UInt32.toUInt64_inj.1 (List.cons.inj h).1)

theorem length_levelWords (level : UInt32 × Level) :
    (levelWords level).length = 2 * level.2.length + 1 := by
  rw [levelWords, List.length_cons, Blocks.length_flatMap (n := 2) fun _ => rfl]

theorem levelWords_inj {a b : UInt32 × Level} (h : levelWords a = levelWords b) : a = b := by
  obtain ⟨hprice, hqueue⟩ := List.cons.inj h
  have hentries := Blocks.forall₂_of_fixed (n := 2) (by decide) (fun _ => rfl) hqueue
  have hlevel : a.2 = b.2 := by
    rw [← List.forall₂_eq_eq_eq]
    exact hentries.imp fun _ _ => entryWords_inj
  exact Prod.ext (UInt32.toUInt64_inj.1 hprice) hlevel

theorem forall₂_length {book book' : Ladder lt} (hs : book.shape = book'.shape) :
    List.Forall₂ (fun a b => (levelWords a).length = (levelWords b).length)
      book.entries book'.entries := by
  rw [shape, shape, ← List.forall₂_eq_eq_eq, List.forall₂_map_left_iff,
    List.forall₂_map_right_iff] at hs
  apply hs.imp
  intro a b hlen
  rw [length_levelWords, length_levelWords, hlen]

theorem length_words {book book' : Ladder lt} (hs : book.shape = book'.shape) :
    book.words.length = book'.words.length := by
  exact Blocks.length_eq_of_forall₂ (forall₂_length hs)

theorem eq_of_words {book book' : Ladder lt} (hs : book.shape = book'.shape)
    (h : book.words = book'.words) : book = book' := by
  have hlevels := Blocks.forall₂_of_flatMap (forall₂_length hs) h
  have hentries : book.entries = book'.entries := by
    rw [← List.forall₂_eq_eq_eq]
    exact hlevels.imp fun _ _ => levelWords_inj
  obtain ⟨entries, sorted⟩ := book
  obtain ⟨entries', sorted'⟩ := book'
  obtain rfl : entries = entries' := hentries
  rfl

end Ladder

namespace SoftwareEngine

/-- FNV-1a over the whole ladder. -/
def bookDigest (e : SoftwareEngine) : UInt64 := e.asks.walk (e.bids.walk fnvOffset)

def bookWords (e : SoftwareEngine) : List UInt64 := e.bids.words ++ e.asks.words

theorem bookDigest_eq (e : SoftwareEngine) : e.bookDigest = e.bookWords.foldl fold fnvOffset := by
  rw [bookDigest, Ladder.walk_eq, Ladder.walk_eq, bookWords, List.foldl_append]

/-- Two books of the same words are the same exactly when they have the same shape. -/
theorem same_words_same_book_iff (e e' : SoftwareEngine) (h : e.bookWords = e'.bookWords) :
    e.bids = e'.bids ∧ e.asks = e'.asks ↔
      e.bids.shape = e'.bids.shape ∧ e.asks.shape = e'.asks.shape := by
  constructor
  · rintro ⟨hb, ha⟩
    rw [hb, ha]
    exact ⟨rfl, rfl⟩
  · rintro ⟨hb, ha⟩
    obtain ⟨hbids, hasks⟩ := List.append_inj h (Ladder.length_words hb)
    exact ⟨Ladder.eq_of_words hb hbids, Ladder.eq_of_words ha hasks⟩

end SoftwareEngine

def tenShares (side : Side) : ResolvedOp :=
  { (default : ResolvedOp) with action := .add, orderRef := 1, side, quantity := 10, price := 100 }

/-- A bid and an ask feed the same words. -/
theorem mirrored_book_same_words :
    let e := SoftwareEngine.applyAll {} [tenShares .buy]
    let e' := SoftwareEngine.applyAll {} [tenShares .sell]
    e.bookWords = e'.bookWords ∧ ¬ (e.bids = e'.bids ∧ e.asks = e'.asks) := by
  refine ⟨by decide +kernel, fun h => ?_⟩
  exact absurd (congrArg Ladder.shape h.1) (by decide +kernel)

/-- Two bids and an ask, put into the book in another order, one bid at first too large and a third
bid behind them that came and went. -/
theorem cancelled_order_same_book :
    let bid (ref : UInt64) : ResolvedOp := { tenShares .buy with orderRef := ref }
    let ask : ResolvedOp := { tenShares .sell with orderRef := 3, price := 101 }
    let e := SoftwareEngine.applyAll {} [bid 1, bid 2, ask]
    let e' := SoftwareEngine.applyAll {} [ask, bid 1, { bid 2 with quantity := 15 }, bid 4,
      { bid 2 with action := .cancel, quantity := 5 }, { bid 4 with action := .delete }]
    e.bids = e'.bids ∧ e.asks = e'.asks :=
  (SoftwareEngine.same_words_same_book_iff _ _ (by decide +kernel)).2 (by decide +kernel)

end Tickpipe
