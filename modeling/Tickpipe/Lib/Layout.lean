import Tickpipe.Lib.Bytes

set_option autoImplicit true

/-- How values of a type lie in memory: in how many bytes, which bytes, and what bytes mean.
The bytes that no field covers are whatever `fill` puts there. -/
structure Layout (α : Type u) where
  size : Nat
  image : (fill : Nat → UInt8) → α → List UInt8
  value : List UInt8 → Option α
  length_image : ∀ fill x, (image fill x).length = size
  value_image : ∀ fill x, value (image fill x) = some x

namespace Layout

/-- An unsigned number of `n` bytes, the least byte first. -/
def unsigned (n : Nat) (toNat : α → Nat) (ofNat : Nat → α) (hlt : ∀ x, toNat x < 256 ^ n)
    (hinv : ∀ x, ofNat (toNat x) = x) : Layout α where
  size := n
  image _ x := Bytes.leBytes n (toNat x)
  value l := some (ofNat (Bytes.ofLe l))
  length_image _ x := Bytes.length_leBytes n (toNat x)
  value_image _ x := by rw [Bytes.ofLe_leBytes n _ (hlt x), hinv]

def uint64 : Layout UInt64 :=
  unsigned 8 UInt64.toNat UInt64.ofNat (fun x => x.toNat_lt) fun _ => UInt64.ofNat_toNat

def uint32 : Layout UInt32 :=
  unsigned 4 UInt32.toNat UInt32.ofNat (fun x => x.toNat_lt) fun _ => UInt32.ofNat_toNat

def uint16 : Layout UInt16 :=
  unsigned 2 UInt16.toNat UInt16.ofNat (fun x => x.toNat_lt) fun _ => UInt16.ofNat_toNat

def uint8 : Layout UInt8 :=
  unsigned 1 UInt8.toNat UInt8.ofNat (fun x => x.toNat_lt) fun _ => UInt8.ofNat_toNat

/-- An enumeration of the values `all`, each coded by a byte. -/
def coded (code : α → UInt8) (all : List α)
    (h : ∀ x, all.find? (fun y => code y == code x) = some x) : Layout α where
  size := 1
  image _ x := [code x]
  value l := l.head?.bind fun b => all.find? fun y => code y == b
  length_image _ _ := rfl
  value_image _ x := h x

def bytes (n : Nat) : Layout (Vector UInt8 n) where
  size := n
  image _ v := v.toList
  value l := if h : l.length = n then some ⟨l.toArray, h⟩ else none
  length_image _ v := v.length_toList
  value_image _ v := dif_pos v.length_toList

/-- `n` bytes that hold nothing. -/
def gap (n : Nat) : Layout Unit where
  size := n
  image fill _ := (List.range n).map fill
  value _ := some ()
  length_image fill _ := by rw [List.length_map, List.length_range]
  value_image _ _ := rfl

/-- One value behind another. -/
def seq (a : Layout α) (b : Layout β) : Layout (α × β) where
  size := a.size + b.size
  image fill x := a.image fill x.1 ++ b.image (fun i => fill (a.size + i)) x.2
  value l := (a.value (l.take a.size)).bind fun x => (b.value (l.drop a.size)).map fun y => (x, y)
  length_image fill x := by rw [List.length_append, a.length_image, b.length_image]
  value_image fill x := by
    have htake (l : List UInt8) : (a.image fill x.1 ++ l).take a.size = a.image fill x.1 :=
      List.take_left' (a.length_image fill x.1)
    have hdrop (l : List UInt8) : (a.image fill x.1 ++ l).drop a.size = l :=
      List.drop_left' (a.length_image fill x.1)
    rw [htake, hdrop, a.value_image, b.value_image]
    rfl

/-- The same bytes, read as another type. -/
def map (a : Layout α) (mk : α → β) (parts : β → α) (h : ∀ y, mk (parts y) = y) : Layout β where
  size := a.size
  image fill y := a.image fill (parts y)
  value l := (a.value l).map mk
  length_image fill y := a.length_image fill (parts y)
  value_image fill y := by rw [a.value_image, Option.map_some, h]

end Layout
