import Mathlib.Algebra.Group.Nat.Defs
import Mathlib.Logic.Basic

set_option autoImplicit true

namespace Tickpipe

/-- The side of an order, coded on the wire by its letter. -/
inductive Side where
  | none
  | buy
  | sell
deriving DecidableEq, Repr, Inhabited

/-- `enum class Side : uint8_t` with the values `0`, `'B'` and `'S'`. -/
def Side.toUInt64 : Side → UInt64
  | .none => 0
  | .buy => 66
  | .sell => 83

inductive Action where
  | none
  | add
  | execute
  | cancel
  | delete
  | replace
  | trade
deriving DecidableEq, Repr, Inhabited

def Action.toUInt64 : Action → UInt64
  | .none => 0
  | .add => 1
  | .execute => 2
  | .cancel => 3
  | .delete => 4
  | .replace => 5
  | .trade => 6

/-- Eight characters, space padded and not terminated. -/
abbrev Stock := Vector UInt8 8

/-- A decoded message; its defaults are those of `Order{}`. -/
structure Order where
  timestampNs : UInt64 := 0
  orderRef : UInt64 := 0
  newOrderRef : UInt64 := 0
  matchNumber : UInt64 := 0
  quantity : UInt32 := 0
  price : UInt32 := 0
  stockLocate : UInt16 := 0
  side : Side := .none
  action : Action := .none
  valid : UInt8 := 0
  stock : Stock := Vector.replicate 8 0
deriving DecidableEq, Inhabited

structure MatchResult where
  buyOrderRef : UInt64 := 0
  sellOrderRef : UInt64 := 0
  price : UInt32 := 0
  quantity : UInt32 := 0
  matched : Bool := false
deriving DecidableEq, Inhabited

end Tickpipe
