import Tickpipe.ItchParser
import Mathlib.Logic.Function.Basic

set_option autoImplicit true

namespace Tickpipe

/-- Flat tables indexed by locate, and the names still waiting for their `R`. -/
structure SymbolDirectory where
  symbols : UInt16 → Stock
  known : UInt16 → Bool
  subscribed : UInt16 → Bool
  pending : List Stock
  knownCount : Nat
  subscribedCount : Nat
  all : Bool

namespace SymbolDirectory

def maxLocate : Nat := 65536

def maxPending : Nat := 64

/-- The locates in the order in which a scan meets them. -/
def locates : List UInt16 := (List.range' 0 maxLocate).map UInt16.ofNat

def blank : Stock := Vector.replicate 8 32

def new : SymbolDirectory where
  symbols _ := blank
  known _ := false
  subscribed _ := false
  pending := []
  knownCount := 0
  subscribedCount := 0
  all := false

/-- The characters of a string before its terminator, padded with spaces to eight. -/
def pad8 (text : List UInt8) : Stock :=
  Vector.ofFn fun i => (text.takeWhile (· ≠ 0))[i.val]?.getD 32

/-- Remove the first waiting name equal to `want`, moving the last one into its place. -/
def settlePending (want : Stock) (pending : List Stock) : Option (List Stock) :=
  match pending.findIdx? (· = want), pending.getLast? with
  | some i, some last => some (pending.set i last).dropLast
  | _, _ => none

def markSubscribed (d : SymbolDirectory) (locate : UInt16) : SymbolDirectory :=
  if d.subscribed locate then d
  else
    { d with
      subscribed := Function.update d.subscribed locate true
      subscribedCount := d.subscribedCount + 1 }

/-- Nothing where the source returns false, for anything but an `R` of 39 bytes. -/
def feed (d : SymbolDirectory) (data : Body) : Option SymbolDirectory :=
  if data.length ≠ 39 ∨ letter (byte data 0) ≠ 'R' then none
  else
    let locate := readBe16 data 1
    let symbol := readStock data 11
    let d := { d with
      knownCount := if d.known locate then d.knownCount else d.knownCount + 1
      symbols := Function.update d.symbols locate symbol
      known := Function.update d.known locate true }
    match settlePending symbol d.pending with
    | some pending => some { d.markSubscribed locate with pending := pending }
    | none => some d

/-- The first locate known under a name. -/
def scan (d : SymbolDirectory) (want : Stock) : Option UInt16 :=
  locates.find? fun l => d.known l && decide (d.symbols l = want)

/-- No text stands for the null pointer. -/
def subscribe (d : SymbolDirectory) (symbol : Option (List UInt8)) : Bool × SymbolDirectory :=
  match symbol with
  | none => (false, d)
  | some text =>
    match d.scan (pad8 text) with
    | some l => (true, d.markSubscribed l)
    | none =>
      if d.pending.length ≥ maxPending then (false, d)
      else (true, { d with pending := d.pending ++ [pad8 text] })

def isSubscribed (d : SymbolDirectory) (locate : UInt16) : Bool := d.all || d.subscribed locate

def symbolOf (d : SymbolDirectory) (locate : UInt16) : Option Stock :=
  if d.known locate then some (d.symbols locate) else none

def unmatched (d : SymbolDirectory) (i : Nat) : Option Stock := d.pending[i]?

end SymbolDirectory

end Tickpipe
