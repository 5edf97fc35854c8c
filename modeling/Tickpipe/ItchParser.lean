import Tickpipe.Order
import Tickpipe.Wire

set_option autoImplicit true

namespace Tickpipe

/-- A message body: the type byte and what follows it. -/
abbrev Body := List UInt8

def letter (b : UInt8) : Char := Char.ofNat b.toNat

def readStock (data : Body) (i : Nat) : Stock := Vector.ofFn fun j : Fin 8 => byte data (i + j)

structure Counts where
  parsed : Nat := 0
  ignored : Nat := 0
  malformed : Nat := 0
  unknown : Nat := 0
deriving DecidableEq

namespace ItchParser

/-- The fixed length of each type; zero for an unknown one. -/
def expectedLength (type : UInt8) : Nat :=
  match letter type with
  | 'S' => 12
  | 'R' => 39
  | 'H' => 25
  | 'Y' => 20
  | 'L' => 26
  | 'V' => 35
  | 'W' => 12
  | 'K' => 28
  | 'J' => 35
  | 'h' => 21
  | 'A' => 36
  | 'F' => 40
  | 'E' => 31
  | 'C' => 36
  | 'X' => 23
  | 'D' => 19
  | 'U' => 35
  | 'P' => 44
  | 'Q' => 40
  | 'B' => 19
  | 'I' => 50
  | 'N' => 20
  | _ => 0

def isBookMessage (type : UInt8) : Bool :=
  match letter type with
  | 'A' | 'F' | 'E' | 'C' | 'X' | 'D' | 'U' | 'P' => true
  | _ => false

def readSide (b : UInt8) : Side := if letter b = 'B' then .buy else .sell

def decode (data : Body) (out : Order) : Option Order :=
  match letter (byte data 0) with
  | 'A' | 'F' => some { out with
      action := .add
      orderRef := readBe64 data 11
      side := readSide (byte data 19)
      quantity := readBe32 data 20
      stock := readStock data 24
      price := readBe32 data 32 }
  | 'E' => some { out with
      action := .execute
      orderRef := readBe64 data 11
      quantity := readBe32 data 19
      matchNumber := readBe64 data 23 }
  | 'C' => some { out with
      action := .execute
      orderRef := readBe64 data 11
      quantity := readBe32 data 19
      -- a non-printable execution reduces the order but prints no trade
      matchNumber := if letter (byte data 31) ≠ 'Y' then 0 else readBe64 data 23
      price := readBe32 data 32 }
  | 'X' => some { out with
      action := .cancel
      orderRef := readBe64 data 11
      quantity := readBe32 data 19 }
  | 'D' => some { out with
      action := .delete
      orderRef := readBe64 data 11 }
  | 'U' => some { out with
      action := .replace
      orderRef := readBe64 data 11
      newOrderRef := readBe64 data 19
      quantity := readBe32 data 27
      price := readBe32 data 31 }
  | 'P' => some { out with
      action := .trade
      orderRef := readBe64 data 11
      side := readSide (byte data 19)
      quantity := readBe32 data 20
      stock := readStock data 24
      price := readBe32 data 32
      matchNumber := readBe64 data 36 }
  | _ => none

/-- Nothing where the source returns false. -/
def parse (c : Counts) (data : Body) : Option Order × Counts :=
  if data.length < 11 then (none, { c with malformed := c.malformed + 1 })
  else
    let type := byte data 0
    let expect := expectedLength type
    if expect = 0 then (none, { c with unknown := c.unknown + 1 })
    else if data.length ≠ expect then (none, { c with malformed := c.malformed + 1 })
    else if ¬ isBookMessage type then (none, { c with ignored := c.ignored + 1 })
    else
      match decode data { stockLocate := readBe16 data 1, timestampNs := readBe48 data 5 } with
      | some out => (some { out with valid := 1 }, { c with parsed := c.parsed + 1 })
      | none => (none, { c with ignored := c.ignored + 1 })

/-- `parse` with its out parameter: what it returns, what it leaves in `out`, and the counters. -/
def parseInto (c : Counts) (data : Body) (out : Order) : Bool × Order × Counts :=
  if data.length < 11 then (false, out, { c with malformed := c.malformed + 1 })
  else
    let type := byte data 0
    let expect := expectedLength type
    if expect = 0 then (false, out, { c with unknown := c.unknown + 1 })
    else if data.length ≠ expect then (false, out, { c with malformed := c.malformed + 1 })
    else if ¬ isBookMessage type then (false, out, { c with ignored := c.ignored + 1 })
    else
      let out : Order := { stockLocate := readBe16 data 1, timestampNs := readBe48 data 5 }
      match decode data out with
      | some out => (true, { out with valid := 1 }, { c with parsed := c.parsed + 1 })
      | none => (false, out, { c with ignored := c.ignored + 1 })

end ItchParser

end Tickpipe
