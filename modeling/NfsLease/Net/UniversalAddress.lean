/-
Universal addresses: the text of an address with the two octets of a port behind it, each after a
point and in decimal.
-/
import NfsLease.Net.Endpoint

namespace NfsLease.UniversalAddress

def cutLast (cs : List Char) : Option (List Char × List Char) :=
  match cs.reverse.span (· != '.') with
  | (tail, _ :: head) => some (head.reverse, tail.reverse)
  | (_, []) => none

/-- A part of the port: a decimal number, a plus sign allowed, that fits an octet. -/
def portPart? (cs : List Char) : Option Nat :=
  (decimalBelow? 65536 cs).filter (· ≤ 255)

def parse? (cs : List Char) : Option Endpoint := do
  let (cs, low) ← cutLast cs
  let (host, high) ← cutLast cs
  let low ← portPart? low
  let high ← portPart? high
  let address ← Address.ofChars? host
  some (.make address (UInt16.ofNat (256 * high + low)))

def print (address : Address) (port : UInt16) : List Char :=
  address.chars ++ '.' :: (toString (port.toNat / 256)).toList ++
    '.' :: (toString (port.toNat % 256)).toList

end NfsLease.UniversalAddress
