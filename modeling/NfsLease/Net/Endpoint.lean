/-
Endpoints, an address and a port, and their texts: `1.2.3.4:5`, `[::1]:5`, and with the link on
which an address is meant (RFC 4007) `[fe80::1%3]:5`.
-/
import NfsLease.Net.Address

namespace NfsLease

/-- Where a peer is reached. -/
structure Endpoint where
  address : Address
  port : UInt16
  /-- The number of the link on which the address is meant; 0 leaves that open. -/
  zone : UInt32
  /-- An address of the older family is meant on every link. -/
  zone_older : ∀ octets, address = .v4 octets → zone = 0
  deriving DecidableEq, Repr

namespace Endpoint

/-- An endpoint on no link in particular. -/
def make (address : Address) (port : UInt16) : Endpoint :=
  ⟨address, port, 0, fun _ _ => rfl⟩

/-- The text of an endpoint; an address with colons stands in brackets. -/
def text (e : Endpoint) : String :=
  let port := toString e.port.toNat
  match e.address with
  | .v4 _ => e.address.text ++ ":" ++ port
  | .v6 _ =>
    let zone := if e.zone = 0 then "" else "%" ++ toString e.zone.toNat
    "[" ++ e.address.text ++ zone ++ "]:" ++ port

/-- A decimal number below a bound at the front of a text, with as many zeros before it as there
are. -/
def readCount (bound : Nat) (cs : List Char) : Option (Nat × List Char) :=
  let (digits, rest) := spanDigits 10 cs
  let n := numeral 10 digits
  if digits.isEmpty ∨ bound ≤ n then none else some (n, rest)

/-- The port at the end of an endpoint's text. -/
def readPort (cs : List Char) : Option UInt16 := do
  let cs ← Address.readChar ':' cs
  let (n, rest) ← readCount UInt16.size cs
  if rest.isEmpty then some (UInt16.ofNat n) else none

/-- The link behind an address, if the text names one. -/
def readZone (cs : List Char) : Option (UInt32 × List Char) :=
  match cs with
  | '%' :: cs => (readCount UInt32.size cs).map fun (n, rest) => (UInt32.ofNat n, rest)
  | _ => some (0, cs)

/-- The endpoint of the newer family that a whole text spells. -/
def newerOfChars? (cs : List Char) : Option Endpoint := do
  let cs ← Address.readChar '[' cs
  let (groups, cs) ← Address.readV6 .strict cs
  let (zone, cs) ← readZone cs
  let cs ← Address.readChar ']' cs
  let port ← readPort cs
  match Address.ofGroups? groups with
  | some (.v6 groups) => some ⟨.v6 groups, port, zone, nofun⟩
  | _ => none

def ofText? (s : String) : Option Endpoint :=
  match Address.readOlder .strict s.toList with
  | some (a, rest) => (readPort rest).map (make a)
  | none => newerOfChars? s.toList

end Endpoint

end NfsLease
