/-
Networks: an address and the number of leading bits that its members share, written
`10.0.0.0/8`.
-/
import NfsLease.Net.Address

namespace NfsLease

def Address.bits : Address → Nat
  | .v4 octets => octets.toList.foldl (fun n o => 256 * n + o.toNat) 0
  | .v6 groups => groups.toList.foldl (fun n g => 65536 * n + g.toNat) 0

/-- How many bits an address of the family has. -/
def Address.width : Address → Nat
  | .v4 _ => 32
  | .v6 _ => 128

/-- A network. The bits of the address behind the shared ones are kept and have no meaning. -/
structure Network where
  address : Address
  length : Nat
  length_le : length ≤ address.width
  deriving DecidableEq, Repr

namespace Network

def text (n : Network) : String :=
  n.address.text ++ "/" ++ toString n.length

/-- An address lies in a network of its own family that has the same leading bits. -/
def covers (n : Network) (a : Address) : Bool :=
  n.address.width == a.width &&
    n.address.bits >>> (a.width - n.length) == a.bits >>> (a.width - n.length)

/-- With how many digits at most the length of a network is written, by the family of its
address. -/
def lengthDigits : Address → Nat
  | .v4 _ => 2
  | .v6 _ => 3

/-- The network that a whole text spells. -/
def ofChars? (cs : List Char) : Option Network :=
  match (Address.readOlder .lenient cs).orElse fun _ => Address.readNewer .lenient cs with
  | none => none
  | some (a, rest) =>
    match (Address.readChar '/' rest).bind
      (Address.readNumeral 10 (lengthDigits a) (a.width + 1) true) with
    | some (n, []) => if h : n ≤ a.width then some ⟨a, n, h⟩ else none
    | _ => none

end Network

end NfsLease
