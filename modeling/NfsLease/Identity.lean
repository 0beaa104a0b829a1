/-
The names that parties and files go by: client ids, verifiers, principals and file keys.
-/
import NfsLease.Text.Hex

namespace NfsLease

/-- The id that the server gives a client: the number of the server instance in the upper half and
a counter of that instance in the lower. -/
structure ClientId where
  value : UInt64
  deriving DecidableEq, Repr

namespace ClientId

/-- The id of the `counter`-th client of an instance. -/
def compose (inst counter : UInt32) : ClientId :=
  ⟨(inst.toUInt64 <<< 32) ||| counter.toUInt64⟩

/-- The server instance that gave out an id. -/
def inst (id : ClientId) : UInt32 :=
  (id.value >>> 32).toUInt32

/-- The octets of an id, most significant first. -/
def bytes (id : ClientId) : Bytes := longBytes id.value

/-- Sixteen hexadecimal digits. -/
def text (id : ClientId) : String := id.bytes.hex

/-- The id that sixteen hexadecimal digits stand for. -/
def ofText? (s : String) : Option ClientId :=
  (Bytes.ofHex? s).bind fun octets =>
    if octets.length = 8 then some ⟨UInt64.ofNat octets.toNat⟩ else none

end ClientId

/-- Eight octets that a party made up: the boot epoch of a client, or the token with which the
server lets a client confirm its id. -/
structure Verifier where
  value : UInt64
  deriving DecidableEq, Repr

namespace Verifier

def bytes (v : Verifier) : Bytes := longBytes v.value

/-- Sixteen hexadecimal digits. -/
def text (v : Verifier) : String := v.bytes.hex

end Verifier

/-- The authenticated name of a caller. -/
structure Principal where
  name : String
  deriving DecidableEq, Repr

/-- The opaque key of a file, which is also its handle on the wire. -/
structure Inode where
  key : Bytes
  deriving DecidableEq, Repr

namespace Inode

def text (i : Inode) : String := i.key.hex

end Inode

end NfsLease
