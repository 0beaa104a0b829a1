/-
Reading what a client answers: the header of a reply, which belongs to one call, and the results of
a compound, which end at the first operation that failed.
-/
import NfsLease.Callback.Xdr

namespace NfsLease

open Xdr

/-- The results of a reply to the call `xid`; none if the record answers another call. -/
def decodeReply (xid : UInt32) (record : Bytes) : Except CallbackError (Option Bytes) := do
  let (id, rest) ← readWord record
  if id ≠ xid then return none
  let (direction, rest) ← readWord rest
  if direction ≠ 1 then throw (.malformed "not a reply")
  let (verdict, rest) ← readWord rest
  if verdict ≠ 0 then throw (.rejected "call denied")
  let (_flavor, rest) ← readWord rest
  let (_verifier, rest) ← readBlob rest
  let (accepted, rest) ← readWord rest
  if accepted ≠ 0 then throw (.rejected ("accept status " ++ toString accepted.toNat))
  return some rest

/-- The body of a successful result, with the attributes if the operation fetched any. -/
def readResultBody (op : UInt32) : Read (Option Bytes) := fun buf => do
  if op = 11 then
    let (_, rest) ← skip 32 buf
    return (none, rest)
  else if op = 3 then
    let (words, rest) ← readWord buf
    let (_, rest) ← skip (words.toNat * 4) rest
    let (attrs, rest) ← readBlob rest
    return (some attrs, rest)
  else if op = 4 then
    return (none, buf)
  else
    throw (.malformed ("unexpected callback op " ++ toString op.toNat))

/-- One result: the operation's number, its status and, if that is success, its body. -/
def readResult : Read (Option Bytes) := fun buf => do
  let (op, rest) ← readWord buf
  let (status, rest) ← readWord rest
  if status ≠ 0 then throw (.status status)
  readResultBody op rest

/-- As many results as asked; the attributes are those fetched last. -/
def readResults : Nat → Option Bytes → Read (Option Bytes)
  | 0, attrs, buf => .ok (attrs, buf)
  | n + 1, attrs, buf => do
    let (found, rest) ← readResult buf
    readResults n (found.or attrs) rest

/-- The attributes in the results of a compound, if it fetched any. The status of the whole is
looked at last. -/
def decodeCompound (results : Bytes) : Except CallbackError (Option Bytes) := do
  let (status, rest) ← readWord results
  let (_tag, rest) ← readBlob rest
  let (count, rest) ← readWord rest
  let (attrs, _) ← readResults count.toNat none rest
  if status ≠ 0 then throw (.status status)
  return attrs

end NfsLease
