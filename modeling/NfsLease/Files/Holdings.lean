/-
All client records and all files, the two views of the same state: what a client's record lists,
some file shows. Beside them stand two histories, of the calls to the storage layer and of the files
that something was given back on.
-/
import NfsLease.Files.State
import NfsLease.Table

namespace NfsLease

/-- The state that clients hold. -/
structure Holdings where
  /-- Every record ever made, by number. -/
  clients : List Client
  files : Table Inode FileState
  /-- The files that an open or a delegation was given back on, one entry each time. -/
  returns : List Inode
  /-- The calls made to the storage layer. -/
  hookCalls : List HookCall
  deriving DecidableEq, Repr

namespace Holdings

def empty : Holdings := ⟨[], [], [], []⟩

/-! ## Client records -/

/-- The record of a number. -/
def client (h : Holdings) (r : ClientRef) : Client := h.clients.getD r.index Client.absent

/-- Puts a record in place of the one of its number. -/
def setClient (h : Holdings) (r : ClientRef) (c : Client) : Holdings :=
  { h with clients := h.clients.set r.index c }

/-- Adds a record under the next number. -/
def addClient (h : Holdings) (c : Client) : ClientRef × Holdings :=
  (⟨h.clients.length⟩, { h with clients := h.clients ++ [c] })

/-- Makes a piece of state in the record of a client. -/
def createState (h : Holdings) (r : ClientRef) (kind : StateKind) (inode : Inode)
    (owner : Option OwnerRef) : StateId × Holdings :=
  let (stateid, c) := (h.client r).createState kind inode owner
  (stateid, h.setClient r c)

/-- Takes a piece of state, and the locks under it, out of the record of a client. -/
def releaseState (h : Holdings) (r : ClientRef) (id : StateId) : Holdings :=
  h.setClient r ((h.client r).releaseState id).2

/-! ## Files -/

def file (h : Holdings) (inode : Inode) : FileState := (h.files.get? inode).getD .unused

/-- Gives a file a state; one with nothing to remember is dropped. -/
def setFile (h : Holdings) (inode : Inode) (f : FileState) : Holdings :=
  if f.isIdle then { h with files := h.files.erase inode }
  else { h with files := h.files.put inode f }

/-- Notes that something was given back on a file. -/
def noteReturn (h : Holdings) (inode : Inode) : Holdings :=
  { h with returns := h.returns ++ [inode] }

def noteCall (h : Holdings) (call : HookCall) : Holdings :=
  { h with hookCalls := h.hookCalls ++ [call] }

end Holdings

end NfsLease
