/-
Where settings come from: a document, and variables of the environment that override some of them.
Settings from either are acceptable or refused as a whole.
-/
import NfsLease.Settings.Basic
import NfsLease.Text.Blank
import NfsLease.Text.Utf8
import NfsLease.Toml.Document

namespace NfsLease.Settings

/-! ## Documents -/

/-- A whole number that is not negative. -/
def asNat? : Toml → Option Nat
  | .integer i => if 0 ≤ i then some i.toNat else none
  | _ => none

/-- A truth value. -/
def asBool? : Toml → Option Bool
  | .boolean b => some b
  | _ => none

def asText? : Toml → Option String
  | .text s => some s
  | _ => none

/-- A list of networks, each as a text. -/
def asNetworks? : Toml → Option (List Network)
  | .array items => items.mapM fun v => (asText? v).bind fun s => Network.ofChars? s.toList
  | _ => none

/-- The value of a key, or what is taken without it; none if the value is of the wrong kind. -/
def field {α : Type} (es : Toml.Entries) (key : String) (fallback : α) (read : Toml → Option α) :
    Option α :=
  match es.get? key with
  | none => some fallback
  | some v => read v

/-- The settings in the table of a document. Keys that name no setting are passed over. -/
def ofEntries? (es : Toml.Entries) : Option Settings := do
  let d : Settings := {}
  let leaseSecs ← field es "lease_time_secs" d.leaseSecs asNat?
  let graceSecs ← field es "grace_period_secs" d.graceSecs asNat?
  let callbackTimeoutMs ← field es "callback_timeout_ms" d.callbackTimeoutMs asNat?
  let recallWaitMs ← field es "recall_wait_ms" d.recallWaitMs asNat?
  let fileLockTimeoutMs ← field es "file_lock_timeout_ms" d.fileLockTimeoutMs asNat?
  let sweepIntervalMs ← field es "sweep_interval_ms" d.sweepIntervalMs asNat?
  let ownerIdleSecs ← field es "owner_idle_timeout_secs" d.ownerIdleSecs asNat?
  let delegationsEnabled ← field es "delegations_enabled" d.delegationsEnabled asBool?
  let opportunisticDelegations ←
    field es "opportunistic_delegations" d.opportunisticDelegations asBool?
  let recoveryDir ← field es "recovery_dir" d.recoveryDir fun v => (asText? v).map some
  let verifyNetworks ← field es "verify_networks" d.verifyNetworks asNetworks?
  some ⟨leaseSecs, graceSecs, callbackTimeoutMs, recallWaitMs, fileLockTimeoutMs, sweepIntervalMs,
    ownerIdleSecs, delegationsEnabled, opportunisticDelegations, recoveryDir, verifyNetworks⟩

def ofDocument (text : String) : Except SettingsError Settings :=
  match (Toml.parse? text).bind ofEntries? with
  | some s => s.checked
  | none => .error .malformed

/-- The settings in a file, none if there is no such file. -/
def ofFile (content : Option Bytes) : Except SettingsError Settings :=
  match content.bind Utf8.decode? with
  | some text => ofDocument text
  | none => .error .unreadable

/-! ## Variables of the environment -/

/-- Overrides a setting by a variable, if it is set. -/
def overrideWith {α : Type} (value : Option String) (setting : String)
    (read : List Char → Option α) (put : α → Settings) (s : Settings) :
    Except SettingsError Settings :=
  match value with
  | none => .ok s
  | some text =>
    match read text.toList with
    | some v => .ok (put v)
    | none => .error (.badVariable setting text)

/-- A number of 64 bits. -/
def readCount : List Char → Option Nat := decimalBelow? UInt64.size

/-- The words for truth values. -/
def readFlag (cs : List Char) : Option Bool :=
  if cs = "true".toList then some true
  else if cs = "false".toList then some false
  else none

/-- The items of a list that commas separate, without blanks around them and without empty ones. -/
def listItems (text : String) : List (List Char) :=
  ((text.splitOn ",").map fun item => trimBlanks item.toList).filter fun item => !item.isEmpty

/-- The networks of a list; the first item that is none is the fault. -/
def readNetworks : List (List Char) → Except SettingsError (List Network)
  | [] => .ok []
  | item :: rest =>
    match Network.ofChars? item with
    | none => .error (.badVariable "verify_networks" (String.ofList item))
    | some n => (readNetworks rest).map (n :: ·)

/-- Overrides settings by the variables whose names are `stem`, an underscore and the setting. -/
def override (s : Settings) (stem : String) (lookup : String → Option String) :
    Except SettingsError Settings := do
  let value (name : String) := lookup (stem ++ "_" ++ name)
  let s ← overrideWith (value "LEASE_TIME_SECS") "lease_time_secs" readCount
    (fun n => { s with leaseSecs := n }) s
  let s ← overrideWith (value "GRACE_PERIOD_SECS") "grace_period_secs" readCount
    (fun n => { s with graceSecs := n }) s
  let s ← overrideWith (value "CALLBACK_TIMEOUT_MS") "callback_timeout_ms" readCount
    (fun n => { s with callbackTimeoutMs := n }) s
  let s ← overrideWith (value "DELEGATIONS_ENABLED") "delegations_enabled" readFlag
    (fun b => { s with delegationsEnabled := b }) s
  let s := match value "RECOVERY_DIR" with
    | some dir => { s with recoveryDir := some dir }
    | none => s
  let s ← match value "VERIFY_NETWORKS" with
    | some text => (readNetworks (listItems text)).map fun ns => { s with verifyNetworks := ns }
    | none => .ok s
  s.checked

end NfsLease.Settings
