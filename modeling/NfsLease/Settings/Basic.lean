/-
The settings of the engine, their defaults, and what makes them acceptable.
-/
import NfsLease.Net.Network

namespace NfsLease

/-- What the engine can be told. Times are in the unit that the name ends in. -/
structure Settings where
  leaseSecs : Nat := 90
  graceSecs : Nat := 90
  /-- How long one callback may take. -/
  callbackTimeoutMs : Nat := 5000
  /-- How long an open waits for a recalled delegation to come back. -/
  recallWaitMs : Nat := 100
  /-- How long a request waits for a file that another one is working on. -/
  fileLockTimeoutMs : Nat := 2000
  sweepIntervalMs : Nat := 10000
  /-- How long an owner without state is remembered. -/
  ownerIdleSecs : Nat := 180
  delegationsEnabled : Bool := true
  /-- Whether repeated opens are given read delegations that nobody asked for. -/
  opportunisticDelegations : Bool := true
  /-- Where the ledger of clients is kept; without it nothing outlives the server. -/
  recoveryDir : Option String := none
  /-- The networks whose clients must prove that callbacks reach them. -/
  verifyNetworks : List Network := []
  deriving DecidableEq, Repr

/-- A setting that must not be zero. -/
inductive PositiveSetting where
  | leaseSecs
  | callbackTimeoutMs
  | sweepIntervalMs
  deriving DecidableEq, Repr

/-- Why settings are refused. -/
inductive SettingsError where
  /-- The file could not be read as text. -/
  | unreadable
  /-- The text is not a document with settings of the right kinds. -/
  | malformed
  /-- A variable of the environment does not hold a value of its setting. -/
  | badVariable (setting value : String)
  | zero (setting : PositiveSetting)
  deriving DecidableEq, Repr

namespace SettingsError

/-- The name of a setting and the rule that zero breaks. -/
def rule : PositiveSetting → String × String
  | .leaseSecs => ("lease_time_secs", "lease time must be positive")
  | .callbackTimeoutMs => ("callback_timeout_ms", "callbacks need a bounded, non-zero timeout")
  | .sweepIntervalMs => ("sweep_interval_ms", "sweep interval must be positive")

/-- The text of a refusal. -/
def message : SettingsError → String
  | unreadable => "I/O error: unreadable"
  | malformed => "parse error: malformed"
  | badVariable setting value =>
    "environment variable error: Invalid " ++ setting ++ " value: " ++ value
  | zero setting => "invalid value for " ++ (rule setting).1 ++ ": " ++ (rule setting).2

end SettingsError

namespace Settings

/-- The settings that must not be zero, in the order in which they are looked at. -/
def validate (s : Settings) : Except SettingsError Unit :=
  if s.leaseSecs = 0 then .error (.zero .leaseSecs)
  else if s.callbackTimeoutMs = 0 then .error (.zero .callbackTimeoutMs)
  else if s.sweepIntervalMs = 0 then .error (.zero .sweepIntervalMs)
  else .ok ()

def checked (s : Settings) : Except SettingsError Settings :=
  s.validate.map fun _ => s

/-! ## Spans in milliseconds -/

def leaseMs (s : Settings) : Nat := s.leaseSecs * 1000

def graceMs (s : Settings) : Nat := s.graceSecs * 1000

/-- How long an owner without state is remembered. -/
def ownerIdleMs (s : Settings) : Nat := s.ownerIdleSecs * 1000

/-! ## Changing one setting -/

/-- Sets the lease to the whole seconds of a span, but at least one. -/
def withLease (s : Settings) (ms : Nat) : Settings := { s with leaseSecs := max (ms / 1000) 1 }

/-- Sets the grace period to the whole seconds of a span. -/
def withGrace (s : Settings) (ms : Nat) : Settings := { s with graceSecs := ms / 1000 }

/-- Sets how long one callback may take. -/
def withCallbackTimeout (s : Settings) (ms : Nat) : Settings := { s with callbackTimeoutMs := ms }

/-- Sets how long an open waits for a recalled delegation. -/
def withRecallWait (s : Settings) (ms : Nat) : Settings := { s with recallWaitMs := ms }

/-- Sets where the ledger is kept. -/
def withRecoveryDir (s : Settings) (dir : String) : Settings := { s with recoveryDir := some dir }

def withoutDelegations (s : Settings) : Settings := { s with delegationsEnabled := false }

/-- Gives out no delegations that nobody asked for. -/
def withoutOpportunisticDelegations (s : Settings) : Settings :=
  { s with opportunisticDelegations := false }

end Settings

end NfsLease
