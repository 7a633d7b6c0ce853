import MiningPool.Settings.Basic
import MiningPool.Time.Text
import MiningPool.Toml.Value

/-!
# Settings from TOML

Every setting may be missing and then has its standard value; settings that do not exist are passed over,
but their numbers have to be some that are kept. A group of settings may also be written as a list of its
first values, in their order; whatever stands behind the last one is not looked at.
-/

namespace MiningPool

open Decimal Net

namespace Toml.Value

/-! ## Single values -/

def text? : Value → Option String
  | .text s => some s
  | _ => none

def flag? : Value → Option Bool
  | .flag b => some b
  | _ => none

/-- A number of so many bits, without a sign. -/
def natural? (bits : Nat) : Value → Option Nat
  | .whole (.ofNat n) => if n < twoTo bits then some n else none
  | _ => none

/-- A double, or a whole number of 64 bits, signed or unsigned. -/
def real? : Value → Option Binary64
  | .real x => some x
  | .whole n =>
    if -(twoTo 63 : Int) ≤ n ∧ n < twoTo 64 then some (Binary64.ofRatio (n < 0) n.natAbs 1) else none
  | _ => none

/-- A span is written as text. -/
def span? : Value → Option Span
  | .text s => Span.read? s
  | _ => none

/-- An address is written as text. -/
def ip? : Value → Option Ip
  | .text s => Ip.read? s
  | _ => none

def ips? : Value → Option (List Ip)
  | .list items => items.mapM ip?
  | _ => none

/-- Whether a value holds nothing. -/
def isEmpty : Value → Bool
  | .list [] | .table [] => true
  | _ => false

/-- A choice among names: a name, or a table with nothing but an empty value under the name. -/
def choice? : Value → Option String
  | .text s => some s
  | .table [(name, v)] => if v.isEmpty then some name else none
  | _ => none

/-! ## Groups of values -/

/-- Finds the values of a group whose members have these names, in this order. -/
def members? (names : List String) : Value → Option (String → Option Value)
  | .table fields =>
    if fields.all fun f => names.contains f.1 || f.2.isKept then
      some fun name => (fields.find? fun f => f.1 = name).map (·.2)
    else none
  | .list items => some fun name => items[names.idxOf name]?
  | .moment => some fun _ => none
  | _ => none

end Toml.Value

namespace Settings

open Toml (Value)

/-- A member of a group, with its standard value if it is missing. -/
def member {α : Type} (get : String → Option Value) (name : String) (read : Value → Option α) (standard : α) :
    Option α :=
  match get name with
  | none => some standard
  | some v => read v

def submitPolicy? (v : Value) : Option SubmitPolicy := do
  let name ← v.choice?
  if name = "lenient" then some .lenient else if name = "strict" then some .strict else none

def Mining.names : List String :=
  ["broadcast_interval", "initial_difficulty", "extranonce2_size", "idle_timeout", "max_request_size",
    "submit_policy", "job_history"]

def Mining.ofValue? (v : Value) : Option Mining := do
  let get ← v.members? Mining.names
  let std := Mining.standard
  some {
    broadcastInterval := ← member get "broadcast_interval" Value.span? std.broadcastInterval
    initialDifficulty := ← member get "initial_difficulty" (Value.natural? 64) std.initialDifficulty
    extranonce2Size := ← member get "extranonce2_size" (Value.natural? 64) std.extranonce2Size
    idleTimeout := ← member get "idle_timeout" Value.span? std.idleTimeout
    maxRequestSize := ← member get "max_request_size" (Value.natural? 64) std.maxRequestSize
    submitPolicy := ← member get "submit_policy" submitPolicy? std.submitPolicy
    jobHistory := ← member get "job_history" (Value.natural? 64) std.jobHistory }

def Exporter.names : List String := ["enabled", "port"]

def Exporter.ofValue? (v : Value) : Option Exporter := do
  let get ← v.members? Exporter.names
  let std := Exporter.standard
  some {
    enabled := ← member get "enabled" Value.flag? std.enabled
    port := ← member get "port" (Value.natural? 16) std.port }

def Limits.names : List String :=
  ["enabled", "max_connections_per_ip", "malformed_limit", "share_check_threshold",
    "invalid_share_percent", "ban_duration", "reset_interval", "trusted"]

def Limits.ofValue? (v : Value) : Option Limits := do
  let get ← v.members? Limits.names
  let std := Limits.standard
  some {
    enabled := ← member get "enabled" Value.flag? std.enabled
    maxConnectionsPerIp := ← member get "max_connections_per_ip" (Value.natural? 64) std.maxConnectionsPerIp
    malformedLimit := ← member get "malformed_limit" (Value.natural? 32) std.malformedLimit
    shareCheckThreshold := ← member get "share_check_threshold" (Value.natural? 32) std.shareCheckThreshold
    invalidSharePercent := ← member get "invalid_share_percent" Value.real? std.invalidSharePercent
    banDuration := ← member get "ban_duration" Value.span? std.banDuration
    resetInterval := ← member get "reset_interval" Value.span? std.resetInterval
    trusted := ← member get "trusted" Value.ips? std.trusted }

def names : List String := ["host", "port", "log_level", "max_clients", "mining", "metrics", "policy"]

/-- The settings that a value stands for. -/
def ofValue? (v : Value) : Option Settings := do
  let get ← v.members? names
  let std := standard
  some {
    host := ← member get "host" Value.text? std.host
    port := ← member get "port" (Value.natural? 16) std.port
    logLevel := ← member get "log_level" Value.text? std.logLevel
    maxClients := ← member get "max_clients" (Value.natural? 64) std.maxClients
    mining := ← member get "mining" Mining.ofValue? std.mining
    metrics := ← member get "metrics" Exporter.ofValue? std.metrics
    policy := ← member get "policy" Limits.ofValue? std.policy }

end Settings
end MiningPool
