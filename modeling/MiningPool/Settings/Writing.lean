import MiningPool.Json.Value
import MiningPool.Settings.Basic
import MiningPool.Time.Text

/-!
# Settings as JSON

All settings under their names, in their order.
-/

namespace MiningPool.Settings

open Json

def submitPolicyName : SubmitPolicy → String
  | .lenient => "lenient"
  | .strict => "strict"

def Mining.toJson (m : Mining) : Value :=
  .object [
    ("broadcast_interval", .string m.broadcastInterval.text),
    ("initial_difficulty", .ofNat m.initialDifficulty),
    ("extranonce2_size", .ofNat m.extranonce2Size),
    ("idle_timeout", .string m.idleTimeout.text),
    ("max_request_size", .ofNat m.maxRequestSize),
    ("submit_policy", .string (submitPolicyName m.submitPolicy)),
    ("job_history", .ofNat m.jobHistory)]

def Exporter.toJson (e : Exporter) : Value := .object [("enabled", .bool e.enabled), ("port", .ofNat e.port)]

def Limits.toJson (l : Limits) : Value :=
  .object [
    ("enabled", .bool l.enabled),
    ("max_connections_per_ip", .ofNat l.maxConnectionsPerIp),
    ("malformed_limit", .ofNat l.malformedLimit),
    ("share_check_threshold", .ofNat l.shareCheckThreshold),
    ("invalid_share_percent", .number (.double l.invalidSharePercent)),
    ("ban_duration", .string l.banDuration.text),
    ("reset_interval", .string l.resetInterval.text),
    ("trusted", .array (l.trusted.map fun ip => .string ip.text))]

/-- All settings. A percentage that is not finite is written as null. -/
def toJson (s : Settings) : Value :=
  .object [
    ("host", .string s.host),
    ("port", .ofNat s.port),
    ("log_level", .string s.logLevel),
    ("max_clients", .ofNat s.maxClients),
    ("mining", s.mining.toJson),
    ("metrics", s.metrics.toJson),
    ("policy", s.policy.toJson)]

end MiningPool.Settings
