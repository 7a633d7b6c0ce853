import MiningPool.Settings.Basic
import MiningPool.Time.Text

/-!
# Settings that make sense

`check` finds the first thing wrong with settings, in a fixed order. Two combinations are allowed but worth a
warning. Limits are only looked at when they are enabled, and so is the exporter.
-/

namespace MiningPool.Settings

inductive Flaw where
  | noPort
  | noHost
  | noClients
  | noBroadcastInterval
  | noIdleTimeout
  | noDifficulty
  | extranonce2Size (n : Nat)
  | requestSize
  | noHistory
  | noExporterPort
  | samePort
  | noConnections
  | noMalformedLimit
  | noShareThreshold
  | noInvalidShares
  | noBanTime
  deriving DecidableEq, Repr

def Flaw.message : Flaw → String
  | .noPort => "port cannot be 0"
  | .noHost => "host cannot be empty"
  | .noClients => "max_clients cannot be 0"
  | .noBroadcastInterval => "mining.broadcast_interval cannot be 0"
  | .noIdleTimeout => "mining.idle_timeout cannot be 0"
  | .noDifficulty => "mining.initial_difficulty cannot be 0"
  | .extranonce2Size n => "mining.extranonce2_size must be between 1 and 16, got " ++ toString n
  | .requestSize => "mining.max_request_size must be at least 64 bytes"
  | .noHistory => "mining.job_history cannot be 0"
  | .noExporterPort => "metrics.port cannot be 0"
  | .samePort => "metrics.port cannot be the same as the stratum port"
  | .noConnections => "policy.max_connections_per_ip cannot be 0"
  | .noMalformedLimit => "policy.malformed_limit cannot be 0"
  | .noShareThreshold => "policy.share_check_threshold cannot be 0"
  | .noInvalidShares => "policy.invalid_share_percent must be positive"
  | .noBanTime => "policy.ban_duration and policy.reset_interval cannot be 0"

/-- What is allowed but worth a warning. -/
inductive Warning where
  /-- Miners that say nothing are dropped before they get a new job. -/
  | shortIdleTimeout (idle broadcast : Span)
  /-- One address can take all the room there is. -/
  | greedyAddress (perIp clients : Nat)
  deriving DecidableEq, Repr

def Warning.message : Warning → String
  | .shortIdleTimeout idle broadcast =>
    "mining.idle_timeout (" ++ idle.brief ++ ") is shorter than mining.broadcast_interval (" ++
      broadcast.brief ++ "); quiet miners will be dropped between jobs."
  | .greedyAddress perIp clients =>
    "policy.max_connections_per_ip (" ++ toString perIp ++ ") exceeds max_clients (" ++ toString clients ++
      "); one address can fill the server."

/-- The flaws, in the order in which they are looked for, each with whether it is there. -/
def Mining.flaws (m : Mining) : List (Bool × Flaw) :=
  [(m.broadcastInterval == 0, .noBroadcastInterval),
    (m.idleTimeout == 0, .noIdleTimeout),
    (m.initialDifficulty == 0, .noDifficulty),
    (m.extranonce2Size < 1 || 16 < m.extranonce2Size, .extranonce2Size m.extranonce2Size),
    (m.maxRequestSize < 64, .requestSize),
    (m.jobHistory == 0, .noHistory)]

def Exporter.flaws (e : Exporter) (port : Nat) : List (Bool × Flaw) :=
  if e.enabled then [(e.port == 0, .noExporterPort), (e.port == port, .samePort)] else []

def Limits.flaws (l : Limits) : List (Bool × Flaw) :=
  if l.enabled then
    [(l.maxConnectionsPerIp == 0, .noConnections),
      (l.malformedLimit == 0, .noMalformedLimit),
      (l.shareCheckThreshold == 0, .noShareThreshold),
      (!l.invalidSharePercent.isPositive, .noInvalidShares),
      (l.banDuration == 0 || l.resetInterval == 0, .noBanTime)]
  else []

def flaws (s : Settings) : List (Bool × Flaw) :=
  [(s.port == 0, .noPort), (Text.isAllBlank s.host, .noHost), (s.maxClients == 0, .noClients)] ++
    s.mining.flaws ++ s.metrics.flaws s.port ++ s.policy.flaws

/-- The first flaw, if there is one. -/
def check (s : Settings) : Except Flaw Unit :=
  match s.flaws.find? (·.1) with
  | some (_, flaw) => .error flaw
  | none => .ok ()

/-- Settings that make sense. -/
def Sound (s : Settings) : Prop := s.check = .ok ()

instance (s : Settings) : Decidable s.Sound := by
  unfold Sound
  exact match s.check with
    | .ok () => isTrue rfl
    | .error _ => isFalse (by simp)

/-- The warnings that settings call for. -/
def warnings (s : Settings) : List Warning :=
  (if s.mining.idleTimeout < s.mining.broadcastInterval then
    [.shortIdleTimeout s.mining.idleTimeout s.mining.broadcastInterval] else []) ++
  (if s.policy.enabled && s.maxClients < s.policy.maxConnectionsPerIp then
    [.greedyAddress s.policy.maxConnectionsPerIp s.maxClients] else [])

end MiningPool.Settings
