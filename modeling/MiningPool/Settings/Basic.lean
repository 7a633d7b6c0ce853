import MiningPool.Decimal.Binary64
import MiningPool.Net.Address
import MiningPool.Time.Span

/-!
# Settings

What the pool can be told about how to work, with what it does when it is not told.
-/

namespace MiningPool

open Decimal Net

/-- What a share has to satisfy before the work source is asked about it. -/
inductive SubmitPolicy where
  /-- Nothing. -/
  | lenient
  /-- The miner has logged in, and the job is still good. -/
  | strict
  deriving DecidableEq, Repr, Inhabited

namespace Settings

/-- How work is handed out, and what a connection may do. -/
structure Mining where
  /-- How often everyone gets a new job. -/
  broadcastInterval : Span
  initialDifficulty : Nat
  /-- The bytes of nonce space left to a miner. -/
  extranonce2Size : Nat
  /-- How long a miner may say nothing. -/
  idleTimeout : Span
  maxRequestSize : Nat
  submitPolicy : SubmitPolicy
  /-- How many jobs for everyone are remembered. -/
  jobHistory : Nat
  deriving DecidableEq, Repr

/-- Whether and where the counters can be read. -/
structure Exporter where
  enabled : Bool
  port : Nat
  deriving DecidableEq, Repr

/-- What one address may do before it is banned. -/
structure Limits where
  enabled : Bool
  maxConnectionsPerIp : Nat
  malformedLimit : Nat
  /-- After how many shares their ratio is looked at. -/
  shareCheckThreshold : Nat
  /-- How many bad shares for each hundred good ones are too many. -/
  invalidSharePercent : Binary64
  banDuration : Span
  /-- How often bans that ran out are lifted. -/
  resetInterval : Span
  /-- Addresses without limits. -/
  trusted : List Ip
  deriving DecidableEq, Repr

/-! ## When nothing is said -/

def Mining.standard : Mining where
  broadcastInterval := Span.ofSeconds 30
  initialDifficulty := 1000000
  extranonce2Size := 4
  idleTimeout := Span.ofSeconds 300
  maxRequestSize := 1024
  submitPolicy := .lenient
  jobHistory := 8

def Exporter.standard : Exporter := ⟨false, 9100⟩

def Limits.standard : Limits where
  enabled := true
  maxConnectionsPerIp := 32
  malformedLimit := 5
  shareCheckThreshold := 100
  invalidSharePercent := Binary64.ofNat 50
  banDuration := Span.ofSeconds 1800
  resetInterval := Span.ofSeconds 3600
  trusted := []

end Settings

structure Settings where
  host : String
  port : Nat
  logLevel : String
  maxClients : Nat
  mining : Settings.Mining
  metrics : Settings.Exporter
  policy : Settings.Limits
  deriving DecidableEq, Repr

/-- The settings when nothing is said. -/
def Settings.standard : Settings where
  host := "0.0.0.0"
  port := 3333
  logLevel := "info"
  maxClients := 1024
  mining := .standard
  metrics := .standard
  policy := .standard

instance : Inhabited Settings := ⟨.standard⟩

end MiningPool
