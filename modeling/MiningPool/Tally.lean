import MiningPool.Keyed

/-!
# Counting

A `Tally` is what the pool tells of itself. `Meters` are the counters that others read: how many miners are
connected, and how often each kind of thing has happened.
-/

namespace MiningPool

/-- What the pool tells of itself. -/
structure Tally where
  connections : Nat
  accepted : Nat
  rejected : Nat
  /-- Jobs for everyone. -/
  jobs : Nat
  deriving DecidableEq, Repr, Inhabited

namespace Tally

def zero : Tally := ⟨0, 0, 0, 0⟩

def connection (t : Tally) : Tally := { t with connections := t.connections + 1 }

def share (t : Tally) (accepted : Bool) : Tally :=
  if accepted then { t with accepted := t.accepted + 1 } else { t with rejected := t.rejected + 1 }

def job (t : Tally) : Tally := { t with jobs := t.jobs + 1 }

end Tally

/-- Why a connection was not let in. -/
inductive Refusal where
  | banned
  | tooManyConnections
  /-- As many are connected as may be. -/
  | full
  | noSessionId
  deriving DecidableEq, Repr, Inhabited

def Refusal.label : Refusal → String
  | .banned => "banned"
  | .tooManyConnections => "per_ip_limit"
  | .full => "max_clients"
  | .noSessionId => "session_ids_exhausted"

/-- Something that is counted. -/
inductive Happening where
  /-- A connection came in. -/
  | received
  | refused (why : Refusal)
  | peerBanned
  | malformedLine
  | jobBroadcast
  | fetchFailure
  | request (command : String)
  | share (accepted : Bool)
  deriving DecidableEq, Repr

namespace Happening

def name : Happening → String
  | .received => "received"
  | .refused why => "rejected." ++ why.label
  | .peerBanned => "peers_banned"
  | .malformedLine => "malformed"
  | .jobBroadcast => "jobs_broadcast"
  | .fetchFailure => "fetch_failures"
  | .request command => "requests." ++ command
  | .share accepted => "shares." ++ if accepted then "accepted" else "rejected"

end Happening

/-- The counters that others read. -/
structure Meters where
  /-- How many miners are connected. -/
  connected : Nat
  counts : Keyed Happening Nat
  deriving DecidableEq, Repr

namespace Meters

def zero : Meters := ⟨0, []⟩

def count (m : Meters) (h : Happening) : Meters := { m with counts := m.counts.update h 0 (· + 1) }

def of (m : Meters) (h : Happening) : Nat := (m.counts.get? h).getD 0

end Meters
end MiningPool
