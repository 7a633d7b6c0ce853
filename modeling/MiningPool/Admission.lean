import MiningPool.Keyed
import MiningPool.Settings.Basic

/-!
# Admission

What is remembered of an address: its open connections, its bad lines, its shares since they were last
looked at, and until when it is banned. A ban holds before its deadline and not at it. When a ban is found
to have run out, the counts start over with it. Addresses without limits are never remembered.
-/

namespace MiningPool

open Decimal Net

/-! ## One address -/

structure Record where
  connections : Nat
  malformed : Nat
  validShares : Nat
  invalidShares : Nat
  bannedUntil : Option Instant
  deriving DecidableEq, Repr

namespace Record

def blank : Record := ⟨0, 0, 0, 0, none⟩

def isBanned (r : Record) (now : Instant) : Bool := r.bannedUntil.any fun deadline => now < deadline

/-- Without a ban that has run out. The counts start over with it. -/
def settle (r : Record) (now : Instant) : Record :=
  match r.bannedUntil with
  | some deadline =>
    if now < deadline then r
    else { r with bannedUntil := none, malformed := 0, validShares := 0, invalidShares := 0 }
  | none => r

/-- Whether it is worth remembering. -/
def matters (r : Record) : Bool := 0 < r.connections || r.bannedUntil.isSome

end Record

/-- Bad shares for each hundred good ones, with one good share given for free. -/
def invalidPercent (valid invalid : Nat) : Binary64 :=
  ((Binary64.ofNat invalid).div (Binary64.ofNat (valid + 1))).mul (Binary64.ofNat 100)

/-! ## All addresses -/

/-- Whether a new connection is let in. -/
inductive Entrance where
  | admitted
  | banned
  /-- The address holds as many connections as it may. -/
  | tooManyConnections
  deriving DecidableEq, Repr, Inhabited

/-- Whether an address may go on after what it did. -/
inductive Verdict where
  | allowed
  /-- It should be banned. -/
  | banned
  deriving DecidableEq, Repr, Inhabited

/-- What is remembered of all addresses, and the limits they are held to. -/
structure Admission where
  limits : Settings.Limits
  records : Keyed Ip Record
  deriving DecidableEq, Repr

namespace Admission

def fresh (limits : Settings.Limits) : Admission := ⟨limits, []⟩

/-- Whether an address has limits. -/
def appliesTo (a : Admission) (ip : Ip) : Bool := a.limits.enabled && !a.limits.trusted.contains ip

def record (a : Admission) (ip : Ip) : Record := (a.records.get? ip).getD .blank

def modify (a : Admission) (ip : Ip) (f : Record → Record) : Admission :=
  { a with records := a.records.update ip .blank f }

/-- A connection from an address asks to be let in, and is counted if it is. -/
def letIn (a : Admission) (now : Instant) (ip : Ip) : Entrance × Admission :=
  if !a.appliesTo ip then (.admitted, a)
  else
    let a := a.modify ip (·.settle now)
    let r := a.record ip
    if r.bannedUntil.isSome then (.banned, a)
    else if r.connections ≥ a.limits.maxConnectionsPerIp then (.tooManyConnections, a)
    else (.admitted, a.modify ip fun r => { r with connections := r.connections + 1 })

/-- A connection from an address is over. -/
def release (a : Admission) (ip : Ip) : Admission :=
  { a with records := Keyed.change a.records ip fun r => { r with connections := r.connections - 1 } }

def isBanned (a : Admission) (now : Instant) (ip : Ip) : Bool × Admission :=
  if !a.appliesTo ip then (false, a)
  else
    let a := { a with records := Keyed.change a.records ip (·.settle now) }
    ((a.record ip).bannedUntil.isSome, a)

/-- Bans an address, and tells whether it can be banned. -/
def ban (a : Admission) (now : Instant) (ip : Ip) : Bool × Admission :=
  if !a.appliesTo ip then (false, a)
  else
    (true, a.modify ip fun r =>
      { r with bannedUntil := some (now + a.limits.banDuration), malformed := 0 })

/-- A line from an address was malformed or too large. -/
def recordMalformed (a : Admission) (ip : Ip) : Verdict × Admission :=
  if !a.appliesTo ip then (.allowed, a)
  else
    let a := a.modify ip fun r => { r with malformed := r.malformed + 1 }
    (if (a.record ip).malformed ≥ a.limits.malformedLimit then .banned else .allowed, a)

/-- A share from an address was judged. Each time there are enough of them, their ratio is looked at and
counting starts over. -/
def recordShare (a : Admission) (ip : Ip) (accepted : Bool) : Verdict × Admission :=
  if !a.appliesTo ip then (.allowed, a)
  else
    let a := a.modify ip fun r =>
      if accepted then { r with validShares := r.validShares + 1 }
      else { r with invalidShares := r.invalidShares + 1 }
    let r := a.record ip
    if r.validShares + r.invalidShares < a.limits.shareCheckThreshold then (.allowed, a)
    else
      (if a.limits.invalidSharePercent.le (invalidPercent r.validShares r.invalidShares) then .banned
        else .allowed,
        a.modify ip fun r => { r with validShares := 0, invalidShares := 0 })

/-- Lifts the bans that have run out and forgets what does not matter. Tells how many bans were lifted. -/
def sweep (a : Admission) (now : Instant) : Nat × Admission :=
  let ended (e : Ip × Record) : Bool := e.2.bannedUntil.isSome && !e.2.isBanned now
  ((a.records.filter ended).length,
    { a with records := (a.records.map fun e => (e.1, e.2.settle now)).filter (·.2.matters) })

def bannedCount (a : Admission) (now : Instant) : Nat := (a.records.filter (·.2.isBanned now)).length

def tracked (a : Admission) : Nat := a.records.length

def connectionsFrom (a : Admission) (ip : Ip) : Nat := (a.record ip).connections

end Admission
end MiningPool
