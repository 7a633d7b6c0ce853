import MiningPool.Admission
import MiningPool.Roster
import MiningPool.Tally
import MiningPool.Work.Ledger

/-!
# The pool

All that the connections and the periodic tasks share. Session ids count up from one and are never used
again; the last one is the greatest number of eight hexadecimal digits.

Letting a connection in takes two steps, `enter` and `register`, and others may act between them.
-/

namespace MiningPool

open Net

structure Pool where
  settings : Settings
  roster : Roster
  ledger : Ledger
  tally : Tally
  meters : Meters
  admission : Admission
  /-- The last session id given out or passed over. -/
  lastSession : Nat
  /-- How many seats are taken, one by each connection. -/
  seats : Nat
  deriving DecidableEq, Repr

namespace Pool

def maxSession : Nat := twoTo 32 - 1

def fresh (settings : Settings) : Pool where
  settings := settings
  roster := .empty
  ledger := .fresh settings.mining.initialDifficulty settings.mining.jobHistory
  tally := .zero
  meters := .zero
  admission := .fresh settings.policy
  lastSession := 0
  seats := 0

def count (p : Pool) (h : Happening) : Pool := { p with meters := p.meters.count h }

/-! ## Session ids -/

/-- Gives out the next session id, if there is one left. -/
def nextSession (p : Pool) : Option Nat × Pool :=
  if p.lastSession < maxSession then (some (p.lastSession + 1), { p with lastSession := p.lastSession + 1 })
  else (none, p)

/-- Passes over the session ids up to one. -/
def skipSessions (p : Pool) (last : Nat) : Pool := { p with lastSession := max p.lastSession last }

/-- The session of an id, before its miner has said anything. -/
def session (p : Pool) (id : Nat) : Session :=
  .fresh id p.settings.mining.extranonce2Size p.ledger.difficulty

/-! ## Letting connections in and out -/

/-- Gives back what a connection from an address held. -/
def release (p : Pool) (ip : Ip) : Pool := { p with admission := p.admission.release ip }

/-- A connection asks to be let in, and gets a seat and a session id. There may be a limit to the seats.
Whoever is refused leaves nothing behind. -/
def enter (p : Pool) (now : Instant) (ip : Ip) (limit : Option Nat) : Except Refusal Nat × Pool :=
  match p.admission.letIn now ip with
  | (.banned, a) => (.error .banned, { p with admission := a })
  | (.tooManyConnections, a) => (.error .tooManyConnections, { p with admission := a })
  | (.admitted, a) =>
    let p := { p with admission := a }
    if limit.any (· ≤ p.seats) then (.error .full, p.release ip)
    else match p.nextSession with
      | (none, p) => (.error .noSessionId, p.release ip)
      | (some id, p) => (.ok id, { p with tally := p.tally.connection, seats := p.seats + 1 })

/-- A connection that was let in can be reached by others from now on. -/
def register (p : Pool) (id : Nat) (peer : Socket) : Pool :=
  { p with
    roster := p.roster.register id (.fresh peer Roster.outboxCapacity ((p.session id).snapshot peer))
    meters := { p.meters with connected := p.meters.connected + 1 } }

/-- A connection is over. -/
def leave (p : Pool) (id : Nat) (ip : Ip) : Pool :=
  { p.release ip with
    roster := p.roster.leave id
    meters := { p.meters with connected := p.meters.connected - 1 }
    seats := p.seats - 1 }

/-- Bans an address and asks all its connections to close. Tells how many will notice, or nothing if the
address cannot be banned. -/
def banPeer (p : Pool) (now : Instant) (ip : Ip) : Option Nat × Pool :=
  match p.admission.ban now ip with
  | (false, _) => (none, p)
  | (true, a) =>
    let (closing, roster) := p.roster.killIp ip
    (some closing, { p.count .peerBanned with admission := a, roster := roster })

end Pool
end MiningPool
