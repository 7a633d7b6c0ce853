import MiningPool.World

/-!
# Setting up

Before anyone is let in, what the pool needs for its work is made: room for all the jobs it will remember, a seat for
each client, and a timer for each of its periodic tasks. Bans are only looked at if there are limits. None of this can
be had without measure. The measures are those of a machine of 64 bits, and what goes beyond them ends the program.
-/

namespace MiningPool

open Decimal

/-- The most bytes in one piece of memory. -/
def maxBytes : Nat := twoTo 63 - 1

/-- The bytes taken by a remembered job: its number, and where the text of its id is. -/
def bytesPerJob : Nat := 32

/-- The most seats that can be counted. -/
def maxSeats : Nat := twoTo 61 - 1

/-- Something that is made before the work begins. -/
inductive Provision where
  /-- Room for so many jobs. -/
  | history (jobs : Nat)
  /-- Seats for so many clients. -/
  | seats (clients : Nat)
  /-- A timer that goes off once in every period. -/
  | timer (period : Span)
  deriving DecidableEq, Repr

namespace Provision

/-- Whether it can be had. -/
def isAvailable : Provision → Bool
  | .history jobs => bytesPerJob * jobs ≤ maxBytes
  | .seats clients => clients ≤ maxSeats
  | .timer period => 0 < period

def message : Provision → String
  | .history _ => "capacity overflow"
  | .seats _ => "a semaphore may not have more than MAX_PERMITS permits (" ++ toString maxSeats ++ ")"
  | .timer _ => "period must be non-zero"

end Provision

/-- The periods of the tasks that settings call for. -/
def Settings.periods (s : Settings) : List Span :=
  s.mining.broadcastInterval :: if s.policy.enabled then [s.policy.resetInterval] else []

/-- What settings call for, in the order in which it is made. -/
def Settings.provisions (s : Settings) : List Provision :=
  .history s.mining.jobHistory :: .seats s.maxClients :: s.periods.map .timer

namespace World

/-- The pool before its work, with the periodic tasks that settings call for. -/
def ready (s : Settings) : World :=
  { fresh s true with nextSweep := if s.policy.enabled then some s.policy.resetInterval else none }

/-- Sets the pool up, unless something cannot be had. -/
def setUp (s : Settings) : Except Provision World :=
  match s.provisions.find? (!·.isAvailable) with
  | some missing => .error missing
  | none => .ok (ready s)

end World
end MiningPool
