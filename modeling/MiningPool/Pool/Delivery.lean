import Mathlib.Logic.Function.Basic
import MiningPool.Pool.Broadcast
import MiningPool.Pool.Route
import MiningPool.Work.Minting

/-!
# Jobs on their way to miners

Two kinds of jobs reach a miner: those made for everyone, which a round of broadcasting puts into its outbox,
and those of its own logins, which are written at once behind the answer. Work takes time to come in, so a
round and any number of logins may wait for theirs at the same time, while connections come and go and write
what waits for them.

A `Delivery` goes through rounds and logins step by step, with other steps between any two of them. There is
one round at a time. A connection that is carrying out a login writes nothing else. `Pool.tick` and
`Pool.jobForLogin` are what comes of a round and of a login when nothing comes between their steps.

A `Line` tells a miner of a job. It is kept together with what else was on its way to the same miner then.
-/

namespace MiningPool

open Net Wire

namespace Delivery

/-- How far a round has come. -/
inductive RoundStage where
  /-- The call of a number is making its job. -/
  | asking (number : Nat)
  /-- The job is offered to the connections of some ids, one after the other. -/
  | offering (job : Job) (ids : List Nat)
  deriving DecidableEq, Repr

/-- How far a login has come. -/
inductive LoginStage where
  | asking (number : Nat)
  /-- It has got the job to push, if there is one, and has not written its answer yet. -/
  | holding (job : Option Job)
  deriving DecidableEq, Repr

/-- A line that tells a miner of a job. -/
structure Line where
  message : Message
  /-- Whether it belongs to the answer to a login. -/
  byLogin : Bool
  /-- What waited in the miner's outbox when it was written. -/
  waiting : List Message
  /-- The number of the job that a round was still to bring to the miner. -/
  toCome : Option Nat
  deriving DecidableEq, Repr

end Delivery

open Delivery

/-- Jobs in the making, and what became of those that were made. -/
structure Delivery where
  minting : Minting
  roster : Roster
  round : Option RoundStage
  logins : Nat → Option LoginStage
  /-- What was written to each miner of jobs since it is connected, in order. -/
  lines : Nat → List Line

namespace Delivery

def fresh (l : Ledger) : Delivery := ⟨.fresh l, .empty, none, fun _ => none, fun _ => []⟩

/-- What waits to be written to a miner. -/
def waiting (d : Delivery) (id : Nat) : List Message := (d.roster.get? id).elim [] (·.outbox.waiting)

/-- The number of the job that the round is still to bring to a miner. -/
def toCome (d : Delivery) (id : Nat) : Option Nat :=
  match d.round with
  | none => none
  | some (.asking number) => some number
  | some (.offering job ids) => if id ∈ ids then some job.seq else none

/-- Whether a connection looks for something to do. -/
def isFree (d : Delivery) (id : Nat) : Bool := (d.logins id).isNone && !d.roster.mustClose id

def write (d : Delivery) (id : Nat) (byLogin : Bool) (m : Message) : Delivery :=
  { d with lines := Function.update d.lines id (d.lines id ++ [⟨m, byLogin, d.waiting id, d.toCome id⟩]) }

/-! ## Connections -/

def join (d : Delivery) (id : Nat) (peer : Socket) (snapshot : Snapshot) : Delivery :=
  { d with
    roster := d.roster.register id (.fresh peer Roster.outboxCapacity snapshot)
    logins := Function.update d.logins id none
    lines := Function.update d.lines id [] }

/-- A connection is over. The call of a login that was under way may go on. -/
def leave (d : Delivery) (id : Nat) : Delivery :=
  { d with roster := d.roster.leave id, logins := Function.update d.logins id none }

/-- A connection writes what waits for it, one message at a time. -/
def forward (d : Delivery) (id : Nat) : Delivery :=
  if d.isFree id then
    match d.roster.take id with
    | (.message m, roster) => { d with roster := roster }.write id false m
    | _ => d
  else d

/-! ## Rounds -/

/-- A round begins, if anyone is connected. -/
def beginRound (d : Delivery) : Delivery :=
  if d.round.isNone && d.roster.size != 0 then
    { d with minting := d.minting.start .everyone, round := some (.asking (d.minting.started + 1)) }
  else d

/-- The call of the round has ended. Its job is to be offered to all who are connected now. -/
def gather (d : Delivery) : Delivery :=
  match d.round with
  | some (.asking number) =>
    match d.minting.ended.lookup number with
    | some (.ok job) => { d with round := some (.offering job d.roster.ids) }
    | some (.error _) => { d with round := none }
    | none => d
  | _ => d

/-- The job of the round is offered to the next connection, or the round is over. -/
def offer (d : Delivery) : Delivery :=
  match d.round with
  | some (.offering job (id :: ids)) =>
    { d with
      roster := (d.roster.offer id (.notification job.notification)).2
      round := some (.offering job ids) }
  | some (.offering _ []) => { d with round := none }
  | _ => d

/-! ## Logins -/

/-- A miner logs in. -/
def beginLogin (d : Delivery) (id : Nat) : Delivery :=
  if d.isFree id then
    { d with
      minting := d.minting.start .session
      logins := Function.update d.logins id (some (.asking (d.minting.started + 1))) }
  else d

/-- The call of a login has ended. If there was no work, the login gets the current job. -/
def resolve (d : Delivery) (id : Nat) : Delivery :=
  match d.logins id with
  | some (.asking number) =>
    match d.minting.ended.lookup number with
    | some (.ok job) => { d with logins := Function.update d.logins id (some (.holding (some job))) }
    | some (.error _) =>
      { d with logins := Function.update d.logins id (some (.holding d.minting.ledger.current)) }
    | none => d
  | _ => d

/-- The answer to a login is written, with its job behind it. -/
def answer (d : Delivery) (id : Nat) : Delivery :=
  match d.logins id with
  | some (.holding (some job)) =>
    { d with logins := Function.update d.logins id none }.write id true (.notification job.notification)
  | some (.holding none) => { d with logins := Function.update d.logins id none }
  | _ => d

/-! ## Runs -/

inductive Move where
  | join (id : Nat) (peer : Socket) (snapshot : Snapshot)
  | leave (id : Nat)
  | forward (id : Nat)
  | beginRound
  | gather
  | offer
  | beginLogin (id : Nat)
  | resolve (id : Nat)
  | answer (id : Nat)
  /-- The work of a number comes in, or its fetch fails. -/
  | receive (seq : Nat) (work : Except Fault Template)
  /-- The call of a number takes its next step. -/
  | advance (seq : Nat)

/-- A move that cannot be made now changes nothing. -/
def step (d : Delivery) : Move → Delivery
  | .join id peer snapshot => d.join id peer snapshot
  | .leave id => d.leave id
  | .forward id => d.forward id
  | .beginRound => d.beginRound
  | .gather => d.gather
  | .offer => d.offer
  | .beginLogin id => d.beginLogin id
  | .resolve id => d.resolve id
  | .answer id => d.answer id
  | .receive seq work => { d with minting := d.minting.receive seq work }
  | .advance seq => { d with minting := d.minting.advance seq }

def run (d : Delivery) (moves : List Move) : Delivery := moves.foldl step d

end Delivery
end MiningPool
