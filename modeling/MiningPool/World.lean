import MiningPool.Connection
import MiningPool.Pool.Broadcast

/-!
# The pool at work

All connections together with the clock and the periodic tasks. Something happens from outside, and then
everyone takes turns until all have to wait. When time passes, each deadline on the way is met at its own
instant. Nothing is forgotten: what reached a miner and which shares went to the work source can be read off
at any time.
-/

namespace MiningPool

open Net Wire

/-- The pool with all its connections, past ones included. -/
structure World where
  pool : Pool
  now : Instant
  /-- In ascending order of ids. -/
  connections : List Connection
  /-- When the next round of broadcasting is due. -/
  nextRound : Option Instant
  /-- When bans are looked at next. -/
  nextSweep : Option Instant
  /-- All shares handed to the work source, the first one first. -/
  handed : List Share
  deriving DecidableEq, Repr

namespace World

/-- Nothing has happened. The periodic tasks run if they are asked for. -/
def fresh (settings : Settings) (tasks : Bool) : World where
  pool := .fresh settings
  now := 0
  connections := []
  nextRound := if tasks then some settings.mining.broadcastInterval else none
  nextSweep := if tasks then some settings.policy.resetInterval else none
  handed := []

def find? (w : World) (id : Nat) : Option Connection := w.connections.find? fun c => c.id = id

def replace (w : World) (c : Connection) : World :=
  { w with connections := w.connections.map fun d => if d.id = c.id then c else d }

/-! ## Taking turns -/

/-- Every connection in turn goes on until it has to wait. -/
def pass (source : Source) (w : World) : World :=
  w.connections.foldl
    (fun w c =>
      let (c, pool, handed) := c.run source w.now w.pool
      { w.replace c with pool := pool, handed := w.handed ++ handed })
    w

/-- Goes on until all have to wait. A connection can only set another one going by a ban, and with that it
is over itself, so one pass for each of them and one more are enough. -/
def settle (source : Source) (w : World) : World :=
  (List.range (w.connections.length + 1)).foldl (fun w _ => w.pass source) w

/-! ## Connections come, speak and go -/

/-- Someone asks to be let in. There may be a limit to the seats. -/
def connect (source : Source) (w : World) (peer : Socket) (room limit : Option Nat) :
    Except Refusal Nat × World :=
  match w.pool.enter w.now peer.ip limit with
  | (.error why, p) => (.error why, { w with pool := p })
  | (.ok id, p) =>
    let c := Connection.fresh p w.now id peer room
    (.ok id, settle source { w with pool := p.register id peer, connections := w.connections ++ [c] })

/-- Someone comes in by way of the listener, which counts everyone and has a seat for each of so many
clients. -/
def accept (source : Source) (w : World) (peer : Socket) (room : Option Nat) : Except Refusal Nat × World :=
  let w := { w with pool := w.pool.count .received }
  match w.connect source peer room (some w.pool.settings.maxClients) with
  | (.error why, w) => (.error why, { w with pool := w.pool.count (.refused why) })
  | (.ok id, w) => (.ok id, w)

/-- Changes a connection and goes on. -/
def change (source : Source) (w : World) (id : Nat) (f : Connection → Connection) : World :=
  match w.find? id with
  | none => w
  | some c => (w.replace (f c)).settle source

/-- A miner sends bytes. Tells whether they got through: no one takes them when the connection is over, or
when the miner has said that it sends no more. -/
def send (source : Source) (w : World) (id : Nat) (bs : Bytes) : Bool × World :=
  match w.find? id with
  | none => (false, w)
  | some c =>
    if bs.isEmpty then (true, w)
    else if c.isOpen && !c.client.finished then
      (true, w.change source id fun c => { c with framer := c.framer.feed bs })
    else (false, w)

/-- A miner sends no more, and still listens. -/
def finish (source : Source) (w : World) (id : Nat) : World :=
  w.change source id fun c => { c with client := { c.client with finished := true } }

/-- A miner is there no more. -/
def vanish (source : Source) (w : World) (id : Nat) : World :=
  w.change source id fun c => { c with client := { c.client with gone := true } }

/-- A slow miner takes all there is for it, and all that comes while it does. -/
def read (source : Source) (w : World) (id : Nat) : World :=
  match w.find? id with
  | none => w
  | some c =>
    let w := w.change source id fun c => { c with client := { c.client.takeAll with room := none } }
    w.change source id fun d => { d with client := { d.client with room := c.client.room } }

/-! ## What others do -/

def push (source : Source) (w : World) (id : Nat) (m : Message) : Bool × World :=
  let (taken, roster) := w.pool.roster.sendTo id m
  (taken, settle source { w with pool := { w.pool with roster := roster } })

def kill (source : Source) (w : World) (id : Nat) : Bool × World :=
  let (noticed, roster) := w.pool.roster.kill id
  (noticed, settle source { w with pool := { w.pool with roster := roster } })

def ban (source : Source) (w : World) (ip : Ip) : Option Nat × World :=
  let (closing, p) := w.pool.banPeer w.now ip
  (closing, settle source { w with pool := p })

def isBanned (w : World) (ip : Ip) : Bool × World :=
  let (banned, a) := w.pool.admission.isBanned w.now ip
  (banned, { w with pool := { w.pool with admission := a } })

def sweep (w : World) : Nat × World :=
  let (lifted, p) := w.pool.sweep w.now
  (lifted, { w with pool := p })

def tick (source : Source) (w : World) : Round × World :=
  let (round, p) := w.pool.tick source
  (round, settle source { w with pool := p })

/-- Makes a job for everyone and tells no one. -/
def mint (source : Source) (w : World) : Except Fault Job × World :=
  let (made, p) := w.pool.mint source
  (made, { w with pool := p })

def skipSessions (w : World) (last : Nat) : World := { w with pool := w.pool.skipSessions last }

/-- Shuts down: those who are connected now are told to close, and the periodic tasks end. -/
def shutdown (source : Source) (w : World) : World :=
  settle source { w with
    connections := w.connections.map fun c => { c with stopping := true }
    nextRound := none
    nextSweep := none }

/-- Cuts off those who are still connected, whatever they are doing. -/
def cutOff (w : World) : World :=
  w.connections.foldl
    (fun w c =>
      if c.isOpen then
        let progress := c.close w.pool none none
        { w.replace progress.connection with pool := progress.pool }
      else w)
    w

/-! ## Time -/

/-- The deadlines that are still to come: those of the periodic tasks, and of every connection that is
not held up by a write. -/
def deadlines (w : World) : List Instant :=
  w.nextRound.toList ++ w.nextSweep.toList ++
    w.connections.filterMap fun c => if c.phase = .waiting then some c.deadline else none

def nextDeadline? (w : World) : Option Instant := (w.deadlines.filter (w.now < ·)).min?

def roundIfDue (source : Source) (w : World) : World :=
  if w.nextRound.any (· ≤ w.now) then
    { (w.tick source).2 with nextRound := some (w.now + w.pool.settings.mining.broadcastInterval) }
  else w

def sweepIfDue (w : World) : World :=
  if w.nextSweep.any (· ≤ w.now) then
    { w.sweep.2 with nextSweep := some (w.now + w.pool.settings.policy.resetInterval) }
  else w

/-- Everything that is due at an instant happens. -/
def meet (source : Source) (w : World) (t : Instant) : World :=
  settle source (sweepIfDue (roundIfDue source { w with now := t }))

def advanceTo (source : Source) (w : World) (t : Instant) : World :=
  match w.nextDeadline? with
  | none => { w with now := max w.now t }
  | some d =>
    if w.now < d ∧ d ≤ t then advanceTo source { w.meet source d with now := d } t
    else { w with now := max w.now t }
termination_by t - w.now
decreasing_by
  rename_i h
  change t - d < t - w.now
  exact Nat.sub_lt_sub_left (Nat.lt_of_lt_of_le h.1 h.2) h.1

def advance (source : Source) (w : World) (span : Span) : World := w.advanceTo source (w.now + span)

/-! ## What there is to see -/

/-- What a stretch of events let a miner receive. -/
def receivedBetween (before after : World) (id : Nat) : Bytes :=
  let seen := (before.find? id).elim 0 (·.client.received.length)
  (after.find? id).elim [] (·.client.received.drop seen)

/-- Which connections ended in a stretch of events, and how. -/
def endedBetween (before after : World) : List (Nat × Option Fault) :=
  after.connections.filterMap fun c =>
    match c.phase with
    | .closed fault => if (before.find? c.id).all (·.isOpen) then some (c.id, fault) else none
    | _ => none

/-- Which shares were handed to the work source in a stretch of events. -/
def handedBetween (before after : World) : List Share := after.handed.drop before.handed.length

end World
end MiningPool
