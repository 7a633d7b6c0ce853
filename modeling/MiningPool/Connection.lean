import MiningPool.Pool.Route
import MiningPool.Wire.Framing
import MiningPool.Wire.Reading

/-!
# Connections

One miner's connection as a machine that takes one turn at a time. When it has nothing to write it looks, in
this order, for a shutdown, for being asked to close, for a message that waits for it, for the next line of
its miner, and for having heard nothing for too long. It is the only one to write to its miner, and while a
write does not go through it does nothing else, so lines never mix.

A reply is written in one piece with what follows it. Only when a share's answer has been written is the
share reported to admission, which may ban the address.
-/

namespace MiningPool

open Json Net Wire

/-! ## The miner's end -/

/-- The miner's end of a connection. -/
structure Client where
  /-- How many bytes fit on the way to it, unless it takes all at once. -/
  room : Option Nat
  /-- Bytes on the way to it. -/
  underway : Bytes
  /-- All bytes that have reached it. -/
  received : Bytes
  /-- Whether it sends no more. -/
  finished : Bool
  /-- Whether it is there no more. -/
  gone : Bool
  deriving DecidableEq, Repr

namespace Client

def fresh (room : Option Nat) : Client := ⟨room, [], [], false, false⟩

/-- Writes as many bytes as fit and gives back the others. -/
def write (c : Client) (bs : Bytes) : Bytes × Client :=
  match c.room with
  | none => ([], { c with received := c.received ++ bs })
  | some n =>
    let k := n - c.underway.length
    (bs.drop k, { c with underway := c.underway ++ bs.take k })

/-- It takes what is under way. -/
def takeAll (c : Client) : Client := { c with received := c.received ++ c.underway, underway := [] }

end Client

/-! ## The machine -/

/-- What is left to do when a write has gone through. -/
inductive Afterwards where
  | nothing
  /-- A share was counted, and admission has to hear of it. -/
  | report (accepted : Bool)
  deriving DecidableEq, Repr

inductive Phase where
  | waiting
  | writing (left : Bytes) (afterwards : Afterwards)
  /-- It is over, by a fault or not. -/
  | closed (fault : Option Fault)
  deriving DecidableEq, Repr

/-- One miner's connection. -/
structure Connection where
  id : Nat
  peer : Socket
  session : Session
  framer : Framer
  phase : Phase
  /-- When it will have heard nothing for too long. -/
  deadline : Instant
  /-- Whether it was told that the pool shuts down. -/
  stopping : Bool
  client : Client
  deriving DecidableEq, Repr

structure Progress where
  connection : Connection
  pool : Pool
  /-- The share that was handed to the work source, if one was. -/
  handed : Option Share

inductive Turn where
  | waits (c : Connection)
  | acts (progress : Progress)

namespace Connection

def fresh (p : Pool) (now : Instant) (id : Nat) (peer : Socket) (room : Option Nat) : Connection where
  id := id
  peer := peer
  session := p.session id
  framer := .fresh
  phase := .waiting
  deadline := now + p.settings.mining.idleTimeout
  stopping := false
  client := .fresh room

def isOpen (c : Connection) : Bool :=
  match c.phase with
  | .closed _ => false
  | _ => true

/-- How writing to a miner that is gone fails. -/
def brokenPipe : Fault := .transport .brokenPipe "broken pipe"

/-- It is over, and gives back what it held. -/
def close (p : Pool) (c : Connection) (fault : Option Fault) (handed : Option Share) : Progress :=
  ⟨{ c with phase := .closed fault }, p.leave c.id c.peer.ip, handed⟩

def banPeer (now : Instant) (p : Pool) (c : Connection) : Progress :=
  c.close (p.banPeer now c.peer.ip).2 none none

def write (c : Connection) (bs : Bytes) (afterwards : Afterwards) : Connection :=
  { c with phase := .writing bs afterwards }

/-- The kind of the share that was counted between two states of a session. -/
def shareBetween (before after : Session) : Afterwards :=
  if after.validShares > before.validShares then .report true
  else if after.invalidShares > before.invalidShares then .report false
  else .nothing

/-- A request is carried out. What is shown of the session is renewed before anything is written. -/
def serve (source : Source) (p : Pool) (c : Connection) (r : Request) : Progress :=
  let o := p.answer source c.session r
  let p := { o.pool with roster := o.pool.roster.publish c.id (o.session.snapshot c.peer) }
  let c' := { c with session := o.session }
  ⟨c'.write ((o.messages r.id).flatMap Message.bytes) (shareBetween c.session o.session), p, o.handed⟩

/-- A line that is no request. Only one that is too large is answered, and not if it leads to a ban. -/
def complain (now : Instant) (p : Pool) (c : Connection) (fault : Fault) : Progress :=
  let p := p.count .malformedLine
  let (verdict, a) := p.admission.recordMalformed c.peer.ip
  let p := { p with admission := a }
  match verdict, fault with
  | .banned, _ => c.banPeer now p
  | .allowed, .tooLarge _ =>
    let answer : Message := .response (.ofError .null fault.triple)
    ⟨c.write answer.bytes .nothing, p, none⟩
  | .allowed, _ => ⟨c, p, none⟩

def receive (source : Source) (now : Instant) (p : Pool) (c : Connection) (item : Inbound Request) :
    Progress :=
  let c := { c with deadline := now + p.settings.mining.idleTimeout }
  match item with
  | .message r => c.serve source p r
  | .faulty fault => c.complain now p fault

/-- A write has gone through. -/
def wrote (now : Instant) (p : Pool) (c : Connection) : Afterwards → Progress
  | .nothing => ⟨{ c with phase := .waiting }, p, none⟩
  | .report accepted =>
    let (verdict, a) := p.admission.recordShare c.peer.ip accepted
    let p := { p with admission := a }
    match verdict with
    | .allowed => ⟨{ c with phase := .waiting }, p, none⟩
    | .banned => c.banPeer now p

def flush (now : Instant) (p : Pool) (c : Connection) (left : Bytes) (afterwards : Afterwards) : Turn :=
  if c.client.gone then .acts (c.close p (some brokenPipe) none)
  else
    let (left, client) := c.client.write left
    let c := { c with client := client, phase := .writing left afterwards }
    if left.isEmpty then .acts (c.wrote now p afterwards) else .waits c

/-- The next line of its miner, if there is one. -/
def nextLine (p : Pool) (c : Connection) : Option (Inbound Request) × Framer :=
  let limit := p.settings.mining.maxRequestSize
  if c.client.finished || c.client.gone then c.framer.nextAtEnd limit Request.read?
  else c.framer.next limit Request.read?

def listen (source : Source) (now : Instant) (p : Pool) (c : Connection) : Turn :=
  match c.nextLine p with
  | (some item, framer) => .acts ({ c with framer := framer }.receive source now p item)
  | (none, framer) =>
    let c := { c with framer := framer }
    if c.client.finished || c.client.gone || c.deadline ≤ now then .acts (c.close p none none) else .waits c

def turn (source : Source) (now : Instant) (p : Pool) (c : Connection) : Turn :=
  match c.phase with
  | .closed _ => .waits c
  | .writing left afterwards => c.flush now p left afterwards
  | .waiting =>
    if c.stopping || p.roster.mustClose c.id then .acts (c.close p none none)
    else match p.roster.take c.id with
      | (.message m, roster) => .acts ⟨c.write m.bytes .nothing, { p with roster := roster }, none⟩
      | _ => c.listen source now p

/-- No more turns than this can follow one another before the connection has to wait: two for each message
that waits and each line, and two to end. -/
def patience (p : Pool) (c : Connection) : Nat :=
  let waiting := (p.roster.get? c.id).elim 0 (·.outbox.waiting.length)
  2 * (waiting + c.framer.weight) + 3

/-- Takes turns until it has to wait, or so many have been taken. -/
def turns (source : Source) (now : Instant) :
    Nat → Pool → Connection → List Share → Connection × Pool × List Share
  | 0, p, c, handed => (c, p, handed)
  | n + 1, p, c, handed =>
    match c.turn source now p with
    | .waits c => (c, p, handed)
    | .acts progress =>
      turns source now n progress.pool progress.connection (handed ++ progress.handed.toList)

/-- Takes turns until it has to wait. Tells which shares were handed to the work source. -/
def run (source : Source) (now : Instant) (p : Pool) (c : Connection) : Connection × Pool × List Share :=
  c.turns source now (c.patience p) p []

end Connection
end MiningPool
