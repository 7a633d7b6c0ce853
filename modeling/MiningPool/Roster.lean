import MiningPool.Keyed
import MiningPool.Session

/-!
# The roster

Who is connected, in ascending order of session ids, and what waits to be written to each. An `Outbox` is a
queue of bounded length. What is offered to a full one is dropped, and one whose reader is gone leads to its
entry being removed.

`broadcast` is the same as `sendTo` for every id in ascending order, with the outcomes counted.
-/

namespace MiningPool

open Net Wire

/-! ## Outboxes -/

structure Outbox where
  capacity : Nat
  /-- What waits, the next to be written first. -/
  waiting : List Message
  /-- Whether someone still takes messages out. -/
  isOpen : Bool
  deriving DecidableEq, Repr

/-- What became of a message that was offered. -/
inductive Offer where
  | taken
  | full
  | closed
  deriving DecidableEq, Repr

namespace Outbox

def fresh (capacity : Nat) : Outbox := ⟨capacity, [], true⟩

def offer (o : Outbox) (m : Message) : Offer × Outbox :=
  if !o.isOpen then (.closed, o)
  else if o.waiting.length < o.capacity then (.taken, { o with waiting := o.waiting ++ [m] })
  else (.full, o)

def take (o : Outbox) : Option Message × Outbox :=
  match o.waiting with
  | [] => (none, o)
  | m :: rest => (some m, { o with waiting := rest })

/-- Its reader goes away, and what waited is lost. -/
def close (o : Outbox) : Outbox := { o with waiting := [], isOpen := false }

end Outbox

/-! ## Entries -/

/-- One connection as others reach it. -/
structure Entry where
  peer : Socket
  outbox : Outbox
  snapshot : Snapshot
  /-- Whether someone would notice being asked to close. -/
  listening : Bool
  killed : Bool
  deriving DecidableEq, Repr

def Entry.fresh (peer : Socket) (capacity : Nat) (snapshot : Snapshot) : Entry :=
  ⟨peer, .fresh capacity, snapshot, true, false⟩

/-- How often each outcome came up when one message was offered to all. -/
structure DeliveryReport where
  delivered : Nat
  /-- Those whose outbox was full. -/
  skipped : Nat
  /-- Those found closed, which are connected no more. -/
  removed : Nat
  deriving DecidableEq, Repr, Inhabited

namespace DeliveryReport

def nothing : DeliveryReport := ⟨0, 0, 0⟩

/-- With one more outcome counted. -/
def count (r : DeliveryReport) : Offer → DeliveryReport
  | .taken => { r with delivered := r.delivered + 1 }
  | .full => { r with skipped := r.skipped + 1 }
  | .closed => { r with removed := r.removed + 1 }

end DeliveryReport

/-! ## The roster -/

/-- Who is connected. -/
structure Roster where
  /-- The connected, in ascending order of ids. -/
  entries : Keyed Nat Entry
  /-- Entries that were removed, for as long as someone may still read what waits in them. -/
  former : Keyed Nat Entry
  deriving DecidableEq, Repr

namespace Roster

/-- How many messages may wait for one miner. -/
def outboxCapacity : Nat := 64

def empty : Roster := ⟨[], []⟩

/-- Puts an entry in its place, instead of an earlier one of the same id. -/
def insert (id : Nat) (e : Entry) : Keyed Nat Entry → Keyed Nat Entry
  | [] => [(id, e)]
  | (k, x) :: rest =>
    if id < k then (id, e) :: (k, x) :: rest
    else if id = k then (id, e) :: rest
    else (k, x) :: insert id e rest

def register (r : Roster) (id : Nat) (e : Entry) : Roster :=
  ⟨insert id e r.entries, r.former.erase id⟩

def get? (r : Roster) (id : Nat) : Option Entry := Keyed.get? r.entries id

def contains (r : Roster) (id : Nat) : Bool := (r.get? id).isSome

/-- The ids of the connected, ascending. -/
def ids (r : Roster) : List Nat := r.entries.map (·.1)

def size (r : Roster) : Nat := r.entries.length

/-- Someone is connected no more. What waits can still be read. -/
def deregister (r : Roster) (id : Nat) : Roster :=
  match r.get? id with
  | none => r
  | some e => ⟨r.entries.erase id, (id, e) :: r.former.erase id⟩

/-- The entry of an id, of one that was removed if there is no other. -/
def find? (r : Roster) (id : Nat) : Option Entry := r.get? id <|> Keyed.get? r.former id

/-- Changes the entry of an id, of one that was removed if there is no other. -/
def change (r : Roster) (id : Nat) (f : Entry → Entry) : Roster :=
  if r.contains id then { r with entries := Keyed.change r.entries id f }
  else { r with former := Keyed.change r.former id f }

/-! ## Offering messages -/

/-- Offers a message to one connection, if there is one. One found closed is removed. -/
def offer (r : Roster) (id : Nat) (m : Message) : Option Offer × Roster :=
  match r.get? id with
  | none => (none, r)
  | some e =>
    match e.outbox.offer m with
    | (.closed, _) => (some .closed, r.deregister id)
    | (o, outbox) => (some o, r.change id fun e => { e with outbox := outbox })

/-- Offers a message to one connection and tells whether it was taken. -/
def sendTo (r : Roster) (id : Nat) (m : Message) : Bool × Roster :=
  let (o, r) := r.offer id m
  (o == some .taken, r)

/-- Offers a message to the connections of some ids, one after the other, and counts. -/
def offerAll (m : Message) : List Nat → DeliveryReport × Roster → DeliveryReport × Roster
  | [], done => done
  | id :: rest, (report, r) =>
    let (o, r) := r.offer id m
    offerAll m rest (o.elim report report.count, r)

def broadcast (r : Roster) (m : Message) : DeliveryReport × Roster := offerAll m r.ids (.nothing, r)

/-! ## Asking to close -/

def Entry.askToClose (e : Entry) : Entry := if e.listening then { e with killed := true } else e

/-- Asks one connection to close, and tells whether it will notice. -/
def kill (r : Roster) (id : Nat) : Bool × Roster :=
  match r.get? id with
  | none => (false, r)
  | some e => (e.listening, r.change id Entry.askToClose)

/-- Asks all connections from an address to close, and tells how many will notice. -/
def killIp (r : Roster) (ip : Ip) : Nat × Roster :=
  let concerned (e : Nat × Entry) : Bool := e.2.peer.ip == ip && e.2.listening
  ((r.entries.filter concerned).length,
    { r with entries := r.entries.map fun e => if concerned e then (e.1, { e.2 with killed := true }) else e })

/-- Whether the connection of an id has to close: it was asked to, or it is registered no more. -/
def mustClose (r : Roster) (id : Nat) : Bool := (r.get? id).all (·.killed)

/-! ## The reading end -/

inductive Taken where
  | message (m : Message)
  /-- Nothing now. -/
  | nothing
  /-- Nothing, and nothing will come. -/
  | finished
  /-- There is no such reader. -/
  | noReader
  deriving DecidableEq, Repr

/-- Takes out the next message for an id. -/
def take (r : Roster) (id : Nat) : Taken × Roster :=
  match r.find? id with
  | none => (.noReader, r)
  | some e =>
    if !e.outbox.isOpen then (.noReader, r)
    else match e.outbox.take with
      | (some m, outbox) => (.message m, r.change id fun e => { e with outbox := outbox })
      | (none, _) => (if r.contains id then .nothing else .finished, r)

/-- The reader of an id goes away. -/
def closeOutbox (r : Roster) (id : Nat) : Roster := r.change id fun e => { e with outbox := e.outbox.close }

/-- Whoever would notice being asked to close goes away. -/
def stopListening (r : Roster) (id : Nat) : Roster := r.change id fun e => { e with listening := false }

/-- A connection is over: it is removed, and nobody is left to read. -/
def leave (r : Roster) (id : Nat) : Roster :=
  let r := r.deregister id
  { r with former := r.former.erase id }

/-! ## What is shown -/

def publish (r : Roster) (id : Nat) (s : Snapshot) : Roster := r.change id fun e => { e with snapshot := s }

def sessions (r : Roster) : List Snapshot := r.entries.map (·.2.snapshot)

/-- How many have logged in. -/
def authorizedCount (r : Roster) : Nat := (r.sessions.filter (·.authorized)).length

end Roster
end MiningPool
