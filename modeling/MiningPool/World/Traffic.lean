import Mathlib.Logic.Function.Basic
import MiningPool.Pool.Errand
import MiningPool.World

/-!
# Requests under way

In a `World` a request is carried out in one go. But it may have to wait for the work source, and then others act
meanwhile: other connections take turns and make requests of their own, and whatever comes from outside goes on. In
`Traffic` every connection may have one request under way. Its session moves on with the request, and its miner and the
others do not see it before the end. Then what is shown of the session is renewed, and only after that the first byte of
the answer is written.
-/

namespace MiningPool

open Net Wire

/-- How far the request of a connection has come. -/
inductive Errand where
  /-- It waits for the work source. -/
  | waits (request : Request) (session : Session) (await : Await)
  /-- It was carried out, and nothing of it was shown or written yet. -/
  | done (session : Session) (messages : List Message)

/-- The session, as the request has left it so far. -/
def Errand.session : Errand → Session
  | .waits _ s _ => s
  | .done s _ => s

/-- How far a request has come at once. -/
def Errand.ofUndertaking (r : Request) : Undertaking → Errand
  | .done o => .done o.session (o.messages r.id)
  | .waits s a _ => .waits r s a

/-- A world with the requests under way in it. A connection that is at a request keeps the session from before until
the end, to tell what was counted. -/
structure Traffic where
  world : World
  errands : Nat → Option Errand

namespace Traffic

/-- No request is under way. -/
def still (w : World) : Traffic := ⟨w, fun _ => none⟩

/-- The session of a connection as it is now. -/
def session (t : Traffic) (c : Connection) : Session := (t.errands c.id).elim c.session Errand.session

/-- A connection has read a request and sets about it. -/
def undertake (source : Source) (t : Traffic) (c : Connection) (framer : Framer) (r : Request) : Traffic :=
  let w := t.world
  let u := w.pool.undertake source c.session r
  let reader := { c with framer := framer, deadline := w.now + w.pool.settings.mining.idleTimeout }
  ⟨{ w.replace reader with pool := u.pool, handed := w.handed ++ u.handed.toList },
    Function.update t.errands c.id (some (.ofUndertaking r u))⟩

/-- The work source answers, and the request of an id is carried out to its end. -/
def conclude (source : Source) (t : Traffic) (id : Nat) : Traffic :=
  match t.errands id with
  | some (.waits r s a) =>
    let o := t.world.pool.conclude source s a
    ⟨{ t.world with pool := o.pool }, Function.update t.errands id (some (.done o.session (o.messages r.id)))⟩
  | _ => t

/-- What is shown of a session is renewed, and then the answer is to be written. -/
def reply (t : Traffic) (id : Nat) : Traffic :=
  match t.errands id, t.world.find? id with
  | some (.done s messages), some c =>
    let p := t.world.pool
    let counted := Connection.shareBetween c.session s
    let answering := { c with session := s }.write (messages.flatMap Message.bytes) counted
    ⟨{ t.world.replace answering with pool := { p with roster := p.roster.publish id (s.snapshot c.peer) } },
      Function.update t.errands id none⟩
  | _, _ => t

end Traffic
end MiningPool
