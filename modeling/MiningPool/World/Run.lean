import MiningPool.World

/-!
# Runs

Everything that can happen to the pool from outside, as a value. A run is a list of such events, each with
the work source as it is at that time, so a source may change its mind between two events.
-/

namespace MiningPool

open Net Wire

/-- Something that happens to the pool from outside. -/
inductive Event where
  | connect (peer : Socket) (room limit : Option Nat)
  | accept (peer : Socket) (room : Option Nat)
  | send (id : Nat) (bytes : Bytes)
  | finish (id : Nat)
  | vanish (id : Nat)
  | read (id : Nat)
  | push (id : Nat) (m : Message)
  | kill (id : Nat)
  | ban (ip : Ip)
  | askBanned (ip : Ip)
  | sweep
  | tick
  | mint
  | skipSessions (last : Nat)
  | advance (span : Span)
  | shutdown
  | cutOff
  deriving DecidableEq, Repr

namespace World

/-- The world after an event. -/
def step (w : World) (source : Source) : Event → World
  | .connect peer room limit => (w.connect source peer room limit).2
  | .accept peer room => (w.accept source peer room).2
  | .send id bytes => (w.send source id bytes).2
  | .finish id => w.finish source id
  | .vanish id => w.vanish source id
  | .read id => w.read source id
  | .push id m => (w.push source id m).2
  | .kill id => (w.kill source id).2
  | .ban ip => (w.ban source ip).2
  | .askBanned ip => (w.isBanned ip).2
  | .sweep => w.sweep.2
  | .tick => (w.tick source).2
  | .mint => (w.mint source).2
  | .skipSessions last => w.skipSessions last
  | .advance span => w.advance source span
  | .shutdown => w.shutdown source
  | .cutOff => w.cutOff

/-- The world after a run. -/
def run (w : World) (events : List (Source × Event)) : World :=
  events.foldl (fun w e => w.step e.1 e.2) w

/-- What can be reached under some settings, with or without the periodic tasks. -/
def Reachable (settings : Settings) (w : World) : Prop :=
  ∃ tasks events, w = (fresh settings tasks).run events

theorem run_append (w : World) (es fs : List (Source × Event)) : w.run (es ++ fs) = (w.run es).run fs :=
  List.foldl_append

end World
end MiningPool
