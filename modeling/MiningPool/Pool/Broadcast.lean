import MiningPool.Pool.Basic

/-!
# Broadcasting

Every so often a new job is made and offered to all who are connected. If no one is, nothing is drawn; if no
work can be had, nothing is sent.
-/

namespace MiningPool

/-- What one round of broadcasting came to. -/
inductive Round where
  /-- No one is connected. -/
  | idle
  /-- There was no work. -/
  | skipped
  | delivered (jobId : String) (report : DeliveryReport)
  deriving DecidableEq, Repr

namespace Pool

def mint (source : Source) (p : Pool) : Except Fault Job × Pool :=
  let (made, ledger) := p.ledger.mint source
  (made, { p with ledger := ledger })

def tick (source : Source) (p : Pool) : Round × Pool :=
  if p.roster.size = 0 then (.idle, p)
  else match p.mint source with
    | (.error _, p) => (.skipped, p.count .fetchFailure)
    | (.ok job, p) =>
      let (report, roster) := p.roster.broadcast (.notification job.notification)
      (.delivered job.id report, { p.count .jobBroadcast with tally := p.tally.job, roster := roster })

/-- Lifts the bans that have run out. Tells how many. -/
def sweep (p : Pool) (now : Instant) : Nat × Pool :=
  let (lifted, a) := p.admission.sweep now
  (lifted, { p with admission := a })

end Pool
end MiningPool
