import MiningPool.Work.Source

/-!
# The ledger of jobs

Numbers are drawn one after the other and never again. The newest job is current, whatever the order in
which fetches end. Jobs made for everyone are also remembered, the last `capacity` of them in the order in
which they were made; a job made for one miner is not, so a login never pushes a job out.

Making a job takes several steps: `draw` a number, fetch its work, `store` the job, set the `gauge`, and
`remember` it if it is for everyone. Steps of different jobs may come in any order; `mint` and
`mintForSession` take them all at once.
-/

namespace MiningPool

/-- What is known of the jobs made so far. -/
structure Ledger where
  difficulty : Nat
  /-- How many jobs for everyone are remembered, at least one. -/
  capacity : Nat
  lastSeq : Nat
  current : Option Job
  /-- Numbers and ids of the last jobs for everyone, oldest first. -/
  recent : List (Nat × String)
  /-- The height shown for the newest job. -/
  shownHeight : Nat
  deriving DecidableEq, Repr

namespace Ledger

/-- No job has been made. A history of nothing still remembers one job. -/
def fresh (difficulty history : Nat) : Ledger :=
  ⟨difficulty, max history 1, 0, none, [], 0⟩

def draw (l : Ledger) : Nat × Ledger := (l.lastSeq + 1, { l with lastSeq := l.lastSeq + 1 })

/-- A job becomes current unless a newer one is. -/
def store (l : Ledger) (j : Job) : Ledger :=
  match l.current with
  | some c => if c.seq < j.seq then { l with current := some j } else l
  | none => { l with current := some j }

def gauge (l : Ledger) (j : Job) : Ledger := { l with shownHeight := j.height }

/-- Remembers a job for everyone; the oldest gives way when the history is full. -/
def remember (l : Ledger) (j : Job) : Ledger :=
  let kept := if l.recent.length = l.capacity then l.recent.drop 1 else l.recent
  { l with recent := kept ++ [(j.seq, j.id)] }

/-- Makes a job for one miner. If its fetch fails, only the number is used up. -/
def mintForSession (source : Source) (l : Ledger) : Except Fault Job × Ledger :=
  let (seq, l) := l.draw
  match source.fetch seq with
  | .error e => (.error e, l)
  | .ok t =>
    let j := Job.of seq t
    (.ok j, (l.store j).gauge j)

def mint (source : Source) (l : Ledger) : Except Fault Job × Ledger :=
  match l.mintForSession source with
  | (.error e, l) => (.error e, l)
  | (.ok j, l) => (.ok j, l.remember j)

/-- Whether an id is that of a remembered job. -/
def isKnown (l : Ledger) (id : String) : Bool := l.recent.any fun r => r.2 == id

/-- Whether a job is not older than every remembered one, or the history is not full yet. -/
def isLive (l : Ledger) (j : Job) : Bool :=
  l.recent.length < l.capacity ||
    match l.recent.head? with
    | none => true
    | some oldest => oldest.1 ≤ j.seq

end Ledger
end MiningPool
