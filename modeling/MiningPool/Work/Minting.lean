import MiningPool.Work.Ledger

/-!
# Jobs in the making

Several calls may be making jobs on one ledger at the same time. Each draws its number when it starts,
waits for its work, and then stores, shows and remembers its job in steps between which others may go on.
-/

namespace MiningPool

inductive Purpose where
  | everyone
  | session
  deriving DecidableEq, Repr

/-- How far a call has come. -/
inductive Stage where
  | fetching
  | storing (j : Job)
  | showing (j : Job)
  | remembering (j : Job)
  deriving DecidableEq, Repr

/-- A call that is making a job. -/
structure Call where
  number : Nat
  purpose : Purpose
  seq : Nat
  stage : Stage
  deriving DecidableEq, Repr

/-- A ledger with the calls at work on it. -/
structure Minting where
  ledger : Ledger
  started : Nat
  calls : List Call
  /-- How the calls that ended did so, in the order of their end. -/
  ended : List (Nat × Except Fault Job)

namespace Minting

def fresh (l : Ledger) : Minting := ⟨l, 0, [], []⟩

/-- A call starts and draws its number. -/
def start (m : Minting) (purpose : Purpose) : Minting :=
  let (seq, l) := m.ledger.draw
  { m with
    ledger := l
    started := m.started + 1
    calls := m.calls ++ [⟨m.started + 1, purpose, seq, .fetching⟩] }

/-- The work of a number comes in, or its fetch fails and the call ends. -/
def receive (m : Minting) (seq : Nat) (work : Except Fault Template) : Minting :=
  match m.calls.find? fun c => c.seq == seq && c.stage == .fetching with
  | none => m
  | some c =>
    match work with
    | .error e =>
      { m with calls := m.calls.filter (·.seq != seq), ended := m.ended ++ [(c.number, .error e)] }
    | .ok t =>
      { m with
        calls := m.calls.map fun d => if d.seq = seq then { d with stage := .storing (Job.of seq t) } else d }

/-- The call of a number takes its next step, if it is not waiting for work. -/
def advance (m : Minting) (seq : Nat) : Minting :=
  let moveTo (l : Ledger) (s : Stage) : Minting :=
    { m with ledger := l, calls := m.calls.map fun d => if d.seq = seq then { d with stage := s } else d }
  let finish (l : Ledger) (c : Call) (j : Job) : Minting :=
    { m with
      ledger := l
      calls := m.calls.filter (·.seq != seq)
      ended := m.ended ++ [(c.number, .ok j)] }
  match m.calls.find? fun c => c.seq == seq with
  | none => m
  | some c =>
    match c.stage, c.purpose with
    | .fetching, _ => m
    | .storing j, _ => moveTo (m.ledger.store j) (.showing j)
    | .showing j, .everyone => moveTo (m.ledger.gauge j) (.remembering j)
    | .showing j, .session => finish (m.ledger.gauge j) c j
    | .remembering j, _ => finish (m.ledger.remember j) c j

/-- The work of a number comes in and its call goes on to its end. -/
def complete (m : Minting) (seq : Nat) (work : Except Fault Template) : Minting :=
  (((m.receive seq work).advance seq).advance seq).advance seq

end Minting

/-! ## A source that can be held back -/

/-- Some fetches wait until they are let go, to succeed or to fail. Of the others some fail. -/
structure Gate where
  failing : List Nat
  held : List Nat
  /-- What was let go before its fetch began. -/
  freed : List (Nat × Bool)

namespace Gate

/-- The fault of a fetch that fails. -/
def noWork (seq : Nat) : Fault := .workSource ("no work for " ++ toString seq)

/-- What a fetch gives that is to succeed or to fail. -/
def outcome (seq : Nat) (ok : Bool) : Except Fault Template :=
  if ok then .ok (Source.derivedTemplate seq) else .error (noWork seq)

/-- Starts a call; its fetch ends at once unless it is held. -/
def start (g : Gate) (m : Minting) (purpose : Purpose) : Minting :=
  let m := m.start purpose
  let seq := m.ledger.lastSeq
  match g.freed.lookup seq with
  | some ok => m.complete seq (outcome seq ok)
  | none => if g.held.contains seq then m else m.complete seq (outcome seq !(g.failing.contains seq))

/-- Lets a held fetch go. Nothing happens if it is not held, or was let go before. -/
def release (g : Gate) (m : Minting) (seq : Nat) (ok : Bool) : Bool × Gate × Minting :=
  if g.held.contains seq then
    (true, { g with held := g.held.filter (· != seq), freed := g.freed ++ [(seq, ok)] },
      m.complete seq (outcome seq ok))
  else (false, g, m)

end Gate
end MiningPool
