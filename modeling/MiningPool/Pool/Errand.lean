import MiningPool.Pool.Route

/-!
# Requests that have to wait

A login waits for the work of its job and a share for its verdict, and others act meanwhile. `Pool.undertake` is what
there is of a request before it has to wait, if it has to, and `Pool.conclude` is the rest of it once the work source
has answered. `Pool.answer` is both with nothing in between.
-/

namespace MiningPool

open Wire

/-- What the work source is asked for. -/
inductive Await where
  /-- The work of a number, for the job of a login. -/
  | work (seq : Nat)
  /-- Whether it accepts a share. -/
  | verdict (x : Share)
  deriving DecidableEq, Repr

/-- The share that the work source was handed with the question, if it was one of that kind. -/
def Await.handed : Await → Option Share
  | .work _ => none
  | .verdict x => some x

/-- How far a request gets at once. -/
inductive Undertaking where
  | done (o : Outcome)
  /-- It has to wait. -/
  | waits (s : Session) (a : Await) (p : Pool)

/-- The pool, as far as it has come. -/
def Undertaking.pool : Undertaking → Pool
  | .done o => o.pool
  | .waits _ _ p => p

/-- The share that was handed to the work source so far, if one was. -/
def Undertaking.handed : Undertaking → Option Share
  | .done o => o.handed
  | .waits _ a _ => a.handed

namespace Pool

/-- A login needs work, and a share that meets no objection needs to be judged. All else is done at once. -/
def undertake (source : Source) (p : Pool) (s : Session) (r : Request) : Undertaking :=
  match Command.ofRequest r with
  | .ok (.authorize _ address worker) =>
    let p := p.count (.request Method.authorize)
    let (seq, ledger) := p.ledger.draw
    .waits (s.authorize address worker) (.work seq) { p with ledger := ledger }
  | .ok (.submit x) =>
    let p := p.count (.request Method.submit)
    match p.objection s x.jobId with
    | some _ => .done (p.submit source s x)
    | none => .waits s (.verdict (share s x)) p
  | _ => .done (p.answer source s r)

/-- The work source answers, and the request is carried out to its end. -/
def conclude (source : Source) (p : Pool) (s : Session) : Await → Outcome
  | .work seq =>
    let (job, p) : Option Job × Pool :=
      match source.fetch seq with
      | .error _ => (p.ledger.current, p.count .fetchFailure)
      | .ok t => (some (Job.of seq t), { p with ledger := (p.ledger.store (Job.of seq t)).gauge (Job.of seq t) })
    { reply := .ok { result := .bool true, pushes := job.toList.map Job.notification }
      session := { s with assigned := job <|> s.assigned }
      pool := p
      handed := none }
  | .verdict x =>
    match verdict source x with
    | .ok () =>
      let (s, p) := p.recordShare s true
      ⟨.ok (.ofResult (.bool true)), s, p, some x⟩
    | .error fault =>
      let (s, p) := p.recordShare s false
      ⟨.error fault, s, p, some x⟩

end Pool
end MiningPool
