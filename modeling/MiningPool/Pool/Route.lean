import MiningPool.Command
import MiningPool.Pool.Basic

/-!
# Carrying out commands

What a command does to its miner's session and to the pool, and what the miner is told. A reply has a result
and messages that follow it at once; a command that fails has a fault instead. A share is handed to the work
source only if the submit policy has nothing against it.
-/

namespace MiningPool

open Json Wire

/-- What is said to a command that went well. -/
structure Reply where
  result : Value
  /-- What follows at once, in order. -/
  pushes : List Notification
  deriving DecidableEq, Repr

/-- A result with nothing behind it. -/
def Reply.ofResult (v : Value) : Reply := ⟨v, []⟩

structure Outcome where
  reply : Except Fault Reply
  session : Session
  pool : Pool
  /-- The share that was handed to the work source, if one was. -/
  handed : Option Share

namespace Pool

/-- A share was judged: it is counted for the session and for the pool. -/
def recordShare (p : Pool) (s : Session) (accepted : Bool) : Session × Pool :=
  (s.recordShare accepted, { p.count (.share accepted) with tally := p.tally.share accepted })

/-- A miner subscribes and learns its part of the nonce space and its difficulty. -/
def subscribe (p : Pool) (s : Session) (software : Option String) : Outcome :=
  let s := { s.subscribe software with difficulty := p.ledger.difficulty }
  let id : Value := .string (toString s.id)
  let topics : Value :=
    .array [.array [.string Method.notify, id], .array [.string Method.setDifficulty, id]]
  { reply := .ok {
      result := .array [topics, .string s.extranonce1, .ofNat s.extranonce2Size]
      pushes := [.difficulty s.difficulty] }
    session := s
    pool := p
    handed := none }

/-- The job of a login: one of its own, or the current one if no work can be had. -/
def jobForLogin (source : Source) (p : Pool) : Option Job × Pool :=
  let (made, ledger) := p.ledger.mintForSession source
  let p := { p with ledger := ledger }
  match made with
  | .ok j => (some j, p)
  | .error _ => (p.ledger.current, p.count .fetchFailure)

/-- A miner logs in and gets a job, if there is one. -/
def authorize (source : Source) (p : Pool) (s : Session) (address worker : String) : Outcome :=
  let s := s.authorize address worker
  let (job, p) := p.jobForLogin source
  { reply := .ok { result := .bool true, pushes := job.toList.map Job.notification }
    session := { s with assigned := job <|> s.assigned }
    pool := p
    handed := none }

/-- Whether a job is good for a share: it is remembered, or it is the session's own and still live. -/
def knowsJob (p : Pool) (s : Session) (id : String) : Bool :=
  (s.assigned.any fun j => j.id == id && p.ledger.isLive j) || p.ledger.isKnown id

/-- What the submit policy has against a share. -/
def objection (p : Pool) (s : Session) (id : String) : Option Fault :=
  match p.settings.mining.submitPolicy with
  | .lenient => none
  | .strict =>
    if !s.authorized then some .unauthorized
    else if !p.knowsJob s id then some (.unknownJob id)
    else none

def share (s : Session) (x : Submission) : Share where
  session := s.id
  address := s.address
  worker := x.worker
  jobId := x.jobId
  extranonce1 := s.extranonce1
  extranonce2 := x.extranonce2
  ntime := x.ntime
  nonce := x.nonce
  difficulty := s.difficulty

/-- Whether the work source accepts a share, or the fault to report instead. -/
def verdict (source : Source) (x : Share) : Except Fault Unit :=
  match source.judge x with
  | .ok true => .ok ()
  | .ok false => .error (.rejected x.jobId)
  | .error e => .error (.workSource e.text)

def submit (source : Source) (p : Pool) (s : Session) (x : Submission) : Outcome :=
  match p.objection s x.jobId with
  | some fault =>
    let (s, p) := p.recordShare s false
    ⟨.error fault, s, p, none⟩
  | none =>
    let handed := share s x
    match verdict source handed with
    | .ok () =>
      let (s, p) := p.recordShare s true
      ⟨.ok (.ofResult (.bool true)), s, p, some handed⟩
    | .error fault =>
      let (s, p) := p.recordShare s false
      ⟨.error fault, s, p, some handed⟩

def route (source : Source) (p : Pool) (s : Session) (c : Command) : Outcome :=
  let p := p.count (.request c.name)
  match c with
  | .subscribe software => p.subscribe s software
  | .authorize _ address worker => p.authorize source s address worker
  | .submit x => p.submit source s x
  | .ping => ⟨.ok (.ofResult (.string "pong")), s, p, none⟩
  | .extranonceSubscribe => ⟨.ok (.ofResult (.bool true)), s, p, none⟩
  | .unknown method => ⟨.error (.unknownMethod method), s, p, none⟩

/-- Carries out a request. One that is no command changes nothing. -/
def answer (source : Source) (p : Pool) (s : Session) (r : Request) : Outcome :=
  match Command.ofRequest r with
  | .ok c => p.route source s c
  | .error fault => ⟨.error fault, s, p, none⟩

end Pool

/-- What a miner is told: the reply under the request's own id, and what follows it. -/
def Outcome.messages (o : Outcome) (id : Value) : List Message :=
  match o.reply with
  | .ok reply => .response (.ofResult id reply.result) :: reply.pushes.map .notification
  | .error fault => [.response (.ofError id fault.triple)]

end MiningPool
