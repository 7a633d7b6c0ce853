import MiningPool.Net.Address
import MiningPool.Work.Job

/-!
# Sessions

What is known of one miner for as long as its connection lasts. That it has subscribed or logged in is never
taken back. A `Snapshot` is the part of it that is shown to others.
-/

namespace MiningPool

open Net

/-- A session's own part of the nonce space: its id in eight hexadecimal digits. -/
def extranonce1 (id : Nat) : String := Text.hex 8 id

structure Session where
  id : Nat
  extranonce1 : String
  extranonce2Size : Nat
  subscribed : Bool
  authorized : Bool
  /-- The address of its last login. -/
  address : String
  worker : String
  difficulty : Nat
  /-- What it said it runs. -/
  software : Option String
  /-- The job it was last given for itself. -/
  assigned : Option Job
  validShares : Nat
  invalidShares : Nat
  deriving DecidableEq, Repr, Inhabited

/-- What others see of a session. -/
structure Snapshot where
  id : Nat
  peer : Socket
  extranonce1 : String
  subscribed : Bool
  authorized : Bool
  address : String
  worker : String
  difficulty : Nat
  software : Option String
  validShares : Nat
  invalidShares : Nat
  deriving DecidableEq, Repr, Inhabited

namespace Session

def fresh (id extranonce2Size difficulty : Nat) : Session where
  id := id
  extranonce1 := MiningPool.extranonce1 id
  extranonce2Size := extranonce2Size
  subscribed := false
  authorized := false
  address := ""
  worker := ""
  difficulty := difficulty
  software := none
  assigned := none
  validShares := 0
  invalidShares := 0

/-- It subscribes. What it runs is kept from before if it does not say. -/
def subscribe (s : Session) (software : Option String) : Session :=
  { s with subscribed := true, software := software <|> s.software }

def authorize (s : Session) (address worker : String) : Session :=
  { s with address := address, worker := worker, authorized := true }

/-- A share of it was judged. -/
def recordShare (s : Session) (accepted : Bool) : Session :=
  if accepted then { s with validShares := s.validShares + 1 }
  else { s with invalidShares := s.invalidShares + 1 }

def snapshot (s : Session) (peer : Socket) : Snapshot where
  id := s.id
  peer := peer
  extranonce1 := s.extranonce1
  subscribed := s.subscribed
  authorized := s.authorized
  address := s.address
  worker := s.worker
  difficulty := s.difficulty
  software := s.software
  validShares := s.validShares
  invalidShares := s.invalidShares

end Session
end MiningPool
