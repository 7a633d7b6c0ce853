import MiningPool.Text.Digits
import MiningPool.Wire.Message

/-!
# Jobs and shares

A job is work with a number. Its id is the number in at least six digits, so two jobs have the same id only
if they have the same number. A share is a miner's solution to a job.
-/

namespace MiningPool

open Json Wire

/-- Work as it comes from a source. -/
structure Template where
  header : String
  target : String
  height : Nat
  deriving DecidableEq, Repr, Inhabited

def jobId (seq : Nat) : String := "job_" ++ Text.decimal 6 seq

/-- A job as it is told to miners. -/
structure Job where
  id : String
  seq : Nat
  header : String
  target : String
  height : Nat
  /-- Whether a miner should drop the jobs before it. -/
  clean : Bool
  deriving DecidableEq, Repr, Inhabited

/-- The job with a number, made of a template. -/
def Job.of (seq : Nat) (t : Template) : Job :=
  ⟨jobId seq, seq, t.header, t.target, t.height, true⟩

/-- How miners are told of a job. -/
def Job.notification (j : Job) : Notification :=
  .of Method.notify
    [.string j.id, .string j.header, .string j.target, Value.ofNat j.height, .bool j.clean]

/-- A miner's solution to a job. -/
structure Share where
  session : Nat
  address : String
  worker : String
  jobId : String
  extranonce1 : String
  extranonce2 : String
  ntime : Option String
  nonce : String
  difficulty : Nat
  deriving DecidableEq, Repr, Inhabited

end MiningPool
