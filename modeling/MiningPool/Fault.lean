import MiningPool.Wire.Message

/-!
# Faults

Everything that can go wrong between a miner and the pool. A fault has a text for the log and a triple of
code, message and data for the miner; the triple never repeats what a miner or a work source said.
-/

namespace MiningPool

open Wire

/-- The kinds of transport failure. The first four mean that the peer went away. -/
inductive TransportKind where
  | connectionReset
  | brokenPipe
  | unexpectedEnd
  | connectionAborted
  | other (name : String)
  deriving DecidableEq, Repr

inductive Fault where
  | transport (kind : TransportKind) (text : String)
  | malformed (detail : String)
  | tooLarge (limit : Nat)
  | unknownMethod (method : String)
  | badParams (detail : String)
  | unauthorized
  | unknownJob (id : String)
  | rejected (jobId : String)
  | workSource (detail : String)
  | internal (detail : String)
  deriving DecidableEq, Repr

namespace Fault

def text : Fault → String
  | .transport _ t => "IO Error: " ++ t
  | .malformed d => "Malformed JSON line: " ++ d
  | .tooLarge n => "Request exceeds the " ++ toString n ++ " byte limit"
  | .unknownMethod m => "Unknown method '" ++ m ++ "'"
  | .badParams d => "Invalid params for '" ++ d ++ "'"
  | .unauthorized => "Unauthorized worker"
  | .unknownJob j => "Job '" ++ j ++ "' not found"
  | .rejected j => "Share rejected for job '" ++ j ++ "'"
  | .workSource d => "Work source error: " ++ d
  | .internal d => "Internal Server Error: " ++ d

/-- What a miner is told. -/
def triple : Fault → ErrorTriple
  | .unknownMethod _ => .plain (-32601) "Method not found"
  | .badParams _ => .plain (-1) "Invalid params"
  | .tooLarge _ => .plain (-32600) "Request too large"
  | .malformed _ => .plain (-32700) "Parse error"
  | .unauthorized => .plain 24 "Unauthorized"
  | .unknownJob _ => .plain 21 "Job not found"
  | .rejected _ => .plain 23 "Share rejected"
  | .workSource _ => .plain 20 "Work submission failed"
  | .transport .. | .internal _ => .plain (-32603) "Internal error"

/-- Whether two faults are alike. Of transport failures only the kind counts. -/
def alike : Fault → Fault → Bool
  | .transport k _, .transport k' _ => k == k'
  | a, b => a == b

/-- Whether a fault only says that the peer went away. -/
def peerLeft : Fault → Bool
  | .transport (.other _) _ => false
  | .transport _ _ => true
  | _ => false

end Fault
end MiningPool
