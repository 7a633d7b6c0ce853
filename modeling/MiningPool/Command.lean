import MiningPool.Fault

/-!
# Commands

What a request asks for. Every request is one of five known commands or an unknown one; only the
parameters of a command that reads them are looked at, and only they can be at fault.
-/

namespace MiningPool

open Json Wire

/-! ## Logins -/

/-- The worker's name when a login gives none. -/
def defaultWorker : String := "default"

/-- Splits a login at its first dot into address and worker. A missing or empty worker gets the default
name. -/
def splitLogin (login : String) : String × String :=
  let cs := login.toList
  let address := cs.takeWhile (· ≠ '.')
  match cs.dropWhile (· ≠ '.') with
  | [] | [_] => (String.ofList address, defaultWorker)
  | _ :: worker => (String.ofList address, String.ofList worker)

/-! ## Commands -/

/-- A share as submitted. -/
structure Submission where
  worker : String
  jobId : String
  extranonce2 : String
  ntime : Option String
  nonce : String
  deriving DecidableEq, Repr

/-- What a request asks for. -/
inductive Command where
  | subscribe (software : Option String)
  | authorize (username address worker : String)
  | submit (s : Submission)
  | ping
  | extranonceSubscribe
  | unknown (method : String)
  deriving DecidableEq, Repr

namespace Command

/-- The label a command is counted under. It never repeats what a miner said. -/
def name : Command → String
  | .subscribe _ => Method.subscribe
  | .authorize .. => Method.authorize
  | .submit _ => Method.submit
  | .ping => Method.ping
  | .extranonceSubscribe => Method.extranonceSubscribe
  | .unknown _ => "unknown"

/-- A parameter as text: a string as it is, anything else as its JSON. -/
def paramText : Value → String
  | .string s => s
  | v => v.render

/-- What a value is called when it was expected to be an array. -/
def kindName : Value → String
  | .null => "null"
  | .bool _ => "a boolean"
  | .number _ => "a number"
  | .string _ => "a string"
  | .array _ => "an array"
  | .object _ => "an object"

def params : Value → Except Fault (List Value)
  | .array ps => .ok ps
  | v => .error (.badParams ("params must be an array, got " ++ kindName v))

/-- The software a miner names first, if it names any. -/
def ofSubscribe (ps : List Value) : Command := .subscribe (ps.head?.bind Value.text?)

/-- A login is the first parameter; a password behind it is not looked at. -/
def ofAuthorize (ps : List Value) : Except Fault Command :=
  match ps.head?.bind Value.text? with
  | some login => .ok (.authorize login (splitLogin login).1 (splitLogin login).2)
  | none => .error (.badParams Method.authorize)

/-- A share has four parameters, or more with a time in the fourth place. The nonce is always last. -/
def ofSubmit (ps : List Value) : Except Fault Command :=
  match ps with
  | worker :: job :: extranonce2 :: fourth :: rest =>
    .ok (.submit {
      worker := paramText worker
      jobId := paramText job
      extranonce2 := paramText extranonce2
      ntime := if rest.isEmpty then none else some (paramText fourth)
      nonce := paramText (rest.getLastD fourth) })
  | _ => .error (.badParams Method.submit)

def ofRequest (r : Request) : Except Fault Command :=
  if r.method = Method.subscribe then (params r.params).map ofSubscribe
  else if r.method = Method.authorize then (params r.params).bind ofAuthorize
  else if r.method = Method.submit then (params r.params).bind ofSubmit
  else if r.method = Method.ping then .ok .ping
  else if r.method = Method.extranonceSubscribe then .ok .extranonceSubscribe
  else .ok (.unknown r.method)

end Command
end MiningPool
