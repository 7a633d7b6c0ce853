import MiningPool.Json.Writer
import MiningPool.Text.Utf8

/-!
# Messages

What the two sides say to each other. A miner sends requests. The pool sends responses, which carry the id
of the request they answer, and notifications, whose id is null. Each message is one line of JSON.
-/

namespace MiningPool.Wire

open Json

/-- A miner's request. Its parameters are kept as they came, so that a request with unusable ones can
still be answered under its own id. -/
structure Request where
  id : Value
  method : String
  params : Value
  deriving DecidableEq, Repr, Inhabited

/-- The error of a response: a code, a text, and data if there is any. -/
structure ErrorTriple where
  code : Int
  message : String
  data : Option Value
  deriving DecidableEq, Repr, Inhabited

structure Response where
  id : Value
  result : Value
  error : Option ErrorTriple
  deriving DecidableEq, Repr, Inhabited

/-- Something the pool says unasked. -/
structure Notification where
  id : Value
  method : String
  params : List Value
  deriving DecidableEq, Repr, Inhabited

/-- Anything the pool writes to a miner. -/
inductive Message where
  | response (r : Response)
  | notification (n : Notification)
  deriving DecidableEq, Repr

instance : Inhabited Message := ⟨.response default⟩

/-! ## Names of methods -/

def Method.subscribe : String := "mining.subscribe"
def Method.authorize : String := "mining.authorize"
def Method.submit : String := "mining.submit"
def Method.ping : String := "mining.ping"
def Method.extranonceSubscribe : String := "mining.extranonce.subscribe"
def Method.notify : String := "mining.notify"
def Method.setDifficulty : String := "mining.set_difficulty"

/-! ## Building messages -/

def ErrorTriple.plain (code : Int) (message : String) : ErrorTriple := ⟨code, message, none⟩

/-- The response of a request that went well. -/
def Response.ofResult (id result : Value) : Response := ⟨id, result, none⟩

/-- The response of a request that failed. -/
def Response.ofError (id : Value) (e : ErrorTriple) : Response := ⟨id, .null, some e⟩

/-- A notification has no id to speak of. -/
def Notification.of (method : String) (params : List Value) : Notification := ⟨.null, method, params⟩

def Notification.difficulty (d : Nat) : Notification := .of Method.setDifficulty [Value.ofNat d]

def Message.method? : Message → Option String
  | .response _ => none
  | .notification n => some n.method

/-! ## As JSON -/

def Request.toJson (r : Request) : Value :=
  .object [("id", r.id), ("method", .string r.method), ("params", r.params)]

def ErrorTriple.toJson (e : ErrorTriple) : Value :=
  .array [.number (.whole e.code), .string e.message, e.data.getD .null]

def Response.toJson (r : Response) : Value :=
  .object [("id", r.id), ("result", r.result), ("error", (r.error.map ErrorTriple.toJson).getD .null)]

def Notification.toJson (n : Notification) : Value :=
  .object [("id", n.id), ("method", .string n.method), ("params", .array n.params)]

def Message.toJson : Message → Value
  | .response r => r.toJson
  | .notification n => n.toJson

/-- The line of a value: its text and one line feed. -/
def lineChars (v : Value) : List Char := v.chars ++ ['\n']

def line (v : Value) : String := String.ofList (lineChars v)

def lineBytes (v : Value) : Bytes := Utf8.encode (lineChars v)

/-- The bytes of a message on the wire. -/
def Message.bytes (m : Message) : Bytes := lineBytes m.toJson

end MiningPool.Wire
