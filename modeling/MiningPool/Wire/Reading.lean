import MiningPool.Json.Reader
import MiningPool.Wire.Message

/-!
# Reading messages

A request may be an object or an array of its places. Of an object's fields only `id`, `method` and
`params` are kept, each at most once; the rest is passed over unread. What is missing has a default: a null
id, an empty method, no parameters.

A message from the pool may be read as well. It is a response if it can be one, else a notification.
-/

namespace MiningPool.Wire

open Json

/-- The depth left for what stands inside the outermost bracket. -/
def innerDepth : Nat := maxDepth - 1

/-- The one value under a key: `some none` if there is none, `none` if there are several. -/
def sole? (key : String) (fields : List (String × Value)) : Option (Option Value) :=
  match fields.filter fun f => f.1 == key with
  | [] => some none
  | [f] => some (some f.2)
  | _ => none

/-! ## Requests -/

/-- Whether a request keeps a field. -/
def Request.keeps (key : String) : Bool := key == "id" || key == "method" || key == "params"

/-- The parameters meant: null stands for none. -/
def Request.paramsOf : Option Value → Value
  | none | some .null => .array []
  | some v => v.settled

/-- A request from the values of its places. A method that is no string is refused. -/
def Request.ofPlaces? (id method params : Option Value) : Option Request :=
  let id := (id.getD .null).settled
  let params := paramsOf params
  match method with
  | none => some ⟨id, "", params⟩
  | some (.string m) => some ⟨id, m, params⟩
  | some _ => none

def Request.ofFields? (fields : List (String × Value)) : Option Request := do
  let id ← sole? "id" fields
  let method ← sole? "method" fields
  let params ← sole? "params" fields
  ofPlaces? id method params

/-- A request from the items of an array; the last places may be missing. -/
def Request.ofItems? : List Value → Option Request
  | [] => ofPlaces? none none none
  | [id] => ofPlaces? (some id) none none
  | [id, method] => ofPlaces? (some id) (some method) none
  | [id, method, params] => ofPlaces? (some id) (some method) (some params)
  | _ => none

/-- Reads a field's value if it is kept, and passes over it otherwise. -/
def Request.fieldReader (key : String) : Reader (Option Value) :=
  if keeps key then (keep innerDepth).map some else skip.map fun _ => none

def keptFields (fields : List (String × Option Value)) : List (String × Value) :=
  fields.filterMap fun f => f.2.map fun v => (f.1, v)

/-- The request that fills a line. -/
def Request.read? (s : Bytes) : Option Request :=
  match skipBlanks s with
  | [] => none
  | b :: rest =>
    if b == 0x7B then
      (atEnd (Reader.objectBody fieldReader rest)).bind fun fields => ofFields? (keptFields fields)
    else if b == 0x5B then (atEnd (Reader.arrayBody (keep innerDepth) rest)).bind ofItems?
    else none

/-! ## Messages of the pool -/

/-- The error triple of a value: exactly three places, the first a whole number of 64 bits. -/
def ErrorTriple.ofValue? : Value → Option ErrorTriple
  | .array [.number (.whole code), .string message, data] =>
    if -(twoTo 63 : Int) ≤ code ∧ code < twoTo 63 then
      some ⟨code, message, match data with
        | .null => none
        | v => some v.settled⟩
    else none
  | _ => none

/-- The error of a response, null or missing standing for none. -/
def Response.errorOf? : Option Value → Option (Option ErrorTriple)
  | none | some .null => some none
  | some v => (ErrorTriple.ofValue? v).map some

def Response.ofValue? : Value → Option Response
  | .object fields => do
    let id ← sole? "id" fields
    let result ← sole? "result" fields
    let error ← sole? "error" fields
    some ⟨(← id).settled, (← result).settled, ← errorOf? error⟩
  | .array [id, result, error] => do
    some ⟨id.settled, result.settled, ← errorOf? (some error)⟩
  | _ => none

/-- A notification from the values of its places. -/
def Notification.ofPlaces? (id : Value) : Value → Value → Option Notification
  | .string method, .array params => some ⟨id.settled, method, Value.settledItems params⟩
  | _, _ => none

def Notification.ofValue? : Value → Option Notification
  | .object fields => do
    let id ← sole? "id" fields
    let method ← sole? "method" fields
    let params ← sole? "params" fields
    ofPlaces? (← id) (← method) (← params)
  | .array [id, method, params] => ofPlaces? id method params
  | _ => none

def Message.ofValue? (v : Value) : Option Message :=
  match Response.ofValue? v with
  | some r => some (.response r)
  | none => (Notification.ofValue? v).map .notification

/-- The message that fills a line. -/
def Message.read? (s : Bytes) : Option Message := (Value.read? s).bind Message.ofValue?

end MiningPool.Wire
