import MiningPool.Decimal.Binary64

/-!
# JSON values

A value as it was written: an object is a list of fields, in order, and a key may occur again.
`Value.settled` is the value meant: of fields with one key the first place and the last value count, at
every depth. Whole numbers that fit 64 bits, signed or unsigned, stay whole; all others are doubles.
-/

namespace MiningPool.Json

open Decimal

inductive Number where
  /-- A whole number between `-2 ^ 63` and `2 ^ 64 - 1`. -/
  | whole (n : Int)
  | double (x : Binary64)
  deriving DecidableEq, Repr, Inhabited

inductive Value where
  | null
  | bool (b : Bool)
  | number (n : Number)
  | string (s : String)
  | array (items : List Value)
  | object (fields : List (String × Value))
  deriving Repr, Inhabited

namespace Value

mutual

/-- Whether two values are the same. -/
def decEq : (a b : Value) → Decidable (a = b)
  | .null, .null => isTrue rfl
  | .bool a, .bool b => decidable_of_iff (a = b) (by simp)
  | .number a, .number b => decidable_of_iff (a = b) (by simp)
  | .string a, .string b => decidable_of_iff (a = b) (by simp)
  | .array a, .array b => match decEqItems a b with
    | isTrue h => isTrue (by rw [h])
    | isFalse h => isFalse (by simpa using h)
  | .object a, .object b => match decEqFields a b with
    | isTrue h => isTrue (by rw [h])
    | isFalse h => isFalse (by simpa using h)
  | .null, .bool _ | .null, .number _ | .null, .string _ | .null, .array _ | .null, .object _
  | .bool _, .null | .bool _, .number _ | .bool _, .string _ | .bool _, .array _ | .bool _, .object _
  | .number _, .null | .number _, .bool _ | .number _, .string _ | .number _, .array _
  | .number _, .object _
  | .string _, .null | .string _, .bool _ | .string _, .number _ | .string _, .array _
  | .string _, .object _
  | .array _, .null | .array _, .bool _ | .array _, .number _ | .array _, .string _
  | .array _, .object _
  | .object _, .null | .object _, .bool _ | .object _, .number _ | .object _, .string _
  | .object _, .array _ => isFalse (by simp)

/-- Whether two lists of values are the same. -/
def decEqItems : (a b : List Value) → Decidable (a = b)
  | [], [] => isTrue rfl
  | [], _ :: _ | _ :: _, [] => isFalse (by simp)
  | v :: vs, w :: ws => match decEq v w with
    | isFalse h => isFalse (by simp [h])
    | isTrue h => match decEqItems vs ws with
      | isFalse h => isFalse (by simp [h])
      | isTrue h' => isTrue (by rw [h, h'])

/-- Whether two lists of fields are the same. -/
def decEqFields : (a b : List (String × Value)) → Decidable (a = b)
  | [], [] => isTrue rfl
  | [], _ :: _ | _ :: _, [] => isFalse (by simp)
  | (k, v) :: vs, (l, w) :: ws => match decEq v w with
    | isFalse h => isFalse (by simp [h])
    | isTrue h => match decEqFields vs ws with
      | isFalse h => isFalse (by simp [h])
      | isTrue h' => if h'' : k = l then isTrue (by rw [h, h', h'']) else isFalse (by simp [h''])

end

instance : DecidableEq Value := decEq

def ofNat (n : Nat) : Value := .number (.whole n)

/-- The text, if the value is a string. -/
def text? : Value → Option String
  | .string s => some s
  | _ => none

/-- Puts a value under a key: in the place of an earlier field with that key, else at the end. -/
def setField (key : String) (v : Value) : List (String × Value) → List (String × Value)
  | [] => [(key, v)]
  | (k, w) :: rest => if k = key then (k, v) :: rest else (k, w) :: setField key v rest

mutual

/-- The value meant by a value as written. -/
def settled : Value → Value
  | .array items => .array (settledItems items)
  | .object fields => .object (settledFields fields [])
  | v => v

/-- The items meant. -/
def settledItems : List Value → List Value
  | [] => []
  | v :: vs => v.settled :: settledItems vs

/-- The fields meant, added to those already there. -/
def settledFields : List (String × Value) → List (String × Value) → List (String × Value)
  | [], done => done
  | (k, v) :: rest, done => settledFields rest (setField k v.settled done)

end

/-- The last value under a key. -/
def field? (key : String) (fields : List (String × Value)) : Option Value :=
  (fields.reverse.find? fun f => f.1 = key).map (·.2)

end Value
end MiningPool.Json
