import MiningPool.Decimal.Binary64

/-!
# TOML values

A document is a table. A date or time is only known to be one; what it says is not kept. What looks like a
number but cannot be one is a value like any other, until someone wants to know it.
-/

namespace MiningPool.Toml

open Decimal

inductive Value where
  | text (s : String)
  | whole (n : Int)
  | real (x : Binary64)
  /-- A number beyond 128 bits or beyond the doubles, or one whose digits turn out to be none. -/
  | notKept
  | flag (b : Bool)
  /-- A date, a time, or both. -/
  | moment
  | list (items : List Value)
  | table (fields : List (String × Value))
  deriving Repr, Inhabited

mutual

/-- Whether all numbers in a value are kept. -/
def Value.isKept : Value → Bool
  | .notKept => false
  | .list items => Value.areKept items
  | .table fields => Value.areFieldsKept fields
  | _ => true

/-- Whether all numbers in some values are kept. -/
def Value.areKept : List Value → Bool
  | [] => true
  | v :: rest => v.isKept && Value.areKept rest

/-- Whether all numbers in some fields are kept. -/
def Value.areFieldsKept : List (String × Value) → Bool
  | [] => true
  | (_, v) :: rest => v.isKept && Value.areFieldsKept rest

end

end MiningPool.Toml
