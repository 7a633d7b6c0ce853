import MiningPool.Decimal.Shortest
import MiningPool.Json.Value
import MiningPool.Text.Utf8

/-!
# Writing JSON

A value is written without blanks, fields in their order. Within a string only the quote, the backslash
and the characters below U+0020 are escaped, so what is written never holds a line break.
-/

namespace MiningPool.Json

open Decimal

/-- Doubles from `0.00001` up to `10 ^ 16` are written with their point in place. -/
def layout : Layout := ⟨-5, 15⟩

/-- The text of a double. One that is not finite has no number to stand for it. -/
def doubleChars : Binary64 → List Char
  | .finite negative m e => (if negative then ['-'] else []) ++ layout.text (shortest m e)
  | _ => "null".toList

def wholeChars : Int → List Char
  | .ofNat n => Nat.toDigits 10 n
  | .negSucc n => '-' :: Nat.toDigits 10 (n + 1)

def Number.chars : Number → List Char
  | .whole n => wholeChars n
  | .double x => doubleChars x

/-- One character of a string, escaped where it has to be. -/
def escape (c : Char) : List Char :=
  if c = '"' then ['\\', '"']
  else if c = '\\' then ['\\', '\\']
  else if c.toNat = 0x08 then ['\\', 'b']
  else if c.toNat = 0x0C then ['\\', 'f']
  else if c.toNat = 0x0A then ['\\', 'n']
  else if c.toNat = 0x0D then ['\\', 'r']
  else if c.toNat = 0x09 then ['\\', 't']
  else if c.toNat < 0x20 then
    ['\\', 'u', '0', '0', Nat.digitChar (c.toNat / 16), Nat.digitChar (c.toNat % 16)]
  else [c]

/-- A string between its quotes. -/
def quoted (s : List Char) : List Char := '"' :: s.flatMap escape ++ ['"']

namespace Value

mutual

def chars : Value → List Char
  | .null => "null".toList
  | .bool true => "true".toList
  | .bool false => "false".toList
  | .number n => n.chars
  | .string s => quoted s.toList
  | .array [] => ['[', ']']
  | .array (v :: vs) => '[' :: v.chars ++ itemChars vs ++ [']']
  | .object [] => ['\x7b', '\x7d']
  | .object ((k, v) :: fs) => '\x7b' :: quoted k.toList ++ ':' :: v.chars ++ fieldChars fs ++ ['\x7d']

/-- Each further item, after a comma. -/
def itemChars : List Value → List Char
  | [] => []
  | v :: vs => ',' :: v.chars ++ itemChars vs

/-- Each further field, after a comma. -/
def fieldChars : List (String × Value) → List Char
  | [] => []
  | (k, v) :: fs => ',' :: quoted k.toList ++ ':' :: v.chars ++ fieldChars fs

end

/-- The text of a value as a string. -/
def render (v : Value) : String := String.ofList v.chars

def bytes (v : Value) : Bytes := Utf8.encode v.chars

end Value
end MiningPool.Json
