import MiningPool.Net.Address
import MiningPool.Toml.Value

/-!
# What stands for itself

Strings in their four forms, numbers, truth values, dates and times. A number, date or other word runs up to
the next character that cannot be part of one, over blanks if more of the kind follows, and then all of it has
to make sense.
-/

namespace MiningPool.Toml

open Decimal

/-! ## Characters -/

/-- A blank within a line. -/
def isSpace (c : Char) : Bool := c = ' ' || c = '\t'

/-- A character that may stand in a comment or, unescaped, in a string. -/
def isPlain (c : Char) : Bool := c = '\t' || (0x20 ≤ c.toNat && c.toNat ≠ 0x7F)

/-- A character of a key without quotes. -/
def isBare (c : Char) : Bool := (c.isAlphanum || c = '_' || c = '-') && c.toNat < 0x80

/-- What follows the blanks. -/
def skipSpaces (s : List Char) : List Char := s.dropWhile isSpace

/-- What follows a line break. -/
def lineBreak? : List Char → Option (List Char)
  | '\n' :: r => some r
  | '\r' :: '\n' :: r => some r
  | _ => none

/-! ## Strings -/

/-- The character that a single letter stands for after a backslash. -/
def shortEscape? (c : Char) : Option Char :=
  if c = 'b' then some '\x08'
  else if c = 't' then some '\t'
  else if c = 'n' then some '\n'
  else if c = 'f' then some '\x0c'
  else if c = 'r' then some '\r'
  else if c = 'e' then some '\x1b'
  else if c = '"' then some '"'
  else if c = '\\' then some '\\'
  else none

/-- The character with a number in hexadecimal. -/
def numbered? (ds : List Char) : Option Char := do
  let n := Net.ofPlaces 16 (← ds.mapM (Net.Ip.digit? 16))
  if n.isValidChar then some (Char.ofNat n) else none

/-- The rest of a string in double quotes on one line. -/
def quoted? (seen : List Char) : List Char → Option (String × List Char)
  | '"' :: r => some (String.ofList seen.reverse, r)
  | '\\' :: 'x' :: a :: b :: r => do quoted? ((← numbered? [a, b]) :: seen) r
  | '\\' :: 'u' :: a :: b :: c :: d :: r => do quoted? ((← numbered? [a, b, c, d]) :: seen) r
  | '\\' :: 'U' :: a :: b :: c :: d :: e :: f :: g :: h :: r => do
    quoted? ((← numbered? [a, b, c, d, e, f, g, h]) :: seen) r
  | '\\' :: c :: r => do quoted? ((← shortEscape? c) :: seen) r
  | c :: r => if isPlain c then quoted? (c :: seen) r else none
  | [] => none

/-- The rest of a string in three double quotes. A backslash at the end of a line takes the line break and
all blanks after it away; `trimming` tells that this is going on. Two of the closing quotes may belong to
the string. -/
def longQuoted? (seen : List Char) (trimming : Bool) : List Char → Option (String × List Char)
  | '"' :: '"' :: '"' :: '"' :: '"' :: r => some (String.ofList ('"' :: '"' :: seen).reverse, r)
  | '"' :: '"' :: '"' :: '"' :: r => some (String.ofList ('"' :: seen).reverse, r)
  | '"' :: '"' :: '"' :: r => some (String.ofList seen.reverse, r)
  | '\\' :: 'x' :: a :: b :: r => do longQuoted? ((← numbered? [a, b]) :: seen) false r
  | '\\' :: 'u' :: a :: b :: c :: d :: r => do longQuoted? ((← numbered? [a, b, c, d]) :: seen) false r
  | '\\' :: 'U' :: a :: b :: c :: d :: e :: f :: g :: h :: r => do
    longQuoted? ((← numbered? [a, b, c, d, e, f, g, h]) :: seen) false r
  | '\r' :: '\n' :: r => longQuoted? (if trimming then seen else '\n' :: '\r' :: seen) trimming r
  | '\\' :: c :: r =>
    match shortEscape? c with
    | some e => longQuoted? (e :: seen) false r
    | none => if (lineBreak? (skipSpaces (c :: r))).isSome then longQuoted? seen true (c :: r) else none
  | c :: r =>
    if trimming && (isSpace c || c = '\n') then longQuoted? seen true r
    else if isPlain c || c = '\n' then longQuoted? (c :: seen) false r
    else none
  | [] => none

/-- The rest of a string in single quotes on one line. -/
def literal? (seen : List Char) : List Char → Option (String × List Char)
  | '\x27' :: r => some (String.ofList seen.reverse, r)
  | c :: r => if isPlain c then literal? (c :: seen) r else none
  | [] => none

/-- The rest of a string in three single quotes. Two of the closing quotes may belong to the string. -/
def longLiteral? (seen : List Char) : List Char → Option (String × List Char)
  | '\x27' :: '\x27' :: '\x27' :: '\x27' :: '\x27' :: r => some (String.ofList ('\x27' :: '\x27' :: seen).reverse, r)
  | '\x27' :: '\x27' :: '\x27' :: '\x27' :: r => some (String.ofList ('\x27' :: seen).reverse, r)
  | '\x27' :: '\x27' :: '\x27' :: r => some (String.ofList seen.reverse, r)
  | '\r' :: '\n' :: r => longLiteral? ('\n' :: '\r' :: seen) r
  | c :: r => if isPlain c || c = '\n' then longLiteral? (c :: seen) r else none
  | [] => none

/-- A string on one line, in either kind of quotes. -/
def shortString? : List Char → Option (String × List Char)
  | '"' :: r => quoted? [] r
  | '\x27' :: r => literal? [] r
  | _ => none

/-- A string in any form. A line break right after three quotes is not part of it. -/
def string? : List Char → Option (String × List Char)
  | '"' :: '"' :: '"' :: r => longQuoted? [] false ((lineBreak? r).getD r)
  | '\x27' :: '\x27' :: '\x27' :: r => longLiteral? [] ((lineBreak? r).getD r)
  | s => shortString? s

/-! ## Numbers -/

/-- Digits in a base with single underscores between them; at least one. -/
def digits? (base : Nat) (cs : List Char) : Option (List Nat) :=
  let groups := cs.splitOn '_'
  if groups.any (·.isEmpty) then none else groups.flatten.mapM (Net.Ip.digit? base)

/-- Digits of which the first is not zero, unless there is only one. -/
def plainDigits? (cs : List Char) : Option (List Nat) :=
  (digits? 10 cs).filter fun ds => ds.head? ≠ some 0 || cs.length = 1

/-- A sign, and what follows it. -/
def sign : List Char → Bool × List Char
  | '-' :: r => (true, r)
  | '+' :: r => (false, r)
  | s => (false, s)

/-- Whole numbers are kept in 128 bits, signed or unsigned. -/
def Value.ofWhole (n : Int) : Value :=
  if -(twoTo 127 : Int) ≤ n ∧ n < twoTo 128 then .whole n else .notKept

/-- A whole number in a base other than ten. There may be no digits at all, and then it is none. -/
def based? (base : Nat) (cs : List Char) : Option Value :=
  if cs.isEmpty then some .notKept else (digits? base cs).map fun ds => .ofWhole (Net.ofPlaces base ds)

/-- Whether a character is the mark of a decimal part or of a power of ten. -/
def isRealMark (c : Char) : Bool := c = '.' || c = 'e' || c = 'E'

/-- Whether a character is a digit in base sixteen. -/
def isAnyDigit (c : Char) : Bool := (Net.Ip.digit? 16 c).isSome

/-- Whether underscores stand between digits: what follows one starts with a digit, and what stands before
one ends with a digit, be it one in base sixteen. -/
def areJoined : List (List Char) → Bool
  | [] => true
  | [last] => last.head?.any isAnyDigit
  | group :: rest => group.head?.any isAnyDigit && group.getLast?.any isAnyDigit && areJoined rest

/-- A whole number in base ten. Behind its first underscore there may be anything but spaces that is joined
by underscores like digits, and if some of it is no digit, the number is none. -/
def decimal? (cs : List Char) : Option Value := do
  let (negative, r) := sign cs
  match r.splitOn '_' with
  | [] => none
  | first :: groups =>
    let leads ← plainDigits? first
    let isStrange (c : Char) : Bool := isRealMark c || c = ' '
    if groups ≠ [] ∧ (leads.head? = some 0 ∨ !areJoined groups ∨ groups.flatten.any isStrange) then none
    else match groups.flatten.mapM (Net.Ip.digit? 10) with
      | none => some .notKept
      | some more =>
        let n : Int := Net.ofPlaces 10 (leads ++ more)
        some (.ofWhole (if negative then -n else n))

def whole? : List Char → Option Value
  | '0' :: 'x' :: r => based? 16 r
  | '0' :: 'o' :: r => based? 8 r
  | '0' :: 'b' :: r => based? 2 r
  | cs => decimal? cs

/-- The power of ten behind the mark of one. -/
def power? (cs : List Char) : Option Int := do
  let (negative, r) := sign cs
  let n : Int := Net.ofPlaces 10 (← digits? 10 r)
  some (if negative then -n else n)

/-- A number with a decimal part, a power of ten, or both. -/
def real? (cs : List Char) : Option Value := do
  let (negative, r) := sign cs
  if r = "inf".toList then some (.real (.infinite negative))
  else if r = "nan".toList then some (.real .nan)
  else
    let isMark (c : Char) : Bool := c = 'e' || c = 'E'
    let mantissa := r.takeWhile fun c => !isMark c
    let power ← match r.dropWhile fun c => !isMark c with
      | [] => if mantissa.contains '.' then some 0 else none
      | _ :: p => power? p
    let whole ← plainDigits? (mantissa.takeWhile (· ≠ '.'))
    let decimal ← match mantissa.dropWhile (· ≠ '.') with
      | [] => some []
      | _ :: d => digits? 10 d
    let x := Binary64.ofDecimal negative (Net.ofPlaces 10 (whole ++ decimal)) (power - decimal.length)
    some (if x.isInfinite then .notKept else .real x)

/-! ## Dates and times -/

/-- So many digits in front. -/
def fixed? (count : Nat) (cs : List Char) : Option (Nat × List Char) :=
  let ds := cs.take count
  if ds.length = count ∧ ds.all Char.isDigit then
    some (Net.ofPlaces 10 (ds.filterMap (Net.Ip.digit? 10)), cs.drop count)
  else none

def daysIn (year month : Nat) : Nat :=
  if month = 2 then if year % 4 = 0 ∧ (year % 100 ≠ 0 ∨ year % 400 = 0) then 29 else 28
  else if month = 4 ∨ month = 6 ∨ month = 9 ∨ month = 11 then 30
  else 31

/-- What follows a date. -/
def date? (cs : List Char) : Option (List Char) := do
  let (year, cs) ← fixed? 4 cs
  let (month, cs) ← fixed? 2 (← Net.Ip.after? '-' cs)
  let (day, cs) ← fixed? 2 (← Net.Ip.after? '-' cs)
  if 1 ≤ month ∧ month ≤ 12 ∧ 1 ≤ day ∧ day ≤ daysIn year month then some cs else none

/-- What follows a time. Seconds may be missing. -/
def time? (cs : List Char) : Option (List Char) := do
  let (hour, cs) ← fixed? 2 cs
  let (minute, cs) ← fixed? 2 (← Net.Ip.after? ':' cs)
  if hour ≤ 23 ∧ minute ≤ 59 then
    match cs with
    | ':' :: cs => do
      let (second, cs) ← fixed? 2 cs
      if second ≤ 60 then
        match cs with
        | '.' :: cs =>
          let rest := cs.dropWhile Char.isDigit
          if rest.length < cs.length then some rest else none
        | _ => some cs
      else none
    | _ => some cs
  else none

/-- Whether a text is an offset from world time, or nothing. -/
def isOffset : List Char → Bool
  | [] => true
  | ['Z'] | ['z'] => true
  | c :: cs =>
    (c = '+' || c = '-') &&
      match do
        let (hour, cs) ← fixed? 2 cs
        let (minute, cs) ← fixed? 2 (← Net.Ip.after? ':' cs)
        some (decide (hour ≤ 23 ∧ minute ≤ 59 ∧ cs = [])) with
      | some ok => ok
      | none => false

/-- A date, a time, or both. -/
def moment? (cs : List Char) : Option Value :=
  match date? cs with
  | some [] => some .moment
  | some (c :: r) =>
    if c = 'T' ∨ c = 't' ∨ c = ' ' then
      match time? r with
      | some r => if isOffset r then some .moment else none
      | none => none
    else none
  | none => if time? cs = some [] then some .moment else none

/-! ## Words -/

/-- Whether a word ends before a character. -/
def endsWord (c : Char) : Bool :=
  isSpace c || ['\n', '\r', ',', '=', '[', ']', '\x7b', '\x7d', '#'].contains c

/-- Whether a character may come first behind a blank within a word. -/
def resumesWord (c : Char) : Bool := !(endsWord c || ['.', '"', '\x27'].contains c)

/-- Takes a word, with as many more words behind blanks, of at most so many. -/
def word : Nat → List Char → List Char × List Char
  | 0, s => ([], s)
  | most + 1, s =>
    let w := s.takeWhile fun c => !endsWord c
    let rest := s.drop w.length
    let blanks := rest.takeWhile isSpace
    let next := rest.drop blanks.length
    if blanks ≠ [] ∧ next.head?.any resumesWord then
      let (more, r) := word most next
      (w ++ blanks ++ more, r)
    else (w, rest)

/-- The value of a word. -/
def ofWord? (w : List Char) : Option Value :=
  if w = "true".toList then some (.flag true)
  else if w = "false".toList then some (.flag false)
  else whole? w <|> real? w <|> moment? w

/-- A value that holds no others. -/
def scalar? (s : List Char) : Option (Value × List Char) :=
  match s with
  | '"' :: _ | '\x27' :: _ => (string? s).map fun (t, r) => (.text t, r)
  | _ => do
    let (w, r) := word (s.length + 1) s
    some (← ofWord? w, r)

end MiningPool.Toml
