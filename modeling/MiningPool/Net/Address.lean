import MiningPool.Text.Digits

/-!
# Addresses

A host's address has 32 bits or 128, and a socket adds a port. `Ip.read?` and `Ip.text` are the two ways
between an address and its text. Many texts may stand for one address of 128 bits; the one written has its
longest run of zero groups left out, and its last two groups in the dotted form if it stands for an address
of 32 bits.
-/

namespace MiningPool.Net

inductive Ip where
  | v4 (bits : BitVec 32)
  | v6 (bits : BitVec 128)
  deriving DecidableEq, Repr, Inhabited

structure Socket where
  ip : Ip
  port : BitVec 16
  deriving DecidableEq, Repr, Inhabited

/-- A number made of places in a base, the highest first. -/
def ofPlaces (base : Nat) (ds : List Nat) : Nat := ds.foldl (fun n d => n * base + d) 0

namespace Ip

/-! ## Reading -/

/-- The value of a digit in a base of at most sixteen. -/
def digit? (base : Nat) (c : Char) : Option Nat :=
  let n := if c.isDigit then some (c.toNat - '0'.toNat)
    else if 'a' ≤ c ∧ c ≤ 'f' then some (c.toNat - 'a'.toNat + 10)
    else if 'A' ≤ c ∧ c ≤ 'F' then some (c.toNat - 'A'.toNat + 10)
    else none
  n.filter (· < base)

/-- The number in front, of all the digits that stand there, but at least one and no more than `most`. -/
def number? (base most : Nat) (s : List Char) : Option (Nat × List Char) :=
  let ds := s.takeWhile fun c => (digit? base c).isSome
  if ds.isEmpty ∨ ds.length > most then none
  else some (ofPlaces base (ds.filterMap (digit? base)), s.drop ds.length)

/-- A number below 256 in decimal, with no zero in front. -/
def octet? (s : List Char) : Option (Nat × List Char) := do
  let (n, r) ← number? 10 3 s
  if n < 256 ∧ (s.head? ≠ some '0' ∨ s.length = r.length + 1) then some (n, r) else none

/-- What follows a character. -/
def after? (c : Char) : List Char → Option (List Char)
  | [] => none
  | d :: r => if d = c then some r else none

/-- The bits of a dotted address in front. -/
def dotted? (s : List Char) : Option (Nat × List Char) := do
  let (a, s) ← octet? s
  let (b, s) ← octet? (← after? '.' s)
  let (c, s) ← octet? (← after? '.' s)
  let (d, s) ← octet? (← after? '.' s)
  some (ofPlaces 256 [a, b, c, d], s)

/-- At most so many groups of 16 bits, with colons between them. A dotted address may stand for the last
two. Whether one did is told too. -/
def groups (start : Bool) : Nat → List Char → List Nat × Bool × List Char
  | 0, s => ([], false, s)
  | left + 1, s =>
    match if start then some s else after? ':' s with
    | none => ([], false, s)
    | some t =>
      match if left = 0 then none else dotted? t with
      | some (n, r) => ([n / 65536, n % 65536], true, r)
      | none =>
        match number? 16 4 t with
        | none => ([], false, s)
        | some (g, r) =>
          let (gs, dotted, r) := groups false left r
          (g :: gs, dotted, r)

/-- The bits of an address of eight groups in front. Two colons stand for as many zero groups as are
missing, at least one. -/
def grouped? (s : List Char) : Option (Nat × List Char) :=
  let (front, dotted, s) := groups true 8 s
  if front.length = 8 then some (ofPlaces 65536 front, s)
  else if dotted then none
  else do
    let s ← after? ':' s
    let s ← after? ':' s
    let (back, _, s) := groups true (7 - front.length) s
    some (ofPlaces 65536 (front ++ List.replicate (8 - front.length - back.length) 0 ++ back), s)

/-- An address in front. -/
def next? (s : List Char) : Option (Ip × List Char) :=
  match dotted? s with
  | some (n, r) => some (.v4 (BitVec.ofNat 32 n), r)
  | none => (grouped? s).map fun (n, r) => (.v6 (BitVec.ofNat 128 n), r)

/-- The address that a text stands for. -/
def read? (s : String) : Option Ip :=
  match next? s.toList with
  | some (ip, []) => some ip
  | _ => none

/-! ## Writing -/

/-- The places of a number in a base, the highest first. -/
def places (base count n : Nat) : List Nat :=
  (List.range count).map fun i => n / Nat.pow base (count - 1 - i) % base

/-- Four numbers with dots between them. -/
def dottedText (n : Nat) : String := ".".intercalate ((places 256 4 n).map toString)

/-- Where the longest run of zeros starts and how long it is; of two, the first. -/
def longestZeros (gs : List Nat) : Nat × Nat :=
  (List.range gs.length).foldl
    (fun best i =>
      let run := ((gs.drop i).takeWhile (· == 0)).length
      if run > best.2 then (i, run) else best)
    (0, 0)

/-- Groups in hexadecimal with colons between them. -/
def groupsText (gs : List Nat) : String := ":".intercalate (gs.map (Text.hex 1))

/-- The text of an address of eight groups. A single zero group is written out. -/
def groupedText (n : Nat) : String :=
  if n / 0x100000000 = 0xFFFF then "::ffff:" ++ dottedText (n % 0x100000000)
  else
    let gs := places 65536 8 n
    let (start, run) := longestZeros gs
    if run > 1 then groupsText (gs.take start) ++ "::" ++ groupsText (gs.drop (start + run)) else groupsText gs

def text : Ip → String
  | .v4 n => dottedText n.toNat
  | .v6 n => groupedText n.toNat

end Ip

namespace Socket

/-- A port, and nothing behind it. -/
def port? (ip : Ip) (s : List Char) : Option Socket := do
  let (n, r) ← Ip.number? 10 s.length s
  if n < 65536 ∧ r.isEmpty then some ⟨ip, BitVec.ofNat 16 n⟩ else none

/-- The socket that a text stands for. An address of eight groups stands in brackets. -/
def read? (s : String) : Option Socket :=
  match s.toList with
  | '[' :: s => do
    let (n, s) ← Ip.grouped? s
    port? (.v6 (BitVec.ofNat 128 n)) (← Ip.after? ':' (← Ip.after? ']' s))
  | s => do
    let (n, s) ← Ip.dotted? s
    port? (.v4 (BitVec.ofNat 32 n)) (← Ip.after? ':' s)

def text (s : Socket) : String :=
  let host := match s.ip with
    | .v4 _ => s.ip.text
    | .v6 _ => "[" ++ s.ip.text ++ "]"
  host ++ ":" ++ toString s.port.toNat

end Socket
end MiningPool.Net
