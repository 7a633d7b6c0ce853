import MiningPool.Fault
import MiningPool.Text.Utf8

/-!
# Lines out of a byte stream

`items` says what a stream means: it is cut at line feeds, a segment over the limit is one fault, a blank
segment is nothing, and any other is read without the blanks around it.

`Framer` finds the same items while the stream arrives in pieces. It holds the bytes not yet used, how far
they have been searched, and whether they belong to a line already reported as too large. It never looks
further than one byte past the limit, so what it holds between calls is bounded by the limit.
-/

namespace MiningPool.Wire

/-- What one line came to. -/
inductive Inbound (α : Type) where
  | message (a : α)
  | faulty (f : Fault)
  deriving DecidableEq, Repr

def lineFeed : UInt8 := 0x0A

/-- The most bytes a line may have when nothing else is said. -/
def defaultLimit : Nat := 1024

/-- ASCII white space: tab, line feed, form feed, carriage return and space. -/
def isSpace (b : UInt8) : Bool := b == 0x20 || b == 0x09 || b == 0x0A || b == 0x0C || b == 0x0D

/-- Without the white space at both ends. -/
def trim (s : Bytes) : Bytes := ((s.dropWhile isSpace).reverse.dropWhile isSpace).reverse

/-! ## What a stream means -/

/-- A line in itself: nothing if blank, else a message or a fault. -/
def readLine {α : Type} (read : Bytes → Option α) (line : Bytes) : Option (Inbound α) :=
  let line := trim line
  if line.isEmpty then none
  else match read line with
    | some a => some (.message a)
    | none => some (.faulty (.malformed "no such message"))

/-- A segment of the stream: a line, unless it is too large. -/
def readSegment {α : Type} (limit : Nat) (read : Bytes → Option α) (segment : Bytes) :
    Option (Inbound α) :=
  if segment.length > limit then some (.faulty (.tooLarge limit)) else readLine read segment

/-- The segments of a stream, the unended last one included. -/
def segments (stream : Bytes) : List Bytes := stream.splitOn lineFeed

/-- The items of a stream, in order. -/
def items {α : Type} (limit : Nat) (read : Bytes → Option α) (stream : Bytes) : List (Inbound α) :=
  (segments stream).filterMap (readSegment limit read)

/-! ## Finding the items as the bytes arrive -/

/-- The state of the search for lines. -/
structure Framer where
  /-- Bytes not yet used. -/
  buffer : Bytes
  /-- How many of them are known to hold no line feed. -/
  searched : Nat
  /-- Whether they belong to a line already reported as too large. -/
  discarding : Bool
  deriving DecidableEq, Repr

namespace Framer

def fresh : Framer := ⟨[], 0, false⟩

instance : Inhabited Framer := ⟨fresh⟩

def feed (f : Framer) (chunk : Bytes) : Framer := { f with buffer := f.buffer ++ chunk }

/-- What one look at the buffer led to. -/
inductive Look (α : Type) where
  | found (item : Inbound α) (next : Framer)
  | starved (next : Framer)
  /-- Bytes were dropped, and there may be more to see. -/
  | again (next : Framer)

variable {α : Type}

/-- One look at the buffer, no further than one byte past the limit. -/
def look (limit : Nat) (read : Bytes → Option α) (f : Framer) : Look α :=
  let window := f.buffer.take (limit + 1)
  match f.discarding, (window.drop f.searched).findIdx? (· == lineFeed) with
  | true, some i => .again ⟨f.buffer.drop (f.searched + i + 1), 0, false⟩
  | true, none =>
    let rest := f.buffer.drop window.length
    if rest.isEmpty then .starved ⟨rest, 0, true⟩ else .again ⟨rest, 0, true⟩
  | false, some i =>
    let stop := f.searched + i
    let next : Framer := ⟨f.buffer.drop (stop + 1), 0, false⟩
    match readLine read (f.buffer.take stop) with
    | some item => .found item next
    | none => .again next
  | false, none =>
    if window.length > limit then .found (.faulty (.tooLarge limit)) { f with searched := 0, discarding := true }
    else .starved { f with searched := window.length }

theorem length_lt_of_look {limit : Nat} {read : Bytes → Option α} {f g : Framer}
    (h : look limit read f = .again g) : g.buffer.length < f.buffer.length := by
  have hidx : ∀ {i : Nat}, (List.drop f.searched (f.buffer.take (limit + 1))).findIdx? (· == lineFeed)
      = some i → f.searched + i < f.buffer.length := by
    intro i hi
    have h₁ := (List.findIdx?_eq_some_iff_getElem.1 hi).1
    simp only [List.length_drop, List.length_take] at h₁
    omega
  unfold look at h
  simp only at h
  split at h
  · rename_i hi
    have := hidx hi
    simp only [Look.again.injEq] at h
    subst h
    simp only [List.length_drop]
    omega
  · split at h
    · simp at h
    · rename_i hne
      simp only [Look.again.injEq] at h
      subst h
      simp only [List.isEmpty_iff, List.drop_eq_nil_iff, List.length_take] at hne
      simp only [List.length_drop, List.length_take]
      omega
  · rename_i hi
    have := hidx hi
    split at h
    · simp at h
    · simp only [Look.again.injEq] at h
      subst h
      simp only [List.length_drop]
      omega
  · split at h <;> simp at h

/-- The next item of what has arrived, if there is one. -/
def next (limit : Nat) (read : Bytes → Option α) (f : Framer) : Option (Inbound α) × Framer :=
  match _h : look limit read f with
  | .found item g => (some item, g)
  | .starved g => (none, g)
  | .again g => next limit read g
termination_by f.buffer.length
decreasing_by exact length_lt_of_look _h

/-- How much a framer has left to say: two for each byte, and one more unless it is discarding. Reporting
a line as too large uses no byte, but can happen only once before one is used. -/
def weight (f : Framer) : Nat := 2 * f.buffer.length + if f.discarding then 0 else 1

theorem weight_lt_of_found {limit : Nat} {read : Bytes → Option α} {f g : Framer} {item : Inbound α}
    (h : look limit read f = .found item g) : g.weight < f.weight := by
  have hidx : ∀ {i : Nat}, (List.drop f.searched (f.buffer.take (limit + 1))).findIdx? (· == lineFeed)
      = some i → f.searched + i < f.buffer.length := by
    intro i hi
    have h₁ := (List.findIdx?_eq_some_iff_getElem.1 hi).1
    simp only [List.length_drop, List.length_take] at h₁
    omega
  unfold look at h
  simp only at h
  split at h
  · simp at h
  · split at h <;> simp at h
  · rename_i hd hi
    have := hidx hi
    split at h
    · simp only [Look.found.injEq] at h
      obtain ⟨_, rfl⟩ := h
      simp only [weight, hd, List.length_drop, Bool.false_eq_true, if_false]
      omega
    · simp at h
  · rename_i hd hi
    split at h
    · simp only [Look.found.injEq] at h
      obtain ⟨_, rfl⟩ := h
      simp [weight, hd]
    · simp at h

theorem weight_lt_of_next {limit : Nat} {read : Bytes → Option α} {f g : Framer} {item : Inbound α}
    (h : next limit read f = (some item, g)) : g.weight < f.weight := by
  fun_induction next limit read f with
  | case1 f item' g' hf =>
    simp only [Prod.mk.injEq, Option.some.injEq] at h
    obtain ⟨_, rfl⟩ := h
    exact weight_lt_of_found hf
  | case2 => simp at h
  | case3 f g' hf ih =>
    have h₁ := ih h
    have h₂ := length_lt_of_look hf
    simp only [weight] at h₁ ⊢
    split at h₁ <;> split at h₁ <;> split <;> omega

/-- All the items of what has arrived. -/
def drain (limit : Nat) (read : Bytes → Option α) (f : Framer) : List (Inbound α) × Framer :=
  match _h : next limit read f with
  | (none, g) => ([], g)
  | (some item, g) =>
    let more := drain limit read g
    (item :: more.1, more.2)
termination_by f.weight
decreasing_by exact weight_lt_of_next _h

/-- The next item once nothing more will arrive: the last line counts without its line feed. -/
def nextAtEnd (limit : Nat) (read : Bytes → Option α) (f : Framer) : Option (Inbound α) × Framer :=
  match next limit read f with
  | (some item, g) => (some item, g)
  | (none, g) =>
    if g.discarding || g.buffer.isEmpty then (none, fresh)
    else (readLine read g.buffer, fresh)

end Framer
end MiningPool.Wire
