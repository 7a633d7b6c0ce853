import MiningPool.Json.Value
import MiningPool.Text.Utf8

/-!
# The words of JSON

Blanks, numbers and strings, read from the front of a run of bytes. A number is first taken apart and only
then valued, and a string can be passed over without being understood: bytes that are no text and lone
surrogates are refused only where the string is kept. Every word takes at least one byte.
-/

namespace MiningPool.Json

open Decimal

/-- Space, tab, line feed, carriage return. -/
def isBlank (b : UInt8) : Bool := b == 0x20 || b == 0x09 || b == 0x0A || b == 0x0D

/-- Drops the blanks in front. -/
def skipBlanks (s : Bytes) : Bytes := s.dropWhile isBlank

theorem length_skipBlanks_le (s : Bytes) : (skipBlanks s).length ≤ s.length :=
  (List.dropWhile_sublist _).length_le

def word? (w : String) (s : Bytes) : Option Bytes :=
  let w := Utf8.encodeText w
  if w.isPrefixOf s then some (s.drop w.length) else none

/-! ## Numbers -/

def digit? (b : UInt8) : Option Nat :=
  if 0x30 ≤ b.toNat ∧ b.toNat ≤ 0x39 then some (b.toNat - 0x30) else none

/-- The digits in front, and what follows them. -/
def digits : Bytes → List Nat × Bytes
  | [] => ([], [])
  | b :: rest =>
    match digit? b with
    | some d =>
      let more := digits rest
      (d :: more.1, more.2)
    | none => ([], b :: rest)

theorem length_digits (s : Bytes) : (digits s).1.length + (digits s).2.length = s.length := by
  induction s with
  | nil => rfl
  | cons b rest ih =>
    simp only [digits]
    split
    · simp only [List.length_cons]
      omega
    · simp

/-- A number taken apart. -/
structure Parts where
  negative : Bool
  whole : List Nat
  fraction : List Nat
  /-- Sign and digits of the power of ten. -/
  power : Option (Bool × List Nat)
  deriving Repr

/-- The digits after a point, at least one; none without a point. -/
def fraction? : Bytes → Option (List Nat × Bytes)
  | [] => some ([], [])
  | b :: rest =>
    if b == 0x2E then
      match digits rest with
      | ([], _) => none
      | r => some r
    else some ([], b :: rest)

/-- Sign and digits after an `e`, at least one digit; none without an `e`. -/
def power? : Bytes → Option (Option (Bool × List Nat) × Bytes)
  | [] => some (none, [])
  | b :: rest =>
    if b == 0x65 || b == 0x45 then
      let (negative, rest) := match rest with
        | c :: rest' => if c == 0x2D then (true, rest') else if c == 0x2B then (false, rest') else (false, rest)
        | [] => (false, [])
      match digits rest with
      | ([], _) => none
      | (ds, r) => some (some (negative, ds), r)
    else some (none, b :: rest)

/-- The digits before the point: at least one, and no zero in front of others. -/
def wholePart? (s : Bytes) : Option (List Nat × Bytes) :=
  match digits s with
  | ([], _) => none
  | (0 :: _ :: _, _) => none
  | r => some r

/-- The number in front, taken apart. -/
def parts? (s : Bytes) : Option (Parts × Bytes) := do
  let (negative, s) := match s with
    | b :: rest => if b == 0x2D then (true, rest) else (false, s)
    | [] => (false, [])
  let (whole, s) ← wholePart? s
  let (fraction, s) ← fraction? s
  let (power, s) ← power? s
  some (⟨negative, whole, fraction, power⟩, s)

/-- Digits become part of the significand as long as it fits 64 bits. -/
def takeSignificand : Nat → List Nat → Nat × List Nat
  | n, [] => (n, [])
  | n, d :: ds => if n * 10 + d < twoTo 64 then takeSignificand (n * 10 + d) ds else (n, d :: ds)

/-- Divides by `10 ^ k`, in steps of `10 ^ 308` while there is something left to divide. -/
def shrink (x : Binary64) (k : Nat) : Binary64 :=
  if k ≤ 308 then x.div (Binary64.ofDecimal false 1 k)
  else if x = Binary64.zero false then x
  else shrink (x.div (Binary64.ofDecimal false 1 308)) (k - 308)
termination_by k
decreasing_by omega

/-- The significand times a power of ten, by one rounded product or by rounded quotients. Too large a
number is refused. -/
def scaled? (significand : Nat) (power : Int) : Option Binary64 :=
  let x := Binary64.ofNat significand
  if power < 0 then some (shrink x power.natAbs)
  else if significand = 0 then some x
  else if power > 308 then none
  else
    let y := x.mul (Binary64.ofDecimal false 1 power)
    if y.isInfinite then none else some y

/-- The value of a power's digits, if it stays below `2 ^ 31`. -/
def powerValue? (ds : List Nat) : Option Nat :=
  let n := ds.foldl (fun n d => n * 10 + d) 0
  if n < twoTo 31 then some n else none

/-- The number meant. Whole numbers of 64 bits stay whole; of the others the significand is kept to 64
bits, and digits beyond it count only by their number. -/
def Parts.value? (p : Parts) : Option Number :=
  let (n, dropped) := takeSignificand 0 p.whole
  if p.fraction.isEmpty && p.power.isNone && dropped.isEmpty then
    if !p.negative then some (.whole n)
    else if n = 0 ∨ n > twoTo 63 then some (.double (Binary64.ofNat n).neg)
    else some (.whole (-n))
  else
    let (m, cut) := takeSignificand n p.fraction
    let shift : Int := dropped.length - (p.fraction.length - cut.length : Nat)
    let magnitude : Option Binary64 :=
      match p.power with
      | none => scaled? m shift
      | some (negative, ds) =>
        match powerValue? ds with
        | some e =>
          let power := if negative then shift - e else shift + e
          scaled? m (max (min power (twoTo 31 - 1)) (-(twoTo 31 : Int)))
        | none => if m = 0 ∨ negative then some (Binary64.zero false) else none
    magnitude.map fun x => .double (if p.negative then x.neg else x)

/-! ## Strings -/

/-- The value of a hexadecimal digit of either case. -/
def hexDigit? (b : UInt8) : Option Nat :=
  let n := b.toNat
  if 0x30 ≤ n ∧ n ≤ 0x39 then some (n - 0x30)
  else if 0x61 ≤ n ∧ n ≤ 0x66 then some (n - 0x57)
  else if 0x41 ≤ n ∧ n ≤ 0x46 then some (n - 0x37)
  else none

def hex4? : Bytes → Option (Nat × Bytes)
  | a :: b :: c :: d :: rest => do
    let w ← hexDigit? a
    let x ← hexDigit? b
    let y ← hexDigit? c
    let z ← hexDigit? d
    some (((w * 16 + x) * 16 + y) * 16 + z, rest)
  | _ => none

/-- The character a letter stands for after a backslash. -/
def shortEscape? (b : UInt8) : Option Char :=
  match b.toNat with
  | 0x22 => some '"'
  | 0x5C => some '\\'
  | 0x2F => some '/'
  | 0x62 => some (Char.ofNat 0x08)
  | 0x66 => some (Char.ofNat 0x0C)
  | 0x6E => some (Char.ofNat 0x0A)
  | 0x72 => some (Char.ofNat 0x0D)
  | 0x74 => some (Char.ofNat 0x09)
  | _ => none

/-- The character numbered after `\u`. A first surrogate needs a second one right behind it. -/
def longEscape? (s : Bytes) : Option (Char × Bytes) := do
  let (n, s) ← hex4? s
  if n < 0xD800 ∨ 0xE000 ≤ n then some (Char.ofNat n, s)
  else if 0xDC00 ≤ n then none
  else match s with
    | a :: b :: s =>
      if a == 0x5C && b == 0x75 then do
        let (m, s) ← hex4? s
        if 0xDC00 ≤ m ∧ m < 0xE000 then
          some (Char.ofNat (0x10000 + (n - 0xD800) * 0x400 + (m - 0xDC00)), s)
        else none
      else none
    | _ => none

/-- The next character of a string, or its closing quote (`none`). -/
def piece? : Bytes → Option (Option Char × Bytes)
  | [] => none
  | b :: rest =>
    if b == 0x22 then some (none, rest)
    else if b == 0x5C then
      match rest with
      | [] => none
      | c :: rest =>
        if c == 0x75 then (longEscape? rest).map fun (c, r) => (some c, r)
        else (shortEscape? c).map fun c => (some c, rest)
    else if b.toNat < 0x20 then none
    else (Utf8.next? (b :: rest)).map fun (c, r) => (some c, r)

theorem length_of_hex4? {s : Bytes} {n : Nat} {r : Bytes} (h : hex4? s = some (n, r)) :
    r.length + 4 = s.length := by
  unfold hex4? at h
  split at h
  · simp only [Option.bind_eq_bind, Option.bind_eq_some_iff, Option.some.injEq, Prod.mk.injEq] at h
    obtain ⟨_, _, _, _, _, _, _, _, _, rfl⟩ := h
    simp
  · simp at h

theorem length_of_longEscape? {s : Bytes} {c : Char} {r : Bytes} (h : longEscape? s = some (c, r)) :
    r.length < s.length := by
  unfold longEscape? at h
  simp only [Option.bind_eq_bind, Option.bind_eq_some_iff, Prod.exists] at h
  obtain ⟨n, t, ht, h⟩ := h
  have hl := length_of_hex4? ht
  split at h
  · simp only [Option.some.injEq, Prod.mk.injEq] at h
    obtain ⟨_, rfl⟩ := h
    omega
  · split at h
    · simp at h
    · split at h
      · split at h
        · simp only [Option.bind_eq_some_iff, Prod.exists] at h
          obtain ⟨m, u, hu, h⟩ := h
          have hl' := length_of_hex4? hu
          split at h
          · simp only [Option.some.injEq, Prod.mk.injEq] at h
            obtain ⟨_, rfl⟩ := h
            simp only [List.length_cons] at hl
            omega
          · simp at h
        · simp at h
      · simp at h

theorem length_lt_of_piece? {s : Bytes} {c : Option Char} {r : Bytes} (h : piece? s = some (c, r)) :
    r.length < s.length := by
  cases s with
  | nil => simp [piece?] at h
  | cons b rest =>
    simp only [piece?] at h
    split at h
    · simp only [Option.some.injEq, Prod.mk.injEq] at h
      obtain ⟨_, rfl⟩ := h
      simp
    · split at h
      · split at h
        · simp at h
        · split at h
          · simp only [Option.map_eq_some_iff, Prod.mk.injEq, Prod.exists] at h
            obtain ⟨c', t, ht, _, rfl⟩ := h
            have := length_of_longEscape? ht
            simp only [List.length_cons]
            omega
          · simp only [Option.map_eq_some_iff, Prod.mk.injEq] at h
            obtain ⟨_, _, _, rfl⟩ := h
            simp only [List.length_cons]
            omega
      · split at h
        · simp at h
        · simp only [Option.map_eq_some_iff, Prod.mk.injEq, Prod.exists] at h
          obtain ⟨c', t, ht, _, rfl⟩ := h
          exact Utf8.length_lt_of_next? ht

/-- The rest of a string after its opening quote, added to the characters seen so far, last first. -/
def textBody? (s : Bytes) (seen : List Char) : Option (String × Bytes) :=
  match _h : piece? s with
  | none => none
  | some (none, r) => some (String.ofList seen.reverse, r)
  | some (some c, r) => textBody? r (c :: seen)
termination_by s.length
decreasing_by exact length_lt_of_piece? _h

theorem length_lt_of_textBody? {s : Bytes} {seen : List Char} {t : String} {r : Bytes}
    (h : textBody? s seen = some (t, r)) : r.length < s.length := by
  fun_induction textBody? s seen with
  | case1 => simp at h
  | case2 s seen u hu =>
    simp only [Option.some.injEq, Prod.mk.injEq] at h
    obtain ⟨_, rfl⟩ := h
    exact length_lt_of_piece? hu
  | case3 s seen c u hu ih => exact Nat.lt_trans (ih h) (length_lt_of_piece? hu)

def text? : Bytes → Option (String × Bytes)
  | [] => none
  | b :: rest => if b == 0x22 then textBody? rest [] else none

/-- Passes over one character of a string, or its closing quote (`true`), looking only at escapes. -/
def passPiece? : Bytes → Option (Bool × Bytes)
  | [] => none
  | b :: rest =>
    if b == 0x22 then some (true, rest)
    else if b == 0x5C then
      match rest with
      | [] => none
      | c :: rest =>
        if c == 0x75 then (hex4? rest).map fun (_, r) => (false, r)
        else (shortEscape? c).map fun _ => (false, rest)
    else if b.toNat < 0x20 then none
    else some (false, rest)

theorem length_lt_of_passPiece? {s : Bytes} {e : Bool} {r : Bytes} (h : passPiece? s = some (e, r)) :
    r.length < s.length := by
  cases s with
  | nil => simp [passPiece?] at h
  | cons b rest =>
    simp only [passPiece?] at h
    split at h
    · simp only [Option.some.injEq, Prod.mk.injEq] at h
      obtain ⟨_, rfl⟩ := h
      simp
    · split at h
      · split at h
        · simp at h
        · split at h
          · simp only [Option.map_eq_some_iff, Prod.mk.injEq, Prod.exists] at h
            obtain ⟨n, t, ht, _, rfl⟩ := h
            have := length_of_hex4? ht
            simp only [List.length_cons]
            omega
          · simp only [Option.map_eq_some_iff, Prod.mk.injEq] at h
            obtain ⟨_, _, _, rfl⟩ := h
            simp only [List.length_cons]
            omega
      · split at h
        · simp at h
        · simp only [Option.some.injEq, Prod.mk.injEq] at h
          obtain ⟨_, rfl⟩ := h
          simp

/-- Passes over the rest of a string after its opening quote. -/
def passBody? (s : Bytes) : Option Bytes :=
  match _h : passPiece? s with
  | none => none
  | some (true, r) => some r
  | some (false, r) => passBody? r
termination_by s.length
decreasing_by exact length_lt_of_passPiece? _h

theorem length_lt_of_passBody? {s : Bytes} {r : Bytes} (h : passBody? s = some r) :
    r.length < s.length := by
  fun_induction passBody? s with
  | case1 => simp at h
  | case2 s u hu =>
    simp only [Option.some.injEq] at h
    subst h
    exact length_lt_of_passPiece? hu
  | case3 s u hu ih => exact Nat.lt_trans (ih h) (length_lt_of_passPiece? hu)

/-! ## Numbers take at least one byte -/

theorem length_lt_of_wholePart? {s : Bytes} {ds : List Nat} {r : Bytes}
    (h : wholePart? s = some (ds, r)) : r.length < s.length := by
  have hl := length_digits s
  unfold wholePart? at h
  split at h
  · simp at h
  · simp at h
  · rename_i hne _
    simp only [Option.some.injEq] at h
    rw [h] at hl hne
    cases ds with
    | nil => exact (hne r rfl).elim
    | cons d ds => simp only [List.length_cons] at hl; omega

theorem length_le_of_fraction? {s : Bytes} {ds : List Nat} {r : Bytes}
    (h : fraction? s = some (ds, r)) : r.length ≤ s.length := by
  cases s with
  | nil => simp_all [fraction?]
  | cons b rest =>
    have hl := length_digits rest
    simp only [fraction?] at h
    split at h
    · split at h
      · simp at h
      · simp only [Option.some.injEq] at h
        rw [h] at hl
        simp only [List.length_cons]
        simp only at hl
        omega
    · simp only [Option.some.injEq, Prod.mk.injEq] at h
      obtain ⟨_, rfl⟩ := h
      exact Nat.le_refl _

theorem length_le_of_power? {s : Bytes} {p : Option (Bool × List Nat)} {r : Bytes}
    (h : power? s = some (p, r)) : r.length ≤ s.length := by
  cases s with
  | nil => simp_all [power?]
  | cons b rest =>
    simp only [power?] at h
    split at h
    · have hsign : ∀ t : Bytes, t.length ≤ rest.length → ∀ n : Bool,
          (match digits t with
            | ([], _) => none
            | (ds, r) => some (some (n, ds), r)) = some (p, r) → r.length ≤ (b :: rest).length := by
        intro t ht n hm
        have hl := length_digits t
        split at hm
        · simp at hm
        · rename_i ds r' hne hd
          simp only [Option.some.injEq, Prod.mk.injEq] at hm
          obtain ⟨_, rfl⟩ := hm
          rw [hd] at hl
          simp only [List.length_cons]
          simp only at hl
          omega
      cases rest with
      | nil => exact hsign [] (by simp) false (by simpa using h)
      | cons c rest' =>
        by_cases hm : c == 0x2D
        · exact hsign rest' (by simp) true (by simpa [hm] using h)
        · by_cases hp : c == 0x2B
          · exact hsign rest' (by simp) false (by simpa [hm, hp] using h)
          · exact hsign (c :: rest') (by simp) false (by simpa [hm, hp] using h)
    · simp only [Option.some.injEq, Prod.mk.injEq] at h
      obtain ⟨_, rfl⟩ := h
      exact Nat.le_refl _

theorem length_lt_of_parts? {s : Bytes} {p : Parts} {r : Bytes} (h : parts? s = some (p, r)) :
    r.length < s.length := by
  have body : ∀ t : Bytes, t.length ≤ s.length → ∀ n : Bool,
      (do
        let (whole, s) ← wholePart? t
        let (fraction, s) ← fraction? s
        let (power, s) ← power? s
        some ((⟨n, whole, fraction, power⟩ : Parts), s)) = some (p, r) → r.length < s.length := by
    intro t ht n hm
    simp only [Option.bind_eq_bind, Option.bind_eq_some_iff, Prod.exists, Option.some.injEq,
      Prod.mk.injEq] at hm
    obtain ⟨_, u, hu, _, v, hv, _, w, hw, _, rfl⟩ := hm
    have := length_lt_of_wholePart? hu
    have := length_le_of_fraction? hv
    have := length_le_of_power? hw
    omega
  cases s with
  | nil => exact body [] (by simp) false h
  | cons b rest =>
    by_cases hb : b == 0x2D
    · exact body rest (by simp) true (by simpa [parts?, hb] using h)
    · exact body (b :: rest) (by simp) false (by simpa [parts?, hb] using h)

end MiningPool.Json
