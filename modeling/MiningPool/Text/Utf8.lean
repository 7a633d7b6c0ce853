/-!
# UTF-8

Text travels as bytes. `encode` writes characters and `next?` reads one back; `next?_encodeChar` says that
reading after writing gives the same character and leaves the rest untouched. Overlong forms,
surrogates, numbers above U+10FFFF and cut sequences are refused.
-/

namespace MiningPool

/-- A run of bytes, as it arrives from or leaves for a peer. -/
abbrev Bytes := List UInt8

namespace Utf8

def encode (cs : List Char) : Bytes := cs.flatMap String.utf8EncodeChar

def encodeText (s : String) : Bytes := encode s.toList

/-- The low six bits of a continuation byte, if it is one. -/
def payload? (b : UInt8) : Option Nat :=
  if 0x80 ≤ b.toNat ∧ b.toNat < 0xC0 then some (b.toNat - 0x80) else none

/-- The character numbered `n`, provided it is at least `least` and no surrogate. -/
def char? (least n : Nat) : Option Char :=
  if h : n.isValidChar then
    if least ≤ n then some ⟨n.toUInt32, by
      have : n < 4294967296 := by rcases h with h | h <;> omega
      simpa [UInt32.isValidChar, Nat.toUInt32, Nat.mod_eq_of_lt this] using h⟩
    else none
  else none

/-- The first character of a run of bytes, with what follows it. -/
def next? : Bytes → Option (Char × Bytes)
  | [] => none
  | b :: rest =>
    let n := b.toNat
    if n < 0x80 then (char? 0 n).map (·, rest)
    else if n < 0xC2 then none
    else if n < 0xE0 then
      match rest with
      | b₁ :: rest => do
        let x ← payload? b₁
        let c ← char? 0x80 ((n - 0xC0) * 64 + x)
        some (c, rest)
      | _ => none
    else if n < 0xF0 then
      match rest with
      | b₁ :: b₂ :: rest => do
        let x ← payload? b₁
        let y ← payload? b₂
        let c ← char? 0x800 (((n - 0xE0) * 64 + x) * 64 + y)
        some (c, rest)
      | _ => none
    else if n < 0xF5 then
      match rest with
      | b₁ :: b₂ :: b₃ :: rest => do
        let x ← payload? b₁
        let y ← payload? b₂
        let z ← payload? b₃
        let c ← char? 0x10000 ((((n - 0xF0) * 64 + x) * 64 + y) * 64 + z)
        some (c, rest)
      | _ => none
    else none

/-- A character takes at least one byte. -/
theorem length_lt_of_next? {s : Bytes} {c : Char} {r : Bytes} (h : next? s = some (c, r)) :
    r.length < s.length := by
  cases s with
  | nil => simp [next?] at h
  | cons b rest =>
    simp only [next?] at h
    repeat' split at h
    all_goals simp only [Option.map_eq_some_iff, Option.bind_eq_bind, Option.bind_eq_some_iff,
      Prod.mk.injEq, Option.some.injEq, reduceCtorEq] at h
    all_goals simp only [List.length_cons]
    all_goals grind

/-- The characters of a run of bytes, if all of it is text. -/
def decode? (s : Bytes) : Option (List Char) := go s []
where
  /-- Collects the characters read so far, last first. -/
  go : Bytes → List Char → Option (List Char)
    | [], seen => some seen.reverse
    | b :: rest, seen =>
      match _h : next? (b :: rest) with
      | none => none
      | some (c, r) => go r (c :: seen)
  termination_by s => s.length
  decreasing_by exact length_lt_of_next? _h

/-! ## Reading back what was written -/

theorem char?_self (c : Char) {least : Nat} (h : least ≤ c.val.toNat) :
    char? least c.val.toNat = some c := by
  have hv : c.val.toNat.isValidChar := c.valid
  simp only [char?, hv, h, dite_true, if_true]
  congr 1
  apply Char.ext
  exact UInt32.ofNat_toNat

theorem payload?_ofNat {x : Nat} (h : x < 64) : payload? (UInt8.ofNat (x + 128)) = some x := by
  have : (UInt8.ofNat (x + 128)).toNat = x + 128 := by simp; omega
  simp only [payload?, this]
  rw [if_pos (by omega)]
  simp

/-- **Reading a character after writing it gives it back and leaves the rest.** -/
theorem next?_encodeChar (c : Char) (r : Bytes) :
    next? (String.utf8EncodeChar c ++ r) = some (c, r) := by
  have hv : c.val.toNat < 0x110000 := by
    have h := c.valid
    simp only [UInt32.isValidChar, Nat.isValidChar] at h
    omega
  have hc := fun least (h : least ≤ c.val.toNat) => char?_self c h
  simp only [String.utf8EncodeChar]
  generalize c.val.toNat = v at hv hc ⊢
  have hb : ∀ x, x < 256 → (UInt8.ofNat x).toNat = x := fun x h => by simp; omega
  split
  · simp only [List.cons_append, List.nil_append, next?]
    rw [hb v (by omega), if_pos (by omega), hc 0 (by omega)]
    rfl
  · split
    · simp only [List.cons_append, List.nil_append, next?]
      rw [hb _ (by omega), if_neg (by omega), if_neg (by omega), if_pos (by omega),
        payload?_ofNat (by omega)]
      simp only [Option.bind_eq_bind, Option.bind_some]
      rw [show (v / 64 % 32 + 192 - 192) * 64 + v % 64 = v by omega, hc _ (by omega)]
      rfl
    · split
      · simp only [List.cons_append, List.nil_append, next?]
        rw [hb _ (by omega), if_neg (by omega), if_neg (by omega), if_neg (by omega),
          if_pos (by omega), payload?_ofNat (by omega), payload?_ofNat (by omega)]
        simp only [Option.bind_eq_bind, Option.bind_some]
        rw [show ((v / 4096 % 16 + 224 - 224) * 64 + v / 64 % 64) * 64 + v % 64 = v by omega,
          hc _ (by omega)]
        rfl
      · simp only [List.cons_append, List.nil_append, next?]
        rw [hb _ (by omega), if_neg (by omega), if_neg (by omega), if_neg (by omega),
          if_neg (by omega), if_pos (by omega), payload?_ofNat (by omega),
          payload?_ofNat (by omega), payload?_ofNat (by omega)]
        simp only [Option.bind_eq_bind, Option.bind_some]
        rw [show (((v / 262144 % 8 + 240 - 240) * 64 + v / 4096 % 64) * 64 + v / 64 % 64) * 64
          + v % 64 = v by omega, hc _ (by omega)]
        rfl

end Utf8
end MiningPool
