import MiningPool.Json.Lexeme
import MiningPool.Json.Writer
import MiningPool.Proofs.Wire.Lines

/-!
# Words that were written are read back

The text of a string, and of a whole number of 64 bits, gives the string or the number when it is read, and leaves
what follows it. For a string whatever follows may be anything. A number does not say where it ends, so what follows
it must not go on with it: `Stops` is what stands behind a value in a text of values.
-/

namespace MiningPool

namespace Utf8

theorem encode_nil : encode [] = [] := rfl

theorem encode_cons (c : Char) (cs : List Char) : encode (c :: cs) = String.utf8EncodeChar c ++ encode cs :=
  List.flatMap_cons

theorem encode_append (cs ds : List Char) : encode (cs ++ ds) = encode cs ++ encode ds := List.flatMap_append

/-- A character of ASCII is one byte. -/
theorem encodeChar_of_lt {c : Char} (h : c.toNat < 0x80) : String.utf8EncodeChar c = [UInt8.ofNat c.toNat] := by
  have hle : c.val.toNat ≤ 0x7F := Nat.le_of_lt_succ h
  simp only [String.utf8EncodeChar, hle, if_true]
  rfl

/-- All bytes of any other character are above ASCII. -/
theorem le_of_mem_encodeChar_of_le {c : Char} (hc : 0x80 ≤ c.toNat) {b : UInt8} (hb : b ∈ String.utf8EncodeChar c) :
    0x80 ≤ b.toNat := by
  have hbyte : ∀ n, n < 256 → (UInt8.ofNat n).toNat = n := fun n h => Nat.mod_eq_of_lt h
  have hnot : ¬ c.val.toNat ≤ 0x7F := Nat.not_le_of_lt hc
  simp only [String.utf8EncodeChar, hnot, if_false] at hb
  split at hb
  · simp only [List.mem_cons, List.not_mem_nil, or_false] at hb
    rcases hb with rfl | rfl <;> rw [hbyte _ (by omega)] <;> omega
  · split at hb
    · simp only [List.mem_cons, List.not_mem_nil, or_false] at hb
      rcases hb with rfl | rfl | rfl <;> rw [hbyte _ (by omega)] <;> omega
    · simp only [List.mem_cons, List.not_mem_nil, or_false] at hb
      rcases hb with rfl | rfl | rfl | rfl <;> rw [hbyte _ (by omega)] <;> omega

end Utf8

namespace Json

open Utf8

/-! ## Strings -/

theorem hexDigit?_digitChar : ∀ d < 16, hexDigit? (UInt8.ofNat (Nat.digitChar d).toNat) = some d := by decide

theorem digitChar_lt : ∀ d < 16, (Nat.digitChar d).toNat < 0x80 := by decide

/-- A character that is not escaped stands for itself. -/
theorem piece?_self {c : Char} (hlow : 0x20 ≤ c.toNat) (hquote : c ≠ '"') (hslash : c ≠ '\\') (r : Bytes) :
    piece? (String.utf8EncodeChar c ++ r) = some (some c, r) := by
  have hnext := next?_encodeChar c r
  obtain ⟨b, bs, hbytes⟩ : ∃ b bs, String.utf8EncodeChar c = b :: bs := by
    cases h : String.utf8EncodeChar c with
    | nil => rw [h] at hnext; exact absurd (length_lt_of_next? hnext) (Nat.lt_irrefl _)
    | cons b bs => exact ⟨b, bs, rfl⟩
  have hmem : b ∈ String.utf8EncodeChar c := hbytes ▸ List.mem_cons_self
  have hctl : ¬ b.toNat < 0x20 := Nat.not_lt.mpr (le_of_mem_encodeChar hlow hmem)
  -- its first byte is above ASCII or the character itself
  have hfirst : ∀ d : Char, d.toNat < 0x80 → c ≠ d → b ≠ UInt8.ofNat d.toNat := by
    rintro d hd hne rfl
    have hbyte : (UInt8.ofNat d.toNat).toNat = d.toNat := Nat.mod_eq_of_lt (by omega)
    by_cases hc : c.toNat < 0x80
    · rw [encodeChar_of_lt hc, List.mem_singleton] at hmem
      have hsame := congrArg UInt8.toNat hmem
      rw [hbyte, show (UInt8.ofNat c.toNat).toNat = c.toNat from Nat.mod_eq_of_lt (by omega)] at hsame
      exact hne (Char.toNat_inj.mp hsame.symm)
    · have hhigh := le_of_mem_encodeChar_of_le (Nat.le_of_not_lt hc) hmem
      omega
  have hquote : (b == 0x22) = false := beq_eq_false_iff_ne.mpr (hfirst '"' (by decide) hquote)
  have hslash : (b == 0x5C) = false := beq_eq_false_iff_ne.mpr (hfirst '\\' (by decide) hslash)
  rw [hbytes, List.cons_append] at hnext ⊢
  simp only [piece?, hquote, hslash, hctl, hnext, Bool.false_eq_true, if_false, Option.map_some]

/-- A character that is escaped by its number. -/
theorem piece?_numbered {n : Nat} (h : n < 0x20) (r : Bytes) :
    piece? (encode ['\\', 'u', '0', '0', Nat.digitChar (n / 16), Nat.digitChar (n % 16)] ++ r)
      = some (some (Char.ofNat n), r) := by
  have hhigh : n / 16 < 16 := by omega
  have hlow : n % 16 < 16 := by omega
  have hbytes : encode ['\\', 'u', '0', '0', Nat.digitChar (n / 16), Nat.digitChar (n % 16)]
      = [0x5C, 0x75, 0x30, 0x30, UInt8.ofNat (Nat.digitChar (n / 16)).toNat,
          UInt8.ofNat (Nat.digitChar (n % 16)).toNat] := by
    rw [encode_cons, encode_cons, encode_cons, encode_cons, encode_cons, encode_cons,
      encodeChar_of_lt (digitChar_lt _ hhigh), encodeChar_of_lt (digitChar_lt _ hlow)]
    rfl
  have hzero : hexDigit? 0x30 = some 0 := by decide
  have hnumber : ((0 * 16 + 0) * 16 + n / 16) * 16 + n % 16 = n := by omega
  have hfour : hex4? (0x30 :: 0x30 :: UInt8.ofNat (Nat.digitChar (n / 16)).toNat
      :: UInt8.ofNat (Nat.digitChar (n % 16)).toNat :: r) = some (n, r) := by
    simp only [hex4?, hzero, hexDigit?_digitChar _ hhigh, hexDigit?_digitChar _ hlow, Option.bind_eq_bind,
      Option.bind_some, hnumber]
  have hlong : longEscape? (0x30 :: 0x30 :: UInt8.ofNat (Nat.digitChar (n / 16)).toNat
      :: UInt8.ofNat (Nat.digitChar (n % 16)).toNat :: r) = some (Char.ofNat n, r) := by
    have hplain : n < 0xD800 ∨ 0xE000 ≤ n := by omega
    simp only [longEscape?, hfour, Option.bind_eq_bind, Option.bind_some, hplain, if_true]
  rw [hbytes]
  have hslash : (0x5C : UInt8) ≠ 0x22 := by decide
  simp [piece?, hlong]

/-- **Whatever is written for a character is read as that character.** -/
theorem piece?_escape (c : Char) (r : Bytes) : piece? (encode (escape c) ++ r) = some (some c, r) := by
  unfold escape
  have hchar : ∀ n, c.toNat = n → c = Char.ofNat n := fun n h => by rw [← h, Char.ofNat_toNat]
  split
  · rename_i h
    subst h
    rfl
  split
  · rename_i h
    subst h
    rfl
  split
  · rename_i h
    rw [hchar _ h]
    rfl
  split
  · rename_i h
    rw [hchar _ h]
    rfl
  split
  · rename_i h
    rw [hchar _ h]
    rfl
  split
  · rename_i h
    rw [hchar _ h]
    rfl
  split
  · rename_i h
    rw [hchar _ h]
    rfl
  split
  · rename_i h
    rw [piece?_numbered h, Char.ofNat_toNat]
  · rename_i hquote hslash _ _ _ _ _ hctl
    rw [encode_cons, encode_nil, List.append_nil]
    exact piece?_self (Nat.le_of_not_lt hctl) hquote hslash r

theorem textBody?_of_piece {s r : Bytes} {c : Char} (h : piece? s = some (some c, r)) (seen : List Char) :
    textBody? s seen = textBody? r (c :: seen) := by
  rw [textBody?]
  split
  · rename_i hnone
    exact absurd (h.symm.trans hnone) (by simp)
  · rename_i hend
    exact absurd (h.symm.trans hend) (by simp)
  · rename_i d t hpiece
    have heq := h.symm.trans hpiece
    simp only [Option.some.injEq, Prod.mk.injEq] at heq
    rw [heq.1, heq.2]

theorem textBody?_written (cs seen : List Char) (r : Bytes) :
    textBody? (encode (cs.flatMap escape) ++ 0x22 :: r) seen = some (String.ofList (seen.reverse ++ cs), r) := by
  induction cs generalizing seen with
  | nil =>
      rw [textBody?]
      have hend : piece? (encode ([].flatMap escape) ++ 0x22 :: r) = some (none, r) := rfl
      split
      · rename_i hnone
        exact absurd (hend.symm.trans hnone) (by simp)
      · rename_i t hpiece
        have heq := hend.symm.trans hpiece
        simp only [Option.some.injEq, Prod.mk.injEq, true_and] at heq
        rw [heq, List.append_nil]
      · rename_i d t hpiece
        exact absurd (hend.symm.trans hpiece) (by simp)
  | cons c cs ih =>
      rw [List.flatMap_cons, encode_append, List.append_assoc, textBody?_of_piece (piece?_escape c _), ih]
      rw [List.reverse_cons, List.append_assoc, List.singleton_append]

/-- **A string that was written is read back**, whatever follows it. -/
theorem text?_quoted (s : String) (r : Bytes) : text? (encode (quoted s.toList) ++ r) = some (s, r) := by
  have hbytes : encode (quoted s.toList) ++ r = 0x22 :: (encode (s.toList.flatMap escape) ++ 0x22 :: r) := by
    rw [quoted, List.cons_append, encode_cons, encode_append]
    simp only [List.append_assoc]
    rfl
  rw [hbytes, text?]
  simp only [beq_self_eq_true, if_true]
  rw [textBody?_written, List.reverse_nil, List.nil_append, String.ofList_toList]

/-! ## Numbers -/

/-- What stands behind a value in a text of values: a comma, a closing bracket, or nothing. -/
def Stops (r : Bytes) : Prop := ∀ b ∈ r.head?, b = 0x2C ∨ b = 0x5D ∨ b = 0x7D

theorem stops_nil : Stops [] := fun _ h => absurd h (by simp)

theorem stops_cons {b : UInt8} (h : b = 0x2C ∨ b = 0x5D ∨ b = 0x7D) (r : Bytes) : Stops (b :: r) := by
  intro c hc
  rw [List.head?_cons, Option.mem_some_iff] at hc
  exact hc ▸ h

theorem Stops.skipBlanks {r : Bytes} (h : Stops r) : skipBlanks r = r := by
  cases r with
  | nil => rfl
  | cons b r => rcases h b rfl with rfl | rfl | rfl <;> rfl

theorem Stops.digits {r : Bytes} (h : Stops r) : digits r = ([], r) := by
  cases r with
  | nil => rfl
  | cons b r => rcases h b rfl with rfl | rfl | rfl <;> rfl

theorem Stops.fraction? {r : Bytes} (h : Stops r) : fraction? r = some ([], r) := by
  cases r with
  | nil => rfl
  | cons b r => rcases h b rfl with rfl | rfl | rfl <;> rfl

theorem Stops.power? {r : Bytes} (h : Stops r) : power? r = some (none, r) := by
  cases r with
  | nil => rfl
  | cons b r => rcases h b rfl with rfl | rfl | rfl <;> rfl

/-- The digits of a number, the highest first. -/
def decimal (n : Nat) : List Nat := (Nat.toDigits 10 n).map fun c => c.toNat - 0x30

theorem decimal_of_lt {n : Nat} (h : n < 10) : decimal n = [n] := by
  rw [decimal, Nat.toDigits_of_lt_base h, List.map_singleton, Nat.toNat_digitChar_of_lt_ten h]
  simp

theorem decimal_of_le {n : Nat} (h : 10 ≤ n) : decimal n = decimal (n / 10) ++ [n % 10] := by
  have hlast : n % 10 < 10 := Nat.mod_lt _ (by decide)
  rw [decimal, Nat.toDigits_of_base_le (by decide) h, List.map_append, List.map_singleton,
    Nat.toNat_digitChar_of_lt_ten hlast, Nat.add_sub_cancel_left]
  rfl

/-- No zero stands in front of other digits. -/
theorem decimal_head (n : Nat) (h : 0 < n) : ∃ d ds, decimal n = (d + 1) :: ds := by
  induction n using Nat.strongRecOn with
  | ind n ih =>
      rcases Nat.lt_or_ge n 10 with hlt | hge
      · exact ⟨n - 1, [], by rw [decimal_of_lt hlt, Nat.sub_add_cancel h]⟩
      · obtain ⟨d, ds, hds⟩ := ih (n / 10) (by omega) (by omega)
        exact ⟨d, ds ++ [n % 10], by rw [decimal_of_le hge, hds, List.cons_append]⟩

theorem takeSignificand_append {a b : Nat} {ds : List Nat} (h : takeSignificand a ds = (b, [])) (es : List Nat) :
    takeSignificand a (ds ++ es) = takeSignificand b es := by
  induction ds generalizing a with
  | nil =>
      simp only [takeSignificand, Prod.mk.injEq, and_true] at h
      rw [h, List.nil_append]
  | cons d ds ih =>
      rw [List.cons_append, takeSignificand] at *
      split at h
      · rename_i hfits
        rw [if_pos hfits]
        exact ih h
      · simp at h

/-- Digits of a number of 64 bits are all taken. -/
theorem takeSignificand_decimal {n : Nat} (h : n < twoTo 64) : takeSignificand 0 (decimal n) = (n, []) := by
  induction n using Nat.strongRecOn with
  | ind n ih =>
      rcases Nat.lt_or_ge n 10 with hlt | hge
      · simp only [decimal_of_lt hlt, takeSignificand, Nat.zero_mul, Nat.zero_add, h, if_true]
      · have hfirst := ih (n / 10) (by omega) (by omega)
        have hall : n / 10 * 10 + n % 10 = n := by omega
        rw [decimal_of_le hge, takeSignificand_append hfirst]
        simp only [takeSignificand, hall, h, if_true]

theorem digit?_of_isDigit {c : Char} (h : c.isDigit = true) :
    String.utf8EncodeChar c = [UInt8.ofNat c.toNat] ∧ digit? (UInt8.ofNat c.toNat) = some (c.toNat - 0x30) := by
  rw [Char.isDigit, Bool.and_eq_true, decide_eq_true_iff, decide_eq_true_iff, ge_iff_le, UInt32.le_iff_toNat_le,
    UInt32.le_iff_toNat_le] at h
  have hlow : 0x30 ≤ c.toNat := h.1
  have hhigh : c.toNat ≤ 0x39 := h.2
  have hbyte : (UInt8.ofNat c.toNat).toNat = c.toNat := Nat.mod_eq_of_lt (by omega)
  refine ⟨encodeChar_of_lt (by omega), ?_⟩
  rw [digit?, hbyte, if_pos ⟨hlow, hhigh⟩]

theorem digits_encode {cs : List Char} (hcs : ∀ c ∈ cs, c.isDigit = true) {r : Bytes} (hr : Stops r) :
    digits (encode cs ++ r) = (cs.map fun c => c.toNat - 0x30, r) := by
  induction cs with
  | nil => exact hr.digits
  | cons c cs ih =>
      obtain ⟨hbytes, hdigit⟩ := digit?_of_isDigit (hcs c List.mem_cons_self)
      have hrest := ih fun d hd => hcs d (List.mem_cons_of_mem c hd)
      rw [encode_cons, hbytes]
      simp only [List.cons_append, List.nil_append, digits, hdigit, hrest, List.map_cons]

theorem isDigit_toDigits (n : Nat) : ∀ c ∈ Nat.toDigits 10 n, c.isDigit = true :=
  fun _ hc => Nat.isDigit_of_mem_toDigits (by decide) (by decide) hc

theorem wholePart?_written (n : Nat) {r : Bytes} (hr : Stops r) :
    wholePart? (encode (Nat.toDigits 10 n) ++ r) = some (decimal n, r) := by
  have hdigits : digits (encode (Nat.toDigits 10 n) ++ r) = (decimal n, r) := digits_encode (isDigit_toDigits n) hr
  rw [wholePart?, hdigits]
  rcases Nat.eq_zero_or_pos n with rfl | hpos
  · rfl
  · obtain ⟨d, ds, hds⟩ := decimal_head n hpos
    rw [hds]
    cases ds <;> rfl

/-- The first byte of a number's digits is a digit. -/
theorem toDigits_head (n : Nat) : ∃ (b : UInt8) (bs : Bytes), encode (Nat.toDigits 10 n) = b :: bs ∧ (digit? b).isSome := by
  cases hcs : Nat.toDigits 10 n with
  | nil => exact absurd hcs (Nat.toDigits_ne_nil)
  | cons c cs =>
      have hc : c.isDigit = true := isDigit_toDigits n c (hcs ▸ List.mem_cons_self)
      obtain ⟨hbytes, hdigit⟩ := digit?_of_isDigit hc
      exact ⟨_, encode cs, by rw [encode_cons, hbytes]; rfl, by rw [hdigit]; rfl⟩

theorem parts?_digits (n : Nat) {r : Bytes} (hr : Stops r) :
    parts? (encode (Nat.toDigits 10 n) ++ r) = some (⟨false, decimal n, [], none⟩, r) := by
  have hwhole := wholePart?_written n hr
  obtain ⟨b, bs, hbytes, hdigit⟩ := toDigits_head n
  have hsign : (b == 0x2D) = false := by
    refine beq_eq_false_iff_ne.mpr ?_
    rintro rfl
    exact absurd hdigit (by decide)
  rw [hbytes, List.cons_append] at hwhole ⊢
  simp only [parts?, hsign, Bool.false_eq_true, if_false, hwhole, hr.fraction?, hr.power?, Option.bind_eq_bind,
    Option.bind_some]

theorem parts?_minus (n : Nat) {r : Bytes} (hr : Stops r) :
    parts? (0x2D :: (encode (Nat.toDigits 10 n) ++ r)) = some (⟨true, decimal n, [], none⟩, r) := by
  simp only [parts?, beq_self_eq_true, if_true, wholePart?_written n hr, hr.fraction?, hr.power?, Option.bind_eq_bind,
    Option.bind_some]

/-- **A whole number of 64 bits is read back**, signed or not. -/
theorem number_written {n : Int} (hlow : -(twoTo 63 : Int) ≤ n) (hhigh : n < twoTo 64) {r : Bytes} (hr : Stops r) :
    ∃ p, parts? (encode (wholeChars n) ++ r) = some (p, r) ∧ p.value? = some (.whole n) := by
  cases n with
  | ofNat n =>
      have hfits : n < twoTo 64 := Int.ofNat_lt.mp hhigh
      refine ⟨_, parts?_digits n hr, ?_⟩
      simp [Parts.value?, takeSignificand_decimal hfits]
  | negSucc n =>
      have hle : n + 1 ≤ twoTo 63 := by omega
      have hfits : n + 1 < twoTo 64 := Nat.lt_of_le_of_lt hle (by decide)
      refine ⟨_, parts?_minus (n + 1) hr, ?_⟩
      have hnot : ¬ (n + 1 = 0 ∨ n + 1 > twoTo 63) := by omega
      simp only [Parts.value?, takeSignificand_decimal hfits, hnot, if_false]
      rfl

end Json
end MiningPool
