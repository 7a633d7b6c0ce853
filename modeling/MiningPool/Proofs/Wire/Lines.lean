import MiningPool.Wire.Framing
import MiningPool.Wire.Message

/-!
# A message is one line

What the writer puts down for a value holds no character below U+0020, whatever strings the value holds: those
that a string has are escaped, and nothing else it writes is one. So the only control byte of a message is
the line feed at its end, and messages that follow one another can be told apart again.
-/

namespace MiningPool

open Decimal Json

/-- Characters none of which is a control character below U+0020. -/
def Printable (cs : List Char) : Prop := ∀ c ∈ cs, 0x20 ≤ c.toNat

instance (cs : List Char) : Decidable (Printable cs) := List.decidableBAll _ cs

namespace Printable

theorem nil : Printable [] := fun _ h => absurd h List.not_mem_nil

theorem cons {c : Char} {cs : List Char} (hc : 0x20 ≤ c.toNat) (h : Printable cs) :
    Printable (c :: cs) := by
  intro d hd
  rcases List.mem_cons.mp hd with rfl | hd
  · exact hc
  · exact h d hd

theorem append {cs ds : List Char} (hc : Printable cs) (hd : Printable ds) : Printable (cs ++ ds) := by
  intro c h
  rcases List.mem_append.mp h with h | h
  · exact hc c h
  · exact hd c h

theorem of_subset {cs ds : List Char} (h : Printable ds) (hs : cs ⊆ ds) : Printable cs :=
  fun c hc => h c (hs hc)

theorem replicate_zero (n : Nat) : Printable (List.replicate n '0') := by
  intro c hc
  rw [List.eq_of_mem_replicate hc]
  decide

end Printable

/-! ## Numbers -/

namespace Json

theorem printable_digits (n : Nat) : Printable (Nat.toDigits 10 n) := by
  intro c hc
  have hd : c.isDigit = true := Nat.isDigit_of_mem_toDigits (by decide) (by decide) hc
  rw [Char.isDigit, Bool.and_eq_true, decide_eq_true_iff, ge_iff_le, UInt32.le_iff_toNat_le] at hd
  exact Nat.le_trans (by decide) hd.1

theorem printable_text (l : Layout) (d : Numeral) : Printable (l.text d) := by
  have hds := printable_digits d.digits
  unfold Layout.text
  dsimp only
  split
  · split
    · -- zeros between the point and the digits
      refine .append (.append ?_ (.replicate_zero _)) hds
      exact .cons (by decide) (.cons (by decide) .nil)
    · refine .append (.append (hds.of_subset (List.take_subset _ _)) (.replicate_zero _)) ?_
      refine .cons (by decide) ?_
      split
      · exact .cons (by decide) .nil
      · exact hds.of_subset (List.drop_subset _ _)
  · refine .append (.append (hds.of_subset (List.take_subset _ _)) ?_) ?_
    · split
      · exact .nil
      · exact .cons (by decide) (hds.of_subset (List.drop_subset _ _))
    · refine .cons (by decide) (.cons ?_ (printable_digits _))
      split <;> decide

theorem printable_null : Printable "null".toList := by decide

theorem printable_number (n : Number) : Printable n.chars := by
  cases n with
  | whole n =>
      cases n with
      | ofNat n => exact printable_digits n
      | negSucc n => exact .cons (by decide) (printable_digits _)
  | double x =>
      cases x with
      | finite negative m e =>
          refine .append ?_ (printable_text _ _)
          split
          · exact .cons (by decide) .nil
          · exact .nil
      | infinite negative => exact printable_null
      | nan => exact printable_null

/-! ## Strings and values -/

/-- A character is escaped if it has to be. -/
theorem printable_escape (c : Char) : Printable (escape c) := by
  -- the escapes with a letter are closed terms, only the one by number has a variable part
  have hdigit : ∀ d < 16, 0x20 ≤ (Nat.digitChar d).toNat := by decide
  unfold escape
  split
  · decide
  split
  · decide
  split
  · decide
  split
  · decide
  split
  · decide
  split
  · decide
  split
  · decide
  split
  · -- the other control characters, by their number
    rename_i hlt
    have hhigh : c.toNat / 16 < 16 := by omega
    have hlow : c.toNat % 16 < 16 := by omega
    have hprefix : Printable ['\\', 'u', '0', '0'] := by decide
    exact hprefix.append (.cons (hdigit _ hhigh) (.cons (hdigit _ hlow) .nil))
  · rename_i hge
    exact .cons (Nat.le_of_not_lt hge) .nil

theorem printable_quoted (cs : List Char) : Printable (quoted cs) := by
  refine .append (.cons (by decide) ?_) (by decide)
  intro c hc
  obtain ⟨d, _, hd⟩ := List.mem_flatMap.mp hc
  exact printable_escape d c hd

namespace Value

mutual

/-- **The text of a value holds no control character**, whatever strings the value holds. -/
theorem printable_chars : (v : Value) → Printable v.chars
  | .null => printable_null
  | .bool true => by decide
  | .bool false => by decide
  | .number n => printable_number n
  | .string s => printable_quoted s.toList
  | .array [] => by decide
  | .array (v :: vs) =>
    .append (.append (.cons (by decide) v.printable_chars) (printable_itemChars vs)) (by decide)
  | .object [] => by decide
  | .object ((k, v) :: fs) =>
    .append
      (.append
        (.append (.cons (by decide) (printable_quoted k.toList)) (.cons (by decide) v.printable_chars))
        (printable_fieldChars fs))
      (by decide)

theorem printable_itemChars : (vs : List Value) → Printable (itemChars vs)
  | [] => .nil
  | v :: vs => .append (.cons (by decide) v.printable_chars) (printable_itemChars vs)

theorem printable_fieldChars : (fs : List (String × Value)) → Printable (fieldChars fs)
  | [] => .nil
  | (k, v) :: fs =>
    .append
      (.append (.cons (by decide) (printable_quoted k.toList)) (.cons (by decide) v.printable_chars))
      (printable_fieldChars fs)

end

end Value
end Json

/-! ## Bytes -/

namespace Utf8

/-- A character that is no control character has no control byte. -/
theorem le_of_mem_encodeChar {c : Char} (hc : 0x20 ≤ c.toNat) {b : UInt8}
    (hb : b ∈ String.utf8EncodeChar c) : 0x20 ≤ b.toNat := by
  have hbyte : ∀ n, n < 256 → (UInt8.ofNat n).toNat = n := fun n h => Nat.mod_eq_of_lt h
  change 0x20 ≤ c.val.toNat at hc
  simp only [String.utf8EncodeChar] at hb
  split at hb
  · rw [List.mem_singleton] at hb
    rw [hb, hbyte _ (by omega)]
    exact hc
  · -- all bytes of a longer sequence are above the ASCII range
    split at hb
    · simp only [List.mem_cons, List.not_mem_nil, or_false] at hb
      rcases hb with rfl | rfl <;> rw [hbyte _ (by omega)] <;> omega
    · split at hb
      · simp only [List.mem_cons, List.not_mem_nil, or_false] at hb
        rcases hb with rfl | rfl | rfl <;> rw [hbyte _ (by omega)] <;> omega
      · simp only [List.mem_cons, List.not_mem_nil, or_false] at hb
        rcases hb with rfl | rfl | rfl | rfl <;> rw [hbyte _ (by omega)] <;> omega

theorem le_of_mem_encode {cs : List Char} (h : Printable cs) {b : UInt8} (hb : b ∈ encode cs) :
    0x20 ≤ b.toNat := by
  obtain ⟨c, hc, hb⟩ := List.mem_flatMap.mp hb
  exact le_of_mem_encodeChar (h c hc) hb

end Utf8

namespace Wire

/-- One whole line: no control byte but the line feed at its end. -/
def IsLine (bs : Bytes) : Prop := ∃ body, bs = body ++ [lineFeed] ∧ ∀ b ∈ body, 0x20 ≤ b.toNat

/-- **A message is one whole line.** -/
theorem isLine_bytes (m : Message) : IsLine m.bytes := by
  refine ⟨Utf8.encode m.toJson.chars, ?_, ?_⟩
  · rw [Message.bytes, lineBytes, lineChars, Utf8.encode, List.flatMap_append]
    rfl
  · exact fun b hb => Utf8.le_of_mem_encode m.toJson.printable_chars hb

end Wire
end MiningPool
